import ConsLisp.Machine

/-!
# Actions

Small programs over a machine: single changes, reversal in place, and the builders of
lists.  They are run by the machine `Action`, whose steps read and change a state, the
store and the log, and give an answer or an abort.  An abort keeps the state it was
raised in.
-/

namespace ConsLisp

/-- What a session keeps between its lines. -/
structure State where
  store : Store := {}
  log : Log := {}
  deriving Repr

instance : Inhabited State := ⟨{}⟩

/-- A step of a session: an answer or an abort, and the state afterwards. -/
abbrev Action := EStateM Abort State

namespace Action

/-- A change of the store with an answer. -/
@[inline] def change {α : Type} (f : Store → α × Store) : Action α := fun ⟨store, log⟩ =>
  match f store with
  | (a, store) => .ok a ⟨store, log⟩

/-- The machine that runs programs: nested calls are made and not recorded. -/
instance : Machine Action where
  look f := fun state => .ok (f state.store) state
  change c := change c.perform
  note event := fun ⟨store, log⟩ => .ok () ⟨store, log.note event⟩
  keeps level := fun state => .ok (state.log.keeps level) state
  nested _ _ body := body

variable {m : Type → Type} [Machine m]

/-- An answer read off the store, or an abort. -/
@[inline] def ask {α : Type} (f : Store → Except Abort α) : m α := do
  match ← Machine.look f with
  | .ok a => return a
  | .error abort => throw abort

/-- The first field of a pair; `nil` for an atom. -/
@[inline] def car (v : Value) : m Value :=
  Machine.look (·.car v)

/-- The second field of a pair; `nil` for an atom. -/
@[inline] def cdr (v : Value) : m Value :=
  Machine.look (·.cdr v)

/-- A new pair. -/
@[inline] def cons (a d : Value) : m Value :=
  Machine.change (.cons a d)

/-- Overwrites the first field of a pair. -/
@[inline] def setCar (v a : Value) : m Unit := do
  let _ ← Machine.change (.setCar v a)

/-- Overwrites the second field of a pair. -/
@[inline] def setCdr (v d : Value) : m Unit := do
  let _ ← Machine.change (.setCdr v d)

/-- A new error value. -/
@[inline] def fail (fault : Fault) : m Value :=
  Machine.change (.error fault)

/-- The number of cells, which bounds the walk along any chain. -/
@[inline] def size : m Nat :=
  Machine.look (·.size)

/-- Turns the chain of `rest` back in front of `done`, for at most `fuel` pairs.  The
walk may meet a pair whose field it has already turned: it then walks back over the stem
and ends, so twice the number of cells bounds the steps on every store, cyclic ones
included. -/
@[specialize] def reverseOnto : Nat → Value → Value → m Value
  | fuel, done, rest => do
    match ← Machine.look (·.cell? rest) with
    | none => return done
    | some c =>
      match fuel with
      | 0 => throw .endless
      | fuel + 1 => do
        setCdr rest done
        reverseOnto fuel rest c.cdr

/-- Reverses the chain of a value in place; the atom that ends it is dropped. -/
@[specialize] def reverse (v : Value) : m Value := do
  reverseOnto (2 * (← size)) .nil v

/-- Pairs up two chains in front of `done`, which is then reversed.  Ends with the
shorter chain. -/
@[specialize] def zipOnto : Nat → Value → Value → Value → m Value
  | fuel, done, keys, values => do
    match ← Machine.look (·.cell? keys), ← Machine.look (·.cell? values) with
    | some key, some value =>
      match fuel with
      | 0 => throw .endless
      | fuel + 1 => do
        let binding ← cons key.car value.car
        let done ← cons binding done
        zipOnto fuel done key.cdr value.cdr
    | _, _ => reverse done

/-- The list of pairs of the elements of two chains. -/
@[specialize] def zip (keys values : Value) : m Value := do
  zipOnto (← size) .nil keys values

/-- A new list of the given elements. -/
@[specialize] def listOf (elements : List Value) : m Value := do
  let reversed ← elements.foldlM (fun done element => cons element done) .nil
  reverse reversed

/-- A new list of the given elements, with `tail` attached at its end. -/
@[specialize] def listBefore (elements : List Value) (tail : Value) : m Value := do
  let head ← listOf elements
  if tail = .nil then
    return head
  else if head = .nil then
    return tail
  else
    -- The tail is attached as it is; none of its cells is copied.
    let last ← ask (·.last head)
    setCdr last tail
    return head

end Action

end ConsLisp
