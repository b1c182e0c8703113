import ConsLisp.Proofs.Programs

/-!
# Chronicles

A watched session runs the same programs as any other and writes down every moment: each
elementary change of the store, each nested call and its answer, the beginning and the end of
each line.  With a moment stand the store before it and the calls in progress, so a statement
about all moments speaks about every point of every evaluation, however it ends.

Main statement: watching changes nothing (`session_eq_evalAll`): the results and the state of a
watched session are those of the session.
-/

namespace ConsLisp

/-- A nested call in progress, with the store that it began in. -/
structure Caller where
  call : Call
  store : Store

/-- What happens in a session. -/
inductive Deed where
  | line (text : List Char)
  | call (call : Call)
  | change (change : Change)
  | answer (call : Call) (value : Value)
  | ended (result : Except Abort Value)

/-- The store after a deed. -/
def Deed.after : Deed → Store → Store
  | change d, s => (d.perform s).2
  | _, s => s

/-- A deed, with the calls in progress, innermost first, and the store before it. -/
structure Moment where
  callers : List Caller
  store : Store
  deed : Deed

/-- The store after these moments, newest first, that began with the first store. -/
def Moment.storeAfter (first : Store) : List Moment → Store
  | [] => first
  | m :: _ => m.deed.after m.store

/-- The state of a watched session, and its moments so far, newest first. -/
structure Chronicle where
  state : State
  moments : List Moment

namespace Chronicle

/-- The chronicle with one more moment. -/
def record (c : Chronicle) (callers : List Caller) (deed : Deed) : Chronicle :=
  { c with moments := ⟨callers, c.state.store, deed⟩ :: c.moments }

@[simp] theorem state_record (c : Chronicle) (callers : List Caller) (deed : Deed) :
    (c.record callers deed).state = c.state := rfl

/-- The chronicle with another store. -/
def withStore (c : Chronicle) (store : Store) : Chronicle :=
  { c with state := { c.state with store } }

end Chronicle

/-- A step of a watched session, below the calls in progress. -/
abbrev Watched := ReaderT (List Caller) (EStateM Abort Chronicle)

/-- The chronicle after a run. -/
def Watched.after {α : Type} : EStateM.Result Abort Chronicle α → Chronicle
  | .ok _ c => c
  | .error _ c => c

/-- The machine that writes down what it does. -/
instance : Machine Watched where
  look f := fun _ c => .ok (f c.state.store) c
  change d := fun callers c =>
    match d.perform c.state.store with
    | (v, store) => .ok v ((c.record callers (.change d)).withStore store)
  note event := fun _ c => .ok () { c with state.log := c.state.log.note event }
  keeps level := fun _ c => .ok (c.state.log.keeps level) c
  nested call value body := fun callers c =>
    match body (⟨call, c.state.store⟩ :: callers) (c.record callers (.call call)) with
    | .ok a c' => .ok a (c'.record callers (.answer call (value a)))
    | .error abort c' => .error abort c'

/-- The watched program does to the state what the program does. -/
structure Watches {α : Type} (a : Watched α) (b : Action α) : Prop where
  run (callers : List Caller) (c : Chronicle) :
    match a callers c with
    | .ok x c' => b c.state = .ok x c'.state
    | .error abort c' => b c.state = .error abort c'.state

namespace Watches

variable {α β : Type}

theorem pure (x : α) : Watches (Pure.pure x) (Pure.pure x) :=
  ⟨fun _ _ => rfl⟩

theorem throw (abort : Abort) :
    Watches (MonadExcept.throw abort : Watched α) (MonadExcept.throw abort) :=
  ⟨fun _ _ => rfl⟩

theorem bind {a : Watched α} {b : Action α} {f : α → Watched β} {g : α → Action β}
    (ha : Watches a b) (hf : ∀ x, Watches (f x) (g x)) : Watches (a >>= f) (b >>= g) := by
  refine ⟨fun callers c => ?_⟩
  have hac := ha.run callers c
  simp only [Bind.bind, ReaderT.bind, EStateM.bind]
  cases hrun : a callers c with
  | ok x c' =>
    -- Both answer alike, so the second programs are the ones for the same answer.
    simp only [hrun] at hac
    rw [hac]
    exact (hf x).run callers c'
  | error abort c' =>
    simp only [hrun] at hac
    rw [hac]

theorem look (f : Store → α) : Watches (Machine.look f) (Machine.look f) :=
  ⟨fun _ _ => rfl⟩

theorem change (d : Change) : Watches (Machine.change d) (Machine.change d) :=
  ⟨fun _ _ => rfl⟩

theorem note (event : Event) : Watches (Machine.note event) (Machine.note event) :=
  ⟨fun _ _ => rfl⟩

theorem keeps (level : Level) : Watches (Machine.keeps level) (Machine.keeps level) :=
  ⟨fun _ _ => rfl⟩

theorem nested (call : Call) (value : α → Value) {a : Watched α} {b : Action α}
    (ha : Watches a b) : Watches (Machine.nested call value a) (Machine.nested call value b) := by
  refine ⟨fun callers c => ?_⟩
  -- A moment that is written down leaves the state as it is.
  have hac := ha.run (⟨call, c.state.store⟩ :: callers) (c.record callers (.call call))
  simp only [Machine.nested]
  cases hrun : a (⟨call, c.state.store⟩ :: callers) (c.record callers (.call call)) with
  | ok x c' => simpa only [hrun, Chronicle.state_record] using hac
  | error abort c' => simpa only [hrun, Chronicle.state_record] using hac

/-- Watching is kept by the steps of which programs are made. -/
def relation : Machine.Relation Watched Action where
  Rel := Watches
  pure := pure
  throw := throw
  bind := bind
  look := look
  change := change
  note := note
  keeps := keeps
  nested := nested

theorem evalLine (limit : Nat) (env : Value) (line : List Char) :
    Watches (Action.evalLine limit env line) (Action.evalLine limit env line) :=
  relation.evalLine (relation.reading_self limit) (relation.evaluation_self limit) env line

end Watches

/-! ## Sessions -/

/-- The results of lines, and the interpreter after them. -/
def Interpreter.evalAll (limit : Nat) :
    List (List Char) → Interpreter → List (Except Abort Value) × Interpreter
  | [], i => ([], i)
  | line :: rest, i =>
    let (result, i) := i.eval limit line
    let (results, i) := i.evalAll limit rest
    (result :: results, i)

namespace Chronicle

/-- A line of a watched session. -/
def line (limit : Nat) (globals : Value) (text : List Char) (c : Chronicle) :
    Except Abort Value × Chronicle :=
  match (Action.evalLine limit globals text : Watched Value) [] (c.record [] (.line text)) with
  | .ok v c => (.ok v, c.record [] (.ended (.ok v)))
  | .error abort c => (.error abort, c.record [] (.ended (.error abort)))

/-- Lines of a watched session, with their results. -/
def lines (limit : Nat) (globals : Value) :
    List (List Char) → Chronicle → List (Except Abort Value) × Chronicle
  | [], c => ([], c)
  | text :: rest, c =>
    let (result, c) := c.line limit globals text
    let (results, c) := c.lines limit globals rest
    (result :: results, c)

/-- A watched session of a new interpreter, with the results of its lines. -/
def session (log : Log) (limit : Nat) (texts : List (List Char)) :
    List (Except Abort Value) × Chronicle :=
  let i := Interpreter.new log
  lines limit i.globals texts ⟨i.state, []⟩

theorem line_eq_eval (limit : Nat) (text : List Char) (i : Interpreter)
    (moments : List Moment) :
    (line limit i.globals text ⟨i.state, moments⟩).1 = (i.eval limit text).1 ∧
      (line limit i.globals text ⟨i.state, moments⟩).2.state = (i.eval limit text).2.state := by
  obtain ⟨state, globals, initial⟩ := i
  have hwatch := (Watches.evalLine limit globals text).run []
    (record ⟨state, moments⟩ [] (.line text))
  unfold line Interpreter.eval Interpreter.perform
  cases hrun : (Action.evalLine limit globals text : Watched Value) []
      (record ⟨state, moments⟩ [] (.line text)) with
  | ok v c =>
    simp only [hrun, state_record] at hwatch
    simp [hwatch]
  | error abort c =>
    simp only [hrun, state_record] at hwatch
    simp [hwatch]

theorem globals_eval (limit : Nat) (text : List Char) (i : Interpreter) :
    (i.eval limit text).2.globals = i.globals := by
  obtain ⟨state, globals, initial⟩ := i
  unfold Interpreter.eval Interpreter.perform
  cases hrun : (Action.evalLine limit globals text : Action Value) state <;> simp [hrun]

theorem lines_eq_evalAll (limit : Nat) (texts : List (List Char)) (i : Interpreter)
    (moments : List Moment) :
    (lines limit i.globals texts ⟨i.state, moments⟩).1 = (i.evalAll limit texts).1 ∧
      (lines limit i.globals texts ⟨i.state, moments⟩).2.state =
        (i.evalAll limit texts).2.state := by
  induction texts generalizing i moments with
  | nil => exact ⟨rfl, rfl⟩
  | cons text texts ih =>
    -- The next line begins in the same state on both sides.
    obtain ⟨hresult, hstate⟩ := line_eq_eval limit text i moments
    have hrest := ih (i.eval limit text).2 (line limit i.globals text ⟨i.state, moments⟩).2.moments
    rw [globals_eval, ← hstate] at hrest
    exact ⟨List.cons_eq_cons.mpr ⟨hresult, hrest.1⟩, hrest.2⟩

/-- Watching changes neither the results of a session nor its state. -/
theorem session_eq_evalAll (log : Log) (limit : Nat) (texts : List (List Char)) :
    (session log limit texts).1 = ((Interpreter.new log).evalAll limit texts).1 ∧
      (session log limit texts).2.state =
        ((Interpreter.new log).evalAll limit texts).2.state :=
  lines_eq_evalAll limit texts (.new log) []

end Chronicle

end ConsLisp
