import ConsLisp.Proofs.Reference.Names
import ConsLisp.Proofs.Store.Lookup
import ConsLisp.Proofs.Store.Reverse
import Mathlib.Order.Defs.PartialOrder

/-!
# Cells and values that never change

A bridge says of each cell of a store what it stands for on the other side: the pair with an
identity, the variable with a number, a place in a list of variables or of frames, or the global
frame.  A cell without a use is a pair of a list that is not yet complete, or one of an evaluation
that was aborted, or it belongs to somebody else.  Under a bridge, a value of the store and a value
that never changes are the same or are not.

The other side may leave bindings out: spare ones, whose names no form asks for.  And it need not be
alone: others may use the same store and the same log.  Only where it is alone are the serial
numbers and the logs of both sides equal; otherwise the bridge says which serial numbers belong
together.

A bridge only grows: what a cell stands for, it stands for from then on.

Main statements: the comparison of two values comes out alike on both sides (`Same.eq_iff`), and so
does the search for a variable (`Agrees.binding?_eq`).
-/

namespace ConsLisp

/-- What a cell stands for. -/
inductive Use where
  | data (identity : Nat) (car cdr : Value)
  | binding (number : Nat) (name : Value)
  | spare (name : String)
  | spine (first rest : Value)
  | globals

/-- That by which a use is told from all others. -/
inductive Label where
  | identity (n : Nat)
  | number (n : Nat)
  | globals

/-- The label of a use.  Lists of variables and of frames have none: they are never compared. -/
def Use.label : Use → Option Label
  | data n _ _ => some (.identity n)
  | binding n _ => some (.number n)
  | globals => some .globals
  | spare _ | spine .. => none

/-- Has the label been given out? -/
def Label.Known (r : Reference.State) : Label → Prop
  | identity n => n < r.identities
  | number n => n < r.table.length
  | globals => True

/-- What never changes: the cell that holds the global frame, the names of bindings that may be
left out, the threshold of the log, and whether the store and the log are used by nobody else. -/
structure Terms where
  home : Nat
  hidden : Set String := ∅
  threshold : Level
  alone : Prop

/-- What the cells of a store stand for, and which serial numbers belong together, with the objects
that have them in the store. -/
structure Bridge extends Terms where
  use : Nat → Option Use
  object : Nat → Option (Nat × Value)

namespace Bridge

/-- What is known stays known. -/
instance : Preorder Bridge where
  le B B' := B.toTerms = B'.toTerms ∧ (∀ place u, B.use place = some u → B'.use place = some u) ∧
    ∀ n x, B.object n = some x → B'.object n = some x
  le_refl _ := ⟨rfl, fun _ _ h => h, fun _ _ h => h⟩
  le_trans _ _ _ h h' := ⟨h.1.trans h'.1, fun place u hu => h'.2.1 place u (h.2.1 place u hu),
    fun n x hx => h'.2.2 n x (h.2.2 n x hx)⟩

variable {B B' : Bridge}

theorem home_eq (hle : B ≤ B') : B.home = B'.home :=
  congrArg Terms.home hle.1

theorem hidden_eq (hle : B ≤ B') : B.hidden = B'.hidden :=
  congrArg Terms.hidden hle.1

/-- The value is a list of the variables with these numbers, and of spare bindings. -/
inductive Frame (B : Bridge) : Value → List Nat → Prop
  | nil : Frame B .nil []
  | cons {place binding number : Nat} {name rest : Value} {numbers : List Nat}
      (huse : B.use place = some (.spine (.pair binding) rest))
      (hbinding : B.use binding = some (.binding number name)) (hrest : Frame B rest numbers) :
      Frame B (.pair place) (number :: numbers)
  | skip {place binding : Nat} {name : String} {rest : Value} {numbers : List Nat}
      (huse : B.use place = some (.spine (.pair binding) rest))
      (hbinding : B.use binding = some (.spare name)) (hhidden : name ∈ B.hidden)
      (hrest : Frame B rest numbers) : Frame B (.pair place) numbers

/-- The value is an environment with these local frames, and frames of spare bindings. -/
inductive Scope (B : Bridge) : Value → List (List Nat) → Prop
  | globals : Scope B (.pair B.home) []
  | inner {place : Nat} {frame outer : Value} {numbers : List Nat} {frames : List (List Nat)}
      (huse : B.use place = some (.spine frame outer)) (hframe : B.Frame frame numbers)
      (houter : Scope B outer frames) : Scope B (.pair place) (numbers :: frames)
  | skip {place : Nat} {frame outer : Value} {frames : List (List Nat)}
      (huse : B.use place = some (.spine frame outer)) (hframe : B.Frame frame [])
      (houter : Scope B outer frames) : Scope B (.pair place) frames

/-- The two values are the same.  The body of a closure asks for no hidden name. -/
inductive Same (B : Bridge) : Value → Datum → Prop
  | nil : Same B .nil .nil
  | num (n : Int) : Same B (.num n) (.num n)
  | number {n : Int} {i j : Nat} (hobject : B.object i = some (j, .num n (some i))) :
      Same B (.num n (some i)) (.num n (some j))
  | sym (name : String) : Same B (.sym name) (.sym name)
  | error {n m : Nat} {fault : Fault} (hobject : B.object n = some (m, .error n fault)) :
      Same B (.error n fault) (.error m fault)
  | primitive {n m : Nat} {p : Primitive} {name : String}
      (hobject : B.object n = some (m, .primitive n p name)) :
      Same B (.primitive n p name) (.primitive m p name)
  | pair {place n : Nat} {a d : Value} {x y : Datum} (huse : B.use place = some (.data n a d))
      (hcar : Same B a x) (hcdr : Same B d y) : Same B (.pair place) (.pair n x y)
  | closure {n m : Nat} {params body env : Value} {x y : Datum} {frames : List (List Nat)}
      (hobject : B.object n = some (m, .closure n params body env)) (hparams : Same B params x)
      (hbody : Same B body y) (hasks : y.AllAvoid B.hidden) (henv : B.Scope env frames) :
      Same B (.closure n params body env) (.closure m x y frames)

theorem Frame.mono (hle : B ≤ B') {v : Value} {numbers : List Nat} (h : B.Frame v numbers) :
    B'.Frame v numbers := by
  induction h with
  | nil => exact .nil
  | cons huse hbinding _ ih => exact .cons (hle.2.1 _ _ huse) (hle.2.1 _ _ hbinding) ih
  | skip huse hbinding hhidden _ ih =>
    exact .skip (hle.2.1 _ _ huse) (hle.2.1 _ _ hbinding) (hidden_eq hle ▸ hhidden) ih

theorem Scope.mono (hle : B ≤ B') {v : Value} {frames : List (List Nat)} (h : B.Scope v frames) :
    B'.Scope v frames := by
  induction h with
  | globals =>
    rw [home_eq hle]
    exact .globals
  | inner huse hframe _ ih => exact .inner (hle.2.1 _ _ huse) (hframe.mono hle) ih
  | skip huse hframe _ ih => exact .skip (hle.2.1 _ _ huse) (hframe.mono hle) ih

theorem Same.mono (hle : B ≤ B') {v : Value} {x : Datum} (h : B.Same v x) : B'.Same v x := by
  induction h with
  | nil => exact .nil
  | num n => exact .num n
  | number hobject => exact .number (hle.2.2 _ _ hobject)
  | sym name => exact .sym name
  | error hobject => exact .error (hle.2.2 _ _ hobject)
  | primitive hobject => exact .primitive (hle.2.2 _ _ hobject)
  | pair huse _ _ ihcar ihcdr => exact .pair (hle.2.1 _ _ huse) ihcar ihcdr
  | closure hobject _ _ hasks henv ihparams ihbody =>
    exact .closure (hle.2.2 _ _ hobject) ihparams ihbody (hidden_eq hle ▸ hasks) (henv.mono hle)

/-- The fields of a cell are what its use says. -/
def Fits (B : Bridge) (r : Reference.State) (c : Cell) : Use → Prop
  | .data _ a d => c = ⟨a, d⟩
  | .binding n name => c.car = name ∧
      ∃ x, r.table[n]? = some x ∧ B.Same name x.name ∧ B.Same c.cdr x.value
  | .spare name => c.car = .sym name
  | .spine first rest => c = ⟨first, rest⟩
  | .globals => c.cdr = .nil ∧ B.Frame c.car r.globals

theorem Fits.mono (hle : B ≤ B') {r : Reference.State} {c : Cell} {u : Use}
    (h : B.Fits r c u) : B'.Fits r c u := by
  cases u with
  | binding =>
    obtain ⟨hcar, x, hx, hname, hvalue⟩ := h
    exact ⟨hcar, x, hx, hname.mono hle, hvalue.mono hle⟩
  | globals => exact ⟨h.1, h.2.mono hle⟩
  | _ => exact h

/-- The two states agree under the bridge. -/
structure Agrees (B : Bridge) (state : State) (r : Reference.State) : Prop where
  threshold : state.log.threshold = B.threshold ∧ r.log.threshold = B.threshold
  log (halone : B.alone) : state.log = r.log
  serial (halone : B.alone) : state.store.serial = r.serials
  home : B.use B.home = some .globals
  cell {place : Nat} {u : Use} (huse : B.use place = some u) :
    ∃ c, state.store.cell? (.pair place) = some c ∧ B.Fits r c u
  known {place : Nat} {u : Use} {label : Label} (huse : B.use place = some u)
    (hlabel : u.label = some label) : label.Known r
  unique {place place' : Nat} {u u' : Use} {label : Label} (huse : B.use place = some u)
    (huse' : B.use place' = some u') (hlabel : u.label = some label)
    (hlabel' : u'.label = some label) : place = place'
  object {n m : Nat} {v : Value} (hobject : B.object n = some (m, v)) :
    n < state.store.serial ∧ m < r.serials ∧ (B.alone → n = m)
  single {n n' m : Nat} {v v' : Value} (hobject : B.object n = some (m, v))
    (hobject' : B.object n' = some (m, v')) : n = n'

variable {state : State} {r : Reference.State}

/-! ## Cells -/

theorem Agrees.cell_data (h : B.Agrees state r) {place n : Nat} {a d : Value}
    (huse : B.use place = some (.data n a d)) :
    state.store.cell? (.pair place) = some ⟨a, d⟩ := by
  obtain ⟨c, hcell, rfl⟩ := h.cell huse
  exact hcell

theorem Agrees.cell_spine (h : B.Agrees state r) {place : Nat} {first rest : Value}
    (huse : B.use place = some (.spine first rest)) :
    state.store.cell? (.pair place) = some ⟨first, rest⟩ := by
  obtain ⟨c, hcell, rfl⟩ := h.cell huse
  exact hcell

theorem Agrees.cell_binding (h : B.Agrees state r) {place n : Nat} {name : Value}
    (huse : B.use place = some (.binding n name)) :
    ∃ value x, state.store.cell? (.pair place) = some ⟨name, value⟩ ∧ r.table[n]? = some x ∧
      B.Same name x.name ∧ B.Same value x.value := by
  obtain ⟨⟨car, cdr⟩, hcell, rfl, x, hx, hname, hvalue⟩ := h.cell huse
  exact ⟨cdr, x, hcell, hx, hname, hvalue⟩

theorem Agrees.cell_home (h : B.Agrees state r) :
    ∃ frame, state.store.cell? (.pair B.home) = some ⟨frame, .nil⟩ ∧ B.Frame frame r.globals := by
  obtain ⟨⟨car, cdr⟩, hcell, rfl, hframe⟩ := h.cell h.home
  exact ⟨car, hcell, hframe⟩

theorem Agrees.lt_size (h : B.Agrees state r) {place : Nat} {u : Use}
    (huse : B.use place = some u) : place < state.store.size := by
  obtain ⟨c, hcell, -⟩ := h.cell huse
  exact Store.lt_size_of_cell? hcell

/-- A cell behind all others has no use. -/
theorem Agrees.use_size (h : B.Agrees state r) {place : Nat} (hplace : state.store.size ≤ place) :
    B.use place = none := by
  cases huse : B.use place with
  | none => rfl
  | some u => exact absurd (h.lt_size huse) (Nat.not_lt.mpr hplace)

/-! ## Values -/

variable {v w : Value} {x y : Datum}

theorem Same.isError_eq (h : B.Same v x) : v.isError = x.isError := by
  cases h <;> rfl

theorem Same.num?_eq (h : B.Same v x) : v.num? = x.num? := by
  cases h <;> rfl

theorem Same.ofBool (B : Bridge) (b : Bool) : B.Same (.ofBool b) (.ofBool b) := by
  cases b
  · exact .nil
  · exact .sym "t"

theorem Same.special?_eq (h : B.Same v x) : v.special? = x.special? := by
  cases h <;> rfl

theorem Same.isPair_eq (h : B.Agrees state r) (hv : B.Same v x) :
    state.store.isPair v = x.isPair := by
  cases hv with
  | pair huse _ _ => simp [Store.isPair, h.cell_data huse, Datum.isPair]
  | _ => rfl

theorem Same.car (h : B.Agrees state r) (hv : B.Same v x) : B.Same (state.store.car v) x.car := by
  cases hv with
  | pair huse hcar _ => simpa [Store.car, h.cell_data huse, Datum.car] using hcar
  | _ => exact .nil

theorem Same.cdr (h : B.Agrees state r) (hv : B.Same v x) : B.Same (state.store.cdr v) x.cdr := by
  cases hv with
  | pair huse _ hcdr => simpa [Store.cdr, h.cell_data huse, Datum.cdr] using hcdr
  | _ => exact .nil

/-- Two objects are equal in the store just if their numbers on the other side are. -/
theorem Agrees.object_eq_iff (h : B.Agrees state r) {n n' m m' : Nat}
    (hobject : B.object n = some (m, v)) (hobject' : B.object n' = some (m', w))
    (hserial : v = w → n = n') : v = w ↔ m = m' := by
  constructor
  · intro heq
    obtain rfl := hserial heq
    exact congrArg Prod.fst (Option.some.inj (hobject.symm.trans hobject'))
  · rintro rfl
    obtain rfl := h.single hobject hobject'
    exact congrArg Prod.snd (Option.some.inj (hobject.symm.trans hobject'))

/-- Two values are equal in the store just if they are the same object on the other side. -/
theorem Same.eq_iff (h : B.Agrees state r) (hv : B.Same v x) (hw : B.Same w y) :
    v = w ↔ x.same y = true := by
  -- Atoms are compared as they stand; what has a number of its own, by that number.
  cases hv <;> cases hw <;> simp only [Datum.same, reduceCtorEq, Bool.false_eq_true,
    decide_eq_true_eq, Value.num.injEq, Value.sym.injEq, and_false, and_true]
  case number.number n i j hobject n' i' j' hobject' =>
    have hserial : Value.num n (some i) = .num n' (some i') → i = i' := fun heq =>
      Option.some.inj (Value.num.inj heq).2
    have hiff := h.object_eq_iff hobject hobject' hserial
    rw [Value.num.injEq] at hiff
    constructor
    · exact fun heq => ⟨heq.1, congrArg some (hiff.mp heq)⟩
    · exact fun heq => hiff.mpr (Option.some.inj heq.2)
  case error.error hobject _ _ _ hobject' =>
    exact h.object_eq_iff hobject hobject' fun heq => (Value.error.inj heq).1
  case primitive.primitive hobject _ _ _ _ hobject' =>
    exact h.object_eq_iff hobject hobject' fun heq => (Value.primitive.inj heq).1
  case closure.closure hobject _ _ _ _ _ _ _ _ _ _ _ _ hobject' _ _ _ _ =>
    exact h.object_eq_iff hobject hobject' fun heq => (Value.closure.inj heq).1
  case pair.pair huse _ _ _ _ _ _ _ _ huse' _ _ =>
    -- No two cells stand for pairs of one identity.
    constructor
    · intro heq
      rw [Value.pair.inj heq, huse'] at huse
      exact (Use.data.inj (Option.some.inj huse)).1.symm
    · rintro rfl
      rw [h.unique huse huse' rfl rfl]

/-- The primitive that compares two values gives the same on both sides. -/
theorem Same.isEq_eq (h : B.Agrees state r) (hv : B.Same v x) (hw : B.Same w y) :
    v.isEq w = x.isEq y := by
  have hsame : decide (v = w) = x.same y := by
    rw [Bool.eq_iff_iff, decide_eq_true_iff]
    exact hv.eq_iff h hw
  unfold Value.isEq Datum.isEq
  rw [hv.num?_eq, hw.num?_eq]
  cases x.num? with
  | none => exact hsame
  | some m =>
    cases y.num? with
    | none => exact hsame
    | some n => rfl

/-! ## Variables -/

/-- The value is the binding of the variable with this number. -/
def IsVariable (B : Bridge) (v : Value) (n : Nat) : Prop :=
  ∃ place name, v = .pair place ∧ B.use place = some (.binding n name)

/-- The bindings are those of the variables with these numbers, and spare ones between them. -/
inductive Variables (B : Bridge) : List Value → List Nat → Prop
  | nil : Variables B [] []
  | cons {v : Value} {n : Nat} {bindings : List Value} {numbers : List Nat}
      (hv : B.IsVariable v n) (hrest : Variables B bindings numbers) :
      Variables B (v :: bindings) (n :: numbers)
  | skip {place : Nat} {name : String} {bindings : List Value} {numbers : List Nat}
      (huse : B.use place = some (.spare name)) (hhidden : name ∈ B.hidden)
      (hrest : Variables B bindings numbers) : Variables B (.pair place :: bindings) numbers

theorem Variables.append {bindings bindings' : List Value} {numbers numbers' : List Nat}
    (h : B.Variables bindings numbers) (h' : B.Variables bindings' numbers') :
    B.Variables (bindings ++ bindings') (numbers ++ numbers') := by
  induction h with
  | nil => exact h'
  | cons hv _ ih => exact .cons hv ih
  | skip huse hhidden _ ih => exact .skip huse hhidden ih

/-- Where no name is hidden, the bindings are those of the variables and no others. -/
theorem Variables.forall₂ {bindings : List Value} {numbers : List Nat}
    (h : B.Variables bindings numbers) (hnone : B.hidden = ∅) :
    List.Forall₂ B.IsVariable bindings numbers := by
  induction h with
  | nil => exact .nil
  | cons hv _ ih => exact .cons hv ih
  | skip _ hhidden =>
    rw [hnone] at hhidden
    exact hhidden.elim

/-- A frame lists the bindings of its variables. -/
theorem Frame.lists (h : B.Agrees state r) {frame : Value} {numbers : List Nat}
    (hframe : B.Frame frame numbers) :
    ∃ bindings, state.store.Lists frame bindings ∧ B.Variables bindings numbers := by
  induction hframe with
  | nil => exact ⟨[], ⟨[], .nil, .done rfl⟩, .nil⟩
  | cons huse hbinding _ ih =>
    obtain ⟨bindings, ⟨places, tail, hlinks⟩, hvariables⟩ := ih
    refine ⟨_, ⟨_, tail, .next (h.cell_spine huse) hlinks⟩, .cons ?_ hvariables⟩
    exact ⟨_, _, rfl, hbinding⟩
  | skip huse hbinding hhidden _ ih =>
    obtain ⟨bindings, ⟨places, tail, hlinks⟩, hvariables⟩ := ih
    exact ⟨_, ⟨_, tail, .next (h.cell_spine huse) hlinks⟩, .skip hbinding hhidden hvariables⟩

/-- An environment lists its frames, the global one last. -/
theorem Scope.links (h : B.Agrees state r) {env : Value} {frames : List (List Nat)}
    (henv : B.Scope env frames) :
    ∃ places values lists, state.store.Links env (places ++ [B.home]) values .nil ∧
      List.Forall₂ state.store.Lists values lists ∧
      B.Variables lists.flatten (frames.flatten ++ r.globals) := by
  induction henv with
  | globals =>
    -- Without local frames, the environment is the cell of the global one.
    obtain ⟨frame, hcell, hframe⟩ := h.cell_home
    obtain ⟨bindings, hlists, hvariables⟩ := hframe.lists h
    refine ⟨[], [frame], [bindings], .next hcell (.done rfl), .cons hlists .nil, ?_⟩
    simpa using hvariables
  | inner huse hframe _ ih =>
    obtain ⟨places, values, lists, hlinks, hlists, hvariables⟩ := ih
    obtain ⟨bindings, hfirst, hnumbers⟩ := hframe.lists h
    refine ⟨_ :: places, _, bindings :: lists, .next (h.cell_spine huse) hlinks,
      .cons hfirst hlists, ?_⟩
    rw [List.flatten_cons, List.flatten_cons, List.append_assoc]
    exact hnumbers.append hvariables
  | skip huse hframe _ ih =>
    obtain ⟨places, values, lists, hlinks, hlists, hvariables⟩ := ih
    obtain ⟨bindings, hfirst, hnumbers⟩ := hframe.lists h
    refine ⟨_ :: places, _, bindings :: lists, .next (h.cell_spine huse) hlinks,
      .cons hfirst hlists, ?_⟩
    rw [List.flatten_cons]
    exact hnumbers.append hvariables

/-- The last cell of an environment holds the global frame. -/
theorem Scope.globalOf_eq (h : B.Agrees state r) {env : Value} {frames : List (List Nat)}
    (henv : B.Scope env frames) : state.store.globalOf env = .ok (.pair B.home) := by
  obtain ⟨places, values, lists, hlinks, -⟩ := henv.links h
  cases places with
  | nil => exact hlinks.last_eq
  | cons place places =>
    rw [Store.globalOf, hlinks.last_eq]
    simp

/-- A binding has the name just if its variable has. -/
theorem Agrees.bindingAt_eq (h : B.Agrees state r) {name : Value} (hname : B.Same name x)
    {n : Nat} (hv : B.IsVariable v n) :
    state.store.bindingAt name v =
      if (r.table[n]?).any (·.name.same x) then some v else none := by
  obtain ⟨place, other, rfl, huse⟩ := hv
  obtain ⟨value, z, hcell, hz, hother, -⟩ := h.cell_binding huse
  have hiff := hother.eq_iff h hname
  unfold Store.bindingAt
  rw [hcell, hz, Option.any_some]
  by_cases heq : other = name
  · simp [heq, hiff.mp heq]
  · simp [heq, mt hiff.mpr heq]

/-- A spare binding has no name that is asked for. -/
theorem Agrees.bindingAt_spare (h : B.Agrees state r) {name : Value} (hname : B.Same name x)
    (hasked : x.Avoids B.hidden) {place : Nat} {other : String}
    (huse : B.use place = some (.spare other)) (hhidden : other ∈ B.hidden) :
    state.store.bindingAt name (.pair place) = none := by
  obtain ⟨⟨car, cdr⟩, hcell, rfl⟩ := h.cell huse
  have hne : (.sym other : Value) ≠ name := by
    rintro rfl
    cases hname
    exact hasked hhidden
  simp [Store.bindingAt, hcell, hne]

/-- A variable is found on both sides or on neither, and then it is the same one. -/
theorem Agrees.findSome?_eq (h : B.Agrees state r) {name : Value} (hname : B.Same name x)
    (hasked : x.Avoids B.hidden) {bindings : List Value} {numbers : List Nat}
    (hvariables : B.Variables bindings numbers) :
    Option.Rel B.IsVariable (bindings.findSome? (state.store.bindingAt name))
      (numbers.find? fun n => (r.table[n]?).any (·.name.same x)) := by
  induction hvariables with
  | nil => exact .none
  | @cons v n _ _ hv _ ih =>
    rw [List.findSome?_cons, List.find?_cons, h.bindingAt_eq hname hv]
    cases (r.table[n]?).any (·.name.same x) with
    | true => exact .some hv
    | false => exact ih
  | skip huse hhidden _ ih =>
    rw [List.findSome?_cons, h.bindingAt_spare hname hasked huse hhidden]
    exact ih

/-- The first variable of a name that may be asked for is the same on both sides. -/
theorem Agrees.binding?_eq (h : B.Agrees state r) {env name : Value} {frames : List (List Nat)}
    (henv : B.Scope env frames) (hname : B.Same name x) (hasked : x.Avoids B.hidden) :
    ∃ found, state.store.binding? name env = .ok found ∧
      Option.Rel B.IsVariable found (r.find x frames) := by
  obtain ⟨places, values, lists, hlinks, hlists, hvariables⟩ := henv.links h
  exact ⟨_, Store.binding?_of_links hlinks hlists name, h.findSome?_eq hname hasked hvariables⟩

/-- A binding holds the value of its variable. -/
theorem Agrees.valueOf (h : B.Agrees state r) {n : Nat} (hv : B.IsVariable v n) :
    B.Same (state.store.cdr v) (r.valueOf n) := by
  obtain ⟨place, name, rfl, huse⟩ := hv
  obtain ⟨value, z, hcell, hz, -, hvalue⟩ := h.cell_binding huse
  simpa [Store.cdr, hcell, Reference.State.valueOf, hz] using hvalue

/-- The value of a name that may be asked for is the same on both sides. -/
theorem Agrees.value?_eq (h : B.Agrees state r) {env name : Value} {frames : List (List Nat)}
    (henv : B.Scope env frames) (hname : B.Same name x) (hasked : x.Avoids B.hidden) :
    ∃ found, state.store.value? name env = .ok found ∧
      Option.Rel B.Same found ((r.find x frames).map r.valueOf) := by
  obtain ⟨found, hbinding, hrel⟩ := h.binding?_eq henv hname hasked
  refine ⟨found.map state.store.cdr, ?_, ?_⟩
  · rw [Store.value?, hbinding]
    rfl
  · generalize r.find x frames = number at hrel ⊢
    cases hrel with
    | some hv => exact .some (h.valueOf hv)
    | none => exact .none

end Bridge

end ConsLisp
