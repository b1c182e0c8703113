import ConsLisp.Proofs.Reference.Reading

/-!
# Two interpreters with the same answers

New interpreters agree, a line that matches leaves them in agreement whether it answers or aborts,
and so does a session.  In the end the global frames hold the same names, and values that print
alike, in the same order.  A new interpreter may be made in a store that others use, and a line may
be read by an interpreter with spare bindings, if it asks for none of them.

Main statements: `Joins.evalPrint` for a line, `joins_newIn` for a new interpreter, and
`session_agrees` for a session.
-/

namespace ConsLisp

/-- The printed results of lines, and the interpreter after them. -/
def Interpreter.evalPrintAll (limit : Nat) :
    List (List Char) → Interpreter → List (Except Abort String) × Interpreter
  | [], i => ([], i)
  | line :: rest, i =>
    let (result, i) := i.evalPrint limit line
    let (results, i) := i.evalPrintAll limit rest
    (result :: results, i)

/-- In the store the binding has the name and the value of the variable, as trees and in print. -/
structure Binding.Shows (s : Store) (b : Binding) (x : Reference.Variable) : Prop where
  name : s.Shows b.name x.name
  value : s.Shows b.value x.value
  printName (depth : Nat) : s.print depth b.name = x.name.print depth
  printValue (depth : Nat) : s.print depth b.value = x.value.print depth

namespace Reference

/-- No form that is read from the text asks for one of these names. -/
def Avoids (names : Set String) (text : List Char) : Prop :=
  ∀ depth r form rest r', read depth text r = .ok (form, rest) r' → form.Avoids names

theorem avoids_empty (text : List Char) : Avoids ∅ text :=
  fun _ _ form _ _ _ => (Datum.avoids_empty form).1

end Reference

namespace Bridge

variable {B : Bridge} {state : State} {s : Store} {log : Log} {r : Reference.State}

/-! ## Lines -/

/-- The first form of a line has the same value on both sides. -/
theorem Matches.evalPrint (h : B.Agrees state r) (limit : Nat) {line : List Char}
    (hline : Reference.Avoids B.hidden line) :
    Matches [] B (Action.evalPrint limit (.pair B.home) line) (Reference.evalPrint limit line)
      (fun _ x y => x = y) state r := by
  unfold Action.evalPrint Action.evalLine Reference.evalPrint
  rw [bind_assoc]
  apply bind ((reading limit).1 line h).answered
  rintro B₁ state₁ r₁ ⟨form, rest⟩ ⟨form', rest'⟩ hevolves₁ h₁ ⟨⟨hform, -⟩, r', hread⟩
  have henv : B₁.Scope (.pair B.home) [] := Scope.globals.mono hevolves₁.le
  have hasks : form'.Avoids B₁.hidden := hidden_eq hevolves₁.le ▸ hline _ _ _ _ _ hread
  apply bind ((evaluation limit).evaluate h₁ hform hasks henv)
  intro B₂ state₂ r₂ value value' _ h₂ hvalue
  exact print h₂ hvalue limit

/-- The interpreter's state agrees with the other one, and its environment is the global one. -/
structure Joins (B : Bridge) (i : Interpreter) (r : Reference.State) : Prop where
  globals : i.globals = .pair B.home
  agrees : B.Agrees i.state r

/-- A line has the same printed result on both sides. -/
theorem Joins.evalPrint {i : Interpreter} (h : B.Joins i r) (limit : Nat) {line : List Char}
    (hline : Reference.Avoids B.hidden line) :
    (i.evalPrint limit line).1 = (Reference.perform (Reference.evalPrint limit line) r).1 ∧
      ∃ B' : Bridge, Evolves [] B B' i.state.store (i.evalPrint limit line).2.state.store ∧
        B'.Joins (i.evalPrint limit line).2
          (Reference.perform (Reference.evalPrint limit line) r).2 := by
  obtain ⟨state, globals, initial⟩ := i
  obtain ⟨rfl, hagrees⟩ := h
  have hmatch := Matches.evalPrint hagrees limit hline
  unfold Matches at hmatch
  unfold Interpreter.evalPrint Interpreter.perform Reference.perform
  cases hrun : (Action.evalPrint limit (.pair B.home) line : Action String) state with
  | ok text state' =>
    cases hrun' : Reference.evalPrint limit line r with
    | ok text' r' =>
      simp only [hrun, hrun'] at hmatch ⊢
      obtain ⟨B', hevolves, hagrees', rfl⟩ := hmatch
      exact ⟨rfl, B', hevolves, congrArg Value.pair (home_eq hevolves.le), hagrees'⟩
    | error reason r' => simp [hrun, hrun'] at hmatch
  | error reason state' =>
    cases hrun' : Reference.evalPrint limit line r with
    | ok text r' => simp [hrun, hrun'] at hmatch
    | error reason' r' =>
      simp only [hrun, hrun'] at hmatch ⊢
      obtain ⟨rfl, B', hevolves, hagrees'⟩ := hmatch
      exact ⟨rfl, B', hevolves, congrArg Value.pair (home_eq hevolves.le), hagrees'⟩

/-- Lines have the same printed results on both sides. -/
theorem Joins.evalPrintAll {i : Interpreter} (h : B.Joins i r) (limit : Nat)
    {lines : List (List Char)} (hlines : ∀ line ∈ lines, Reference.Avoids B.hidden line) :
    (i.evalPrintAll limit lines).1 = (Reference.evalPrintAll limit lines r).1 ∧
      ∃ B' : Bridge, B ≤ B' ∧ B'.Joins (i.evalPrintAll limit lines).2
        (Reference.evalPrintAll limit lines r).2 := by
  induction lines generalizing B i r with
  | nil => exact ⟨rfl, B, le_refl B, h⟩
  | cons line lines ih =>
    -- After an abort the states agree as they do after an answer, so the next line may go on.
    obtain ⟨hresult, B₁, hevolves, hjoins⟩ := h.evalPrint limit (hlines line List.mem_cons_self)
    obtain ⟨hresults, B₂, hle, hjoins'⟩ := ih hjoins fun line' hmem =>
      hidden_eq hevolves.le ▸ hlines line' (List.mem_cons_of_mem line hmem)
    exact ⟨List.cons_eq_cons.mpr ⟨hresult, hresults⟩, B₂, le_trans hevolves.le hle, hjoins'⟩

/-! ## New interpreters -/

/-- The bridge under which no cell has a use. -/
def blank (terms : Terms) : Bridge where
  toTerms := terms
  use _ := none
  object _ := none

/-- The bridge of a store in which the cell of an empty global frame has been made. -/
def first (terms : Terms) : Bridge :=
  (blank terms).adopt terms.home .globals

theorem first_agrees (terms : Terms) {log' : Log}
    (hhome : s.cell? (.pair terms.home) = some ⟨.nil, .nil⟩)
    (hthreshold : log.threshold = terms.threshold ∧ log'.threshold = terms.threshold)
    (halone : terms.alone → log = log' ∧ s.serial = 0) :
    (first terms).Agrees ⟨s, log⟩ { log := log' } := by
  have hplace : ∀ {place u}, (first terms).use place = some u →
      place = terms.home ∧ u = .globals := by
    intro place u huse
    by_cases heq : place = terms.home
    · subst heq
      rw [first, use_adopt_self] at huse
      exact ⟨rfl, (Option.some.inj huse).symm⟩
    · rw [first, use_adopt_of_ne heq] at huse
      simp [blank] at huse
  constructor
  case threshold => exact hthreshold
  case log => exact fun h => (halone h).1
  case serial => exact fun h => (halone h).2
  case home => exact use_adopt_self ..
  case cell =>
    intro place u huse
    obtain ⟨rfl, rfl⟩ := hplace huse
    exact ⟨⟨.nil, .nil⟩, hhome, rfl, .nil⟩
  case known =>
    intro place u label huse hlabel
    obtain ⟨rfl, rfl⟩ := hplace huse
    obtain rfl := Option.some.inj hlabel
    trivial
  case unique =>
    intro place place' u u' label huse huse' _ _
    exact (hplace huse).1.trans (hplace huse').1.symm
  case object => exact nofun
  case single => exact nofun

theorem Agrees.definePrimitives (h : B.Agrees ⟨s, log⟩ r) (primitives : List Primitive) :
    ∃ B' : Bridge, Evolves [] B B' s
        (primitives.foldl (fun s p => s.definePrimitive (.pair B.home) p) s) ∧
      B'.Agrees ⟨primitives.foldl (fun s p => s.definePrimitive (.pair B.home) p) s, log⟩
        (primitives.foldl Reference.State.definePrimitive r) := by
  induction primitives generalizing B s r with
  | nil => exact ⟨B, .refl [] B s, h⟩
  | cons p primitives ih =>
    have hvalue : (B.register s.serial r.serials (.primitive s.serial p p.name)).Same
        (.primitive s.serial p p.name) (.primitive r.serials p p.name) :=
      .primitive (object_register_self ..)
    have hregister : Evolves [] B _ s { s with serial := s.serial + 1 } :=
      Matches.evolves_register h (.primitive s.serial p p.name)
    obtain ⟨B₁, hevolves₁, hdefined⟩ := (h.register _).define (.sym p.name) hvalue
    obtain ⟨B₂, hevolves₂, hagrees⟩ := ih hdefined
    have hname : Value.ofName p.name = .sym p.name := by
      cases p <;> decide
    have hdefine : s.definePrimitive (.pair B.home) p =
        { s with serial := s.serial + 1 }.define (.sym p.name) (.primitive s.serial p p.name)
          (.pair B.home) := by
      rw [← hname]
      rfl
    have hhome : B₁.home = B.home := (home_eq hevolves₁.le).symm
    rw [hhome] at hevolves₂ hagrees
    rw [List.foldl_cons, List.foldl_cons, hdefine]
    exact ⟨B₂, (hregister.trans hevolves₁ (by simp)).trans hevolves₂ (by simp), hagrees⟩

/-- A new interpreter agrees with the other one, whatever else its store holds.  It uses only cells
of its own, and leaves those that were there before as they are. -/
theorem joins_newIn (state : State) {log : Log} (alone : Prop)
    (hthreshold : state.log.threshold = log.threshold)
    (halone : alone → state.log = log ∧ state.store.serial = 0) :
    ∃ B : Bridge,
      Evolves [] (blank ⟨state.store.size, ∅, log.threshold, alone⟩) B state.store
        (Interpreter.newIn state).state.store ∧
      B.Joins (Interpreter.newIn state) (Reference.new log) := by
  obtain ⟨s, log'⟩ := state
  let terms : Terms := ⟨s.size, ∅, log.threshold, alone⟩
  let ready := Event.environmentReady
  have hthreshold' : (log'.note ready).threshold = log.threshold ∧
      (log.note ready).threshold = log.threshold :=
    ⟨(Log.threshold_note ..).trans hthreshold, Log.threshold_note ..⟩
  have halone' : alone → log'.note ready = log.note ready ∧ (s.cons .nil .nil).2.serial = 0 :=
    fun h => ⟨congrArg (·.note ready) (halone h).1, (halone h).2⟩
  have hfirst := first_agrees terms (s.cell?_cons_self .nil .nil) hthreshold' halone'
  have hevolves₁ : Evolves [] (blank terms) (first terms) s (s.cons .nil .nil).2 :=
    (Evolves.of_keeps (.cons s .nil .nil) rfl (blank terms)).adopt rfl _
      fun hlt _ => absurd hlt (Nat.lt_irrefl _)
  obtain ⟨B₁, hevolves₂, hprimitives⟩ := hfirst.definePrimitives Primitive.all
  obtain ⟨B₂, hevolves₃, hagrees⟩ := hprimitives.define (.sym "t") (.sym "t")
  have hhome₁ : B₁.home = s.size := (home_eq hevolves₂.le).symm
  have hhome₂ : B₂.home = s.size := (home_eq hevolves₃.le).symm.trans hhome₁
  rw [hhome₁] at hevolves₃ hagrees
  refine ⟨B₂, (hevolves₁.trans hevolves₂ (by simp)).trans hevolves₃ (by simp), ?_, hagrees⟩
  exact congrArg Value.pair hhome₂.symm

/-- New interpreters agree. -/
theorem joins_new (log : Log) :
    ∃ B : Bridge, B.hidden = ∅ ∧ B.alone ∧
      B.Joins (Interpreter.new log) (Reference.new log) := by
  obtain ⟨B, hevolves, hjoins⟩ := joins_newIn { log := log } True rfl fun _ => ⟨rfl, rfl⟩
  have hterms := hevolves.le.1
  exact ⟨B, (congrArg Terms.hidden hterms).symm, congrArg Terms.alone hterms ▸ trivial, hjoins⟩

/-! ## Global frames -/

/-- The binding and the variable have the same name and the same value. -/
def SameBinding (B : Bridge) (b : Binding) (x : Reference.Variable) : Prop :=
  B.Same b.name x.name ∧ B.Same b.value x.value

/-- A binding is that of its variable. -/
theorem Agrees.sameBinding (h : B.Agrees state r) {v : Value} {n : Nat} (hv : B.IsVariable v n) :
    ∃ x, r.table[n]? = some x ∧
      B.SameBinding ⟨v, state.store.car v, state.store.cdr v⟩ x := by
  obtain ⟨place, name, rfl, huse⟩ := hv
  obtain ⟨value, x, hcell, hx, hname, hvalue⟩ := h.cell_binding huse
  have hcar : state.store.car (.pair place) = name := by simp [Store.car, hcell]
  have hcdr : state.store.cdr (.pair place) = value := by simp [Store.cdr, hcell]
  rw [hcar, hcdr]
  exact ⟨x, hx, hname, hvalue⟩

theorem Agrees.forall₂_sameBinding (h : B.Agrees state r) {values : List Value}
    {numbers : List Nat} (hvariables : List.Forall₂ B.IsVariable values numbers) :
    List.Forall₂ B.SameBinding
      (values.map fun v => ⟨v, state.store.car v, state.store.cdr v⟩)
      (numbers.filterMap (r.table[·]?)) := by
  induction hvariables with
  | nil => exact .nil
  | cons hv _ ih =>
    obtain ⟨x, hx, hsame⟩ := h.sameBinding hv
    rw [List.map_cons, List.filterMap_cons_some hx]
    exact .cons hsame ih

/-- Where no name is hidden, the bindings of the global frame are those of its variables. -/
theorem Joins.bindings {i : Interpreter} (h : B.Joins i r) (hnone : B.hidden = ∅) :
    ∃ bindings, i.bindings = .ok bindings ∧ List.Forall₂ B.SameBinding bindings r.frame := by
  obtain ⟨hglobals, hagrees⟩ := h
  obtain ⟨frame, hhome, hframe⟩ := hagrees.cell_home
  obtain ⟨values, ⟨places, tail, hlinks⟩, hvariables⟩ := hframe.lists hagrees
  have hcar : i.state.store.car i.globals = frame := by simp [hglobals, Store.car, hhome]
  have hbindings : i.bindings =
      .ok (values.map fun v => ⟨v, i.state.store.car v, i.state.store.cdr v⟩) := by
    unfold Interpreter.bindings Store.bindingsOf
    rw [hcar, hlinks.elements_eq]
    rfl
  exact ⟨_, hbindings, hagrees.forall₂_sameBinding (hvariables.forall₂ hnone)⟩

/-- Where nobody else uses the store, a binding shows its variable. -/
theorem SameBinding.shows (h : B.Agrees state r) (halone : B.alone) {b : Binding}
    {x : Reference.Variable} (hsame : B.SameBinding b x) : Binding.Shows state.store b x :=
  ⟨hsame.1.shows h halone, hsame.2.shows h halone, (hsame.1.depicts h).print_eq,
    (hsame.2.depicts h).print_eq⟩

end Bridge

/-- The interpreter on cells and the one on values that never change give the same printed results
and aborts line by line, and in the end their global frames hold the same names, and values that
print alike, in the same order. -/
theorem Reference.session_agrees (log : Log) (limit : Nat) (lines : List (List Char)) :
    ((Interpreter.new log).evalPrintAll limit lines).1 =
        (evalPrintAll limit lines (new log)).1 ∧
      ((Interpreter.new log).evalPrintAll limit lines).2.state.log =
        (evalPrintAll limit lines (new log)).2.log ∧
      ∃ bindings, ((Interpreter.new log).evalPrintAll limit lines).2.bindings = .ok bindings ∧
        List.Forall₂
          (Binding.Shows ((Interpreter.new log).evalPrintAll limit lines).2.state.store)
          bindings (evalPrintAll limit lines (new log)).2.frame := by
  obtain ⟨B, hnone, halone, hjoins⟩ := Bridge.joins_new log
  obtain ⟨hresults, B', hle, hjoins'⟩ :=
    hjoins.evalPrintAll limit fun line _ => hnone ▸ avoids_empty line
  have halone' : B'.alone := congrArg Terms.alone hle.1 ▸ halone
  obtain ⟨bindings, hbindings, hsame⟩ :=
    hjoins'.bindings ((Bridge.hidden_eq hle).symm.trans hnone)
  exact ⟨hresults, hjoins'.agrees.log halone', bindings, hbindings,
    hsame.imp fun _ _ h => h.shows hjoins'.agrees halone'⟩

/-- A number is a new object each time it is read, unless it is small, so only the second assignment
to 5 finds a binding. -/
example :
    let lines := ["(setq 1000 1)", "(setq 1000 2)", "(setq 5 1)", "(setq 5 2)"].map String.toList
    let expected := [(some 5, some 2), (some 1000, some 2), (some 1000, some 1)]
    ((Interpreter.new {}).evalPrintAll 100 lines).2.bindings.map
          (fun bindings => (bindings.take 3).map fun b => (b.name.num?, b.value.num?)) =
        .ok expected ∧
      ((Reference.evalPrintAll 100 lines (Reference.new {})).2.frame.take 3).map
          (fun x => (x.name.num?, x.value.num?)) =
        expected := by
  decide +kernel

end ConsLisp
