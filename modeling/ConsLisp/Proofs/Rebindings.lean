import ConsLisp.Proofs.Termination

/-!
# Changes of bindings

A definition, and an assignment to a name without a binding, put a new binding in front of the
global frame; any other assignment gives a binding a new value.  These changes can be read off a
chronicle, each with the binding as it is then, and they are all that happens to the global frame.

Main statement: the global frame after a line is made from the one before by the changes of bindings
that the line makes, in their order (`Interpreter.bindings_evalPrint`).
-/

namespace ConsLisp

/-- A change of a binding, with the binding as it is then: a new one in front of the global frame,
or a new value of one that is there. -/
inductive Rebinding where
  | push (binding : Binding)
  | rewrite (binding : Binding)
  deriving DecidableEq, Repr

/-- The bindings of the global frame after a change of a binding. -/
def Rebinding.apply (bindings : List Binding) : Rebinding → List Binding
  | push b => b :: bindings
  | rewrite b => bindings.map fun other => if other.pair = b.pair then b else other

/-- The change of a binding at a moment.  What a special form overwrites itself is the cell of the
global frame, to put a new binding in front, or the value of a binding. -/
def Moment.rebinding? (m : Moment) : Option Rebinding :=
  match m.current, m.deed with
  | some (.special ..), .change (.setCar _ frame) =>
    let pair := m.store.car frame
    some (.push ⟨pair, m.store.car pair, m.store.cdr pair⟩)
  | some (.special ..), .change (.setCdr pair value) =>
    some (.rewrite ⟨pair, m.store.car pair, value⟩)
  | _, _ => none

/-- The changes of bindings at these moments, newest first, in the order in which they were made. -/
def Moment.rebindings (moments : List Moment) : List Rebinding :=
  moments.reverse.filterMap rebinding?

/-- The changes of bindings that a line makes, in order. -/
def Interpreter.rebindings (limit : Nat) (text : List Char) (i : Interpreter) : List Rebinding :=
  Moment.rebindings (Chronicle.line limit i.globals text ⟨i.state, []⟩).2.moments

namespace Store

variable {s : Store}

/-- The pair as a binding. -/
def bindingOf (s : Store) (pair : Value) : Binding :=
  ⟨pair, s.car pair, s.cdr pair⟩

theorem bindingsOf_of_links {frame tail : Value} {places : List Nat} {pairs : List Value}
    (h : s.Links frame places pairs tail) : s.bindingsOf frame = .ok (pairs.map s.bindingOf) := by
  simp only [bindingsOf, h.elements_eq, bind, Except.bind, pure, Except.pure]
  rfl

/-- A cell that stays as it is stays as it is as a binding. -/
theorem bindingOf_congr {s' : Store} {v : Value} (h : s'.cell? v = s.cell? v) :
    s'.bindingOf v = s.bindingOf v := by
  simp [bindingOf, car, cdr, h]

end Store

namespace Moment

variable {m : Moment}

/-- What a definition overwrites, it overwrites to put a binding in front. -/
theorem rebinding?_of_defines {v frame name : Value} (hdeed : m.deed = .change (.setCar v frame))
    (h : m.Defines name) : m.rebinding? = some (.push (m.store.bindingOf (m.store.car frame))) := by
  obtain ⟨args, env, -, hcurrent | ⟨hcurrent, -⟩⟩ := h
  · simp only [rebinding?, hcurrent, hdeed]
    rfl
  · simp only [rebinding?, hcurrent, hdeed]
    rfl

/-- The binding that an assignment overwrites gets a new value, whichever frame it is in. -/
theorem rebinding?_of_assigns {v value : Value} (hdeed : m.deed = .change (.setCdr v value))
    (h : m.Assigns v) : m.rebinding? = some (.rewrite ⟨v, m.store.car v, value⟩) := by
  obtain ⟨args, env, hcurrent, -⟩ := h
  simp only [rebinding?, hcurrent, hdeed]

/-- Of the changes of second fields, only new values of bindings are changes of bindings. -/
theorem rebinding?_of_setCdr {v value : Value} (hdeed : m.deed = .change (.setCdr v value)) :
    m.rebinding? = none ∨ m.rebinding? = some (.rewrite ⟨v, m.store.car v, value⟩) := by
  unfold rebinding?
  rw [hdeed]
  split
  · next heq => simp at heq
  · next heq =>
    obtain ⟨rfl, rfl⟩ : _ ∧ _ := by simpa using heq
    exact .inr rfl
  · exact .inl rfl

/-- What overwrites nothing changes no binding. -/
theorem rebinding?_eq_none (hcar : ∀ v a, m.deed ≠ .change (.setCar v a))
    (hcdr : ∀ v d, m.deed ≠ .change (.setCdr v d)) : m.rebinding? = none := by
  unfold rebinding?
  split
  · next heq => exact absurd heq (hcar _ _)
  · next heq => exact absurd heq (hcdr _ _)
  · rfl

theorem rebindings_cons {moments : List Moment} (h : m.rebinding? = none) :
    rebindings (m :: moments) = rebindings moments := by
  simp [rebindings, h]

end Moment

/-! ## The global frame at a moment -/

namespace Layout

variable {L M : Layout} {s s' : Store} {m : Moment} {changed : List Nat}

/-- The list of bindings of a frame stays as it is while none of its pairs changes. -/
theorem Frame.links_keep (h : L.Kept s) {v : Value} {numbers : List Nat} (hv : L.Frame v numbers)
    (hkeeps : Store.KeepsExcept changed s s')
    (hchanged : ∀ place ∈ changed, ∀ binding rest, L.role place ≠ some (.frame binding rest)) :
    ∃ places, s'.Links v places (numbers.map .pair) .nil := by
  induction hv with
  | nil => exact ⟨[], .done rfl⟩
  | cons hrole _ _ ih =>
    obtain ⟨places, hlinks⟩ := ih
    have hplace : _ ∉ changed := fun hmem => hchanged _ hmem _ _ hrole
    have hcell := (hkeeps.cell (h.lt_size hrole) hplace).trans (h.cell_frame hrole)
    exact ⟨_ :: places, .next hcell hlinks⟩

/-- The bindings of a frame are pairs of a name and its value. -/
theorem Frame.bindingsOf (h : L.Kept s) {v : Value} {numbers : List Nat} (hv : L.Frame v numbers) :
    s.bindingsOf v = .ok ((numbers.map .pair).map s.bindingOf) := by
  obtain ⟨places, hlinks⟩ := hv.links h
  exact Store.bindingsOf_of_links hlinks

/-- Changes of lists under construction do not touch the global frame. -/
theorem Kept.bindingsOf_keep (h : L.Kept s) (hkeeps : Store.KeepsExcept changed s s')
    (hchanged : ∀ place ∈ changed, ∃ a d, L.role place = some (.draft a d)) :
    s'.bindingsOf (L.globalFrame s') = s.bindingsOf (L.globalFrame s) := by
  have hother : ∀ {place role}, L.role place = some role → role.isDraft = false →
      s'.cell? (.pair place) = s.cell? (.pair place) := by
    intro place role hrole hdraft
    refine hkeeps.cell (h.lt_size hrole) fun hmem => ?_
    obtain ⟨a, d, hrole'⟩ := hchanged place hmem
    obtain rfl := Option.some.inj (hrole.symm.trans hrole')
    simp [Role.isDraft] at hdraft
  have hhome : L.globalFrame s' = L.globalFrame s := by
    simp [globalFrame, Store.car, hother h.home rfl]
  obtain ⟨numbers, hframe⟩ := h.frame_home
  obtain ⟨places, hlinks⟩ := hframe.links_keep h hkeeps fun place hmem binding rest hrole => by
    obtain ⟨a, d, hrole'⟩ := hchanged place hmem
    simp [hrole] at hrole'
  rw [hhome, Store.bindingsOf_of_links hlinks, hframe.bindingsOf h]
  refine congrArg Except.ok (List.map_congr_left fun v hv => ?_)
  obtain ⟨number, hmem, rfl⟩ := List.mem_map.mp hv
  obtain ⟨name, hrole⟩ := hframe.isBinding hmem
  exact Store.bindingOf_congr (hother hrole rfl)

/-- A new value of a binding is that of this binding in the global frame, if it is there. -/
theorem Kept.bindingsOf_setCdr (h : L.Kept s) {place : Nat} {name : Value}
    (hrole : L.role place = some (.binding name)) (value : Value) {bindings : List Binding}
    (hbindings : s.bindingsOf (L.globalFrame s) = .ok bindings) :
    (s.setCdr (.pair place) value).bindingsOf (L.globalFrame (s.setCdr (.pair place) value)) =
      .ok (Rebinding.apply bindings (.rewrite ⟨.pair place, s.car (.pair place), value⟩)) := by
  obtain ⟨numbers, hframe⟩ := h.frame_home
  obtain ⟨places, hlinks⟩ := hframe.links_keep h (.setCdr s place value) fun other hmem _ _ => by
    simp [List.mem_singleton.mp hmem, hrole]
  obtain ⟨old, hcell, -⟩ := h.cell_binding hrole
  rw [hframe.bindingsOf h] at hbindings
  obtain rfl := Except.ok.inj hbindings
  rw [globalFrame_setCdr, Store.bindingsOf_of_links hlinks, Rebinding.apply,
    List.map_map (f := s.bindingOf)]
  refine congrArg Except.ok (List.map_congr_left fun v hv => ?_)
  obtain ⟨number, -, rfl⟩ := List.mem_map.mp hv
  have hcells := Store.cell?_setCdr_pair hcell value number
  by_cases heq : number = place
  · subst heq
    simp [Store.bindingOf, Store.car, Store.cdr, hcells, hcell]
  · simp [Store.bindingOf, Store.car, Store.cdr, hcells, heq]

/-- A pair of a list under construction is none of the bindings of the global frame. -/
theorem Kept.apply_rewrite_of_draft (h : L.Kept s) {place : Nat} {a d : Value}
    (hrole : L.role place = some (.draft a d)) {bindings : List Binding}
    (hbindings : s.bindingsOf (L.globalFrame s) = .ok bindings) {b : Binding}
    (hpair : b.pair = .pair place) : Rebinding.apply bindings (.rewrite b) = bindings := by
  obtain ⟨numbers, hframe⟩ := h.frame_home
  rw [hframe.bindingsOf h] at hbindings
  obtain rfl := Except.ok.inj hbindings
  refine (List.map_congr_left fun other hother => if_neg ?_).trans (List.map_id _)
  obtain ⟨_, hv, rfl⟩ := List.mem_map.mp hother
  obtain ⟨number, hmem, rfl⟩ := List.mem_map.mp hv
  obtain ⟨name, hrole'⟩ := hframe.isBinding hmem
  rw [hpair]
  intro heq
  rw [← Value.pair.inj heq, hrole'] at hrole
  simp at hrole

/-- A binding that is put in front of the global frame is its first. -/
theorem Kept.bindingsOf_setCar (h : L.Kept s) {place binding : Nat}
    (hcell : s.cell? (.pair place) = some ⟨.pair binding, L.globalFrame s⟩)
    (hkept : M.Kept (s.setCar (.pair L.home) (.pair place))) (hhome : M.home = L.home)
    {bindings : List Binding} (hbindings : s.bindingsOf (L.globalFrame s) = .ok bindings) :
    (s.setCar (.pair L.home) (.pair place)).bindingsOf
        (L.globalFrame (s.setCar (.pair L.home) (.pair place))) =
      .ok (Rebinding.apply bindings (.push (s.bindingOf (.pair binding)))) := by
  obtain ⟨frame, numbers, hold, hframe⟩ := h.cell_home
  have hglobal : L.globalFrame s = frame := by simp [globalFrame, Store.car, hold]
  have hcells := Store.cell?_setCar_pair hold (.pair place)
  have hnew : L.globalFrame (s.setCar (.pair L.home) (.pair place)) = .pair place := by
    simp [globalFrame, Store.car, hcells]
  -- The cell of the global frame has no bindings behind it, so it is not that pair.
  have hplace : place ≠ L.home := by
    rintro rfl
    rw [hold, hglobal] at hcell
    simp only [Option.some.injEq, Cell.mk.injEq] at hcell
    simp [← hcell.2] at hcell
  -- Nor is it the binding, since the store is kept afterwards.
  have hbinding : binding ≠ L.home := by
    obtain ⟨numbers', hframe'⟩ := hkept.frame_home
    rw [globalFrame, hhome, ← globalFrame, hnew] at hframe'
    rintro rfl
    cases hframe' with
    | cons hrole hbinding _ =>
      have hpair := hkept.cell_frame hrole
      rw [hcells, if_neg hplace, hcell] at hpair
      obtain ⟨rfl, -⟩ : _ ∧ _ := by simpa using hpair
      simp [← hhome, hkept.home] at hbinding
  have hsame : ∀ {other}, other ≠ L.home →
      (s.setCar (.pair L.home) (.pair place)).cell? (.pair other) = s.cell? (.pair other) :=
    fun hne => by rw [hcells, if_neg hne]
  obtain ⟨places, hlinks⟩ := hframe.links_keep h (.setCar s L.home (.pair place))
    fun other hmem _ _ => by simp [List.mem_singleton.mp hmem, h.home]
  rw [hglobal, hframe.bindingsOf h] at hbindings
  obtain rfl := Except.ok.inj hbindings
  have hlinks' := Store.Links.next ((hsame hplace).trans (hglobal ▸ hcell)) hlinks
  rw [hnew, Store.bindingsOf_of_links hlinks', List.map_cons,
    Store.bindingOf_congr (hsame hbinding)]
  refine congrArg (fun rest => Except.ok (_ :: rest)) (List.map_congr_left fun v hv => ?_)
  obtain ⟨number, hmem, rfl⟩ := List.mem_map.mp hv
  obtain ⟨name, hrole⟩ := hframe.isBinding hmem
  refine Store.bindingOf_congr (hsame ?_)
  rintro rfl
  simp [h.home] at hrole

/-- At each moment, the change of a binding is what happens to the global frame. -/
theorem Vouches.bindingsOf_after (h : L.Vouches m) (hkept : M.Kept (m.deed.after m.store))
    (hhome : M.home = L.home) {bindings : List Binding}
    (hbindings : m.store.bindingsOf (L.globalFrame m.store) = .ok bindings) :
    (m.deed.after m.store).bindingsOf (L.globalFrame (m.deed.after m.store)) =
      .ok (m.rebinding?.toList.foldl Rebinding.apply bindings) := by
  have hsame : ∀ {s' : Store}, Store.KeepsExcept [] m.store s' →
      s'.bindingsOf (L.globalFrame s') = .ok bindings :=
    fun hkeeps => (h.kept.bindingsOf_keep hkeeps (by simp)).trans hbindings
  obtain ⟨callers, store, deed⟩ := m
  cases deed with
  | line | call | answer | ended =>
    rw [Moment.rebinding?_eq_none (by simp) (by simp)]
    exact hbindings
  | change d =>
    have hallows := h.allows d rfl
    cases d with
    | cons a d =>
      rw [Moment.rebinding?_eq_none (by simp) (by simp)]
      exact hsame (.cons store a d)
    | number | error | closure =>
      rw [Moment.rebinding?_eq_none (by simp) (by simp)]
      exact hsame ⟨Nat.le_refl _, fun _ _ => rfl⟩
    | setCar v frame =>
      obtain ⟨rfl, place, binding, name, value, rfl, -, -, hcell, -, hdefines⟩ := hallows
      have hcar : store.car (.pair place) = .pair binding := Store.car_of_cell? hcell
      rw [Moment.rebinding?_of_defines rfl hdefines, hcar]
      exact h.kept.bindingsOf_setCar hcell hkept hhome hbindings
    | setCdr v value =>
      rcases hallows with ⟨place, name, rfl, hrole, hassigns⟩ | ⟨place, a, d, rfl, hrole, -⟩
      · rw [Moment.rebinding?_of_assigns rfl hassigns]
        exact h.kept.bindingsOf_setCdr hrole value hbindings
      · -- A list under construction may be turned in a special form, but is none of the bindings.
        have hkeep := (h.kept.bindingsOf_keep (.setCdr store place value)
          (by simpa using ⟨a, d, hrole⟩)).trans hbindings
        obtain hnone | hrewrite := Moment.rebinding?_of_setCdr (m := ⟨callers, store, _⟩) rfl
        · rw [hnone]
          exact hkeep
        · rw [hrewrite]
          refine hkeep.trans (congrArg Except.ok ?_)
          exact (h.kept.apply_rewrite_of_draft hrole hbindings rfl).symm

end Layout

/-! ## Lines -/

/-- The changes of bindings of an account make the last global frame from the first. -/
theorem Accounted.bindingsOf {o : Opening} {moments : List Moment} (h : Accounted o moments)
    {M : Layout} (hkept : M.Kept (Moment.storeAfter o.store moments))
    (hhome : M.home = o.layout.home) {bindings : List Binding}
    (hbindings : o.store.bindingsOf (o.layout.globalFrame o.store) = .ok bindings) :
    (Moment.storeAfter o.store moments).bindingsOf
        (o.layout.globalFrame (Moment.storeAfter o.store moments)) =
      .ok ((Moment.rebindings moments).foldl Rebinding.apply bindings) := by
  induction moments generalizing M with
  | nil => exact hbindings
  | cons m earlier ih =>
    obtain ⟨hstore, ⟨L, hvouches, hover⟩, -, hrest⟩ := h
    have hhomeL : L.home = o.layout.home := hover.opening.settles.home.symm
    have hframe : ∀ s, L.globalFrame s = o.layout.globalFrame s := fun s =>
      Layout.globalFrame_eq hover.opening.settles s
    have hearlier := ih hrest (hstore ▸ hvouches.kept) hhomeL
    rw [← hstore, ← hframe] at hearlier
    have hafter := hvouches.bindingsOf_after hkept (hhome.trans hhomeL.symm) hearlier
    rw [hframe] at hafter
    refine hafter.trans (congrArg Except.ok ?_)
    unfold Moment.rebindings
    rw [List.reverse_cons, List.filterMap_append, List.foldl_append]
    cases hrebinding : m.rebinding? <;> simp [hrebinding]

/-- The changes of bindings of a line make the global frame after it from the one before. -/
theorem Layout.Suits.bindings_evalPrint {L : Layout} {i : Interpreter} (h : L.Suits i)
    (limit : Nat) (text : List Char) :
    ∃ bindings, i.bindings = .ok bindings ∧ (i.evalPrint limit text).2.bindings =
      .ok ((i.rebindings limit text).foldl Rebinding.apply bindings) := by
  obtain ⟨L', hle, hsound, -⟩ := (h.sound limit).line h.full h.env text
  obtain ⟨numbers, hframe⟩ := h.kept.frame_home
  have hbindings := hframe.bindingsOf h.kept
  have hafter := hsound.accounted.bindingsOf (hsound.now ▸ hsound.kept) hle.2.1.symm hbindings
  rw [← hsound.now, (Chronicle.line_eq_evalPrint limit text i []).1] at hafter
  have hglobal : ∀ s : Store, s.car i.globals = L.globalFrame s := fun s => h.globals ▸ rfl
  rw [← hglobal] at hbindings hafter
  refine ⟨_, hbindings, ?_⟩
  rw [Interpreter.bindings, Interpreter.evalPrint_snd]
  exact hafter

/-- The changes of bindings that a line makes are all that it does to the global frame: they make
the frame after the line from the one before. -/
theorem Interpreter.bindings_evalPrint (log : Log) (lines : List (Nat × List Char)) (limit : Nat)
    (text : List Char) :
    let i := (new log).after lines
    ∃ bindings, i.bindings = .ok bindings ∧ (i.evalPrint limit text).2.bindings =
      .ok ((i.rebindings limit text).foldl Rebinding.apply bindings) := by
  intro i
  obtain ⟨L, hnew, -⟩ := Layout.suits_new log
  obtain ⟨M, hsuits⟩ := exists_suits_after hnew lines
  exact hsuits.bindings_evalPrint limit text

end ConsLisp
