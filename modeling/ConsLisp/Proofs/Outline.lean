import ConsLisp.Proofs.Store.Lookup
import ConsLisp.Proofs.Store.Reverse
import Mathlib.Logic.Function.Basic

/-!
# Outlines

An outline says which pairs environments are made of, and nothing of the others.  A store keeps to
it if these pairs are lists of frames, lists of bindings, and bindings, and if each closure has an
environment.  So anything may be evaluated, whether it is program text or not: only pairs of
environments are ever overwritten, and pairs of lists that are still under construction.

Main statements: what is looked up in an environment (`Kept.binding`, `Kept.last`), and that a store
still keeps to its outline after each kind of change (`Kept.cons`, `Kept.setCar`, `Kept.setCdr`,
`Kept.turned`, `Kept.exists_frame`).
-/

namespace ConsLisp

/-- What a pair is in an environment: one of the list of frames, one of the list of bindings of a
frame, or a binding. -/
inductive Part where
  | scope
  | frame
  | binding
  deriving DecidableEq

/-- The pairs that environments are made of. -/
structure Outline where
  part : Nat → Option Part

namespace Outline

/-- Every part stays what it is. -/
instance : LE Outline :=
  ⟨fun O O' => ∀ place part, O.part place = some part → O'.part place = some part⟩

/-- The value is a pair of this part. -/
def Is (O : Outline) (part : Part) (v : Value) : Prop :=
  ∃ place, v = .pair place ∧ O.part place = some part

/-- The value is empty or a list that begins with a pair of this part. -/
def Lists (O : Outline) (part : Part) (v : Value) : Prop :=
  v = .nil ∨ O.Is part v

/-- The closures inside of the value have environments. -/
def Admits (O : Outline) : Value → Prop
  | .closure _ params body env => O.Admits params ∧ O.Admits body ∧ O.Lists .scope env
  | _ => True

/-- The fields of a pair of this part. -/
def Fits (O : Outline) : Part → Cell → Prop
  | .scope, c => O.Lists .frame c.car ∧ O.Lists .scope c.cdr
  | .frame, c => O.Is .binding c.car ∧ O.Lists .frame c.cdr
  | .binding, _ => True

/-- The store keeps to the outline. -/
structure Kept (O : Outline) (s : Store) : Prop where
  fits {place : Nat} {part : Part} (hpart : O.part place = some part) :
    ∃ c, s.cell? (.pair place) = some c ∧ O.Fits part c
  admits {place : Nat} {c : Cell} (hcell : s.cell? (.pair place) = some c) :
    O.Admits c.car ∧ O.Admits c.cdr

variable {O O' : Outline} {s s' : Store} {place : Nat} {part : Part} {v : Value}

/-! ## Outlines that grow -/

theorem Is.mono (h : O ≤ O') : O.Is part v → O'.Is part v := by
  rintro ⟨place, rfl, hpart⟩
  exact ⟨place, rfl, h _ _ hpart⟩

theorem Lists.mono (h : O ≤ O') (hv : O.Lists part v) : O'.Lists part v :=
  hv.imp_right (·.mono h)

theorem Admits.mono (h : O ≤ O') (hv : O.Admits v) : O'.Admits v := by
  induction v with
  | closure _ _ _ _ ihparams ihbody => exact ⟨ihparams hv.1, ihbody hv.2.1, hv.2.2.mono h⟩
  | _ => trivial

theorem Fits.mono {c : Cell} (h : O ≤ O') (hc : O.Fits part c) : O'.Fits part c := by
  cases part with
  | scope => exact ⟨hc.1.mono h, hc.2.mono h⟩
  | frame => exact ⟨hc.1.mono h, hc.2.mono h⟩
  | binding => trivial

/-- The value is no closure, so there is none inside of it. -/
theorem admits_error (hv : v.isError = true) : O.Admits v := by
  obtain ⟨serial, fault, rfl⟩ := Value.isError_iff.mp hv
  trivial

/-- A list is no closure. -/
theorem Lists.admits (hv : O.Lists part v) : O'.Admits v := by
  rcases hv with rfl | ⟨place, rfl, -⟩ <;> trivial

theorem admits_ofBool (O : Outline) (b : Bool) : O.Admits (.ofBool b) := by
  cases b <;> trivial

/-- Gives one more pair a part. -/
def set (O : Outline) (place : Nat) (part : Part) : Outline :=
  ⟨Function.update O.part place (some part)⟩

@[simp] theorem part_set_self (O : Outline) (place : Nat) (part : Part) :
    (O.set place part).part place = some part :=
  Function.update_self ..

theorem part_set_of_ne {other : Nat} (h : other ≠ place) :
    (O.set place part).part other = O.part other :=
  Function.update_of_ne h ..

theorem le_set (hfree : O.part place = none) : O ≤ O.set place part := by
  intro other part' hpart'
  have hne : other ≠ place := by
    rintro rfl
    simp [hfree] at hpart'
  rwa [part_set_of_ne hne]

namespace Kept

/-! ## What is looked up -/

theorem lt_size (h : O.Kept s) (hpart : O.part place = some part) : place < s.size := by
  obtain ⟨c, hcell, -⟩ := h.fits hpart
  exact Store.lt_size_of_cell? hcell

theorem part_size (h : O.Kept s) : O.part s.size = none := by
  cases hpart : O.part s.size with
  | none => rfl
  | some part => exact absurd (h.lt_size hpart) (Nat.lt_irrefl _)

/-- The fields of a pair of a list fit its part. -/
theorem fits_of_lists (h : O.Kept s) (part : Part) (hv : O.Lists part v) {c : Cell}
    (hcell : s.cell? v = some c) : O.Fits part c := by
  rcases hv with rfl | ⟨place, rfl, hpart⟩
  · simp [Store.cell?] at hcell
  · obtain ⟨c', hcell', hfits⟩ := h.fits hpart
    obtain rfl := Option.some.inj (hcell.symm.trans hcell')
    exact hfits

theorem binding (h : O.Kept s) {name env binding : Value} (henv : O.Lists .scope env)
    (hrun : s.binding? name env = .ok (some binding)) : O.Is .binding binding :=
  Store.binding?_found (fun _ _ hv hcell => h.fits_of_lists .scope hv hcell)
    (fun _ _ hv hcell => h.fits_of_lists .frame hv hcell) henv hrun

theorem last (h : O.Kept s) {env last : Value} (henv : O.Lists .scope env)
    (hrun : s.last env = .ok last) : O.Lists .scope last :=
  Store.last_found (fun _ _ hv hcell => (h.fits_of_lists .scope hv hcell).2) henv hrun

theorem car (h : O.Kept s) (v : Value) : O.Admits (s.car v) := by
  cases hcell : s.cell? v with
  | none => simp [Store.car, hcell, Admits]
  | some c =>
    obtain ⟨place, rfl, -⟩ := Store.cell?_eq_some_iff.mp hcell
    rw [Store.car_of_cell? hcell]
    exact (h.admits hcell).1

theorem cdr (h : O.Kept s) (v : Value) : O.Admits (s.cdr v) := by
  cases hcell : s.cell? v with
  | none => simp [Store.cdr, hcell, Admits]
  | some c =>
    obtain ⟨place, rfl, -⟩ := Store.cell?_eq_some_iff.mp hcell
    rw [Store.cdr_of_cell? hcell]
    exact (h.admits hcell).2

/-- The first frame of an environment. -/
theorem frame (h : O.Kept s) {env : Value} (henv : O.Lists .scope env) :
    O.Lists .frame (s.car env) := by
  cases hcell : s.cell? env with
  | none =>
    left
    simp [Store.car, hcell]
  | some c =>
    rw [Store.car_of_cell? hcell]
    exact (h.fits_of_lists .scope henv hcell).1

theorem value (h : O.Kept s) {name env value : Value}
    (hrun : s.value? name env = .ok (some value)) : O.Admits value := by
  unfold Store.value? at hrun
  cases hfound : s.binding? name env with
  | error abort => simp [hfound, Except.map] at hrun
  | ok found =>
    cases found with
    | none => simp [hfound, Except.map] at hrun
    | some binding =>
      obtain rfl : s.cdr binding = value := by simpa [hfound, Except.map] using hrun
      exact h.cdr binding

/-! ## Changes -/

/-- One more pair has a part. -/
theorem set (h : O.Kept s) (hfree : O.part place = none) {c : Cell}
    (hcell : s.cell? (.pair place) = some c) (hfits : O.Fits part c) :
    (O.set place part).Kept s := by
  have hle : O ≤ O.set place part := le_set hfree
  constructor
  case fits =>
    intro other part' hpart'
    by_cases heq : other = place
    · subst heq
      obtain rfl := Option.some.inj ((part_set_self ..).symm.trans hpart')
      exact ⟨c, hcell, hfits.mono hle⟩
    · rw [part_set_of_ne heq] at hpart'
      obtain ⟨c', hcell', hfits'⟩ := h.fits hpart'
      exact ⟨c', hcell', hfits'.mono hle⟩
  case admits =>
    intro other c' hcell'
    exact ⟨(h.admits hcell').1.mono hle, (h.admits hcell').2.mono hle⟩

theorem cons (h : O.Kept s) {a d : Value} (ha : O.Admits a) (hd : O.Admits d) :
    O.Kept (s.cons a d).2 := by
  have hkeeps : Store.KeepsExcept [] s (s.cons a d).2 := .cons ..
  constructor
  case fits =>
    intro place part hpart
    obtain ⟨c, hcell, hfits⟩ := h.fits hpart
    exact ⟨c, hkeeps.cell_some hcell, hfits⟩
  case admits =>
    intro place c hcell
    rw [Store.cell?_cons] at hcell
    split at hcell
    · cases hcell
      exact ⟨ha, hd⟩
    · exact h.admits hcell

/-- The value of a binding is overwritten. -/
theorem setCdr (h : O.Kept s) (hv : O.Is .binding v) {d : Value} (hd : O.Admits d) :
    O.Kept (s.setCdr v d) := by
  obtain ⟨place, rfl, hbinding⟩ := hv
  obtain ⟨old, hold, -⟩ := h.fits hbinding
  constructor
  case fits =>
    intro other part hpart
    obtain ⟨c, hcell, hfits⟩ := h.fits hpart
    rw [Store.cell?_setCdr_pair hold]
    split
    · next heq =>
      subst heq
      obtain rfl := Option.some.inj (hbinding.symm.trans hpart)
      exact ⟨_, rfl, trivial⟩
    · exact ⟨c, hcell, hfits⟩
  case admits =>
    intro other c hcell
    rw [Store.cell?_setCdr_pair hold] at hcell
    split at hcell
    · cases hcell
      exact ⟨(h.admits hold).1, hd⟩
    · exact h.admits hcell

/-- The first frame of an environment is overwritten. -/
theorem setCar (h : O.Kept s) {env : Value} (henv : O.Lists .scope env) {frame : Value}
    (hframe : O.Lists .frame frame) : O.Kept (s.setCar env frame) := by
  rcases henv with rfl | ⟨place, rfl, hscope⟩
  · exact h
  · obtain ⟨old, hold, holdFits⟩ := h.fits hscope
    constructor
    case fits =>
      intro other part hpart
      obtain ⟨c, hcell, hfits⟩ := h.fits hpart
      rw [Store.cell?_setCar_pair hold]
      split
      · next heq =>
        subst heq
        obtain rfl := Option.some.inj (hscope.symm.trans hpart)
        exact ⟨_, rfl, hframe, holdFits.2⟩
      · exact ⟨c, hcell, hfits⟩
    case admits =>
      intro other c hcell
      rw [Store.cell?_setCar_pair hold] at hcell
      split at hcell
      · cases hcell
        exact ⟨hframe.admits, (h.admits hold).2⟩
      · exact h.admits hcell

/-- No pair is overwritten. -/
theorem of_cells (h : O.Kept s) (hcells : s'.cells = s.cells) : O.Kept s' := by
  have hcell (v : Value) : s'.cell? v = s.cell? v := by
    cases v <;> simp [Store.cell?, hcells]
  refine ⟨fun hpart => ?_, fun hc => ?_⟩
  · rw [hcell]
    exact h.fits hpart
  · rw [hcell] at hc
    exact h.admits hc

/-! ## Lists under construction -/

variable {tail : Value} {places : List Nat} {elements : List Value}

theorem admits_elements (h : O.Kept s) (hlinks : s.Links v places elements tail) {element : Value}
    (hmem : element ∈ elements) : O.Admits element := by
  induction hlinks with
  | done => simp at hmem
  | next hcell _ ih =>
    rcases List.mem_cons.mp hmem with rfl | hmem
    · exact (h.admits hcell).1
    · exact ih hmem

/-- A chain of pairs without parts is turned around. -/
theorem turned (h : O.Kept s) (hlinks : s.Links v places elements tail)
    (hfree : ∀ place ∈ places, O.part place = none) {w : Value}
    (hturned : s'.Links w places.reverse elements.reverse .nil)
    (hkeeps : Store.KeepsExcept places s s') (hsize : s'.size = s.size) : O.Kept s' := by
  constructor
  case fits =>
    intro place part hpart
    have hmem : place ∉ places := fun hmem => by simp [hfree place hmem] at hpart
    rw [hkeeps.cell (h.lt_size hpart) hmem]
    exact h.fits hpart
  case admits =>
    intro place c hcell
    by_cases hmem : place ∈ places
    · -- Its first field is an element, and its second one is no closure.
      obtain ⟨c', hcell', helement, hcdr⟩ := hturned.cell_of_mem (List.mem_reverse.mpr hmem)
      obtain rfl := Option.some.inj (hcell.symm.trans hcell')
      refine ⟨h.admits_elements hlinks (List.mem_reverse.mp helement), ?_⟩
      rcases hcdr with hcdr | ⟨next, hcdr⟩ <;> simp [hcdr, Admits]
    · rw [hkeeps.cell (hsize ▸ Store.lt_size_of_cell? hcell) hmem] at hcell
      exact h.admits hcell

/-- A list of bindings whose pairs have no parts is a frame. -/
theorem exists_frame (h : O.Kept s) (hlinks : s.Links v places elements .nil)
    (hfree : ∀ place ∈ places, O.part place = none)
    (helements : ∀ element ∈ elements, O.Is .binding element) :
    ∃ O', O ≤ O' ∧ O'.Kept s ∧ O'.Lists .frame v ∧
      ∀ place ∉ places, O'.part place = O.part place := by
  -- The parts are given from the end of the list to its front.
  generalize hnil : (.nil : Value) = tail at hlinks
  induction hlinks with
  | done => exact ⟨O, fun _ _ hpart => hpart, h, .inl hnil.symm, fun _ _ => rfl⟩
  | @next place a d tail places elements hcell hrest ih =>
    obtain ⟨hnot, -⟩ := List.nodup_cons.mp (Store.Links.next hcell hrest).nodup
    obtain ⟨O', hle, hkept, hframe, hothers⟩ :=
      ih (fun other hmem => hfree other (List.mem_cons_of_mem _ hmem))
        (fun other hmem => helements other (List.mem_cons_of_mem _ hmem)) hnil
    have hplace : O'.part place = none :=
      (hothers place hnot).trans (hfree place List.mem_cons_self)
    have hbinding := (helements a List.mem_cons_self).mono hle
    refine ⟨O'.set place .frame, fun _ _ hpart => le_set hplace _ _ (hle _ _ hpart),
      hkept.set hplace hcell ⟨hbinding, hframe⟩, .inr ⟨place, rfl, part_set_self ..⟩,
      fun other hmem => ?_⟩
    rw [List.mem_cons, not_or] at hmem
    rw [part_set_of_ne hmem.1, hothers other hmem.2]

end Kept

end Outline

end ConsLisp
