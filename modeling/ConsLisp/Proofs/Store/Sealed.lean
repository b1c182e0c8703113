import ConsLisp.Form.Atom
import ConsLisp.Proofs.Store.Lookup
import ConsLisp.Proofs.Store.Reverse

/-!
# Regions of a store

A region is a set of places.  It is closed if no pair in it has a field that leads out of it, also
through the inside of a closure.  All that is reached from a value in a closed region stays in the
region, whatever is looked up on the way.  A store is sealed if the region of all its pairs is
closed, so that it knows every pair that it leads to.

Main statements: what is reached in a closed region (`Closed.mem_of_reaches`), what is looked up in
one (`Closed.value?`, `Closed.binding?`, `Closed.last`), and that a change that is made of values in
a region does not lead out of it (`Closed.perform`).
-/

namespace ConsLisp

/-- All pairs that the value mentions lie in the region: the value itself if it is one, or those
inside of a closure. -/
def Value.Within (region : Set Nat) : Value → Prop
  | pair place => place ∈ region
  | closure _ params body env => params.Within region ∧ body.Within region ∧ env.Within region
  | nil | num .. | sym _ | error .. | primitive .. | foreign _ => True

theorem Value.Within.mono {region region' : Set Nat} (h : region ⊆ region') {v : Value}
    (hv : v.Within region) : v.Within region' := by
  induction v with
  | pair place => exact h hv
  | closure _ _ _ _ ihparams ihbody ihenv =>
    exact ⟨ihparams hv.1, ihbody hv.2.1, ihenv hv.2.2⟩
  | nil | num | sym | error | primitive | foreign => trivial

theorem Value.within_ofBool (region : Set Nat) (b : Bool) : (ofBool b).Within region := by
  cases b <;> trivial

theorem Value.within_denote (region : Set Nat) (token : List Char) :
    (Atom.denote token).Within region := by
  unfold Atom.denote
  split
  · trivial
  · unfold ofName
    split <;> trivial

/-- The values that a change is made of. -/
def Change.values : Change → List Value
  | cons a d => [a, d]
  | setCar v a | setCdr v a => [v, a]
  | number _ | error _ => []
  | closure params body env => [params, body, env]

namespace Store

/-- The value leads to the pair at this place, along the fields of pairs and through the insides of
closures. -/
inductive Reaches (s : Store) : Value → Nat → Prop
  | here {place : Nat} : Reaches s (.pair place) place
  | car {v : Value} {c : Cell} {place : Nat} (hcell : s.cell? v = some c)
      (h : Reaches s c.car place) : Reaches s v place
  | cdr {v : Value} {c : Cell} {place : Nat} (hcell : s.cell? v = some c)
      (h : Reaches s c.cdr place) : Reaches s v place
  | params {serial place : Nat} {params body env : Value} (h : Reaches s params place) :
      Reaches s (.closure serial params body env) place
  | body {serial place : Nat} {params body env : Value} (h : Reaches s body place) :
      Reaches s (.closure serial params body env) place
  | env {serial place : Nat} {params body env : Value} (h : Reaches s env place) :
      Reaches s (.closure serial params body env) place

/-- No pair of the region has a field that leads out of it. -/
def Closed (s : Store) (region : Set Nat) : Prop :=
  ∀ place c, place ∈ region → s.cell? (.pair place) = some c →
    c.car.Within region ∧ c.cdr.Within region

/-- The places of the pairs of the store that are not hidden. -/
def outside (s : Store) (hidden : Set Nat) : Set Nat :=
  {place | place < s.size ∧ place ∉ hidden}

/-- The value mentions no pair that the store does not have. -/
def Knows (s : Store) (v : Value) : Prop :=
  v.Within {place | place < s.size}

/-- No pair of the store mentions one that the store does not have. -/
def Sealed (s : Store) : Prop :=
  s.Closed {place | place < s.size}

/-- What is no pair of a store that knows it is no pair at all. -/
theorem Knows.cell?_eq_none {s : Store} {v : Value} (h : s.Knows v) (hcell : s.cell? v = none)
    (s' : Store) : s'.cell? v = none := by
  cases v with
  | pair place => exact absurd (Array.getElem?_eq_none_iff.mp hcell) (Nat.not_le.mpr h)
  | _ => rfl

theorem outside_eq {s s' : Store} {hidden : Set Nat} (h : s.size = s'.size) :
    s.outside hidden = s'.outside hidden := by
  rw [outside, outside, h]

theorem outside_subset {s s' : Store} {hidden : Set Nat} (h : s.size ≤ s'.size) :
    s.outside hidden ⊆ s'.outside hidden :=
  fun _ hplace => ⟨Nat.lt_of_lt_of_le hplace.1 h, hplace.2⟩

theorem outside_empty (s : Store) : s.outside ∅ = {place | place < s.size} := by
  simp [outside]

namespace Closed

variable {s : Store} {region : Set Nat} {v : Value}

theorem cell (h : s.Closed region) (hv : v.Within region) {c : Cell} (hcell : s.cell? v = some c) :
    c.car.Within region ∧ c.cdr.Within region := by
  obtain ⟨place, rfl, -⟩ := cell?_eq_some_iff.mp hcell
  exact h place c hv hcell

theorem mem_of_reaches (h : s.Closed region) {place : Nat} (hreaches : s.Reaches v place)
    (hv : v.Within region) : place ∈ region := by
  induction hreaches with
  | here => exact hv
  | car hcell _ ih => exact ih (h.cell hv hcell).1
  | cdr hcell _ ih => exact ih (h.cell hv hcell).2
  | params _ ih => exact ih hv.1
  | body _ ih => exact ih hv.2.1
  | env _ ih => exact ih hv.2.2

/-- The end of a chain lies in the region as well. -/
theorem tail (h : s.Closed region) {tail : Value} {places : List Nat} {elements : List Value}
    (hlinks : s.Links v places elements tail) (hv : v.Within region) : tail.Within region := by
  induction hlinks with
  | done => exact hv
  | next hcell _ ih => exact ih (h.cell hv hcell).2

/-! ## What is looked up -/

theorem car (h : s.Closed region) (hv : v.Within region) : (s.car v).Within region := by
  cases hcell : s.cell? v with
  | none => simp [Store.car, hcell, Value.Within]
  | some c =>
    rw [car_of_cell? hcell]
    exact (h.cell hv hcell).1

theorem cdr (h : s.Closed region) (hv : v.Within region) : (s.cdr v).Within region := by
  cases hcell : s.cell? v with
  | none => simp [Store.cdr, hcell, Value.Within]
  | some c =>
    rw [cdr_of_cell? hcell]
    exact (h.cell hv hcell).2

theorem binding? (h : s.Closed region) {name env binding : Value} (henv : env.Within region)
    (hrun : s.binding? name env = .ok (some binding)) : binding.Within region := by
  have hcell (v : Value) (c : Cell) (hv : v.Within region) (hc : s.cell? v = some c) :=
    h.cell hv hc
  exact binding?_found hcell hcell henv hrun

theorem value? (h : s.Closed region) {name env value : Value} (henv : env.Within region)
    (hrun : s.value? name env = .ok (some value)) : value.Within region := by
  unfold Store.value? at hrun
  cases hfound : s.binding? name env with
  | error abort => simp [hfound, Except.map] at hrun
  | ok found =>
    cases found with
    | none => simp [hfound, Except.map] at hrun
    | some binding =>
      obtain rfl : s.cdr binding = value := by simpa [hfound, Except.map] using hrun
      exact h.cdr (h.binding? henv hfound)

theorem last (h : s.Closed region) (hv : v.Within region) {last : Value}
    (hrun : s.last v = .ok last) : last.Within region :=
  last_found (fun _ _ hv hcell => (h.cell hv hcell).2) hv hrun

/-! ## Changes -/

/-- Pairs outside of the region do not count. -/
theorem of_cell? {s' : Store} (h : s.Closed region)
    (hcell : ∀ place ∈ region, s'.cell? (.pair place) = s.cell? (.pair place)) :
    s'.Closed region :=
  fun place c hplace hc => h place c hplace ((hcell place hplace).symm.trans hc)

theorem cons {hidden : Set Nat} (h : s.Closed (s.outside hidden)) {a d : Value}
    (ha : a.Within (s.outside hidden)) (hd : d.Within (s.outside hidden)) :
    (s.cons a d).2.Closed ((s.cons a d).2.outside hidden) := by
  have hsub : s.outside hidden ⊆ (s.cons a d).2.outside hidden :=
    outside_subset (KeepsExcept.cons s a d).size
  intro place c hplace hc
  rw [cell?_cons] at hc
  split at hc
  · cases hc
    exact ⟨ha.mono hsub, hd.mono hsub⟩
  · obtain ⟨hcar, hcdr⟩ := h place c ⟨lt_size_of_cell? hc, hplace.2⟩ hc
    exact ⟨hcar.mono hsub, hcdr.mono hsub⟩

theorem setCar (h : s.Closed region) (v : Value) {a : Value} (ha : a.Within region) :
    (s.setCar v a).Closed region := by
  intro place c hplace hc
  rw [cell?_setCar] at hc
  split at hc
  · obtain ⟨c', hc', rfl⟩ := Option.map_eq_some_iff.mp hc
    exact ⟨ha, (h place c' hplace hc').2⟩
  · exact h place c hplace hc

theorem setCdr (h : s.Closed region) (v : Value) {d : Value} (hd : d.Within region) :
    (s.setCdr v d).Closed region := by
  intro place c hplace hc
  rw [cell?_setCdr] at hc
  split at hc
  · obtain ⟨c', hc', rfl⟩ := Option.map_eq_some_iff.mp hc
    exact ⟨(h place c' hplace hc').1, hd⟩
  · exact h place c hplace hc

/-- A change that is made of values outside of what is hidden does not lead into it. -/
theorem perform {hidden : Set Nat} (h : s.Closed (s.outside hidden)) {d : Change}
    (hd : ∀ v ∈ d.values, v.Within (s.outside hidden)) :
    (d.perform s).2.Closed ((d.perform s).2.outside hidden) := by
  cases d with
  | cons a d => exact h.cons (hd a (by simp [Change.values])) (hd d (by simp [Change.values]))
  | setCar v a =>
    have hclosed := h.setCar v (hd a (by simp [Change.values]))
    rwa [outside_eq (s.size_setCar v a).symm] at hclosed
  | setCdr v d =>
    have hclosed := h.setCdr v (hd d (by simp [Change.values]))
    rwa [outside_eq (s.size_setCdr v d).symm] at hclosed
  | number | error | closure => exact h

end Closed

end Store

end ConsLisp
