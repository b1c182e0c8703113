import ConsLisp.Proofs.Store.Links
import Mathlib.Logic.Relation
import Mathlib.Order.WellFounded

/-!
# Stores without cycles

A pair shows the values in its fields, and a closure among them shows its parameters and its
body.  The environment that a closure has captured is not shown.  In a store where what is shown
never leads back to itself every chain ends, and so does every way along first and second fields.

Main statement: every chain of a founded store ends (`Founded.links`).
-/

namespace ConsLisp

/-- The value is this pair, or a closure whose parameters or body show it. -/
inductive Value.Shows : Value → Nat → Prop
  | pair (place : Nat) : Shows (.pair place) place
  | params {serial place : Nat} {params body env : Value} (h : Shows params place) :
      Shows (.closure serial params body env) place
  | body {serial place : Nat} {params body env : Value} (h : Shows body place) :
      Shows (.closure serial params body env) place

namespace Store

/-- The value is met from the whole by first and second fields. -/
inductive Part (s : Store) (whole : Value) : Value → Prop
  | refl : Part s whole whole
  | car {v : Value} {c : Cell} (h : Part s whole v) (hcell : s.cell? v = some c) :
      Part s whole c.car
  | cdr {v : Value} {c : Cell} (h : Part s whole v) (hcell : s.cell? v = some c) :
      Part s whole c.cdr

/-- A field of the outer pair shows the inner one. -/
def Below (s : Store) (inner outer : Nat) : Prop :=
  ∃ c, s.cell? (.pair outer) = some c ∧ (c.car.Shows inner ∨ c.cdr.Shows inner)

/-- No pair is shown by itself, at any distance. -/
def Acyclic (s : Store) : Prop :=
  ∀ place, ¬Relation.TransGen s.Below place place

/-- No way down through the pairs that are shown goes on for ever. -/
def Founded (s : Store) : Prop :=
  WellFounded s.Below

/-- No way down from the value goes on for ever. -/
def Ending (s : Store) (v : Value) : Prop :=
  ∀ place, v.Shows place → Acc s.Below place

variable {s : Store}

theorem Founded.acyclic (h : s.Founded) : s.Acyclic := by
  intro place hcycle
  exact h.transGen.irrefl.irrefl place hcycle

theorem Part.trans {u v w : Value} (h : s.Part u v) (h' : s.Part v w) : s.Part u w := by
  induction h' with
  | refl => exact h
  | car _ hcell ih => exact ih.car hcell
  | cdr _ hcell ih => exact ih.cdr hcell

theorem below_cdr {place next : Nat} {a : Value}
    (hcell : s.cell? (.pair place) = some ⟨a, .pair next⟩) : s.Below next place :=
  ⟨_, hcell, .inr (.pair next)⟩

/-- Every chain ends. -/
theorem Founded.links (h : s.Founded) (v : Value) :
    ∃ places elements tail, s.Links v places elements tail := by
  cases hv : s.cell? v with
  | none => exact ⟨[], [], v, .done hv⟩
  | some c =>
    obtain ⟨place, rfl, -⟩ := cell?_eq_some_iff.mp hv
    -- By induction on the pair: the next one of the chain is shown by it.
    induction place using h.induction generalizing c with
    | _ place ih =>
      obtain ⟨a, d⟩ := c
      cases hd : s.cell? d with
      | none => exact ⟨[place], [a], d, .next hv (.done hd)⟩
      | some c' =>
        obtain ⟨next, rfl, -⟩ := cell?_eq_some_iff.mp hd
        obtain ⟨places, elements, tail, hlinks⟩ := ih next (below_cdr hv) c' hd
        exact ⟨place :: places, a :: elements, tail, .next hv hlinks⟩

/-- A pair ends if both of its fields do. -/
theorem ending_pair {place : Nat} {c : Cell} (hcell : s.cell? (.pair place) = some c)
    (hcar : s.Ending c.car) (hcdr : s.Ending c.cdr) : s.Ending (.pair place) := by
  rintro _ ⟨⟩
  refine Acc.intro _ fun inner hbelow => ?_
  obtain ⟨c', hcell', hshows⟩ := hbelow
  obtain rfl := Option.some.inj (hcell.symm.trans hcell')
  exact hshows.elim (hcar inner) (hcdr inner)

/-- The elements of a chain are parts of it. -/
theorem Links.part {v tail : Value} {places : List Nat} {elements : List Value}
    (h : s.Links v places elements tail) : (∀ element ∈ elements, s.Part v element) ∧
      s.Part v tail := by
  induction h with
  | done => exact ⟨by simp, .refl⟩
  | @next place a d tail places elements hcell _ ih =>
    have hcdr : s.Part (.pair place) d := Part.cdr (c := ⟨a, d⟩) .refl hcell
    refine ⟨fun element hmem => ?_, hcdr.trans ih.2⟩
    rcases List.mem_cons.mp hmem with rfl | hmem
    · exact Part.car (c := ⟨element, d⟩) .refl hcell
    · exact hcdr.trans (ih.1 element hmem)

end Store

end ConsLisp
