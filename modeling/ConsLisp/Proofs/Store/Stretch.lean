import ConsLisp.Proofs.Store.Links
import Mathlib.Data.Set.Card

/-!
# Stretches of chains

A stretch of a chain begins at one value and comes to another.  That may be an atom, where the
chain ends, or any pair, also one that the stretch has met before.  No chain goes on without an end
or a repetition, since a store has only so many cells: every chain ends, or it comes back to one of
its pairs after a stem of pairs that it meets once.

Main statements: the two kinds of chain (`ends_or_returns`), and the number of pairs that a chain
meets (`Stretch.ncard_meets`).
-/

namespace ConsLisp.Store

/-- From the value `v` the chain meets the pairs at these places with these elements, and then it
comes to `w`. -/
inductive Stretch (s : Store) : Value → List Nat → List Value → Value → Prop
  | refl (v : Value) : Stretch s v [] [] v
  | next {place : Nat} {a d w : Value} {places : List Nat} {elements : List Value}
      (hcell : s.cell? (.pair place) = some ⟨a, d⟩) (hrest : Stretch s d places elements w) :
      Stretch s (.pair place) (place :: places) (a :: elements) w

/-- The chain of a value comes to the pair at this place. -/
inductive Meets (s : Store) : Value → Nat → Prop
  | here {place : Nat} {c : Cell} (hcell : s.cell? (.pair place) = some c) :
      Meets s (.pair place) place
  | later {v : Value} {c : Cell} {place : Nat} (hcell : s.cell? v = some c)
      (h : Meets s c.cdr place) : Meets s v place

/-- The chain behind a pair comes back to it. -/
def Recurs (s : Store) (place : Nat) : Prop :=
  s.Meets (s.cdr (.pair place)) place

/-- The chain of a value comes to a pair that it comes back to. -/
def Cyclic (s : Store) (v : Value) : Prop :=
  ∃ place, s.Meets v place ∧ s.Recurs place

variable {s s' : Store} {u v w : Value} {place : Nat} {places more : List Nat}
  {elements others : List Value}

/-! ## Parts of a stretch -/

theorem Stretch.trans (h : s.Stretch u places elements v) (h' : s.Stretch v more others w) :
    s.Stretch u (places ++ more) (elements ++ others) w := by
  induction h with
  | refl => exact h'
  | next hcell _ ih => exact .next hcell (ih h')

/-- A stretch can be divided behind any of its pairs. -/
theorem Stretch.split (h : s.Stretch u (places ++ more) elements w) :
    ∃ v front back, elements = front ++ back ∧ s.Stretch u places front v ∧
      s.Stretch v more back w := by
  induction places generalizing u elements with
  | nil => exact ⟨u, [], elements, rfl, .refl u, h⟩
  | cons place places ih =>
    cases h with
    | next hcell hrest =>
      obtain ⟨v, front, back, rfl, hfront, hback⟩ := ih hrest
      exact ⟨v, _ :: front, back, rfl, .next hcell hfront, hback⟩

/-- A stretch that meets a pair can be divided before it and behind it. -/
theorem Stretch.of_mem (h : s.Stretch u places elements w) (hmem : place ∈ places) :
    ∃ before after front back c, places = before ++ place :: after ∧
      s.cell? (.pair place) = some c ∧ s.Stretch u before front (.pair place) ∧
      s.Stretch c.cdr after back w := by
  obtain ⟨before, after, rfl⟩ := List.append_of_mem hmem
  obtain ⟨v, front, back, -, hfront, hback⟩ := h.split
  cases hback with
  | next hcell hrest => exact ⟨before, after, front, _, _, rfl, hcell, hfront, hrest⟩

theorem Stretch.isPair (h : s.Stretch u places elements w) (hmem : place ∈ places) :
    ∃ c, s.cell? (.pair place) = some c := by
  obtain ⟨_, _, _, _, c, _, hcell, _⟩ := h.of_mem hmem
  exact ⟨c, hcell⟩

/-- The pairs and the end of a stretch say where it begins, in whatever store. -/
theorem Stretch.start_eq {front back : List Value} (h : s.Stretch u places front w)
    (h' : s'.Stretch v places back w) : u = v := by
  cases h with
  | refl =>
    cases h' with
    | refl => rfl
  | next =>
    cases h' with
    | next => rfl

/-- The pairs of a stretch have the second fields that they have on it in another store. -/
theorem Stretch.cdr_eq {front back : List Value} (h : s.Stretch u places front w)
    (h' : s'.Stretch v places back w) (hmem : place ∈ places) :
    (s'.cell? (.pair place)).map Cell.cdr = (s.cell? (.pair place)).map Cell.cdr := by
  induction h generalizing v back with
  | refl => simp at hmem
  | next hcell hrest ih =>
    cases h' with
    | next hcell' hrest' =>
      rcases List.mem_cons.mp hmem with rfl | hmem
      · rw [hcell, hcell', hrest.start_eq hrest']
        rfl
      · exact ih hrest' hmem

theorem Stretch.length_le_size (h : s.Stretch u places elements w) (hnodup : places.Nodup) :
    places.length ≤ s.size := by
  have hsubset : places ⊆ List.range s.size := fun place hmem => by
    obtain ⟨c, hcell⟩ := h.isPair hmem
    exact List.mem_range.mpr (lt_size_of_cell? hcell)
  simpa using hnodup.length_le_of_subset hsubset

theorem Links.stretch {tail : Value} (h : s.Links v places elements tail) :
    s.Stretch v places elements tail := by
  induction h with
  | done => exact .refl _
  | next hcell _ ih => exact .next hcell ih

/-- A stretch up to an atom is the whole chain. -/
theorem Stretch.links (h : s.Stretch v places elements w) (hend : s.cell? w = none) :
    s.Links v places elements w := by
  induction h with
  | refl => exact .done hend
  | next hcell _ ih => exact .next hcell (ih hend)

/-! ## The pairs that a chain meets -/

theorem Stretch.meets (h : s.Stretch u places elements v) (hmeets : s.Meets v place) :
    s.Meets u place := by
  induction h with
  | refl => exact hmeets
  | next hcell _ ih => exact .later hcell (ih hmeets)

/-- What a chain meets lies on a stretch of it, or behind. -/
theorem Stretch.mem_or_meets (h : s.Stretch u places elements w) (hmeets : s.Meets u place) :
    place ∈ places ∨ s.Meets w place := by
  induction h with
  | refl => exact .inr hmeets
  | next hcell _ ih =>
    cases hmeets with
    | here => exact .inl List.mem_cons_self
    | later hcell' hrest =>
      obtain rfl := Option.some.inj (hcell.symm.trans hcell')
      exact (ih hrest).imp_left (List.mem_cons_of_mem _)

/-- The pairs of a stretch are met. -/
theorem Stretch.meets_of_mem (h : s.Stretch u places elements w) (hmem : place ∈ places) :
    s.Meets u place := by
  obtain ⟨before, after, front, back, c, -, hcell, hfront, -⟩ := h.of_mem hmem
  exact hfront.meets (.here hcell)

theorem not_meets_of_cell? (hv : s.cell? v = none) : ¬s.Meets v place := by
  intro hmeets
  cases hmeets with
  | here hcell => simp [hv] at hcell
  | later hcell _ => simp [hv] at hcell

/-- A stretch from a pair back to it holds all that its chain meets, from wherever on it. -/
theorem Stretch.mem_of_meets_rest {start : Nat} {rest : List Nat} {back : List Value}
    (hloop : s.Stretch (.pair start) (start :: places) elements (.pair start))
    (hrest : s.Stretch v rest back (.pair start))
    (hsubset : ∀ other ∈ rest, other ∈ start :: places) (hmeets : s.Meets v place) :
    place ∈ start :: places := by
  induction hmeets generalizing rest back with
  | here =>
    cases hrest with
    | refl => exact List.mem_cons_self
    | next => exact hsubset _ List.mem_cons_self
  | later hcell _ ih =>
    cases hrest with
    | refl =>
      -- The rest is at its end, so another round begins.
      cases hloop with
      | next hcell' hround =>
        obtain rfl := Option.some.inj (hcell.symm.trans hcell')
        exact ih hround fun other hmem => List.mem_cons_of_mem _ hmem
    | next hcell' hrest' =>
      obtain rfl := Option.some.inj (hcell.symm.trans hcell')
      exact ih hrest' fun other hmem => hsubset other (List.mem_cons_of_mem _ hmem)

/-! ## Chains that end and chains that return -/

/-- A chain comes back to one of its pairs: it meets the pairs of a stem, and then those of a loop
again and again, all of them apart. -/
structure Returns (s : Store) (v : Value) (stem : List Nat) (start : Nat) (loop : List Nat) :
    Prop where
  approach : ∃ elements, s.Stretch v stem elements (.pair start)
  round : ∃ elements, s.Stretch (.pair start) (start :: loop) elements (.pair start)
  nodup : (stem ++ start :: loop).Nodup

theorem Returns.meets_iff {stem loop : List Nat} {start : Nat} (h : s.Returns v stem start loop) :
    s.Meets v place ↔ place ∈ stem ++ start :: loop := by
  obtain ⟨⟨front, hstem⟩, ⟨back, hloop⟩, -⟩ := h
  constructor
  · intro hmeets
    rcases hstem.mem_or_meets hmeets with hmem | hmeets
    · exact List.mem_append_left _ hmem
    · exact List.mem_append_right _ (hloop.mem_of_meets_rest (.refl _) (by simp) hmeets)
  · exact (hstem.trans hloop).meets_of_mem

theorem Returns.length_le_size {stem loop : List Nat} {start : Nat}
    (h : s.Returns v stem start loop) : (stem ++ start :: loop).length ≤ s.size := by
  obtain ⟨⟨front, hstem⟩, ⟨back, hloop⟩, hnodup⟩ := h
  exact (hstem.trans hloop).length_le_size hnodup

/-- The chain of a pair on the loop comes back to it. -/
theorem Returns.recurs {stem loop : List Nat} {start : Nat} (h : s.Returns v stem start loop)
    (hmem : place ∈ start :: loop) : s.Recurs place := by
  obtain ⟨back, hloop⟩ := h.round
  obtain ⟨_, _, _, _, c, -, hcell, hbefore, hafter⟩ := hloop.of_mem hmem
  rw [Recurs, cdr_of_cell? hcell]
  exact (hafter.trans hbefore).meets (.here hcell)

theorem Links.meets_iff {tail : Value} (h : s.Links v places elements tail) :
    s.Meets v place ↔ place ∈ places :=
  ⟨fun hmeets => (h.stretch.mem_or_meets hmeets).resolve_right
    (not_meets_of_cell? h.tail_eq_none), h.stretch.meets_of_mem⟩

/-- A chain that ends does not come back to any of its pairs. -/
theorem Links.not_cyclic {tail : Value} (h : s.Links v places elements tail) : ¬s.Cyclic v := by
  rintro ⟨place, hmeets, hrecurs⟩
  obtain ⟨before, after, -, back, c, rfl, hcell, -, hafter⟩ :=
    h.stretch.of_mem (h.meets_iff.mp hmeets)
  rw [Recurs, cdr_of_cell? hcell, (hafter.links h.tail_eq_none).meets_iff] at hrecurs
  have hnodup := (List.nodup_append.mp h.nodup).2.1
  exact (List.nodup_cons.mp hnodup).1 hrecurs

/-- A stretch without a repetition is part of a chain that ends or comes back. -/
theorem Stretch.ends_or_returns (h : s.Stretch v places elements w) (hnodup : places.Nodup) :
    (∃ places elements tail, s.Links v places elements tail) ∨
      ∃ stem start loop, s.Returns v stem start loop := by
  -- By induction on the number of cells that are not on the stretch.
  induction hleft : s.size - places.length using Nat.strong_induction_on
    generalizing places elements w with
  | _ left ih =>
    cases hw : s.cell? w with
    | none => exact .inl ⟨places, elements, w, h.links hw⟩
    | some c =>
      obtain ⟨place, rfl, -⟩ := cell?_eq_some_iff.mp hw
      by_cases hmem : place ∈ places
      · obtain ⟨stem, loop, front, back, c', rfl, hcell, hstem, hloop⟩ := h.of_mem hmem
        exact .inr ⟨stem, place, loop, ⟨front, hstem⟩, ⟨_, .next hcell hloop⟩, hnodup⟩
      · have hlonger : s.Stretch v (places ++ [place]) (elements ++ [c.car]) c.cdr :=
          h.trans (.next hw (.refl c.cdr))
        have hnodup' : (places ++ [place]).Nodup := by
          rw [← List.concat_eq_append]
          exact hnodup.concat hmem
        have hlength : (places ++ [place]).length ≤ s.size := hlonger.length_le_size hnodup'
        rw [List.length_append, List.length_singleton] at hlength
        refine ih _ ?_ hlonger hnodup' rfl
        rw [List.length_append, List.length_singleton]
        omega

/-- Every chain ends or comes back to one of its pairs. -/
theorem ends_or_returns (s : Store) (v : Value) :
    (∃ places elements tail, s.Links v places elements tail) ∨
      ∃ stem start loop, s.Returns v stem start loop :=
  (Stretch.refl v).ends_or_returns List.nodup_nil

/-- The number of pairs that a chain meets. -/
theorem ncard_meets (hmeets : ∀ place, s.Meets v place ↔ place ∈ places) (hnodup : places.Nodup) :
    {place | s.Meets v place}.ncard = places.length := by
  have hset : {place | s.Meets v place} = ↑places.toFinset := by
    ext place
    simp [hmeets]
  rw [hset, Set.ncard_coe_finset, List.toFinset_card_of_nodup hnodup]

end ConsLisp.Store
