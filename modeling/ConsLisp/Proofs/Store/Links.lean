import ConsLisp.Store.Chain

/-!
# Chains that end

`Links` follows a chain to its last pair and says which pairs it meets, which elements they
hold and which atom stands at the end.  A chain that ends meets no pair twice, so it has no
more pairs than the store has cells, and every walk along it is a walk over a list.

Main statements: the bound (`Links.length_le_size`) and the results of the walks
(`Links.chain_eq`, `Links.search_eq`, `Links.last_eq`).
-/

namespace ConsLisp.Store

/-- The chain of a value meets the pairs at these places with these elements, and ends at
the atom `tail`. -/
inductive Links (s : Store) : Value → List Nat → List Value → Value → Prop
  | done {v : Value} (hcell : s.cell? v = none) : Links s v [] [] v
  | next {place : Nat} {a d tail : Value} {places : List Nat} {elements : List Value}
      (hcell : s.cell? (.pair place) = some ⟨a, d⟩) (hrest : Links s d places elements tail) :
      Links s (.pair place) (place :: places) (a :: elements) tail

variable {s : Store} {v tail : Value} {places : List Nat} {elements : List Value}

theorem Links.length_eq (h : Links s v places elements tail) :
    elements.length = places.length := by
  induction h with
  | done => rfl
  | next _ _ ih => simp [ih]

theorem Links.tail_eq_none (h : s.Links v places elements tail) : s.cell? tail = none := by
  induction h with
  | done hcell => exact hcell
  | next _ _ ih => exact ih

/-- Only one sequence of pairs is met from a value. -/
theorem Links.functional {places' : List Nat} {elements' : List Value} {tail' : Value}
    (h : Links s v places elements tail) (h' : Links s v places' elements' tail') :
    places = places' ∧ elements = elements' ∧ tail = tail' := by
  induction h generalizing places' elements' tail' with
  | done hcell =>
    cases h' with
    | done => exact ⟨rfl, rfl, rfl⟩
    | next hcell' _ => simp [hcell] at hcell'
  | next hcell _ ih =>
    cases h' with
    | done hcell' => simp [hcell] at hcell'
    | next hcell' hrest' =>
      obtain ⟨rfl, rfl⟩ : _ ∧ _ := by simpa [hcell] using hcell'
      obtain ⟨rfl, rfl, rfl⟩ := ih hrest'
      exact ⟨rfl, rfl, rfl⟩

/-- From every pair that is met, the rest of the chain goes on to the same end. -/
theorem Links.of_mem (h : Links s v places elements tail) {place : Nat} (hmem : place ∈ places) :
    ∃ before after after',
      places = before ++ place :: after ∧ Links s (.pair place) (place :: after) after' tail := by
  induction h with
  | done => simp at hmem
  | next hcell hrest ih =>
    rcases List.mem_cons.mp hmem with rfl | hmem
    · exact ⟨[], _, _, rfl, .next hcell hrest⟩
    · obtain ⟨before, after, after', rfl, hlinks⟩ := ih hmem
      exact ⟨_ :: before, after, after', rfl, hlinks⟩

/-- No pair is met twice: the rest of the chain would be as long as the whole. -/
theorem Links.nodup (h : Links s v places elements tail) : places.Nodup := by
  induction h with
  | done => exact List.nodup_nil
  | @next place a d tail places elements hcell hrest ih =>
    refine List.nodup_cons.mpr ⟨fun hmem => ?_, ih⟩
    obtain ⟨before, after, after', hplaces, hlinks⟩ := hrest.of_mem hmem
    have hsame := ((Links.next hcell hrest).functional hlinks).1
    have hlength := congrArg List.length hsame
    simp [hplaces] at hlength
    omega

theorem Links.lt_size (h : Links s v places elements tail) {place : Nat} (hmem : place ∈ places) :
    place < s.size := by
  obtain ⟨_, _, _, _, hlinks⟩ := h.of_mem hmem
  cases hlinks with
  | next hcell _ => exact lt_size_of_cell? hcell

/-- A pair that is met holds one of the elements, and behind it stands another pair or the end. -/
theorem Links.cell_of_mem (h : Links s v places elements tail) {place : Nat}
    (hmem : place ∈ places) : ∃ c, s.cell? (.pair place) = some c ∧ c.car ∈ elements ∧
      (c.cdr = tail ∨ ∃ next, c.cdr = .pair next) := by
  induction h with
  | done => simp at hmem
  | next hcell hrest ih =>
    rcases List.mem_cons.mp hmem with rfl | hmem
    · refine ⟨_, hcell, List.mem_cons_self, ?_⟩
      cases hrest with
      | done => exact .inl rfl
      | next => exact .inr ⟨_, rfl⟩
    · obtain ⟨c, hcell', helement, hcdr⟩ := ih hmem
      exact ⟨c, hcell', List.mem_cons_of_mem _ helement, hcdr⟩

/-- A chain that ends has no more pairs than the store has cells. -/
theorem Links.length_le_size (h : Links s v places elements tail) : places.length ≤ s.size := by
  have hsubset : places ⊆ List.range s.size := fun place hmem =>
    List.mem_range.mpr (h.lt_size hmem)
  simpa using h.nodup.length_le_of_subset hsubset

/-- The value is a proper list of these elements. -/
def IsList (s : Store) (v : Value) (elements : List Value) : Prop :=
  ∃ places, s.Links v places elements .nil

/-! ## Walks along a chain that ends -/

theorem Links.foldWithin_collects (h : Links s v places elements tail) {fuel : Nat}
    (hfuel : places.length ≤ fuel) (seen : List Value) :
    s.foldWithin (fun seen element => .ok (element :: seen)) fuel seen v =
      .ok (elements.reverse ++ seen, tail) := by
  induction h generalizing fuel seen with
  | done hcell => unfold foldWithin; simp [hcell]
  | next hcell _ ih =>
    cases fuel with
    | zero => simp at hfuel
    | succ fuel =>
      unfold foldWithin
      simp [hcell, ih (Nat.le_of_succ_le_succ hfuel)]

/-- The elements along a chain are those of its pairs. -/
theorem Links.chain_eq (h : Links s v places elements tail) :
    s.chain v = .ok (elements, tail) := by
  simp [chain, fold, h.foldWithin_collects h.length_le_size, Except.map]

theorem Links.elements_eq (h : Links s v places elements tail) : s.elements v = .ok elements := by
  simp [Store.elements, h.chain_eq, Except.map]

/-- A fold along a chain is the fold over its elements. -/
theorem Links.fold_eq (h : Links s v places elements tail) {α : Type}
    (step : α → Value → Except Abort α) (a : α) :
    s.fold step a v = (elements.foldlM step a).map (·, tail) :=
  fold_of_chain h.chain_eq step a

/-- A search along a chain is a search in the list of its elements. -/
theorem Links.search_eq (h : Links s v places elements tail) {α : Type}
    {test : Value → Except Abort (Option α)} {test' : Value → Option α}
    (htest : ∀ element ∈ elements, test element = .ok (test' element)) {fuel : Nat}
    (hfuel : places.length ≤ fuel) :
    s.search test fuel v = .ok (elements.findSome? test') := by
  induction h generalizing fuel with
  | done hcell => unfold search; simp [hcell]
  | @next place a d tail places elements hcell _ ih =>
    cases fuel with
    | zero => simp at hfuel
    | succ fuel =>
      have hhead := htest a List.mem_cons_self
      have htail := ih (fun element hmem => htest element (List.mem_cons_of_mem a hmem))
        (Nat.le_of_succ_le_succ hfuel)
      unfold search
      cases htest' : test' a <;> simp [hcell, hhead, htest', htail]

/-- Is there an element of this sort along the chain?  The list of elements says. -/
theorem Links.hasElement_eq (h : Links s v places elements tail) (sort : Value → Bool) :
    s.hasElement sort v = .ok (elements.any sort) := by
  let test : Value → Option Unit := fun element => if sort element then some () else none
  have hsearch : s.search (fun element => .ok (test element)) s.size v =
      .ok (elements.findSome? test) :=
    h.search_eq (fun _ _ => rfl) h.length_le_size
  have hany : (elements.findSome? test).isSome = elements.any sort := by
    rw [Bool.eq_iff_iff, List.findSome?_isSome_iff, List.any_eq_true]
    simp [test]
  rw [hasElement, hsearch, ← hany]
  rfl

theorem Links.lastOf_eq {place : Nat} (h : Links s v (place :: places) elements tail) {fuel : Nat}
    (hfuel : places.length ≤ fuel) :
    s.lastOf fuel v = .ok (.pair ((place :: places).getLast (List.cons_ne_nil place places))) := by
  induction places generalizing v place elements fuel with
  | nil =>
    cases h with
    | next hcell hrest =>
      cases hrest with
      | done hend =>
        unfold lastOf
        simp [isPair, cdr, hcell, hend]
  | cons next places ih =>
    cases h with
    | next hcell hrest =>
      cases fuel with
      | zero => simp at hfuel
      | succ fuel =>
        have hlast := ih hrest (Nat.le_of_succ_le_succ hfuel)
        cases hrest with
        | next hnext _ =>
          unfold lastOf
          simpa [isPair, cdr, hcell, hnext] using hlast

/-- The last pair of a chain. -/
theorem Links.last_eq {place : Nat} (h : Links s v (place :: places) elements tail) :
    s.last v = .ok (.pair ((place :: places).getLast (List.cons_ne_nil place places))) :=
  h.lastOf_eq (Nat.le_of_succ_le h.length_le_size)

end ConsLisp.Store
