import ConsLisp.Proofs.Store.Visible
import Mathlib.Data.List.Nodup

/-!
# New frames

The frame of a call is built backwards, one binding for each pair of a name and a value, and then
reversed in place.  All its pairs are new, so nothing that was there before changes.

Main statements: the frame of any two chains (`Action.zip_fresh`), and which bindings it holds if
both chains end (`Action.zip_of_chains`, `Action.zip_of_links`).
-/

namespace ConsLisp

namespace Store

/-- The pairs at these places hold these names and values. -/
def Holds (s : Store) (bindings : List Nat) (pairs : List (Value × Value)) : Prop :=
  List.Forall₂ (fun place (name, value) => s.cell? (.pair place) = some ⟨name, value⟩)
    bindings pairs

theorem Holds.keep {s s' : Store} {bindings : List Nat} {pairs : List (Value × Value)}
    (h : s.Holds bindings pairs)
    (hcell : ∀ place ∈ bindings, s'.cell? (.pair place) = s.cell? (.pair place)) :
    s'.Holds bindings pairs := by
  have hmem := (List.forall₂_and_left bindings pairs).mpr ⟨fun _ hmem => hmem, h⟩
  exact hmem.imp fun place _ ⟨hplace, hholds⟩ => (hcell place hplace).trans hholds

theorem Holds.lt_size {s : Store} {bindings : List Nat} {pairs : List (Value × Value)}
    (h : s.Holds bindings pairs) {place : Nat} (hmem : place ∈ bindings) : place < s.size := by
  obtain ⟨i, hi, rfl⟩ := List.getElem_of_mem hmem
  exact lt_size_of_cell? (h.get hi (h.length_eq ▸ hi))

theorem Holds.isPair {s : Store} {bindings : List Nat} {pairs : List (Value × Value)}
    (h : s.Holds bindings pairs) {place : Nat} (hmem : place ∈ bindings) :
    s.isPair (.pair place) = true := by
  obtain ⟨i, hi, rfl⟩ := List.getElem_of_mem hmem
  exact Option.isSome_iff_exists.mpr ⟨_, h.get hi (h.length_eq ▸ hi)⟩

/-- The first binding of a name holds the first value that is paired with it. -/
theorem Holds.map_firstOf {s : Store} {bindings : List Nat} {pairs : List (Value × Value)}
    (h : s.Holds bindings pairs) (name : Value) :
    (s.firstOf name (bindings.map .pair)).map s.cdr =
      (pairs.find? fun pair => pair.1 = name).map Prod.snd := by
  unfold firstOf
  induction h with
  | nil => rfl
  | @cons place pair bindings pairs hcell _ ih =>
    have hcar : s.car (.pair place) = pair.1 := car_of_cell? hcell
    have hcdr : s.cdr (.pair place) = pair.2 := cdr_of_cell? hcell
    rw [List.map_cons, List.find?_cons, List.find?_cons, hcar]
    by_cases hname : pair.1 = name
    · simp [hname, hcdr]
    · simpa [hname] using ih

/-- A frame of these bindings, in this order, made of pairs that the first store does not have.  No
pair of the first store has changed. -/
structure NewFrame (first s : Store) (frame : Value) (places bindings : List Nat)
    (pairs : List (Value × Value)) : Prop where
  keeps : KeepsExcept [] first s
  links : s.Links frame places (bindings.map .pair) .nil
  fresh : ∀ place ∈ places ++ bindings, first.size ≤ place
  nodup : (places ++ bindings).Nodup
  holds : s.Holds bindings pairs

namespace NewFrame

variable {first s : Store} {frame name value : Value} {places bindings : List Nat}
  {pairs : List (Value × Value)}

theorem nil (s : Store) : s.NewFrame s .nil [] [] [] :=
  ⟨.refl [] s, .done rfl, by simp, List.nodup_nil, .nil⟩

/-- All pairs of the frame are pairs of the store. -/
theorem lt_size (h : first.NewFrame s frame places bindings pairs) {place : Nat}
    (hmem : place ∈ places ++ bindings) : place < s.size := by
  rcases List.mem_append.mp hmem with hmem | hmem
  · exact h.links.lt_size hmem
  · exact h.holds.lt_size hmem

/-- The frame stays as it is while no pair changes. -/
theorem keep {s' : Store} (h : first.NewFrame s frame places bindings pairs)
    (hkeeps : KeepsExcept [] s s') : first.NewFrame s' frame places bindings pairs := by
  constructor
  case keeps => exact h.keeps.trans hkeeps (by simp)
  case links => exact h.links.keep hkeeps (by simp) rfl
  case fresh => exact h.fresh
  case nodup => exact h.nodup
  case holds => exact h.holds.keep fun place hmem => hkeeps.cell (h.holds.lt_size hmem) (by simp)

/-- One more binding is put in front. -/
theorem push (h : first.NewFrame s frame places bindings pairs) (name value : Value) :
    first.NewFrame ((s.cons name value).2.cons (.pair s.size) frame).2 (.pair (s.size + 1))
      ((s.size + 1) :: places) (s.size :: bindings) ((name, value) :: pairs) := by
  let s₁ := (s.cons name value).2
  let s₂ := (s₁.cons (.pair s.size) frame).2
  have hsize₁ : s₁.size = s.size + 1 := s.size_cons ..
  have hkeeps₁ : KeepsExcept [] s s₁ := .cons ..
  have hkeeps₂ : KeepsExcept [] s₁ s₂ := .cons ..
  have hkeeps : KeepsExcept [] s s₂ := hkeeps₁.trans hkeeps₂ (by simp)
  have hbinding : s₂.cell? (.pair s.size) = some ⟨name, value⟩ := by
    rw [hkeeps₂.cell (by omega) (by simp)]
    exact s.cell?_cons_self ..
  have hframe : s₂.cell? (.pair (s.size + 1)) = some ⟨.pair s.size, frame⟩ := by
    rw [← hsize₁]
    exact s₁.cell?_cons_self ..
  -- The pairs so far lie in front of the two new ones.
  have hlt : ∀ place ∈ places ++ bindings, place < s.size := fun place => h.lt_size
  constructor
  case keeps => exact h.keeps.trans hkeeps (by simp)
  case links => exact .next hframe (h.links.keep hkeeps (by simp) rfl)
  case fresh =>
    have hsize := h.keeps.size
    intro place hmem
    rw [List.mem_append, List.mem_cons, List.mem_cons] at hmem
    rcases hmem with (rfl | hmem) | rfl | hmem
    · omega
    · exact h.fresh place (List.mem_append_left _ hmem)
    · exact hsize
    · exact h.fresh place (List.mem_append_right _ hmem)
  case nodup =>
    rw [List.cons_append, List.nodup_cons, List.perm_middle.nodup_iff, List.nodup_cons]
    refine ⟨fun hmem => ?_, fun hmem => ?_, h.nodup⟩
    · have hmem' := List.perm_middle.mem_iff.mp hmem
      rcases List.mem_cons.mp hmem' with heq | hmem'
      · omega
      · have := hlt _ hmem'
        omega
    · exact absurd (hlt _ hmem) (Nat.lt_irrefl _)
  case holds =>
    refine .cons hbinding (h.holds.keep fun place hmem => ?_)
    exact hkeeps.cell (h.holds.lt_size hmem) (by simp)

end NewFrame

end Store

namespace Action

open Store

variable {first s : Store} {log : Log} {done keys values : Value} {places bindings : List Nat}
  {pairs : List (Value × Value)}

/-- The frame is turned around in place, and is complete. -/
theorem reverse_newFrame (h : first.NewFrame s done places bindings pairs) (log : Log) :
    ∃ frame s', (reverse done : Action Value) ⟨s, log⟩ = .ok frame ⟨s', log⟩ ∧
      first.NewFrame s' frame places.reverse bindings.reverse pairs.reverse := by
  let state : State := ⟨s, log⟩
  have hdone : state.store.Links done places (bindings.map .pair) .nil := h.links
  obtain ⟨frame, s', hrun, hlinks, hkeeps, -⟩ := reverse_of_links hdone
  obtain ⟨-, -, hdisjoint⟩ := List.nodup_append.mp h.nodup
  refine ⟨frame, s', hrun, ?_⟩
  constructor
  case keeps =>
    -- The pairs that are turned are new.
    refine h.keeps.trans hkeeps fun place hlt hmem => ?_
    have hle := h.fresh place (List.mem_append_left _ hmem)
    omega
  case links => rwa [List.map_reverse]
  case fresh => exact fun place hmem => h.fresh place (by simpa using hmem)
  case nodup =>
    rw [← List.reverse_append, List.nodup_reverse, List.nodup_append_comm]
    exact h.nodup
  case holds =>
    refine List.rel_reverse (h.holds.keep fun place hmem => ?_)
    exact hkeeps.cell (h.holds.lt_size hmem) fun hmem' => hdisjoint place hmem' place hmem rfl

/-- Where either chain ends, the frame is finished. -/
theorem zipOnto_end {fuel : Nat} (h : s.cell? keys = none ∨ s.cell? values = none) :
    (zipOnto fuel done keys values : Action Value) ⟨s, log⟩ =
      (reverse done : Action Value) ⟨s, log⟩ := by
  unfold zipOnto
  simp only [Bind.bind, EStateM.bind, Machine.look]
  rcases h with h | h
  · rw [h]
  · rw [h]
    cases s.cell? keys with
    | none => rfl
    | some key => rfl

/-- Where both go on, a binding is put in front. -/
theorem zipOnto_next {fuel : Nat} {key value : Cell} (hkey : s.cell? keys = some key)
    (hvalue : s.cell? values = some value) :
    (zipOnto (fuel + 1) done keys values : Action Value) ⟨s, log⟩ =
      (zipOnto fuel (.pair (s.size + 1)) key.cdr value.cdr : Action Value)
        ⟨((s.cons key.car value.car).2.cons (.pair s.size) done).2, log⟩ := by
  have hsize : (s.cons key.car value.car).2.cells.size = s.size + 1 := s.size_cons ..
  rw [zipOnto]
  simp only [Bind.bind, EStateM.bind, Machine.look, hkey, hvalue]
  show (zipOnto fuel (.pair (s.cons key.car value.car).2.cells.size) key.cdr value.cdr :
    Action Value) ⟨((s.cons key.car value.car).2.cons (.pair s.size) done).2, log⟩ = _
  rw [hsize]

/-- Out of fuel, a walk that would go on gives up. -/
theorem zipOnto_zero {key value : Cell} (hkey : s.cell? keys = some key)
    (hvalue : s.cell? values = some value) :
    (zipOnto 0 done keys values : Action Value) ⟨s, log⟩ = .error .endless ⟨s, log⟩ := by
  rw [zipOnto]
  simp only [Bind.bind, EStateM.bind, Machine.look, hkey, hvalue]
  rfl

theorem fresh_of_reverse {frame : Value} {after : State}
    (h : first.NewFrame s done places bindings pairs)
    (hrun : (reverse done : Action Value) ⟨s, log⟩ = .ok frame after) :
    ∃ places' bindings' pairs', first.NewFrame after.store frame places' bindings' pairs' := by
  obtain ⟨_, s', hreverse, hframe⟩ := reverse_newFrame h log
  rw [hreverse] at hrun
  cases hrun
  exact ⟨_, _, _, hframe⟩

/-- Either one of the two chains ends here, or both go on. -/
theorem zip_cases (s : Store) (keys values : Value) :
    (s.cell? keys = none ∨ s.cell? values = none) ∨
      ∃ key value, s.cell? keys = some key ∧ s.cell? values = some value := by
  cases hkey : s.cell? keys with
  | none => exact .inl (.inl rfl)
  | some key =>
    cases hvalue : s.cell? values with
    | none => exact .inl (.inr rfl)
    | some value => exact .inr ⟨key, value, rfl, rfl⟩

/-- Whatever is paired up, what is answered is a frame of new pairs. -/
theorem zipOnto_fresh {fuel : Nat} {frame : Value} {after : State}
    (h : first.NewFrame s done places bindings pairs)
    (hrun : (zipOnto fuel done keys values : Action Value) ⟨s, log⟩ = .ok frame after) :
    ∃ places' bindings' pairs', first.NewFrame after.store frame places' bindings' pairs' := by
  -- By induction on the fuel, since nothing is known of the two chains.
  induction fuel generalizing s done keys values places bindings pairs with
  | zero =>
    rcases zip_cases s keys values with hend | ⟨key, value, hkey, hvalue⟩
    · rw [zipOnto_end hend] at hrun
      exact fresh_of_reverse h hrun
    · rw [zipOnto_zero hkey hvalue] at hrun
      cases hrun
  | succ fuel ih =>
    rcases zip_cases s keys values with hend | ⟨key, value, hkey, hvalue⟩
    · rw [zipOnto_end hend] at hrun
      exact fresh_of_reverse h hrun
    · rw [zipOnto_next hkey hvalue] at hrun
      exact ih (h.push key.car value.car) hrun

/-- The frame of any call is made of new pairs. -/
theorem zip_fresh {frame : Value} {after : State}
    (hrun : (zip keys values : Action Value) ⟨s, log⟩ = .ok frame after) :
    ∃ places bindings pairs, s.NewFrame after.store frame places bindings pairs :=
  zipOnto_fresh (.nil s) hrun

/-- Two chains that end are paired up as long as both go on. -/
theorem zipOnto_of_links {fuel : Nat} {names arguments : List Value}
    {keyPlaces valuePlaces : List Nat} {keysEnd valuesEnd : Value}
    (h : first.NewFrame s done places bindings pairs)
    (hkeys : first.Links keys keyPlaces names keysEnd)
    (hkeysEnd : ∀ s : Store, s.cell? keysEnd = none)
    (hvalues : first.Links values valuePlaces arguments valuesEnd)
    (hvaluesEnd : ∀ s : Store, s.cell? valuesEnd = none) (hfuel : keyPlaces.length ≤ fuel) :
    ∃ frame s' places' bindings',
      (zipOnto fuel done keys values : Action Value) ⟨s, log⟩ = .ok frame ⟨s', log⟩ ∧
        first.NewFrame s' frame places' bindings' (pairs.reverse ++ names.zip arguments) := by
  -- By induction on the names; the shorter of the two chains decides where the frame ends.
  induction hkeys generalizing s done values valuePlaces arguments places bindings pairs fuel with
  | done =>
    obtain ⟨frame, s', hrun, hframe⟩ := reverse_newFrame h log
    refine ⟨frame, s', places.reverse, bindings.reverse,
      (zipOnto_end (.inl (hkeysEnd s))).trans hrun, ?_⟩
    rw [List.zip_nil_left, List.append_nil]
    exact hframe
  | next hkey _ ih =>
    cases hvalues with
    | done =>
      obtain ⟨frame, s', hrun, hframe⟩ := reverse_newFrame h log
      refine ⟨frame, s', places.reverse, bindings.reverse,
        (zipOnto_end (.inr (hvaluesEnd s))).trans hrun, ?_⟩
      rw [List.zip_nil_right, List.append_nil]
      exact hframe
    | next hvalue hrest =>
      cases fuel with
      | zero => simp at hfuel
      | succ fuel =>
        have hkey' := h.keeps.cell_some hkey
        have hvalue' := h.keeps.cell_some hvalue
        obtain ⟨frame, s', places', bindings', hrun, hframe⟩ :=
          ih (h.push _ _) hkeysEnd hrest (Nat.le_of_succ_le_succ hfuel)
        refine ⟨frame, s', places', bindings', (zipOnto_next hkey' hvalue').trans hrun, ?_⟩
        simpa using hframe

/-- The list of pairs of two chains, which may end in any atoms. -/
theorem zip_of_chains {names arguments : List Value} {keyPlaces valuePlaces : List Nat}
    {keysEnd valuesEnd : Value} (hkeys : s.Links keys keyPlaces names keysEnd)
    (hkeysEnd : ∀ s : Store, s.cell? keysEnd = none)
    (hvalues : s.Links values valuePlaces arguments valuesEnd)
    (hvaluesEnd : ∀ s : Store, s.cell? valuesEnd = none) (log : Log) :
    ∃ frame s' places bindings,
      (zip keys values : Action Value) ⟨s, log⟩ = .ok frame ⟨s', log⟩ ∧
        s.NewFrame s' frame places bindings (names.zip arguments) :=
  zipOnto_of_links (.nil s) hkeys hkeysEnd hvalues hvaluesEnd hkeys.length_le_size

/-- The frame of a call. -/
theorem zip_of_links {names arguments : List Value} {keyPlaces : List Nat} {keysEnd : Value}
    (hkeys : s.Links keys keyPlaces names keysEnd) (hkeysEnd : ∀ s : Store, s.cell? keysEnd = none)
    (hvalues : s.IsList values arguments) (log : Log) :
    ∃ frame s' places bindings,
      (zip keys values : Action Value) ⟨s, log⟩ = .ok frame ⟨s', log⟩ ∧
        s.NewFrame s' frame places bindings (names.zip arguments) := by
  obtain ⟨valuePlaces, hvalues⟩ := hvalues
  exact zip_of_chains hkeys hkeysEnd hvalues (fun _ => rfl) log

end Action

end ConsLisp
