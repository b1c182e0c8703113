import ConsLisp.Action
import ConsLisp.Proofs.Store.Stretch
import ConsLisp.Store.Reversal

/-!
# The result of a reversal

A reversal goes on by rounds, each of which turns one pair back to the one before.  The rounds over
a stretch of a chain turn the stretch around, whatever it comes to.  So reversing a chain that ends
gives the chain of the same pairs in the other order.  No other pair of the store changes, whatever
else the store holds.

Main statements: the stretch that is turned around (`Stretch.turn`), the reversed chain
(`Links.reverse`, `Action.reverse_of_links`), and that the action on a state is the function on its
store (`Action.reverse_eq`).
-/

namespace ConsLisp

namespace Store

/-- The pairs of a store are the same in a later one, apart from those at these places. -/
structure KeepsExcept (places : List Nat) (s s' : Store) : Prop where
  size : s.size ≤ s'.size
  cell {place : Nat} (hlt : place < s.size) (hplace : place ∉ places) :
    s'.cell? (.pair place) = s.cell? (.pair place)

namespace KeepsExcept

variable {places places' : List Nat} {s s' s'' : Store}

theorem refl (places : List Nat) (s : Store) : KeepsExcept places s s :=
  ⟨Nat.le_refl _, fun _ _ => rfl⟩

theorem weaken (h : KeepsExcept [] s s') (places : List Nat) : KeepsExcept places s s' :=
  ⟨h.size, fun hlt _ => h.cell hlt (by simp)⟩

theorem trans (h : KeepsExcept places s s') (h' : KeepsExcept places' s' s'')
    (hplaces : ∀ place < s.size, place ∈ places' → place ∈ places) :
    KeepsExcept places s s'' := by
  refine ⟨Nat.le_trans h.size h'.size, fun {place} hlt hplace => ?_⟩
  have hlt' : place < s'.size := Nat.lt_of_lt_of_le hlt h.size
  rw [h'.cell hlt' fun hmem => hplace (hplaces place hlt hmem), h.cell hlt hplace]

theorem cell_some (h : KeepsExcept [] s s') {v : Value} {c : Cell} (hcell : s.cell? v = some c) :
    s'.cell? v = some c := by
  obtain ⟨place, rfl, -⟩ := cell?_eq_some_iff.mp hcell
  rw [h.cell (lt_size_of_cell? hcell) (by simp), hcell]

theorem cell_of_isPair (h : KeepsExcept [] s s') {v : Value} (hv : s.isPair v = true) :
    s'.cell? v = s.cell? v := by
  obtain ⟨c, hcell⟩ := Option.isSome_iff_exists.mp hv
  rw [hcell, h.cell_some hcell]

theorem cons (s : Store) (a d : Value) : KeepsExcept [] s (s.cons a d).2 := by
  refine ⟨?_, fun {place} hlt _ => ?_⟩
  · rw [size_cons]
    exact Nat.le_succ _
  · have hne : (.pair place : Value) ≠ (s.cons a d).1 := by
      simp only [Store.cons, ne_eq, Value.pair.injEq]
      exact Nat.ne_of_lt hlt
    rw [cell?_cons, if_neg hne]

theorem setCar (s : Store) (place : Nat) (a : Value) :
    KeepsExcept [place] s (s.setCar (.pair place) a) := by
  refine ⟨Nat.le_of_eq (size_setCar ..).symm, fun {other} _ hother => ?_⟩
  have hne : (.pair other : Value) ≠ .pair place := fun heq =>
    hother (List.mem_singleton.mpr (Value.pair.inj heq))
  rw [cell?_setCar, if_neg hne]

theorem setCdr (s : Store) (place : Nat) (d : Value) :
    KeepsExcept [place] s (s.setCdr (.pair place) d) := by
  refine ⟨Nat.le_of_eq (size_setCdr ..).symm, fun {other} _ hother => ?_⟩
  have hne : (.pair other : Value) ≠ .pair place := fun heq =>
    hother (List.mem_singleton.mpr (Value.pair.inj heq))
  rw [cell?_setCdr, if_neg hne]

end KeepsExcept

variable {s s' : Store} {v tail : Value} {places : List Nat} {elements : List Value}

/-- A chain of pairs that are the same goes on to the same end, if that is still none. -/
theorem Links.congr (h : s.Links v places elements tail)
    (hcell : ∀ place ∈ places, s'.cell? (.pair place) = s.cell? (.pair place))
    (htail : s'.cell? tail = none) : s'.Links v places elements tail := by
  induction h with
  | done => exact .done htail
  | next hc _ ih =>
    refine .next ((hcell _ List.mem_cons_self).trans hc) (ih (fun place hmem => ?_) htail)
    exact hcell place (List.mem_cons_of_mem _ hmem)

/-- A chain stays as it is while none of its pairs changes. -/
theorem Links.keep {changed : List Nat} (h : s.Links v places elements tail)
    (hkeeps : KeepsExcept changed s s') (hplaces : ∀ place ∈ places, place ∉ changed)
    (htail : s'.cell? tail = none) : s'.Links v places elements tail :=
  h.congr (fun place hmem => hkeeps.cell (h.lt_size hmem) (hplaces place hmem)) htail

/-- A proper list stays as it is while no pair changes. -/
theorem IsList.keep (h : s.IsList v elements) (hkeeps : KeepsExcept [] s s') :
    s'.IsList v elements := by
  obtain ⟨places, hlinks⟩ := h
  exact ⟨places, hlinks.keep hkeeps (by simp) rfl⟩

theorem cell?_setCdr_eq_none {v w d : Value} (h : s.cell? w = none) :
    (s.setCdr v d).cell? w = none := by
  rw [cell?_setCdr]
  split <;> simp [h]

/-- A pair that has the same two fields is the same. -/
theorem cell?_eq_of_fields (hcar : (s'.cell? v).map Cell.car = (s.cell? v).map Cell.car)
    (hcdr : (s'.cell? v).map Cell.cdr = (s.cell? v).map Cell.cdr) : s'.cell? v = s.cell? v := by
  cases hcell : s.cell? v with
  | none => simpa [hcell] using hcar
  | some c =>
    cases hcell' : s'.cell? v with
    | none => simp [hcell, hcell'] at hcar
    | some c' =>
      obtain ⟨a, d⟩ := c
      obtain ⟨a', d'⟩ := c'
      simp_all

/-- A stretch stays as it is while none of its pairs changes. -/
theorem Stretch.keep {changed : List Nat} {w : Value} (h : s.Stretch v places elements w)
    (hkeeps : KeepsExcept changed s s') (hplaces : ∀ place ∈ places, place ∉ changed) :
    s'.Stretch v places elements w := by
  induction h with
  | refl => exact .refl _
  | next hcell _ ih =>
    have hsame := hkeeps.cell (lt_size_of_cell? hcell) (hplaces _ List.mem_cons_self)
    refine .next (hsame.trans hcell) (ih fun place hmem => ?_)
    exact hplaces place (List.mem_cons_of_mem _ hmem)

end Store

/-! ## The rounds of a reversal -/

/-- Where a reversal stands: the chain that has been turned, what is left, and the store. -/
structure Turning where
  done : Value
  rest : Value
  store : Store

namespace Turning

/-- One round, in which the second field of a pair is turned.  The reversal stops where no pair is
left. -/
def next? (t : Turning) : Option Turning :=
  (t.store.cell? t.rest).map fun c => ⟨t.rest, c.cdr, t.store.setCdr t.rest t.done⟩

/-- So many rounds lead from here to there. -/
inductive Rounds : Nat → Turning → Turning → Prop
  | refl (t : Turning) : Rounds 0 t t
  | next {n : Nat} {t t' t'' : Turning} (hround : t.next? = some t') (hrest : Rounds n t' t'') :
      Rounds (n + 1) t t''

variable {m n : Nat} {t t' t'' : Turning}

theorem Rounds.trans (h : Rounds m t t') (h' : Rounds n t' t'') : Rounds (m + n) t t'' := by
  induction h with
  | refl => rwa [Nat.zero_add]
  | next hround _ ih =>
    rw [Nat.succ_add_eq_add_succ]
    exact .next hround (ih h')

/-- A round leaves atoms atoms, and so do all rounds. -/
theorem Rounds.cell?_eq_none (h : Rounds n t t') {v : Value} (hv : t.store.cell? v = none) :
    t'.store.cell? v = none := by
  induction h with
  | refl => exact hv
  | next hround _ ih =>
    obtain ⟨c, -, rfl⟩ := Option.map_eq_some_iff.mp hround
    exact ih (Store.cell?_setCdr_eq_none hv)

theorem Rounds.car_eq (h : Rounds n t t') (v : Value) :
    (t'.store.cell? v).map Cell.car = (t.store.cell? v).map Cell.car := by
  induction h with
  | refl => rfl
  | next hround _ ih =>
    obtain ⟨c, -, rfl⟩ := Option.map_eq_some_iff.mp hround
    rw [ih, Store.cell?_setCdr]
    split
    · rw [Option.map_map]
      rfl
    · rfl

/-- Only second fields are turned, so a pair that has its second field again is as before. -/
theorem Rounds.cell?_eq (h : Rounds n t t') {v : Value}
    (hcdr : (t'.store.cell? v).map Cell.cdr = (t.store.cell? v).map Cell.cdr) :
    t'.store.cell? v = t.store.cell? v :=
  Store.cell?_eq_of_fields (h.car_eq v) hcdr

/-- With rounds enough, a reversal ends where the rounds do. -/
theorem Rounds.reverseOnto_eq (h : Rounds n t t') (hstop : t'.next? = none) {fuel : Nat}
    (hfuel : n ≤ fuel) :
    Store.reverseOnto fuel t.done t.rest t.store = (some t'.done, t'.store) := by
  induction h generalizing fuel with
  | refl t =>
    unfold Store.reverseOnto
    rw [Option.map_eq_none_iff.mp hstop]
  | next hround _ ih =>
    obtain ⟨c, hcell, rfl⟩ := Option.map_eq_some_iff.mp hround
    cases fuel with
    | zero => simp at hfuel
    | succ fuel =>
      unfold Store.reverseOnto
      rw [hcell]
      exact ih hstop (Nat.le_of_succ_le_succ hfuel)

end Turning

namespace Store

variable {s s' : Store} {v tail : Value} {places : List Nat} {elements : List Value}

/-- The rounds over a stretch turn it around in front of what is done, and change no other pair. -/
theorem Stretch.turn {rest w : Value} (h : s.Stretch rest places elements w)
    (hnodup : places.Nodup) (done : Value) :
    ∃ last s', Turning.Rounds places.length ⟨done, rest, s⟩ ⟨last, w, s'⟩ ∧
      s'.Stretch last places.reverse elements.reverse done ∧ KeepsExcept places s s' ∧
      s'.serial = s.serial := by
  induction places generalizing s rest elements done with
  | nil =>
    cases h with
    | refl => exact ⟨done, s, .refl _, .refl done, .refl [] s, rfl⟩
  | cons place places ih =>
    obtain ⟨hnot, hnodup⟩ := List.nodup_cons.mp hnodup
    cases h with
    | @next _ a d _ _ elements hcell hrest =>
      have hkeeps := KeepsExcept.setCdr s place done
      -- The turned pair is not met again on the stretch, so the rest of it stays as it is.
      have hrest' : (s.setCdr (.pair place) done).Stretch d places elements w :=
        hrest.keep hkeeps fun other hmem heq => hnot (List.mem_singleton.mp heq ▸ hmem)
      obtain ⟨last, s', hrounds, hturned, hkeeps', hserial⟩ := ih hrest' hnodup (.pair place)
      have hplace : place < s.size := lt_size_of_cell? hcell
      have hcell' : s'.cell? (.pair place) = some ⟨a, done⟩ := by
        rw [hkeeps'.cell (by simpa using hplace) hnot, cell?_setCdr, if_pos rfl, hcell]
        rfl
      refine ⟨last, s', .next ?_ hrounds, ?_, ?_, ?_⟩
      · rw [Turning.next?, hcell]
        rfl
      · rw [List.reverse_cons, List.reverse_cons]
        exact hturned.trans (.next hcell' (.refl done))
      · refine ⟨Nat.le_trans hkeeps.size hkeeps'.size, fun {other} hlt hother => ?_⟩
        rw [List.mem_cons, not_or] at hother
        have hlt' := Nat.lt_of_lt_of_le hlt hkeeps.size
        rw [hkeeps'.cell hlt' hother.2, hkeeps.cell hlt (by simpa using hother.1)]
      · rw [hserial, serial_setCdr]

/-- A chain that ends is reversed into the chain of the same pairs in the other order. -/
theorem Links.reverse (h : s.Links v places elements tail) :
    ∃ v' s', s.reverse v = (some v', s') ∧
      s'.Links v' places.reverse elements.reverse .nil ∧ KeepsExcept places s s' ∧
      s'.serial = s.serial := by
  have hfuel : places.length ≤ 2 * s.size := by
    have hle := h.length_le_size
    omega
  obtain ⟨v', s', hrounds, hturned, hkeeps, hserial⟩ := h.stretch.turn h.nodup .nil
  have hstop : (⟨v', tail, s'⟩ : Turning).next? = none :=
    Option.map_eq_none_iff.mpr (hrounds.cell?_eq_none h.tail_eq_none)
  exact ⟨v', s', hrounds.reverseOnto_eq hstop hfuel, hturned.links rfl, hkeeps, hserial⟩

end Store

namespace Action

theorem reverseOnto_eq (fuel : Nat) (done rest : Value) (s : Store) (log : Log) :
    (reverseOnto fuel done rest : Action Value) ⟨s, log⟩ =
      match s.reverseOnto fuel done rest with
      | (some v, s') => .ok v ⟨s', log⟩
      | (none, s') => .error .endless ⟨s', log⟩ := by
  induction fuel generalizing done rest s with
  | zero =>
    unfold reverseOnto Store.reverseOnto
    cases hcell : s.cell? rest with
    | none => simp only [bind, EStateM.bind, Machine.look, hcell]; rfl
    | some c => simp only [bind, EStateM.bind, Machine.look, hcell]; rfl
  | succ fuel ih =>
    unfold reverseOnto Store.reverseOnto
    cases hcell : s.cell? rest with
    | none => simp only [bind, EStateM.bind, Machine.look, hcell]; rfl
    | some c =>
      simp only [bind, EStateM.bind, Machine.look, hcell]
      exact ih rest c.cdr (s.setCdr rest done)

/-- Reversing in a state is reversing in its store. -/
theorem reverse_eq (v : Value) (s : Store) (log : Log) :
    (reverse v : Action Value) ⟨s, log⟩ =
      match s.reverse v with
      | (some v, s') => .ok v ⟨s', log⟩
      | (none, s') => .error .endless ⟨s', log⟩ :=
  reverseOnto_eq (2 * s.size) .nil v s log

theorem size_of_reverse {v v' : Value} {state after : State}
    (h : (reverse v : Action Value) state = .ok v' after) :
    after.store.size = state.store.size := by
  obtain ⟨s, log⟩ := state
  have hsize := s.size_reverse v
  rw [reverse_eq] at h
  cases hrun : s.reverse v with
  | mk answer s' =>
    rw [hrun] at h hsize
    cases answer with
    | none => cases h
    | some list =>
      cases h
      exact hsize

/-- Reversing a chain that ends succeeds in every state. -/
theorem reverse_of_links {state : State} {v tail : Value} {places : List Nat}
    {elements : List Value} (h : state.store.Links v places elements tail) :
    ∃ v' s', (reverse v : Action Value) state = .ok v' ⟨s', state.log⟩ ∧
      s'.Links v' places.reverse elements.reverse .nil ∧
      Store.KeepsExcept places state.store s' ∧ s'.serial = state.store.serial := by
  obtain ⟨s, log⟩ := state
  obtain ⟨v', s', hrun, hlinks, hkeeps, hserial⟩ := h.reverse
  refine ⟨v', s', ?_, hlinks, hkeeps, hserial⟩
  rw [reverse_eq, hrun]

end Action

end ConsLisp
