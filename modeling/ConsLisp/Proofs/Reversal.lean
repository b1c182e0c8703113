import ConsLisp.Proofs.Store.Reverse

/-!
# Reversals

A reversal ends on every store, also where the chain runs into a loop.  It then turns the stem and
the loop, comes to the first pair of the loop for the second time, and finds the turned stem behind
it.  So it walks back over the stem, which it turns a second time, and ends at its first pair.

Where the chain ends, the reversal uses its pairs and no others, and of them it changes the second
fields only.  So a second reversal turns them all back.

Main statements: the number of rounds and where they end (`Action.reverse_ends`), and what the store
holds after a reversal and after another one (`Action.reverse_exact`).
-/

namespace ConsLisp

open Turning

namespace Turning

/-- If the rounds are no more than the machine allows, it reverses a value by them. -/
theorem Rounds.reverse_eq {n : Nat} {s : Store} {v : Value} {last : Turning}
    (h : Rounds n ⟨.nil, v, s⟩ last) (hstop : last.next? = none) (hn : n ≤ 2 * s.size) (log : Log) :
    (Action.reverse v : Action Value) ⟨s, log⟩ = .ok last.done ⟨last.store, log⟩ := by
  rw [Action.reverse_eq, Store.reverse, h.reverseOnto_eq hstop hn]

end Turning

namespace Store

variable {s : Store} {v : Value}

/-- On a chain that ends, one round for each pair. -/
theorem Links.rounds {tail : Value} {places : List Nat} {elements : List Value}
    (h : s.Links v places elements tail) :
    ∃ last, Rounds places.length ⟨.nil, v, s⟩ last ∧ last.next? = none := by
  obtain ⟨last, s', hrounds, -⟩ := h.stretch.turn h.nodup .nil
  exact ⟨_, hrounds, Option.map_eq_none_iff.mpr (hrounds.cell?_eq_none h.tail_eq_none)⟩

/-- On a chain that returns, the pairs of the stem and the first pair of the loop are turned twice.
-/
theorem Returns.rounds {stem loop : List Nat} {start : Nat} (h : s.Returns v stem start loop) :
    ∃ last, Rounds ((stem ++ start :: loop).length + (stem.length + 1)) ⟨.nil, v, s⟩ last ∧
      last.next? = none ∧ last.done = v ∧
      ∀ place ∈ stem, last.store.cell? (.pair place) = s.cell? (.pair place) := by
  obtain ⟨⟨front, hstem⟩, ⟨back, hloop⟩, hnodup⟩ := h
  -- The first time around, up to the first pair of the loop.
  obtain ⟨u, s', hfirst, hturned, -⟩ := (hstem.trans hloop).turn hnodup .nil
  rw [List.reverse_append, List.reverse_cons, List.append_assoc, List.singleton_append] at hturned
  -- From that pair the turned stem leads to its end.
  obtain ⟨w, -, elements, -, -, hback⟩ := hturned.split
  obtain rfl : w = .pair start := by
    cases hback with
    | next => rfl
  have hnodup' : (start :: stem.reverse).Nodup := by
    rw [← List.nodup_reverse, List.reverse_cons, List.reverse_reverse]
    have hsublist : [start].Sublist (start :: loop) :=
      List.singleton_sublist.mpr List.mem_cons_self
    exact hnodup.sublist (hsublist.append_left stem)
  -- The second time, over the stem and to its first pair.
  obtain ⟨last, s'', hsecond, hagain, -⟩ := hback.turn hnodup' u
  rw [List.reverse_cons, List.reverse_reverse] at hagain
  obtain ⟨w, front', back', -, hstem', hstart⟩ := hagain.split
  obtain rfl : w = .pair start := by
    cases hstart with
    | next => rfl
  obtain rfl : last = v := hstem'.start_eq hstem
  have hrounds := hfirst.trans hsecond
  rw [List.length_cons, List.length_reverse] at hrounds
  exact ⟨_, hrounds, rfl, rfl, fun place hmem => hrounds.cell?_eq (hstem.cdr_eq hstem' hmem)⟩

end Store

namespace Action

open Store

/-- Reversing the chain of any value ends, on any store, after at most twice as many rounds as the
chain has pairs.  If the chain comes back to one of its pairs, the answer is the value itself, and
the pairs that the chain comes to only once are as before. -/
theorem reverse_ends (s : Store) (log : Log) (v : Value) :
    ∃ n last, Rounds n ⟨.nil, v, s⟩ last ∧ last.next? = none ∧
      n ≤ 2 * {place | s.Meets v place}.ncard ∧
      (reverse v : Action Value) ⟨s, log⟩ = .ok last.done ⟨last.store, log⟩ ∧
      (s.Cyclic v → last.done = v ∧ ∀ place, s.Meets v place → ¬s.Recurs place →
        last.store.cell? (.pair place) = s.cell? (.pair place)) := by
  rcases s.ends_or_returns v with ⟨places, elements, tail, hlinks⟩ | ⟨stem, start, loop, hreturns⟩
  · obtain ⟨last, hrounds, hstop⟩ := hlinks.rounds
    have hcard := ncard_meets (fun place => hlinks.meets_iff) hlinks.nodup
    have hsize := hlinks.length_le_size
    refine ⟨places.length, last, hrounds, hstop, by omega, ?_, ?_⟩
    · exact hrounds.reverse_eq hstop (by omega) log
    · exact fun hcyclic => absurd hcyclic hlinks.not_cyclic
  · obtain ⟨last, hrounds, hstop, hdone, hcells⟩ := hreturns.rounds
    have hcard := ncard_meets (fun place => hreturns.meets_iff) hreturns.nodup
    have hsize := hreturns.length_le_size
    have hlength : (stem ++ start :: loop).length = stem.length + loop.length + 1 := by
      rw [List.length_append, List.length_cons]
      omega
    refine ⟨_, last, hrounds, hstop, by omega, ?_, ?_⟩
    · exact hrounds.reverse_eq hstop (by omega) log
    · refine fun _ => ⟨hdone, fun place hmeets honce => hcells place ?_⟩
      -- A pair of the loop would be met again.
      exact (List.mem_append.mp (hreturns.meets_iff.mp hmeets)).resolve_right
        fun hmem => honce (hreturns.recurs hmem)

/-- A stem of one pair and a loop of two: the stem is as before, and the loop is turned. -/
example :
    (Store.reverse ⟨#[⟨.t, .pair 1⟩, ⟨.t, .pair 2⟩, ⟨.t, .pair 1⟩], 0⟩ (.pair 0)).1 =
        some (.pair 0) ∧
      (Store.reverse ⟨#[⟨.t, .pair 1⟩, ⟨.t, .pair 2⟩, ⟨.t, .pair 1⟩], 0⟩ (.pair 0)).2.cells =
        #[⟨.t, .pair 1⟩, ⟨.t, .pair 2⟩, ⟨.t, .pair 1⟩] := by
  decide

end Action

/-! ## Reversing twice -/

namespace Store

variable {s s' : Store} {v tail : Value} {places : List Nat} {elements : List Value}

/-- Stores with the same pairs that have handed out as many serials are the same. -/
theorem eq_of_cell? (hserial : s'.serial = s.serial)
    (hcell : ∀ place, s'.cell? (.pair place) = s.cell? (.pair place)) : s' = s := by
  obtain ⟨cells, serial⟩ := s
  obtain ⟨cells', serial'⟩ := s'
  obtain rfl : serial' = serial := hserial
  obtain rfl : cells' = cells := Array.ext_getElem? hcell
  rfl

/-- A value is the first pair of its chain, or the end of it. -/
theorem Links.start_eq (h : s.Links v places elements tail) :
    v = (places.head?.map .pair).getD tail := by
  cases h with
  | done => rfl
  | next => rfl

/-- The store after a chain that ended was turned around: its pairs make up the chain of `last`, in
the other order, and no other field than their second ones is changed. -/
structure Reversed (s s' : Store) (places : List Nat) (elements : List Value) (last : Value) :
    Prop where
  links : s'.Links last places.reverse elements.reverse .nil
  car (v : Value) : (s'.cell? v).map Cell.car = (s.cell? v).map Cell.car
  cell (v : Value) (hv : ∀ place ∈ places, v ≠ .pair place) : s'.cell? v = s.cell? v
  size : s'.size = s.size
  serial : s'.serial = s.serial

/-- A chain that ends is turned around, pair by pair. -/
theorem Links.reversed (h : s.Links v places elements tail) (log : Log) :
    ∃ s', (Action.reverse v : Action Value) ⟨s, log⟩ =
        .ok ((places.getLast?.map .pair).getD .nil) ⟨s', log⟩ ∧
      s.Reversed s' places elements ((places.getLast?.map .pair).getD .nil) := by
  obtain ⟨last, s', hrounds, hturned, hkeeps, hserial⟩ := h.stretch.turn h.nodup .nil
  have hstop : (⟨last, tail, s'⟩ : Turning).next? = none :=
    Option.map_eq_none_iff.mpr (hrounds.cell?_eq_none h.tail_eq_none)
  have hlength := h.length_le_size
  have hrun := hrounds.reverse_eq hstop (by omega) log
  have hlinks := hturned.links rfl
  have hlast : last = (places.getLast?.map .pair).getD .nil := by
    rw [← List.head?_reverse]
    exact hlinks.start_eq
  rw [← hlast]
  refine ⟨s', hrun, ?_⟩
  constructor
  case links => exact hlinks
  case car => exact hrounds.car_eq
  case cell =>
    intro w hw
    cases hcell : s.cell? w with
    | none => exact hrounds.cell?_eq_none hcell
    | some c =>
      obtain ⟨place, rfl, -⟩ := cell?_eq_some_iff.mp hcell
      rw [← hcell]
      exact hkeeps.cell (lt_size_of_cell? hcell) fun hmem => hw place hmem rfl
  case size => exact Action.size_of_reverse hrun
  case serial => exact hserial

/-- Turned around once more, a proper list is what it was, and so is the store. -/
theorem Reversed.eq_of_reversed {s'' : Store} {last first : Value}
    (hlinks : s.Links v places elements .nil) (h : s.Reversed s' places elements last)
    (h' : s'.Reversed s'' places.reverse elements.reverse first) : first = v ∧ s'' = s := by
  have hback := h'.links
  rw [List.reverse_reverse, List.reverse_reverse] at hback
  refine ⟨hback.stretch.start_eq hlinks.stretch, ?_⟩
  refine eq_of_cell? (h'.serial.trans h.serial) fun place => ?_
  by_cases hmem : place ∈ places
  · refine cell?_eq_of_fields ((h'.car _).trans (h.car _)) ?_
    exact hlinks.stretch.cdr_eq hback.stretch hmem
  · have hne : ∀ other ∈ places, (.pair place : Value) ≠ .pair other := fun other hother heq =>
      hmem (Value.pair.inj heq ▸ hother)
    rw [h'.cell _ (by simpa using hne), h.cell _ hne]

end Store

namespace Action

open Store

/-- Reversing a chain that ends answers its last pair, in front of which all its pairs stand in the
other order; the end of the chain is dropped.  No pair is new, no first field changes, and no pair
that is not on the chain.  If the chain is a proper list, a second reversal answers the value itself
and leads back to the same store. -/
theorem reverse_exact {s : Store} {v tail : Value} {places : List Nat} {elements : List Value}
    (h : s.Links v places elements tail) (log : Log) :
    ∃ last s', last = (places.getLast?.map .pair).getD .nil ∧
      (reverse v : Action Value) ⟨s, log⟩ = .ok last ⟨s', log⟩ ∧
      s'.Links last places.reverse elements.reverse .nil ∧
      (∀ w, (s'.cell? w).map Cell.car = (s.cell? w).map Cell.car) ∧
      (∀ w, (∀ place ∈ places, w ≠ .pair place) → s'.cell? w = s.cell? w) ∧
      s'.size = s.size ∧ s'.serial = s.serial ∧
      (tail = .nil → (reverse last : Action Value) ⟨s', log⟩ = .ok v ⟨s, log⟩) := by
  obtain ⟨s', hrun, hreversed⟩ := h.reversed log
  refine ⟨_, s', rfl, hrun, hreversed.links, hreversed.car, hreversed.cell, hreversed.size,
    hreversed.serial, ?_⟩
  rintro rfl
  obtain ⟨s'', hrun', hreversed'⟩ := hreversed.links.reversed log
  obtain ⟨rfl, rfl⟩ := hreversed.eq_of_reversed h hreversed'
  exact hrun'

/-- Two lists that share their last pair. -/
def sharing : Store :=
  ⟨#[⟨.num 1, .pair 1⟩, ⟨.num 2, .nil⟩, ⟨.num 3, .pair 1⟩], 0⟩

/-- One of the two lists is turned around and back.  The first pair of the other is as before. -/
theorem reverse_exact_sharing :
    sharing.Links (.pair 0) [0, 1] [.num 1, .num 2] .nil ∧
      ∃ s', (reverse (.pair 0) : Action Value) ⟨sharing, {}⟩ = .ok (.pair 1) ⟨s', {}⟩ ∧
        s'.Links (.pair 1) [1, 0] [.num 2, .num 1] .nil ∧
        s'.cell? (.pair 2) = some ⟨.num 3, .pair 1⟩ ∧
        (reverse (.pair 1) : Action Value) ⟨s', {}⟩ = .ok (.pair 0) ⟨sharing, {}⟩ := by
  have hlinks : sharing.Links (.pair 0) [0, 1] [.num 1, .num 2] .nil :=
    .next rfl (.next rfl (.done rfl))
  obtain ⟨_, s', rfl, hrun, hreversed, -, hcell, -, -, hback⟩ := reverse_exact hlinks {}
  exact ⟨hlinks, s', hrun, hreversed, hcell (.pair 2) (by decide), hback rfl⟩

end Action

end ConsLisp
