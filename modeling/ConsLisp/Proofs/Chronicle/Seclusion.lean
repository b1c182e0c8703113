import ConsLisp.Proofs.Chronicle.Activations
import ConsLisp.Proofs.Immutability
import ConsLisp.Proofs.Store.Sealed

/-!
# Lists under construction

A builder makes the pairs of a list one after the other, and other programs may run in between.  As
long as it builds, it alone leads to its pairs: no other pair of the store does, no value that was
there before, and none that the other programs are called with, use or answer.

A chronicle encloses a builder if the region of all other pairs is closed and all other values lie
in it.  Then the builder may make a pair of any values, since the place is new, and overwrite its
own pairs; any other program may do what it likes with values of the region.

Main statements: what the builder itself does (`Encloses.makes`, `Encloses.overwrites`), what others
do (`Encloses.record`, `Encloses.change`), and that at each moment of an enclosing chronicle the
pairs of the builder are secluded (`Encloses.past`).
-/

namespace ConsLisp

/-- The values that a deed shows, and those that a change is made of. -/
def Deed.mentioned : Deed → List Value
  | .call made => made.values ++ made.envs
  | .change d => d.values
  | .answer _ v | .ended (.ok v) => [v]
  | .line _ | .ended (.error _) => []

/-- A program that builds a list below these calls, from this store on. -/
structure Builder where
  callers : List Caller
  store : Store

namespace Builder

/-- The builder itself makes the change of the moment. -/
def Acts (b : Builder) (m : Moment) : Prop :=
  m.callers = b.callers ∧ ∃ d, m.deed = .change d

/-- The places of the pairs that the builder has made. -/
def made (b : Builder) (moments : List Moment) : Set Nat :=
  {place | ∃ m ∈ moments, m.callers = b.callers ∧ (∃ a d, m.deed = .change (.cons a d)) ∧
    place = m.store.size}

/-- At this moment and after it, nothing but the builder has to do with the pairs that it has
made. -/
structure Secludes (b : Builder) (m : Moment) (earlier : List Moment) : Prop where
  /-- The builder overwrites no other pairs. -/
  own {d : Change} {v : Value} (hcallers : m.callers = b.callers) (hchange : m.deed = .change d)
    (htarget : d.target? = some v) : ∃ place ∈ b.made earlier, v = .pair place
  /-- No value of the first store leads to them. -/
  before {v : Value} (hv : b.store.Knows v) {place : Nat} (hplace : place ∈ b.made (m :: earlier)) :
    ¬(m.deed.after m.store).Reaches v place
  /-- No value that others are called with, use or answer leads to them. -/
  mentioned {m' : Moment} (hm : m' ∈ m :: earlier) (hacts : ¬b.Acts m') {v : Value}
    (hv : v ∈ m'.deed.mentioned) {place : Nat} (hplace : place ∈ b.made (m :: earlier)) :
    ¬(m.deed.after m.store).Reaches v place
  /-- No other pair of the store leads to them. -/
  pairs {other place : Nat} (hother : other ∉ b.made (m :: earlier))
    (hplace : place ∈ b.made (m :: earlier)) : ¬(m.deed.after m.store).Reaches (.pair other) place

/-- The places of all other pairs. -/
def outside (b : Builder) (c : Chronicle) : Set Nat :=
  c.state.store.outside (b.made c.moments)

/-- All other pairs are closed off from those of the builder, and have been at each moment. -/
structure Encloses (b : Builder) (c : Chronicle) : Prop where
  size : b.store.size ≤ c.state.store.size
  made : ∀ place ∈ b.made c.moments, b.store.size ≤ place ∧ place < c.state.store.size
  closed : c.state.store.Closed (b.outside c)
  mentioned : ∀ m ∈ c.moments, ¬b.Acts m → ∀ v ∈ m.deed.mentioned, v.Within (b.outside c)
  past : ∀ m earlier, m :: earlier <:+ c.moments → b.Secludes m earlier

variable {b : Builder} {c c' : Chronicle} {m : Moment} {earlier moments : List Moment}

/-! ## The pairs made -/

theorem made_nil (b : Builder) : b.made [] = ∅ := by
  simp [made]

theorem mem_made_cons {place : Nat} : place ∈ b.made (m :: moments) ↔
    (m.callers = b.callers ∧ (∃ a d, m.deed = .change (.cons a d)) ∧ place = m.store.size) ∨
      place ∈ b.made moments := by
  simp [made]

/-- Others make no pairs of the builder. -/
theorem made_of_callers (hcallers : m.callers ≠ b.callers) :
    b.made (m :: moments) = b.made moments := by
  ext place
  simp [mem_made_cons, hcallers]

/-- Without a new pair, the pairs of the builder stay the same. -/
theorem made_of_not_cons (hdeed : ∀ a d, m.deed ≠ .change (.cons a d)) :
    b.made (m :: moments) = b.made moments := by
  ext place
  simp [mem_made_cons, hdeed]

/-! ## The changes of the builder -/

/-- The builder makes a change. -/
def perform (b : Builder) (d : Change) (c : Chronicle) : Chronicle :=
  (c.record b.callers (.change d)).withStore (d.perform c.state.store).2

theorem made_makes (b : Builder) (c : Chronicle) (a d : Value) :
    b.made (b.perform (.cons a d) c).moments = insert c.state.store.size (b.made c.moments) := by
  ext place
  simp [perform, Chronicle.record, Chronicle.withStore, mem_made_cons]

theorem made_overwrites (b : Builder) (c : Chronicle) (v d : Value) :
    b.made (b.perform (.setCdr v d) c).moments = b.made c.moments :=
  made_of_not_cons fun _ _ heq => by simp at heq

/-- The region outside stays the same, since the place of a new pair has not been in it. -/
theorem outside_makes (b : Builder) (c : Chronicle) (a d : Value) :
    b.outside (b.perform (.cons a d) c) = b.outside c := by
  have hsize : (c.state.store.cons a d).2.size = c.state.store.size + 1 := Store.size_cons ..
  rw [outside, made_makes]
  ext place
  show place < (c.state.store.cons a d).2.size ∧ _ ↔ place < c.state.store.size ∧ _
  rw [hsize, Set.mem_insert_iff, not_or]
  constructor
  · exact fun ⟨hlt, hne, hnot⟩ => ⟨by omega, hnot⟩
  · exact fun ⟨hlt, hnot⟩ => ⟨by omega, Nat.ne_of_lt hlt, hnot⟩

theorem outside_overwrites (b : Builder) (c : Chronicle) (v d : Value) :
    b.outside (b.perform (.setCdr v d) c) = b.outside c := by
  rw [outside, made_overwrites]
  exact Store.outside_eq (c.state.store.size_setCdr v d)

namespace Encloses

/-- What an enclosing chronicle says of a moment that has just been written down. -/
theorem secludes (hsize : b.store.size ≤ (m.deed.after m.store).size)
    (hmade : ∀ place ∈ b.made (m :: earlier), b.store.size ≤ place)
    (hclosed : (m.deed.after m.store).Closed
      ((m.deed.after m.store).outside (b.made (m :: earlier))))
    (hmentioned : ∀ m' ∈ m :: earlier, ¬b.Acts m' → ∀ v ∈ m'.deed.mentioned,
      v.Within ((m.deed.after m.store).outside (b.made (m :: earlier))))
    (hown : ∀ d v, m.callers = b.callers → m.deed = .change d → d.target? = some v →
      ∃ place ∈ b.made earlier, v = .pair place) : b.Secludes m earlier := by
  -- What lies in the closed region leads to no pair of the builder.
  have hapart : ∀ {v : Value} {place : Nat},
      v.Within ((m.deed.after m.store).outside (b.made (m :: earlier))) →
        place ∈ b.made (m :: earlier) → ¬(m.deed.after m.store).Reaches v place :=
    fun hv hplace hreaches => (hclosed.mem_of_reaches hreaches hv).2 hplace
  constructor
  case own => exact hown _ _
  case before =>
    intro v hv place hplace
    have hsub : {other | other < b.store.size} ⊆
        (m.deed.after m.store).outside (b.made (m :: earlier)) := fun other hother =>
      ⟨Nat.lt_of_lt_of_le hother hsize, fun hmem => Nat.not_le.mpr hother (hmade other hmem)⟩
    exact hapart (hv.mono hsub) hplace
  case mentioned =>
    exact fun hm hacts v hv place hplace => hapart (hmentioned _ hm hacts v hv) hplace
  case pairs =>
    intro other place hother hplace
    cases hcell : (m.deed.after m.store).cell? (.pair other) with
    | some cell => exact hapart (v := .pair other) ⟨Store.lt_size_of_cell? hcell, hother⟩ hplace
    | none =>
      -- A place without a pair leads nowhere else.
      intro hreaches
      cases hreaches with
      | here => exact hother hplace
      | car hcell' | cdr hcell' => simp [hcell] at hcell'

/-- One more moment, after which the region of the others is as large and still closed. -/
theorem step (h : b.Encloses c) {d : Deed} {callers : List Caller}
    (hmoments : c'.moments = ⟨callers, c.state.store, d⟩ :: c.moments)
    (hstore : c'.state.store = d.after c.state.store) (hsub : b.outside c ⊆ b.outside c')
    (hsize : c.state.store.size ≤ c'.state.store.size)
    (hmade : ∀ place ∈ b.made c'.moments, b.store.size ≤ place ∧ place < c'.state.store.size)
    (hclosed : c'.state.store.Closed (b.outside c'))
    (hmentioned : ¬b.Acts ⟨callers, c.state.store, d⟩ → ∀ v ∈ d.mentioned, v.Within (b.outside c))
    (hown : ∀ change v, callers = b.callers → d = .change change → change.target? = some v →
      ∃ place ∈ b.made c.moments, v = .pair place) : b.Encloses c' := by
  have hsize' := Nat.le_trans h.size hsize
  have hall : ∀ m ∈ c'.moments, ¬b.Acts m → ∀ v ∈ m.deed.mentioned, v.Within (b.outside c') := by
    intro m hm hacts v hv
    rw [hmoments] at hm
    rcases List.mem_cons.mp hm with rfl | hm
    · exact (hmentioned hacts v hv).mono hsub
    · exact (h.mentioned m hm hacts v hv).mono hsub
  refine ⟨hsize', hmade, hclosed, hall, fun m earlier hsuffix => ?_⟩
  rw [hmoments] at hsuffix
  rcases List.suffix_cons_iff.mp hsuffix with heq | hsuffix
  · cases heq
    rw [outside, hmoments, hstore] at hclosed hall
    rw [hstore] at hsize'
    rw [hmoments] at hmade
    exact secludes hsize' (fun place hplace => (hmade place hplace).1) hclosed hall hown
  · exact h.past m earlier hsuffix

/-! ## What others do -/

/-- Others are called or answer, with values that lead to none of the pairs. -/
theorem record (h : b.Encloses c) (callers : List Caller) {d : Deed}
    (hdeed : ∀ change, d ≠ .change change) (hd : ∀ v ∈ d.mentioned, v.Within (b.outside c)) :
    b.Encloses (c.record callers d) := by
  have hmade : b.made (c.record callers d).moments = b.made c.moments :=
    made_of_not_cons fun _ _ => hdeed _
  have hafter : d.after c.state.store = c.state.store := by
    cases d with
    | change change => exact absurd rfl (hdeed change)
    | line | call | answer | ended => rfl
  have houtside : b.outside (c.record callers d) = b.outside c := by
    rw [outside, outside, hmade]
    rfl
  refine h.step rfl hafter.symm houtside.ge (Nat.le_refl _) ?_ ?_ (fun _ => hd)
    fun change _ _ heq => absurd heq (hdeed change)
  · rw [hmade]
    exact h.made
  · rw [houtside]
    exact h.closed

/-- Others change the store, by a change that is made of such values. -/
theorem change (h : b.Encloses c) {callers : List Caller} (hcallers : callers ≠ b.callers)
    {d : Change} (hd : ∀ v ∈ d.values, v.Within (b.outside c)) :
    b.Encloses ((c.record callers (.change d)).withStore (d.perform c.state.store).2) := by
  have hmade : b.made ((c.record callers (.change d)).withStore
      (d.perform c.state.store).2).moments = b.made c.moments := made_of_callers hcallers
  have hsize := d.size_perform c.state.store
  refine h.step rfl rfl ?_ hsize ?_ ?_ (fun _ => hd) fun _ _ heq => absurd heq hcallers
  · rw [outside, outside, hmade]
    exact Store.outside_subset hsize
  · rw [hmade]
    exact fun place hplace => ⟨(h.made place hplace).1,
      Nat.lt_of_lt_of_le (h.made place hplace).2 hsize⟩
  · rw [outside, hmade]
    exact h.closed.perform hd

/-! ## What the builder does -/

/-- The builder makes a pair of any values.  No value leads to it, since its place is new. -/
theorem makes (h : b.Encloses c) (a d : Value) : b.Encloses (b.perform (.cons a d) c) := by
  have hsize : (c.state.store.cons a d).2.size = c.state.store.size + 1 := Store.size_cons ..
  have houtside := b.outside_makes c a d
  refine h.step rfl rfl houtside.ge (hsize ▸ Nat.le_succ _) ?_ ?_
    (fun hacts => absurd ⟨rfl, _, rfl⟩ hacts) ?_
  · rw [made_makes]
    show ∀ place ∈ _, _ ∧ place < (c.state.store.cons a d).2.size
    rw [hsize]
    intro place hplace
    rcases Set.mem_insert_iff.mp hplace with rfl | hplace
    · exact ⟨h.size, Nat.lt_succ_self _⟩
    · exact ⟨(h.made place hplace).1, Nat.lt_succ_of_lt (h.made place hplace).2⟩
  · rw [houtside]
    refine h.closed.of_cell? fun place hplace => ?_
    exact (Store.KeepsExcept.cons c.state.store a d).cell hplace.1 (by simp)
  · rintro _ _ - heq htarget
    cases heq
    simp [Change.target?] at htarget

/-- The builder overwrites the second field of a pair that it has made, with any value. -/
theorem overwrites (h : b.Encloses c) {place : Nat} (hplace : place ∈ b.made c.moments)
    (d : Value) : b.Encloses (b.perform (.setCdr (.pair place) d) c) := by
  have hsize : (c.state.store.setCdr (.pair place) d).size = c.state.store.size :=
    Store.size_setCdr ..
  have houtside : b.outside (b.perform (.setCdr (.pair place) d) c) = b.outside c :=
    outside_overwrites ..
  refine h.step rfl rfl houtside.ge hsize.ge ?_ ?_ (fun hacts => absurd ⟨rfl, _, rfl⟩ hacts) ?_
  · rw [made_overwrites]
    show ∀ other ∈ _, _ ∧ other < (c.state.store.setCdr (.pair place) d).size
    rw [hsize]
    exact h.made
  · rw [houtside]
    refine h.closed.of_cell? fun other hother => ?_
    refine (Store.KeepsExcept.setCdr c.state.store place d).cell hother.1 fun hmem => ?_
    exact hother.2 (List.mem_singleton.mp hmem ▸ hplace)
  · rintro _ v - heq htarget
    cases heq
    exact ⟨place, hplace, (Option.some.inj htarget).symm⟩

/-- The builder makes an error. -/
theorem fails (h : b.Encloses c) (fault : Fault) : b.Encloses (b.perform (.error fault) c) := by
  have hmade : b.made (b.perform (.error fault) c).moments = b.made c.moments :=
    made_of_not_cons fun _ _ heq => by simp at heq
  have houtside : b.outside (b.perform (.error fault) c) = b.outside c := by
    rw [outside, hmade]
    rfl
  refine h.step rfl rfl houtside.ge (Nat.le_refl _) ?_ ?_ (fun hacts => absurd ⟨rfl, _, rfl⟩ hacts)
    ?_
  · rw [hmade]
    exact h.made
  · rw [houtside]
    exact h.closed
  · rintro _ _ - heq htarget
    cases heq
    simp [Change.target?] at htarget

/-- At the beginning nothing has been made. -/
theorem start (hsealed : b.store.Sealed) (log : Log) : b.Encloses ⟨⟨b.store, log⟩, []⟩ := by
  refine ⟨Nat.le_refl _, by simp [made_nil], ?_, by simp, by simp⟩
  rw [outside, made_nil, Store.outside_empty]
  exact hsealed

end Encloses

end Builder

end ConsLisp
