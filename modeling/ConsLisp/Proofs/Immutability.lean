import ConsLisp.Proofs.Chronicle.Held

/-!
# What evaluation changes

Program text and values never change: no step of a session overwrites a field of a pair that
the program can get hold of as a value.  The pairs of environments are never among these.  Of
the pairs that are older than a call in progress, only two kinds are overwritten: the binding of
a name, by an assignment to it, and the cell of the global frame, which gets one new binding in
front by a definition or by an assignment to a name without a binding.  Outside of calls no pair
is overwritten.

Main statement: all of this at every moment of every session (`session_preserves_data`).
-/

namespace ConsLisp

/-- The pair that a change overwrites. -/
def Change.target? : Change → Option Value
  | .setCar v _ | .setCdr v _ => some v
  | _ => none

namespace Moment

/-- The change gives a new value to the binding of the name that is being assigned. -/
def Rebinds (m : Moment) (d : Change) : Prop :=
  ∃ binding value, d = .setCdr binding value ∧ m.Assigns binding

/-- The change puts one new binding, of the name that is being defined, in front of the global
frame. -/
def Extends (globals : Value) (m : Moment) (d : Change) : Prop :=
  ∃ place binding name value, d = .setCar globals (.pair place) ∧
    m.Fresh place ∧ m.Fresh binding ∧
    m.store.cell? (.pair place) = some ⟨.pair binding, m.store.car globals⟩ ∧
    m.store.cell? (.pair binding) = some ⟨name, value⟩ ∧ m.Defines name

/-- What may be said of the change at a moment, whatever the program holds then. -/
structure PreservesData (globals : Value) (m : Moment) (earlier : List Moment) : Prop where
  /-- No pair that is held as a value is overwritten. -/
  values {d : Change} {v : Value} (hchange : m.deed = .change d) (htarget : d.target? = some v) :
    ¬m.Holds globals earlier .value v
  /-- An older pair is overwritten only by an assignment or a definition. -/
  older {d : Change} {place : Nat} (hchange : m.deed = .change d)
    (htarget : d.target? = some (.pair place)) (hold : ¬m.Fresh place) :
    m.Rebinds d ∨ m.Extends globals d
  /-- No pair of an environment is part of a value. -/
  apart {env : Value} {place : Nat} (henv : m.Holds globals earlier .environment env)
    (hspine : m.store.Spine env place) : ¬m.Holds globals earlier .value (.pair place)

end Moment

namespace Layout

variable {L : Layout} {o : Opening} {m : Moment} {earlier : List Moment}

/-- The pair that an allowed change overwrites is no pair of data. -/
theorem Allows.not_isData (h : L.Kept m.store) {d : Change} (hallows : L.Allows m d) {v : Value}
    (htarget : d.target? = some v) : ∃ place, v = .pair place ∧ ¬L.IsData place := by
  cases d with
  | setCar w a =>
    obtain rfl : w = v := Option.some.inj htarget
    exact ⟨L.home, hallows.1, Layout.not_isData h.home (by simp)⟩
  | setCdr w d =>
    obtain rfl : w = v := Option.some.inj htarget
    rcases hallows with ⟨place, name, rfl, hrole, -⟩ | ⟨place, a, d', rfl, hrole, -⟩
    · exact ⟨place, rfl, Layout.not_isData hrole (by simp)⟩
    · exact ⟨place, rfl, Layout.not_isData hrole (by simp)⟩
  | cons | number | error | closure => simp [Change.target?] at htarget

theorem Vouches.preservesData (h : L.Vouches m) (hover : L.Oversees o m.store earlier) :
    m.PreservesData (.pair o.layout.home) earlier := by
  have hhome := hover.opening.settles.home
  refine ⟨fun {d v} hchange htarget hv => ?_, fun {d place} hchange htarget hold => ?_,
    fun {env place} henv hspine hv => ?_⟩
  · obtain ⟨place, rfl, hdata⟩ := (h.allows d hchange).not_isData h.kept htarget
    exact hdata (Matter.isData (h.held hover hv))
  · have hallows := h.allows d hchange
    cases d with
    | setCar w frame =>
      obtain ⟨rfl, number, binding, name, value, rfl, hrest⟩ := hallows
      rw [← hhome] at hrest ⊢
      exact .inr ⟨number, binding, name, value, rfl, hrest⟩
    | setCdr w value =>
      obtain rfl : w = .pair place := Option.some.inj htarget
      rcases hallows with ⟨_, _, _, _, hassigns⟩ | ⟨_, _, _, hplace, _, hfresh, -⟩
      · exact .inl ⟨_, value, rfl, hassigns⟩
      · obtain rfl := Value.pair.inj hplace
        exact absurd hfresh hold
    | cons | number | error | closure => simp [Change.target?] at htarget
  · exact Env.not_isData h.kept (h.held hover henv) hspine (Matter.isData (h.held hover hv))

end Layout

namespace Chronicle

/-- A session has the results and the state of its lines, one moment goes on in the store that
the one before has left, and at every moment, in lines that return and in lines that abort,
program text and values stay as they are. -/
theorem session_preserves_data (log : Log) (limit : Nat) (texts : List (List Char)) :
    let i := Interpreter.new log
    let watched := session log limit texts
    (watched.1 = (i.evalAll limit texts).1 ∧ watched.2.state = (i.evalAll limit texts).2.state) ∧
      watched.2.state.store = Moment.storeAfter i.state.store watched.2.moments ∧
      ∀ m earlier, m :: earlier <:+ watched.2.moments →
        m.store = Moment.storeAfter i.state.store earlier ∧
          m.PreservesData i.globals earlier := by
  intro i watched
  obtain ⟨o, L, hstore, hglobals, hsound⟩ := session_sound log limit texts
  refine ⟨session_eq_evalAll log limit texts, hstore ▸ hsound.now, fun m earlier hsuffix => ?_⟩
  obtain ⟨hnow, ⟨M, hvouches, hover⟩, -⟩ := hsound.accounted.of_suffix hsuffix
  refine ⟨hstore ▸ hnow, ?_⟩
  rw [hglobals]
  exact hvouches.preservesData hover

end Chronicle

end ConsLisp
