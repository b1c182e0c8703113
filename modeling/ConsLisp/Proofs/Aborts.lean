import ConsLisp.Proofs.Scoping

/-!
# Why lines abort

Only parts of what the reader has made are evaluated, so there is no value that cannot be.  No host
object is ever held, so there is none that cannot be printed; and every environment is a list of
frames, so there is always a global one.  What is left to end a line is a quotient or a remainder by
zero, a number that is too long to be printed, and the nesting limit.

Main statement: all of this for every line of every session (`Chronicle.session_aborts`).
-/

namespace ConsLisp

namespace Layout

variable {L M : Layout} {s : Store} {o : Opening} {m : Moment} {earlier : List Moment}

/-- What lies within a tree has lain within it from the beginning. -/
theorem Within.of_settles (h : L.Settles M) {atom : Value → Prop} {whole v : Value}
    (htree : L.Tree atom whole) (hv : M.Within whole v) : L.Within whole v ∧ L.Tree atom v := by
  induction hv with
  | refl => exact ⟨.refl, htree⟩
  | car hrole _ ih | cdr hrole _ ih =>
    obtain ⟨hwithin, hpair⟩ := ih
    cases hpair with
    | atom hplace => simp [Value.isPlace] at hplace
    | pair hrole' hcar hcdr =>
      -- A pair of data has the same fields in every later layout.
      obtain ⟨rfl, rfl⟩ : _ ∧ _ := by simpa [h.role hrole' rfl] using hrole
      first
        | exact ⟨.car hrole' hwithin, hcar⟩
        | exact ⟨.cdr hrole' hwithin, hcdr⟩

/-- What is given is part of a form that a line has read: it was part of it then, and it is now. -/
theorem Oversees.part (h : L.Oversees o s earlier) (hnone : ∀ form, ¬o.layout.form form)
    {v : Value} (hv : L.Given v) :
    ∃ m ∈ earlier, ∃ text whole, m.callers = [] ∧ m.deed = .answer (.read text) whole ∧
      m.store.Part whole v ∧ s.Part whole v := by
  obtain ⟨whole, hform, hwithin⟩ := hv
  obtain ⟨m, hmem, hcallers, text, hanswer⟩ := (h.forms whole hform).resolve_left (hnone whole)
  obtain ⟨old, hvouches, hrecalls⟩ := h.past m hmem
  have hwhole : old.Matter whole := by
    apply hvouches.knows.values
    simp [hanswer, Deed.values]
  have hold := (hwithin.of_settles hrecalls.settles hwhole).1
  exact ⟨m, hmem, text, whole, hcallers, hanswer, hold.part hvouches.kept, hwithin.part h.kept⟩

/-- A host object is no value. -/
theorem Matter.ne_foreign {v : Value} (hv : L.Matter v) (object : Foreign) :
    v ≠ .foreign object := by
  rintro rfl
  cases hv with
  | atom _ hatom =>
    rcases hatom with hatom | herror
    · exact L.vocabulary.token hatom
    · simp [Value.isError] at herror

end Layout

namespace Moment

/-- What is evaluated at a moment, what an error says, and what is held. -/
structure Regular (globals : Value) (m : Moment) (earlier : List Moment) : Prop where
  /-- A form that is evaluated is part of what a line has read, as it was read and as it is now. -/
  forms {form env : Value} (hcall : m.deed = .call (.evaluate form env)) :
    ∃ m' ∈ earlier, ∃ text whole, m'.callers = [] ∧ m'.deed = .answer (.read text) whole ∧
      m'.store.Part whole form ∧ m.store.Part whole form
  /-- No error says that a value is not evaluable. -/
  evaluable {fault : Fault} (hchange : m.deed = .change (.error fault)) (printed : String) :
    fault ≠ .notEvaluable printed
  /-- No host object is held. -/
  native {v : Value} (hv : m.Holds globals earlier .value v) (object : Foreign) :
    v ≠ .foreign object
  /-- Every environment is a list of lists of pairs, with the global one at its end. -/
  environments {env : Value} (henv : m.Holds globals earlier .environment env) :
    m.store.ProperEnvironment globals env

end Moment

theorem Layout.Vouches.regular {L : Layout} {o : Opening} {m : Moment} {earlier : List Moment}
    (h : L.Vouches m) (hover : L.Oversees o m.store earlier)
    (hnone : ∀ form, ¬o.layout.form form) : m.Regular (.pair o.layout.home) earlier := by
  constructor
  · intro form env hcall
    have hknows := h.knows
    rw [hcall] at hknows
    exact hover.part hnone hknows.1.2
  · intro fault hchange
    exact h.allows _ hchange
  · intro v hv
    exact Layout.Matter.ne_foreign (h.held hover hv)
  · intro env henv
    rw [hover.opening.settles.home]
    exact Layout.Env.proper hover.kept (h.held hover henv)

namespace Chronicle

/-- At every moment of a session only parts of what has been read are evaluated, no error says that
a value is not evaluable, no host object is held, and all environments are proper.  Every line ends
with a text or with one of three aborts: a quotient or a remainder of two numbers is asked for, of
which the second is zero; a number is too long to be printed, in the result or in the place of a
function; or the nesting limit is reached. -/
theorem session_aborts (log : Log) (limit : Nat) (texts : List (List Char)) (text : List Char) :
    let i := Interpreter.new log
    let watched := (session log limit texts).2.line limit i.globals text
    let printed := (i.evalAll limit texts).2.evalPrint limit text
    (watched.2.state = printed.2.state ∧
        watched.1.bind (watched.2.state.store.print limit) = printed.1) ∧
      (∀ m earlier, m :: earlier <:+ watched.2.moments → m.Regular i.globals earlier) ∧
      ((∃ answer, printed.1 = .ok answer) ∨
        ∃ abort, printed.1 = .error abort ∧ watched.2.Aborts limit watched.1 abort ∧
          (abort = .divisionByZero ∨ abort = .numberTooLong ∨ abort = .tooDeep)) := by
  intro i watched printed
  obtain ⟨o, L, -, hglobals, rfl, hnone, hfull, henv, hsound⟩ :=
    session_sound_within log limit texts
  obtain ⟨L', -, hline, -⟩ := hsound.line hfull henv text
  have hprinted : watched.2.state = printed.2.state ∧
      watched.1.bind (watched.2.state.store.print o.limit) = printed.1 := by
    have heq : watched = _ := session_line log o.limit texts text
    rw [heq]
    exact line_eq_evalPrint ..
  refine ⟨hprinted, fun m earlier hsuffix => ?_, ?_⟩
  · obtain ⟨-, ⟨M, hvouches, hover⟩, -⟩ := hline.accounted.of_suffix hsuffix
    rw [hglobals]
    exact hvouches.regular hover hnone
  · cases hend : printed.1 with
    | ok answer => exact .inl ⟨answer, rfl⟩
    | error abort =>
      have haborts := hsound.aborts hfull henv text (hprinted.2.trans hend)
      exact .inr ⟨abort, rfl, haborts, haborts.ordinary.cases⟩

example : ((Interpreter.new {}).evalPrint 100 "(/ 1 0)".toList).1 = .error .divisionByZero := by
  decide +kernel

example : ((Interpreter.new {}).evalPrint 1 "(quote 1)".toList).1 = .error .tooDeep := by
  decide +kernel

end Chronicle

end ConsLisp
