import ConsLisp.Proofs.Outline.Session

/-!
# The order of evaluation in an application

In an application the operator is evaluated first and then the operands from left to right, each in
the state in which the one before has left off.  An abort ends this at once.  The first error among
the operands ends it, too, but an error of the operator does not; of the two the error of the
operator is the result.  Without any error the function is applied to a new list of the values.

Main statement: this holds of any application that may be evaluated at any point of any session
(`session_applies`).
-/

namespace ConsLisp

namespace Action

/-- What becomes of the application of an operator to operands in an environment, from a first state
on.  The operator and the function have one nested call more left than each operand. -/
inductive Applies (depth : Nat) (env op : Value) (forms : List Value) (first : State) :
    EStateM.Result Abort State Value → Prop
  /-- The operator aborts.  No operand is evaluated. -/
  | operator {abort : Abort} {after : State}
      (hop : (evaluate (depth + 1) op env : Action Value) first = .error abort after) :
      Applies depth env op forms first (.error abort after)
  /-- An operand aborts.  Those before it have been evaluated, and none behind it is. -/
  | aborts {fn form : Value} {passed behind values : List Value} {places : List Nat}
      {abort : Abort} {before between after : State}
      (hop : (evaluate (depth + 1) op env : Action Value) first = .ok fn before)
      (hforms : forms = passed ++ form :: behind)
      (hpassed : Passes (evaluate depth · env) .nil before passed values places between)
      (hrun : (evaluate depth form env : Action Value) between = .error abort after) :
      Applies depth env op forms first (.error abort after)
  /-- An operand is an error.  None behind it is evaluated, and nothing is applied. -/
  | error {fn form error : Value} {passed behind values : List Value} {places : List Nat}
      {before between after : State}
      (hop : (evaluate (depth + 1) op env : Action Value) first = .ok fn before)
      (hforms : forms = passed ++ form :: behind)
      (hpassed : Passes (evaluate depth · env) .nil before passed values places between)
      (hrun : (evaluate depth form env : Action Value) between = .ok error after)
      (herror : error.isError = true) :
      Applies depth env op forms first (.ok (if fn.isError then fn else error) after)
  /-- All operands have values.  The new pairs are turned into the list of these, and nothing else
  changes.  Then the function is applied to the list, unless it is an error itself. -/
  | values {fn list : Value} {values : List Value} {places : List Nat} {before between : State}
      {s : Store}
      (hop : (evaluate (depth + 1) op env : Action Value) first = .ok fn before)
      (hpassed : Passes (evaluate depth · env) .nil before forms values places between)
      (hfresh : ∀ place ∈ places, before.store.size ≤ place)
      (hlist : s.Links list places values .nil)
      (hkeeps : Store.KeepsExcept places between.store s) (hsize : s.size = between.store.size)
      (hserial : s.serial = between.store.serial) :
      Applies depth env op forms first
        (if fn.isError then .ok fn ⟨s, between.log⟩
          else (apply (depth + 1) fn list : Action Value) ⟨s, between.log⟩)

/-- Applied to an error, a function only hands it on; an error in its own place comes first. -/
theorem apply_error {fn args : Value} (h : fn.isError = true ∨ args.isError = true) (depth : Nat)
    (state : State) :
    (apply (depth + 1) fn args : Action Value) state =
      .ok (if fn.isError then fn else args) state := by
  unfold apply
  rw [nested_eq]
  cases hfn : fn.isError with
  | true => rfl
  | false =>
    have hargs : args.isError = true := by simpa [hfn] using h
    rw [hargs]
    rfl

end Action

namespace Layout

variable {L : Layout} {s : Store} {env : Value}

/-- What becomes of the operands decides what becomes of the application. -/
theorem applies_of_evaluatesAll {depth : Nat} {fn op : Value} {forms : List Value}
    {first before : State} {operands : Action Value}
    (hop : (ConsLisp.evaluate (depth + 1) op env : Action Value) first = .ok fn before)
    (h : Action.EvaluatesAll depth env forms before (operands before)) :
    Action.Applies depth env op forms first
      ((operands >>= fun values => apply (depth + 1) fn values : Action Value) before) := by
  generalize hresult : operands before = result at h
  cases h with
  | aborts hforms hpassed hrun =>
    rw [Action.bind_error hresult]
    exact .aborts hop hforms hpassed hrun
  | error hforms hpassed hrun herror =>
    rw [Action.bind_ok hresult, Action.apply_error (.inr herror)]
    exact .error hop hforms hpassed hrun herror
  | list hpassed hfresh hlist hkeeps hsize hserial =>
    rw [Action.bind_ok hresult]
    have happlies := Action.Applies.values hop hpassed hfresh hlist hkeeps hsize hserial
    cases hfn : fn.isError with
    | true =>
      rw [hfn, if_pos rfl] at happlies
      rwa [Action.apply_error (.inl hfn), hfn, if_pos rfl]
    | false => rwa [hfn, if_neg Bool.false_ne_true] at happlies

/-- An application that is program text is evaluated in order. -/
theorem Ready.applies (h : L.Ready s) (henv : L.Env env) {form op : Value} {forms : List Value}
    (hcode : L.Code form) (helements : s.elements form = .ok (op :: forms))
    (hop : op.special? = none) (depth : Nat) (log : Log) :
    Action.Applies depth env op forms ⟨s, log⟩
      ((ConsLisp.evaluate (depth + 2) form env : Action Value) ⟨s, log⟩) := by
  obtain ⟨place, d, rfl, hrole, hcodeOp, hcodeForms, helements⟩ := hcode.uncons h.kept helements
  have hhead : (s.car (.pair place)).special? = none := by rw [h.kept.car_data hrole, hop]
  rw [Action.evaluate_application hhead, h.kept.car_data hrole, h.kept.cdr_data hrole]
  obtain ⟨elements, tail, hchain, hforms⟩ := hcodeForms.chain
  obtain ⟨places, hlinks⟩ := hchain.links h.kept
  obtain rfl : elements = forms := Except.ok.inj (hlinks.elements_eq.symm.trans helements)
  cases hrun : (ConsLisp.evaluate (depth + 1) op env : Action Value) ⟨s, log⟩ with
  | error abort after =>
    rw [Action.bind_error hrun]
    exact .operator hrun
  | ok fn before =>
    obtain ⟨M, hle, hready, -⟩ := h.evaluate hcodeOp henv hrun
    have hsettles := settles_of_le hle
    -- The list of the operands is still the same.
    obtain ⟨_, hsame⟩ := (hchain.mono hsettles).links hready.kept
    obtain ⟨_, operands, _, hlinks', hall⟩ :=
      hready.evaluatesAll (hcodeForms.mono hsettles).data.matter (henv.mono hsettles)
    obtain ⟨-, rfl, -⟩ := hsame.functional hlinks'
    rw [Action.bind_ok hrun]
    exact applies_of_evaluatesAll hrun (hall depth before.log)

end Layout

namespace Chronicle

/-- At any point of a session an application is evaluated in order: the operator, the operands from
left to right up to the first error, and then the function is applied, if there is no error. -/
theorem session_applies (log : Log) (limit : Nat) (texts : List (List Char)) {m : Moment}
    {earlier : List Moment} (hpoint : m :: earlier <:+ (session log limit texts).2.moments)
    {form env : Value} (hposed : m.Poses (Interpreter.new log).globals earlier form env)
    {op : Value} {forms : List Value} (helements : m.store.elements form = .ok (op :: forms))
    (hop : ∀ name ∈ ["quote", "if", "lambda", "defun", "setq"], op ≠ .sym name) (noted : Log) :
    (∀ depth < 2, (evaluate depth form env : Action Value) ⟨m.store, noted⟩ =
      .error .tooDeep ⟨m.store, noted⟩) ∧
    ∀ depth, Action.Applies depth env op forms ⟨m.store, noted⟩
      ((evaluate (depth + 2) form env : Action Value) ⟨m.store, noted⟩) := by
  obtain ⟨L, -, hready, hcode, henv, -⟩ := session_poses log limit texts hpoint hposed
  have hspecial : op.special? = none := by
    cases op with
    | sym name =>
      show Special.ofName? name = none
      unfold Special.ofName?
      split <;> first | rfl | exact absurd rfl (hop _ (by simp))
    | _ => rfl
  refine ⟨fun depth hdepth => ?_, fun depth =>
    hready.applies henv hcode helements hspecial depth noted⟩
  obtain ⟨place, d, rfl, hrole, -⟩ := hcode.uncons hready.kept helements
  cases depth with
  | zero => rfl
  | succ depth =>
    obtain rfl : depth = 0 := by omega
    have hhead : (m.store.car (.pair place)).special? = none := by
      rw [hready.kept.car_data hrole, hspecial]
    rw [Action.evaluate_application hhead]
    rfl

/-- The operands of the application in the body of the closure are two times the same variable. -/
theorem session_applies_captured :
    ∃ m earlier, m :: earlier <:+ (session {} 100 [sample]).2.moments ∧
      m.Poses (Interpreter.new {}).globals earlier (.pair 36) (.pair 46) ∧
      Action.Applies 48 (.pair 46) (.sym "cons") [.sym "x", .sym "x"] ⟨m.store, {}⟩
        ((evaluate 50 (.pair 36) (.pair 46) : Action Value) ⟨m.store, {}⟩) := by
  obtain ⟨m, earlier, hpoint, hstore, -, hposed⟩ := sample_poses
  have helements : sampleStore.elements (.pair 36) = .ok [.sym "cons", .sym "x", .sym "x"] := by
    decide +kernel
  rw [← hstore] at helements
  obtain ⟨-, happlies⟩ :=
    session_applies {} 100 [sample] hpoint hposed helements (by decide) {}
  exact ⟨m, earlier, hpoint, hposed, happlies 48⟩

end Chronicle

end ConsLisp
