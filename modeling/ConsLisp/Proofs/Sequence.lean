import ConsLisp.Evaluation
import ConsLisp.Proofs.Store.Reverse

/-!
# The order of evaluation

A program runs part after part, each in the state in which the one before has left off.  So what a
program does is put together from what its parts do.  The forms of a list are evaluated from left to
right.  An abort or an error ends this at once.  Otherwise the values have been put in front of each
other in new pairs, and these are turned into the list that is the result.

Main statements: the parts of a program (`Action.bind_ok`, `Action.bind_error`), one more form in
front (`Action.Collects.next`), and what becomes of all forms (`Action.Collects.evaluatesAll`).
-/

namespace ConsLisp.Action

variable {α β : Type} {s : Store} {log : Log} {env : Value} {depth place : Nat}

/-- After an answer of the first part, the second one runs. -/
theorem bind_ok {a : Action α} {x : α} {state between : State} (h : a state = .ok x between)
    (f : α → Action β) : (a >>= f) state = f x between := by
  simp only [Bind.bind, EStateM.bind, h]

/-- After an abort of the first part, nothing runs. -/
theorem bind_error {a : Action α} {abort : Abort} {state after : State}
    (h : a state = .error abort after) (f : α → Action β) :
    (a >>= f) state = .error abort after := by
  simp only [Bind.bind, EStateM.bind, h]

/-- A program that answers has got an answer from its first part. -/
theorem exists_of_bind_ok {a : Action α} {f : α → Action β} {state after : State} {y : β}
    (h : (a >>= f) state = .ok y after) :
    ∃ x between, a state = .ok x between ∧ f x between = .ok y after := by
  simp only [Bind.bind, EStateM.bind] at h
  cases hrun : a state with
  | ok x between => exact ⟨x, between, rfl, by simpa [hrun] using h⟩
  | error abort between => simp [hrun] at h

theorem evaluate_special {special : Special}
    (hhead : (s.car (.pair place)).special? = some special) :
    (evaluate (depth + 1) (.pair place) env : Action Value) ⟨s, log⟩ =
      (evaluateSpecial depth special (s.cdr (.pair place)) env : Action Value) ⟨s, log⟩ := by
  simp only [evaluate, Machine.nested, Action.car, Action.cdr, Bind.bind, EStateM.bind,
    Machine.look, hhead]

theorem evaluate_application (hhead : (s.car (.pair place)).special? = none) :
    (evaluate (depth + 1) (.pair place) env : Action Value) ⟨s, log⟩ =
      (do
        let fn ← evaluate depth (s.car (.pair place)) env
        let values ← evaluateAll depth (s.cdr (.pair place)) env
        apply depth fn values : Action Value) ⟨s, log⟩ := by
  simp only [evaluate, Machine.nested, Action.car, Action.cdr, Bind.bind, EStateM.bind,
    Machine.look, hhead]

theorem nested_eq (call : Call) (value : α → Value) (body : Action α) :
    Machine.nested call value body = body := rfl

theorem size_bind (f : Nat → Action α) (s : Store) (log : Log) :
    (size >>= f : Action α) ⟨s, log⟩ = f s.size ⟨s, log⟩ := rfl

/-! ## Lists of forms -/

/-- Forms are evaluated one after the other, to values of which none is an error.  After each a new
pair puts its value in front of `done`; these are their places. -/
inductive Passes (valueOf : Value → Action Value) :
    Value → State → List Value → List Value → List Nat → State → Prop
  | nil {done : Value} {state : State} : Passes valueOf done state [] [] [] state
  | cons {done form value : Value} {forms values : List Value} {places : List Nat}
      {state between after : State} (hrun : valueOf form state = .ok value between)
      (hvalue : value.isError = false)
      (hrest : Passes valueOf (.pair between.store.size)
        ⟨(between.store.cons value done).2, between.log⟩ forms values places after) :
      Passes valueOf done state (form :: forms) (value :: values)
        (between.store.size :: places) after

/-- What becomes of the evaluation of a list of forms in an environment, from a first state on, if
each form may have this many nested calls. -/
inductive EvaluatesAll (depth : Nat) (env : Value) (forms : List Value) (first : State) :
    EStateM.Result Abort State Value → Prop
  /-- A form aborts.  Those before it have been evaluated, and none behind it is. -/
  | aborts {form : Value} {passed behind values : List Value} {places : List Nat} {abort : Abort}
      {between after : State} (hforms : forms = passed ++ form :: behind)
      (hpassed : Passes (evaluate depth · env) .nil first passed values places between)
      (hrun : (evaluate depth form env : Action Value) between = .error abort after) :
      EvaluatesAll depth env forms first (.error abort after)
  /-- The value of a form is an error, which is the result.  None behind it is evaluated. -/
  | error {form error : Value} {passed behind values : List Value} {places : List Nat}
      {between after : State} (hforms : forms = passed ++ form :: behind)
      (hpassed : Passes (evaluate depth · env) .nil first passed values places between)
      (hrun : (evaluate depth form env : Action Value) between = .ok error after)
      (herror : error.isError = true) :
      EvaluatesAll depth env forms first (.ok error after)
  /-- All forms have values.  The new pairs are turned into the list of these, and nothing else
  changes. -/
  | list {list : Value} {values : List Value} {places : List Nat} {between : State} {s : Store}
      (hpassed : Passes (evaluate depth · env) .nil first forms values places between)
      (hfresh : ∀ place ∈ places, first.store.size ≤ place)
      (hlist : s.Links list places values .nil)
      (hkeeps : Store.KeepsExcept places between.store s) (hsize : s.size = between.store.size)
      (hserial : s.serial = between.store.serial) :
      EvaluatesAll depth env forms first (.ok list ⟨s, between.log⟩)

/-- What becomes of the evaluation of the rest of the forms, if the values so far are a list of
these pairs. -/
inductive Collects (valueOf : Value → Action Value) (done : Value) (front : List Nat)
    (elements : List Value) (first : State) (forms : List Value) :
    EStateM.Result Abort State Value → Prop
  | aborts {form : Value} {passed behind values : List Value} {places : List Nat} {abort : Abort}
      {between after : State} (hforms : forms = passed ++ form :: behind)
      (hpassed : Passes valueOf done first passed values places between)
      (hrun : valueOf form between = .error abort after) :
      Collects valueOf done front elements first forms (.error abort after)
  | error {form error : Value} {passed behind values : List Value} {places : List Nat}
      {between after : State} (hforms : forms = passed ++ form :: behind)
      (hpassed : Passes valueOf done first passed values places between)
      (hrun : valueOf form between = .ok error after) (herror : error.isError = true) :
      Collects valueOf done front elements first forms (.ok error after)
  | values {all : Value} {values : List Value} {places : List Nat} {between : State}
      (hpassed : Passes valueOf done first forms values places between)
      (hfresh : ∀ place ∈ places, first.store.size ≤ place)
      (hall : between.store.Links all (places.reverse ++ front) (values.reverse ++ elements) .nil) :
      Collects valueOf done front elements first forms ((reverse all : Action Value) between)

/-- One more form is evaluated before. -/
theorem Collects.next {valueOf : Value → Action Value} {done form value : Value} {front : List Nat}
    {elements forms : List Value} {first between : State}
    {result : EStateM.Result Abort State Value} (hrun : valueOf form first = .ok value between)
    (hvalue : value.isError = false) (hsize : first.store.size ≤ between.store.size)
    (h : Collects valueOf (.pair between.store.size) (between.store.size :: front)
      (value :: elements) ⟨(between.store.cons value done).2, between.log⟩ forms result) :
    Collects valueOf done front elements first (form :: forms) result := by
  cases h with
  | aborts hforms hpassed hrun' =>
    exact .aborts (congrArg (form :: ·) hforms) (.cons hrun hvalue hpassed) hrun'
  | error hforms hpassed hrun' herror =>
    exact .error (congrArg (form :: ·) hforms) (.cons hrun hvalue hpassed) hrun' herror
  | values hpassed hfresh hall =>
    refine .values (.cons hrun hvalue hpassed) (fun place hmem => ?_) ?_
    · rcases List.mem_cons.mp hmem with rfl | hmem
      · exact hsize
      · have hle := hfresh place hmem
        have hlonger : (between.store.cons value done).2.size = between.store.size + 1 :=
          Store.size_cons ..
        simp only [hlonger] at hle
        omega
    · simpa using hall

/-- The pairs of the values are turned around, and then they are the list in order. -/
theorem Collects.evaluatesAll {depth : Nat} {env : Value} {forms : List Value} {first : State}
    {result : EStateM.Result Abort State Value}
    (h : Collects (evaluate depth · env) .nil [] [] first forms result) :
    EvaluatesAll depth env forms first result := by
  cases h with
  | aborts hforms hpassed hrun => exact .aborts hforms hpassed hrun
  | error hforms hpassed hrun herror => exact .error hforms hpassed hrun herror
  | values hpassed hfresh hall =>
    obtain ⟨list, s, hreverse, hlist, hkeeps, hserial⟩ := reverse_of_links hall
    rw [List.append_nil, List.append_nil, List.reverse_reverse, List.reverse_reverse] at hlist
    rw [hreverse]
    refine .list hpassed hfresh hlist ⟨hkeeps.size, fun hlt hplace => ?_⟩
      (size_of_reverse hreverse) hserial
    exact hkeeps.cell hlt (by simpa using hplace)

theorem collect_done {valueOf : Value → Action Value} {fuel : Nat} {done forms : Value} {s : Store}
    {log : Log} (h : s.cell? forms = none) :
    (collect valueOf fuel done forms : Action Value) ⟨s, log⟩ =
      (reverse done : Action Value) ⟨s, log⟩ := by
  unfold collect
  simp only [Bind.bind, EStateM.bind, Machine.look, h]

/-- One form is evaluated, and then the others are if its value is no error. -/
theorem collect_next {valueOf : Value → Action Value} {fuel : Nat} {done forms a d : Value}
    {s : Store} {log : Log} (h : s.cell? forms = some ⟨a, d⟩) :
    (collect valueOf (fuel + 1) done forms : Action Value) ⟨s, log⟩ =
      match valueOf a ⟨s, log⟩ with
      | .error abort after => .error abort after
      | .ok value between =>
        if value.isError then
          .ok value between
        else
          let longer := (between.store.cons value done).2
          (collect valueOf fuel (.pair between.store.size) (longer.cdr forms) : Action Value)
            ⟨longer, between.log⟩ := by
  rw [collect]
  simp only [Bind.bind, EStateM.bind, Machine.look, h]
  cases valueOf a ⟨s, log⟩ with
  | error abort after => rfl
  | ok value between =>
    dsimp only
    cases value.isError with
    | true => rfl
    | false => rfl

theorem evaluateAll_succ (depth : Nat) (forms env : Value) (s : Store) (log : Log) :
    (evaluateAll (depth + 1) forms env : Action Value) ⟨s, log⟩ =
      (collect (fun form => evaluate depth form env) (s.size + patience) .nil forms : Action Value)
        ⟨s, log⟩ := by
  -- The fuel is large, so nothing here may compute it.
  rw [evaluateAll, nested_eq]
  exact size_bind _ s log

end ConsLisp.Action
