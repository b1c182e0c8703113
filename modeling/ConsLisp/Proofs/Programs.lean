import ConsLisp.Interpreter

/-!
# Programs on two machines

The programs of a session are written once, for every machine, out of a few kinds of steps.  So a
relation between the programs of one machine and those of another holds of each program and itself
as soon as the steps keep it.  On the second machine more nested calls may be left than on the
first: then it is enough to say what becomes of a program that has none left on the first.

Three kinds of relations build on each other.  `Steps` keeps what programs do one after the other,
`Calls` keeps nested calls as well, and `Relation` also the question which events the log keeps.
Without the last one the two logs may differ in what they keep: then it has to be shown by other
means that the special forms, which alone ask that question, are related to themselves.

Main statement: the evaluation of a line is related to itself (`Machine.Calls.evalLine`).
-/

namespace ConsLisp

/-- The special form reports a detail of what it does. -/
def Special.Reports : Special → Prop
  | lambda | define | assign => True
  | quote | choice => False

namespace Machine

/-- A relation between the programs of two machines that is kept by the steps that a program takes
one after the other. -/
structure Steps (m m' : Type → Type) [Machine m] [Machine m'] where
  /-- The first program is related to the second. -/
  Rel {α : Type} : m α → m' α → Prop
  pure {α : Type} (x : α) : Rel (pure x) (pure x)
  throw {α : Type} (abort : Abort) : Rel (throw abort : m α) (throw abort)
  bind {α β : Type} {a : m α} {b : m' α} {f : α → m β} {g : α → m' β} (h : Rel a b)
    (hf : ∀ x, Rel (f x) (g x)) : Rel (a >>= f) (b >>= g)
  look {α : Type} (f : Store → α) : Rel (look f) (look f)
  change (d : Change) : Rel (change d) (change d)
  note (event : Event) : Rel (note event) (note event)

/-- Such a relation that is kept by nested calls, too. -/
structure Calls (m m' : Type → Type) [Machine m] [Machine m'] extends Steps m m' where
  nested {α : Type} (call : Call) (value : α → Value) {a : m α} {b : m' α} (h : Rel a b) :
    Rel (nested call value a) (nested call value b)

/-- A relation between the programs of two machines that is kept by all steps of which programs are
made. -/
structure Relation (m m' : Type → Type) [Machine m] [Machine m'] extends Calls m m' where
  keeps (level : Level) : Rel (keeps level) (keeps level)

variable {m m' : Type → Type} [Machine m] [Machine m']

namespace Steps

variable {α : Type} (R : Steps m m')

theorem ask (f : Store → Except Abort α) : R.Rel (Action.ask f) (Action.ask f) := by
  apply R.bind (R.look f)
  intro result
  cases result with
  | ok x => exact R.pure x
  | error abort => exact R.throw abort

theorem setCar (v a : Value) : R.Rel (Action.setCar v a) (Action.setCar v a) :=
  R.bind (R.change _) fun _ => R.pure _

theorem setCdr (v d : Value) : R.Rel (Action.setCdr v d) (Action.setCdr v d) :=
  R.bind (R.change _) fun _ => R.pure _

theorem reverseOnto (fuel : Nat) (done rest : Value) :
    R.Rel (Action.reverseOnto fuel done rest) (Action.reverseOnto fuel done rest) := by
  induction fuel generalizing done rest with
  | zero =>
    unfold Action.reverseOnto
    apply R.bind (R.look _)
    intro cell
    cases cell with
    | none => exact R.pure done
    | some c => exact R.throw _
  | succ fuel ih =>
    unfold Action.reverseOnto
    apply R.bind (R.look _)
    intro cell
    cases cell with
    | none => exact R.pure done
    | some c => exact R.bind (R.setCdr _ _) fun _ => ih _ _

theorem reverse (v : Value) : R.Rel (Action.reverse v) (Action.reverse v) :=
  R.bind (R.look _) fun _ => R.reverseOnto ..

theorem zipOnto (fuel : Nat) (done keys values : Value) :
    R.Rel (Action.zipOnto fuel done keys values) (Action.zipOnto fuel done keys values) := by
  induction fuel generalizing done keys values with
  | zero =>
    unfold Action.zipOnto
    refine R.bind (R.look _) fun key => R.bind (R.look _) fun value => ?_
    -- Out of fuel, the walk ends with either list or gives up.
    cases key <;> cases value <;> first | exact R.throw _ | exact R.reverse done
  | succ fuel ih =>
    unfold Action.zipOnto
    refine R.bind (R.look _) fun key => R.bind (R.look _) fun value => ?_
    cases key with
    | none => exact R.reverse done
    | some key =>
      cases value with
      | none => exact R.reverse done
      | some value => exact R.bind (R.change _) fun _ => R.bind (R.change _) fun _ => ih ..

theorem zip (keys values : Value) : R.Rel (Action.zip keys values) (Action.zip keys values) :=
  R.bind (R.look _) fun _ => R.zipOnto ..

theorem listBefore (elements : List Value) (tail : Value) :
    R.Rel (Action.listBefore elements tail) (Action.listBefore elements tail) := by
  have hfold (done : Value) : R.Rel
      (elements.foldlM (fun done element => Action.cons element done) done : m Value)
      (elements.foldlM (fun done element => Action.cons element done) done) := by
    induction elements generalizing done with
    | nil => exact R.pure done
    | cons element elements ih =>
      rw [List.foldlM_cons, List.foldlM_cons]
      exact R.bind (R.change _) ih
  refine R.bind (R.bind (hfold .nil) R.reverse) fun head => ?_
  split
  · exact R.pure head
  · split
    · exact R.pure tail
    · exact R.bind (R.ask _) fun last => R.bind (R.setCdr last tail) fun _ => R.pure head

theorem define (name value env : Value) :
    R.Rel (Action.define name value env) (Action.define name value env) :=
  R.bind (R.change _) fun _ => R.bind (R.look _) fun _ => R.bind (R.change _) fun _ => R.setCar ..

theorem defineGlobal (name value env : Value) :
    R.Rel (Action.defineGlobal name value env) (Action.defineGlobal name value env) :=
  R.bind (R.ask _) fun _ => R.define ..

theorem assign (name value env : Value) :
    R.Rel (Action.assign name value env) (Action.assign name value env) := by
  apply R.bind (R.ask _)
  intro binding
  cases binding with
  | none => exact R.pure false
  | some binding => exact R.bind (R.setCdr _ _) fun _ => R.pure true

theorem number (n : Option Int) : R.Rel (Action.number n) (Action.number n) := by
  cases n with
  | none => exact R.change _
  | some n => exact R.pure _

theorem total (operation : List Value → Option Int) (args : Value) :
    R.Rel (Action.total operation args) (Action.total operation args) := by
  apply R.bind (R.ask _)
  intro found
  cases found with
  | true => exact R.change _
  | false => exact R.bind (R.ask _) fun _ => R.number _

theorem applyTo (p : Primitive) (args : Value) : R.Rel (p.applyTo args) (p.applyTo args) := by
  refine R.bind (R.look _) fun x => R.bind (R.look _) fun rest => R.bind (R.look _) fun y => ?_
  cases p with
  | car | cdr => exact R.look _
  | cons => exact R.change _
  | eq | numberp | symbolp => exact R.pure _
  | atom => exact R.bind (R.look _) fun _ => R.pure _
  | add | mul => exact R.total ..
  | sub | div | mod => exact R.bind (R.ask _) fun _ => R.number _

theorem closeOver (lambdaList env : Value) :
    R.Rel (ConsLisp.closeOver lambdaList env) (ConsLisp.closeOver lambdaList env) :=
  R.bind (R.look _) fun _ => R.bind (R.look _) fun _ => R.change _

theorem collect {valueOf : Value → m Value} {valueOf' : Value → m' Value}
    (hvalue : ∀ form, R.Rel (valueOf form) (valueOf' form)) (fuel : Nat) (done forms : Value) :
    R.Rel (ConsLisp.collect valueOf fuel done forms)
      (ConsLisp.collect valueOf' fuel done forms) := by
  induction fuel generalizing done forms with
  | zero =>
    unfold ConsLisp.collect
    apply R.bind (R.look _)
    intro cell
    cases cell with
    | none => exact R.reverse done
    | some c => exact R.throw _
  | succ fuel ih =>
    unfold ConsLisp.collect
    apply R.bind (R.look _)
    intro cell
    cases cell with
    | none => exact R.reverse done
    | some c =>
      apply R.bind (hvalue c.car)
      intro value
      cases value.isError with
      | true => exact R.pure value
      | false => exact R.bind (R.change _) fun _ => R.bind (R.look _) fun _ => ih ..

theorem inSequence {valueOf : Value → m Value} {valueOf' : Value → m' Value}
    (hvalue : ∀ form, R.Rel (valueOf form) (valueOf' form)) (fuel : Nat) (before forms : Value) :
    R.Rel (ConsLisp.inSequence valueOf fuel before forms)
      (ConsLisp.inSequence valueOf' fuel before forms) := by
  induction fuel generalizing before forms with
  | zero =>
    unfold ConsLisp.inSequence
    apply R.bind (R.look _)
    intro cell
    cases cell with
    | none => exact R.pure before
    | some c => exact R.throw _
  | succ fuel ih =>
    unfold ConsLisp.inSequence
    apply R.bind (R.look _)
    intro cell
    cases cell with
    | none => exact R.pure before
    | some c => exact R.bind (hvalue c.car) fun _ => R.bind (R.look _) fun _ => ih ..

theorem refuse (fault : Fault) : R.Rel (Form.refuse fault) (Form.refuse fault) :=
  R.bind (R.note _) fun _ => R.bind (R.change _) fun _ => R.pure _

theorem objectOf (atom : Value) : R.Rel (Form.objectOf atom) (Form.objectOf atom) := by
  unfold Form.objectOf
  cases atom.unshared? with
  | none => exact R.pure atom
  | some n => exact R.change _

theorem readEach {readOne : List Char → m (Value × List Char)}
    {readOne' : List Char → m' (Value × List Char)}
    (hread : ∀ text, R.Rel (readOne text) (readOne' text)) (fuel : Nat) (done : Value)
    (text : List Char) :
    R.Rel (Form.readEach readOne fuel done text) (Form.readEach readOne' fuel done text) := by
  induction fuel generalizing done text with
  | zero =>
    unfold Form.readEach
    split
    · exact R.refuse _
    · exact R.bind (R.reverse done) fun _ => R.pure _
    · exact R.throw _
  | succ fuel ih =>
    unfold Form.readEach
    split
    · exact R.refuse _
    · exact R.bind (R.reverse done) fun _ => R.pure _
    · refine R.bind (hread _) fun (form, rest) => ?_
      dsimp only
      split
      · exact R.pure (form, rest)
      · exact R.bind (R.change _) fun _ => ih ..

/-! Each function of the reader and of the evaluator is a nested call.  It is related to itself if
such calls of related programs are, and if the functions are that it calls with one nested call
less. -/

variable (depth depth' : Nat)

theorem readForm {text : List Char}
    (hnested : ∀ {a : m (Value × List Char)} {b : m' (Value × List Char)}, R.Rel a b →
      R.Rel (nested (.read text) Prod.fst a) (nested (.read text) Prod.fst b))
    (hform : ∀ text, R.Rel (Form.readForm depth text) (Form.readForm depth' text))
    (hrest : ∀ text, R.Rel (Form.readUntilClose depth text) (Form.readUntilClose depth' text)) :
    R.Rel (Form.readForm (depth + 1) text) (Form.readForm (depth' + 1) text) := by
  unfold Form.readForm
  refine hnested ?_
  split
  · exact R.refuse _
  · exact R.refuse _
  · exact hrest _
  · exact R.bind (hform _) fun _ =>
      R.bind (R.change _) fun _ => R.bind (R.change _) fun _ => R.pure _
  · exact R.bind (R.objectOf _) fun _ => R.pure _

theorem readUntilClose {text : List Char}
    (hnested : ∀ {a : m (Value × List Char)} {b : m' (Value × List Char)}, R.Rel a b →
      R.Rel (nested (.readUntilClose text) Prod.fst a) (nested (.readUntilClose text) Prod.fst b))
    (hform : ∀ text, R.Rel (Form.readForm depth text) (Form.readForm depth' text)) :
    R.Rel (Form.readUntilClose (depth + 1) text) (Form.readUntilClose (depth' + 1) text) := by
  unfold Form.readUntilClose
  exact hnested (R.readEach hform ..)

theorem evaluate {form env : Value}
    (hnested : ∀ {a : m Value} {b : m' Value}, R.Rel a b →
      R.Rel (nested (.evaluate form env) id a) (nested (.evaluate form env) id b))
    (hevaluate : ∀ form,
      R.Rel (ConsLisp.evaluate depth form env) (ConsLisp.evaluate depth' form env))
    (hall : ∀ forms, R.Rel (evaluateAll depth forms env) (evaluateAll depth' forms env))
    (hspecial : ∀ special args,
      R.Rel (evaluateSpecial depth special args env) (evaluateSpecial depth' special args env))
    (happly : ∀ fn args, R.Rel (apply depth fn args) (apply depth' fn args))
    (hprint : ∀ v, R.Rel (Action.print depth v) (Action.print depth' v)) :
    R.Rel (ConsLisp.evaluate (depth + 1) form env) (ConsLisp.evaluate (depth' + 1) form env) := by
  unfold ConsLisp.evaluate
  refine hnested ?_
  cases form with
  | nil | num | error => exact R.pure _
  | sym name =>
    apply R.bind (R.ask _)
    intro found
    cases found with
    | none => exact R.change _
    | some value => exact R.pure value
  | pair place =>
    refine R.bind (R.look _) fun head => R.bind (R.look _) fun args => ?_
    cases head.special? with
    | some special => exact hspecial special args
    | none =>
      exact R.bind (hevaluate head) fun _ => R.bind (hall args) fun _ => happly ..
  | primitive | closure => exact R.bind (hprint _) fun _ => R.change _
  | foreign object =>
    cases object with
    | flag truth => exact R.pure _
    | object => exact R.bind (hprint _) fun _ => R.change _

theorem evaluateAll {forms env : Value}
    (hnested : ∀ {a : m Value} {b : m' Value}, R.Rel a b →
      R.Rel (nested (.evaluateAll forms env) id a) (nested (.evaluateAll forms env) id b))
    (hevaluate : ∀ form,
      R.Rel (ConsLisp.evaluate depth form env) (ConsLisp.evaluate depth' form env)) :
    R.Rel (ConsLisp.evaluateAll (depth + 1) forms env)
      (ConsLisp.evaluateAll (depth' + 1) forms env) := by
  rw [ConsLisp.evaluateAll, ConsLisp.evaluateAll]
  exact hnested (R.bind (R.look _) fun size => R.collect hevaluate (size + patience) .nil forms)

theorem apply {fn args : Value}
    (hnested : ∀ {a : m Value} {b : m' Value}, R.Rel a b →
      R.Rel (nested (.apply fn args) id a) (nested (.apply fn args) id b))
    (henter : ∀ params body env,
      R.Rel (enter depth params body env args) (enter depth' params body env args))
    (hprint : ∀ v, R.Rel (Action.print depth v) (Action.print depth' v)) :
    R.Rel (ConsLisp.apply (depth + 1) fn args) (ConsLisp.apply (depth' + 1) fn args) := by
  unfold ConsLisp.apply
  refine hnested ?_
  split
  · exact R.pure fn
  · split
    · exact R.pure args
    · cases fn with
      | primitive serial p name => exact R.applyTo p args
      | closure serial params body env => exact henter params body env
      | _ => exact R.bind (hprint _) fun _ => R.change _

/-- What holds of nested calls of related programs holds of a body. -/
theorem body {P : m Value → m' Value → Prop} {forms env : Value}
    (hnested : ∀ {a : m Value} {b : m' Value}, R.Rel a b →
      P (nested (.body forms env) id a) (nested (.body forms env) id b))
    (hevaluate : ∀ form,
      R.Rel (ConsLisp.evaluate depth form env) (ConsLisp.evaluate depth' form env)) :
    P (evaluateBody (depth + 1) forms env) (evaluateBody (depth' + 1) forms env) := by
  rw [evaluateBody, evaluateBody]
  exact hnested (R.bind (R.look _) fun size => R.inSequence hevaluate (size + patience) .nil forms)

/-- A special form is a nested call: what holds of such calls of related programs holds of it, if
its operands are evaluated alike and its reports, which are all details, are related. -/
theorem special {P : m Value → m' Value → Prop} {special : Special} {args env : Value}
    (hnested : ∀ {a : m Value} {b : m' Value}, R.Rel a b →
      P (nested (.special special args env) id a) (nested (.special special args env) id b))
    (hevaluate : ∀ form,
      R.Rel (ConsLisp.evaluate depth form env) (ConsLisp.evaluate depth' form env))
    (hnote : special.Reports → ∀ event v, (∀ text, (event text).level = .debug) →
      R.Rel (noteValue depth event v) (noteValue depth' event v)) :
    P (evaluateSpecial (depth + 1) special args env)
      (evaluateSpecial (depth' + 1) special args env) := by
  unfold ConsLisp.evaluateSpecial
  refine hnested ?_
  -- Each special form is its own program, which is taken apart step by step.
  cases special with
  | quote => exact R.look _
  | choice =>
    refine R.bind (R.look _) fun _ => R.bind (hevaluate _) fun condition => ?_
    apply R.bind (R.look _)
    intro arms
    split
    · exact R.bind (R.look _) fun _ => R.bind (R.look _) fun _ => hevaluate _
    · exact R.bind (R.look _) fun _ => hevaluate _
  | lambda =>
    exact R.bind (R.closeOver args env) fun _ => R.bind (R.look _) fun _ =>
      R.bind (hnote trivial _ _ fun _ => rfl) fun _ => R.pure _
  | define =>
    exact R.bind (R.look _) fun _ => R.bind (R.look _) fun _ => R.bind (R.closeOver _ env) fun _ =>
      R.bind (R.defineGlobal ..) fun _ => R.bind (hnote trivial _ _ fun _ => rfl) fun _ =>
      R.pure _
  | assign =>
    refine R.bind (R.look _) fun _ => R.bind (R.look _) fun _ =>
      R.bind (hevaluate _) fun value => R.bind (R.look _) fun name =>
      R.bind (R.assign ..) fun found => ?_
    cases found with
    | true => exact R.pure value
    | false =>
      exact R.bind (hnote trivial _ _ fun _ => rfl) fun _ =>
        R.bind (R.defineGlobal ..) fun _ => R.pure value

end Steps

/-! ## Nested calls -/

namespace Calls

variable (R : Calls m m')

/-- The reader is related to itself, with these numbers of nested calls left. -/
structure Reading (R : Calls m m') (depth depth' : Nat) : Prop where
  form (text : List Char) : R.Rel (Form.readForm depth text) (Form.readForm depth' text)
  rest (text : List Char) : R.Rel (Form.readUntilClose depth text) (Form.readUntilClose depth' text)

/-- The evaluator and the printer are related to themselves, with these numbers of nested calls
left. -/
structure Evaluation (R : Calls m m') (depth depth' : Nat) : Prop where
  evaluate (form env : Value) :
    R.Rel (ConsLisp.evaluate depth form env) (ConsLisp.evaluate depth' form env)
  evaluateAll (forms env : Value) :
    R.Rel (ConsLisp.evaluateAll depth forms env) (ConsLisp.evaluateAll depth' forms env)
  special (special : Special) (args env : Value) :
    R.Rel (evaluateSpecial depth special args env) (evaluateSpecial depth' special args env)
  apply (fn args : Value) : R.Rel (ConsLisp.apply depth fn args) (ConsLisp.apply depth' fn args)
  enter (params body env args : Value) :
    R.Rel (ConsLisp.enter depth params body env args) (ConsLisp.enter depth' params body env args)
  body (forms env : Value) :
    R.Rel (evaluateBody depth forms env) (evaluateBody depth' forms env)
  print (v : Value) : R.Rel (Action.print depth v) (Action.print depth' v)

variable {depth depth' : Nat}

theorem reading_succ (ih : R.Reading depth depth') : R.Reading (depth + 1) (depth' + 1) :=
  ⟨fun _ => R.readForm _ _ (R.nested _ _) ih.form ih.rest,
    fun _ => R.readUntilClose _ _ (R.nested _ _) ih.form⟩

theorem evaluate_succ (ih : R.Evaluation depth depth') (form env : Value) :
    R.Rel (evaluate (depth + 1) form env) (evaluate (depth' + 1) form env) :=
  R.toSteps.evaluate _ _ (R.nested _ _) (ih.evaluate · env) (ih.evaluateAll · env)
    (ih.special · · env) ih.apply ih.print

theorem apply_succ (ih : R.Evaluation depth depth') (fn args : Value) :
    R.Rel (apply (depth + 1) fn args) (apply (depth' + 1) fn args) :=
  R.toSteps.apply _ _ (R.nested _ _) (ih.enter · · · args) ih.print

theorem evaluateAll_succ (ih : R.Evaluation depth depth') (forms env : Value) :
    R.Rel (evaluateAll (depth + 1) forms env) (evaluateAll (depth' + 1) forms env) :=
  R.toSteps.evaluateAll _ _ (R.nested _ _) (ih.evaluate · env)

theorem body_succ (ih : R.Evaluation depth depth') (forms env : Value) :
    R.Rel (evaluateBody (depth + 1) forms env) (evaluateBody (depth' + 1) forms env) :=
  R.toSteps.body _ _ (R.nested _ _) (ih.evaluate · env)

theorem enter_succ (ih : R.Evaluation depth depth') (params body env args : Value) :
    R.Rel (enter (depth + 1) params body env args) (enter (depth' + 1) params body env args) := by
  unfold ConsLisp.enter
  exact R.nested _ _ (R.bind (R.zip ..) fun _ => R.bind (R.change _) fun _ => ih.body ..)

/-- The reader is related to itself, if it is where the first machine has no nested call left. -/
theorem reading {more : Nat} (hzero : R.Reading 0 more) (depth : Nat) :
    R.Reading depth (depth + more) := by
  induction depth with
  | zero => rwa [Nat.zero_add]
  | succ depth ih =>
    rw [Nat.succ_add]
    exact R.reading_succ ih

/-- The evaluator is related to itself, if it is where the first machine has no nested call left,
and if the special forms are whenever it is with one nested call less. -/
theorem evaluation {more : Nat} (hzero : R.Evaluation 0 more)
    (hprint : ∀ depth v, R.Rel (Action.print depth v) (Action.print (depth + more) v))
    (hspecial : ∀ depth, R.Evaluation depth (depth + more) → ∀ special args env,
      R.Rel (evaluateSpecial (depth + 1) special args env)
        (evaluateSpecial (depth + more + 1) special args env))
    (depth : Nat) : R.Evaluation depth (depth + more) := by
  -- The functions call each other with one nested call less, so all are done in one induction.
  induction depth with
  | zero => rwa [Nat.zero_add]
  | succ depth ih =>
    rw [Nat.succ_add]
    exact ⟨R.evaluate_succ ih, R.evaluateAll_succ ih, hspecial depth ih, R.apply_succ ih,
      R.enter_succ ih, R.body_succ ih, fun v => Nat.succ_add depth more ▸ hprint (depth + 1) v⟩

/-- Without a nested call left on either machine, both only abort. -/
theorem evaluation_zero : R.Evaluation 0 0 :=
  ⟨fun _ _ => R.throw _, fun _ _ => R.throw _, fun _ _ _ => R.throw _, fun _ _ => R.throw _,
    fun _ _ _ _ => R.throw _, fun _ _ => R.throw _, fun _ => R.ask _⟩

/-- With as many nested calls left on both machines, the reader is related to itself. -/
theorem reading_self (depth : Nat) : R.Reading depth depth := by
  have hzero : R.Reading 0 0 := ⟨fun _ => R.throw _, fun _ => R.throw _⟩
  exact R.reading hzero depth

theorem evalLine (hreading : R.Reading depth depth') (hevaluation : R.Evaluation depth depth')
    (env : Value) (line : List Char) :
    R.Rel (Action.evalLine depth env line) (Action.evalLine depth' env line) :=
  R.bind (hreading.form line) fun _ => hevaluation.evaluate ..

end Calls

namespace Relation

variable (R : Relation m m') {depth depth' : Nat}

theorem noteValue (ih : R.Evaluation depth depth') (event : String → Event) (v : Value) :
    R.Rel (ConsLisp.noteValue depth event v) (ConsLisp.noteValue depth' event v) := by
  apply R.bind (R.keeps _)
  intro kept
  cases kept with
  | false => exact R.pure ()
  | true => exact R.bind (ih.print v) fun _ => R.note _

theorem special_succ (ih : R.Evaluation depth depth') (special : Special) (args env : Value) :
    R.Rel (evaluateSpecial (depth + 1) special args env)
      (evaluateSpecial (depth' + 1) special args env) :=
  R.special _ _ (fun h => R.nested _ _ h) (fun form => ih.evaluate form env)
    fun _ event v _ => R.noteValue ih event v

/-- The evaluator is related to itself, if it is where the first machine has no nested call left. -/
theorem evaluation {more : Nat} (hzero : R.Evaluation 0 more)
    (hprint : ∀ depth v, R.Rel (Action.print depth v) (Action.print (depth + more) v))
    (depth : Nat) : R.Evaluation depth (depth + more) :=
  R.toCalls.evaluation hzero hprint (fun _ ih => R.special_succ ih) depth

/-- With as many nested calls left on both machines, the evaluator is related to itself. -/
theorem evaluation_self (depth : Nat) : R.Evaluation depth depth :=
  R.evaluation R.evaluation_zero (fun _ _ => R.ask _) depth

end Relation

end Machine

end ConsLisp
