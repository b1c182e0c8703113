import ConsLisp.Proofs.Chronicle.Session
import ConsLisp.Proofs.Spelling

/-!
# Programs keep to an alphabet

No program invents a character.  What is read is spelled with the characters of the text and those
of the fixed names; an error quotes a name, a printed form or the text itself; and all else that a
program makes is made of what it has been given.  So if all lines are written in an alphabet, then
all that is ever stored, called with, answered or said in an error is spelled with it.

Main statements: one rule for each thing that a machine does, one lemma for each program, and what
becomes of a line (`Chronicle.Spelled.line`).
-/

namespace ConsLisp

/-! ## What a moment is spelled with -/

/-- What a change puts into the store is spelled with these characters. -/
def Change.Spelled (A : Alphabet) : Change → Prop
  | cons a d => a.Spelled A ∧ d.Spelled A
  | setCar _ v | setCdr _ v => v.Spelled A
  | number _ => True
  | error fault => A.Spells fault.message.toList
  | closure params body env => params.Spelled A ∧ body.Spelled A ∧ env.Spelled A

/-- What a call is made on is spelled with these characters. -/
structure Call.Spelled (A : Alphabet) (call : Call) : Prop where
  values : ∀ v ∈ call.values, v.Spelled A
  envs : ∀ env ∈ call.envs, env.Spelled A

/-- What a deed shows is spelled with these characters. -/
def Deed.Spelled (A : Alphabet) : Deed → Prop
  | call made => made.Spelled A
  | change d => d.Spelled A
  | answer _ v | ended (.ok v) => v.Spelled A
  | line _ | ended (.error _) => True

/-- The store and all moments so far are spelled with these characters. -/
structure Chronicle.Spelled (A : Alphabet) (c : Chronicle) : Prop where
  store : c.state.store.Spelled A
  moments : ∀ m ∈ c.moments, m.store.Spelled A ∧ m.deed.Spelled A

variable {A : Alphabet}

/-- A call on a text shows no values. -/
theorem Call.Spelled.of_nil {call : Call} (hvalues : call.values = []) (henvs : call.envs = []) :
    call.Spelled A :=
  ⟨by simp [hvalues], by simp [henvs]⟩

theorem Chronicle.Spelled.record {c : Chronicle} (h : c.Spelled A) (callers : List Caller)
    {d : Deed} (hd : d.Spelled A) : (c.record callers d).Spelled A :=
  ⟨h.store, List.forall_mem_cons.mpr ⟨⟨h.store, hd⟩, h.moments⟩⟩

theorem Change.Spelled.perform {d : Change} (hd : d.Spelled A) {s : Store} (h : s.Spelled A) :
    (d.perform s).2.Spelled A := by
  cases d with
  | cons a d => exact h.cons hd.1 hd.2
  | setCar v a => exact h.setCar v hd
  | setCdr v d => exact h.setCdr v hd
  | number | error | closure => exact h.of_cells rfl

/-- From a spelled chronicle the program leads to a spelled one, and its answer is as `P` says. -/
structure Alphabet.Ensures (A : Alphabet) {α : Type} (a : Watched α) (P : α → Prop) : Prop where
  run (callers : List Caller) (c : Chronicle) (h : c.Spelled A) :
    match a callers c with
    | .ok x c' => c'.Spelled A ∧ P x
    | .error _ c' => c'.Spelled A

namespace Alphabet.Ensures

open Machine

variable {α β : Type} {P : α → Prop} {Q : β → Prop}

/-! ## Single steps -/

theorem pure {x : α} (hx : P x) : A.Ensures (Pure.pure x) P :=
  ⟨fun _ _ h => ⟨h, hx⟩⟩

theorem throw (abort : Abort) : A.Ensures (MonadExcept.throw abort : Watched α) P :=
  ⟨fun _ _ h => h⟩

theorem bind {a : Watched α} {f : α → Watched β} (ha : A.Ensures a P)
    (hf : ∀ x, P x → A.Ensures (f x) Q) : A.Ensures (a >>= f) Q := by
  refine ⟨fun callers c h => ?_⟩
  have hrun := ha.run callers c h
  simp only [Bind.bind, ReaderT.bind, EStateM.bind]
  cases hanswer : a callers c with
  | ok x c' =>
    simp only [hanswer] at hrun
    exact (hf x hrun.2).run callers c' hrun.1
  | error abort c' =>
    simp only [hanswer] at hrun
    exact hrun

theorem look {f : Store → α} (hf : ∀ s : Store, s.Spelled A → P (f s)) : A.Ensures (look f) P :=
  ⟨fun _ c h => ⟨h, hf c.state.store h.store⟩⟩

/-- Any answer read off the store. -/
theorem look_any (f : Store → α) : A.Ensures (Machine.look f) fun _ => True :=
  look fun _ _ => trivial

theorem ask {f : Store → Except Abort α} (hf : ∀ s : Store, s.Spelled A → ∀ x, f s = .ok x → P x) :
    A.Ensures (Action.ask f) P := by
  apply bind (P := fun result => ∀ x, result = .ok x → P x) (look hf)
  intro result hresult
  cases result with
  | ok x => exact pure (hresult x rfl)
  | error abort => exact throw abort

theorem ask_any (f : Store → Except Abort α) : A.Ensures (Action.ask f) fun _ => True :=
  ask fun _ _ _ _ => trivial

theorem change {d : Change} (hd : d.Spelled A) {P : Value → Prop}
    (hanswer : ∀ s, P (d.perform s).1) : A.Ensures (Machine.change d) P :=
  ⟨fun callers _ h =>
    ⟨⟨hd.perform h.store, (h.record callers (d := .change d) hd).moments⟩, hanswer _⟩⟩

theorem note (event : Event) : A.Ensures (note event) fun _ => True :=
  ⟨fun _ _ h => ⟨⟨h.store, h.moments⟩, trivial⟩⟩

theorem keeps (level : Level) : A.Ensures (keeps level) fun _ => True :=
  ⟨fun _ _ h => ⟨h, trivial⟩⟩

theorem nested {call : Call} {value : α → Value} {a : Watched α} (hcall : call.Spelled A)
    (ha : A.Ensures a P) (hvalue : ∀ x, P x → (value x).Spelled A) :
    A.Ensures (nested call value a) P := by
  refine ⟨fun callers c h => ?_⟩
  have hrun := ha.run (⟨call, c.state.store⟩ :: callers) (c.record callers (.call call))
    (h.record callers hcall)
  simp only [Machine.nested]
  cases hanswer : a (⟨call, c.state.store⟩ :: callers) (c.record callers (.call call)) with
  | ok x c' =>
    simp only [hanswer] at hrun
    exact ⟨hrun.1.record callers (d := .answer call (value x)) (hvalue x hrun.2), hrun.2⟩
  | error abort c' =>
    simp only [hanswer] at hrun
    exact hrun

/-! ## Small programs -/

theorem car (v : Value) : A.Ensures (Action.car v) (Value.Spelled A) :=
  look fun _ h => h.car v

theorem cdr (v : Value) : A.Ensures (Action.cdr v) (Value.Spelled A) :=
  look fun _ h => h.cdr v

/-- The fields of a pair, if it is one. -/
theorem cell (v : Value) : A.Ensures (Machine.look (·.cell? v))
    fun cell => ∀ c ∈ cell, c.car.Spelled A ∧ c.cdr.Spelled A :=
  look fun _ h c hc => h v c hc

theorem cons {a d : Value} (ha : a.Spelled A) (hd : d.Spelled A) :
    A.Ensures (Action.cons a d) (Value.Spelled A) :=
  change (d := .cons a d) ⟨ha, hd⟩ fun _ => trivial

theorem setCar (v : Value) {a : Value} (ha : a.Spelled A) :
    A.Ensures (Action.setCar v a) fun _ => True :=
  bind (change (d := .setCar v a) (P := fun _ => True) ha fun _ => trivial)
    fun _ _ => pure trivial

theorem setCdr (v : Value) {d : Value} (hd : d.Spelled A) :
    A.Ensures (Action.setCdr v d) fun _ => True :=
  bind (change (d := .setCdr v d) (P := fun _ => True) hd fun _ => trivial)
    fun _ _ => pure trivial

theorem fail {fault : Fault} (hfault : A.Spells fault.message.toList) :
    A.Ensures (Action.fail fault) (Value.Spelled A) :=
  change (d := .error fault) hfault fun _ => hfault

theorem reverseOnto (fuel : Nat) {done rest : Value} (hdone : done.Spelled A)
    (hrest : rest.Spelled A) : A.Ensures (Action.reverseOnto fuel done rest) (Value.Spelled A) := by
  induction fuel generalizing done rest with
  | zero =>
    unfold Action.reverseOnto
    apply bind (cell rest)
    intro c hc
    cases c with
    | none => exact pure hdone
    | some c => exact throw _
  | succ fuel ih =>
    unfold Action.reverseOnto
    apply bind (cell rest)
    intro c hc
    cases c with
    | none => exact pure hdone
    | some c => exact bind (setCdr rest hdone) fun _ _ => ih hrest (hc c rfl).2

theorem reverse {v : Value} (hv : v.Spelled A) :
    A.Ensures (Action.reverse v) (Value.Spelled A) :=
  bind (look_any _) fun _ _ => reverseOnto _ (spelled_nil A) hv

theorem zipOnto (fuel : Nat) {done : Value} (hdone : done.Spelled A) (keys values : Value) :
    A.Ensures (Action.zipOnto fuel done keys values) (Value.Spelled A) := by
  induction fuel generalizing done keys values with
  | zero =>
    unfold Action.zipOnto
    refine bind (cell keys) fun key _ => bind (cell values) fun value _ => ?_
    -- Out of fuel, the walk ends with either list or gives up.
    cases key <;> cases value <;> first | exact throw _ | exact reverse hdone
  | succ fuel ih =>
    unfold Action.zipOnto
    refine bind (cell keys) fun key hkey => bind (cell values) fun value hvalue => ?_
    cases key with
    | none => exact reverse hdone
    | some key =>
      cases value with
      | none => exact reverse hdone
      | some value =>
        exact bind (cons (hkey key rfl).1 (hvalue value rfl).1) fun binding hbinding =>
          bind (cons hbinding hdone) fun done hdone => ih hdone ..

theorem zip (keys values : Value) : A.Ensures (Action.zip keys values) (Value.Spelled A) :=
  bind (look_any _) fun _ _ => zipOnto _ (spelled_nil A) keys values

theorem define {name value : Value} (hname : name.Spelled A) (hvalue : value.Spelled A)
    (env : Value) : A.Ensures (Action.define name value env) fun _ => True :=
  bind (cons hname hvalue) fun _ hbinding => bind (car env) fun _ hframe =>
    bind (cons hbinding hframe) fun _ hframe => setCar env hframe

theorem defineGlobal {name value : Value} (hname : name.Spelled A) (hvalue : value.Spelled A)
    (env : Value) : A.Ensures (Action.defineGlobal name value env) fun _ => True :=
  bind (ask_any _) fun _ _ => define hname hvalue _

theorem assign (name : Value) {value : Value} (hvalue : value.Spelled A) (env : Value) :
    A.Ensures (Action.assign name value env) fun _ => True := by
  apply bind (ask_any _)
  intro binding _
  cases binding with
  | none => exact pure trivial
  | some binding => exact bind (setCdr binding hvalue) fun _ _ => pure trivial

theorem number (n : Option Int) : A.Ensures (Action.number n) (Value.Spelled A) := by
  cases n with
  | none => exact fail (spells_of_plain (by decide))
  | some n => exact pure trivial

theorem total (operation : List Value → Option Int) (args : Value) :
    A.Ensures (Action.total operation args) (Value.Spelled A) := by
  apply bind (ask_any _)
  intro found _
  cases found with
  | true => exact fail (spells_of_plain (by decide))
  | false => exact bind (ask_any _) fun _ _ => number _

theorem applyTo (p : Primitive) (args : Value) :
    A.Ensures (p.applyTo args) (Value.Spelled A) := by
  refine bind (car args) fun x hx => bind (cdr args) fun rest _ => bind (car rest) fun y hy => ?_
  have htruth (b : Bool) : A.Ensures (Pure.pure (Value.ofBool b)) (Value.Spelled A) := by
    cases b with
    | true => exact pure (spelled_t A)
    | false => exact pure trivial
  cases p with
  | car => exact car x
  | cdr => exact cdr x
  | cons => exact cons hx hy
  | eq | numberp | symbolp => exact htruth _
  | atom => exact bind (look_any _) fun _ _ => htruth _
  | add | mul => exact total ..
  | sub | div | mod => exact bind (ask_any _) fun _ _ => number _

theorem closeOver (lambdaList : Value) {env : Value} (henv : env.Spelled A) :
    A.Ensures (ConsLisp.closeOver lambdaList env) (Value.Spelled A) :=
  bind (car lambdaList) fun params hparams => bind (cdr lambdaList) fun body hbody =>
    change (d := .closure params body env) ⟨hparams, hbody, henv⟩ fun _ => ⟨hparams, hbody, henv⟩

theorem print (depth : Nat) {v : Value} (hv : v.Spelled A) :
    A.Ensures (Action.print depth v) fun text => A.Spells text.toList :=
  ask fun _ h text htext => (h.print depth).1 v text hv htext

theorem noteValue (depth : Nat) (event : String → Event) {v : Value} (hv : v.Spelled A) :
    A.Ensures (ConsLisp.noteValue depth event v) fun _ => True := by
  apply bind (keeps _)
  intro kept _
  cases kept with
  | false => exact pure trivial
  | true => exact bind (print depth hv) fun _ _ => note _

theorem collect {valueOf : Value → Watched Value}
    (hvalue : ∀ form, form.Spelled A → A.Ensures (valueOf form) (Value.Spelled A)) (fuel : Nat)
    {done : Value} (hdone : done.Spelled A) (forms : Value) :
    A.Ensures (ConsLisp.collect valueOf fuel done forms) (Value.Spelled A) := by
  induction fuel generalizing done forms with
  | zero =>
    unfold ConsLisp.collect
    apply bind (cell forms)
    intro c _
    cases c with
    | none => exact reverse hdone
    | some c => exact throw _
  | succ fuel ih =>
    unfold ConsLisp.collect
    apply bind (cell forms)
    intro c hc
    cases c with
    | none => exact reverse hdone
    | some c =>
      refine bind (hvalue c.car (hc c rfl).1) fun value hspelled => ?_
      cases value.isError with
      | true => exact pure hspelled
      | false =>
        exact bind (cons hspelled hdone) fun _ hdone => bind (cdr forms) fun _ _ => ih hdone _

theorem inSequence {valueOf : Value → Watched Value}
    (hvalue : ∀ form, form.Spelled A → A.Ensures (valueOf form) (Value.Spelled A)) (fuel : Nat)
    {before : Value} (hbefore : before.Spelled A) (forms : Value) :
    A.Ensures (ConsLisp.inSequence valueOf fuel before forms) (Value.Spelled A) := by
  induction fuel generalizing before forms with
  | zero =>
    unfold ConsLisp.inSequence
    apply bind (cell forms)
    intro c _
    cases c with
    | none => exact pure hbefore
    | some c => exact throw _
  | succ fuel ih =>
    unfold ConsLisp.inSequence
    apply bind (cell forms)
    intro c hc
    cases c with
    | none => exact pure hbefore
    | some c =>
      exact bind (hvalue c.car (hc c rfl).1) fun _ hvalue => bind (cdr forms) fun _ _ => ih hvalue _

/-! ## The evaluator -/

/-- With this many nested calls left, the evaluator keeps to the alphabet. -/
structure Evaluation (A : Alphabet) (depth : Nat) : Prop where
  evaluate {form env : Value} (hform : form.Spelled A) (henv : env.Spelled A) :
    A.Ensures (ConsLisp.evaluate depth form env) (Value.Spelled A)
  evaluateAll {forms env : Value} (hforms : forms.Spelled A) (henv : env.Spelled A) :
    A.Ensures (ConsLisp.evaluateAll depth forms env) (Value.Spelled A)
  special (special : Special) {args env : Value} (hargs : args.Spelled A) (henv : env.Spelled A) :
    A.Ensures (evaluateSpecial depth special args env) (Value.Spelled A)
  apply {fn args : Value} (hfn : fn.Spelled A) (hargs : args.Spelled A) :
    A.Ensures (ConsLisp.apply depth fn args) (Value.Spelled A)
  enter {params body env args : Value} (hparams : params.Spelled A) (hbody : body.Spelled A)
    (henv : env.Spelled A) (hargs : args.Spelled A) :
    A.Ensures (ConsLisp.enter depth params body env args) (Value.Spelled A)
  body {forms env : Value} (hforms : forms.Spelled A) (henv : env.Spelled A) :
    A.Ensures (evaluateBody depth forms env) (Value.Spelled A)

variable {depth : Nat}

theorem evaluate_succ (ih : Evaluation A depth) {form env : Value} (hform : form.Spelled A)
    (henv : env.Spelled A) :
    A.Ensures (ConsLisp.evaluate (depth + 1) form env) (Value.Spelled A) := by
  unfold ConsLisp.evaluate
  refine nested ⟨by simpa [Call.values] using hform, by simpa [Call.envs] using henv⟩ ?_
    fun _ hx => hx
  have hprinted : A.Ensures (do Action.fail (.notEvaluable (← Action.print depth form)))
      (Value.Spelled A) :=
    bind (print depth hform) fun text htext =>
      fail (htext.append_plain (by decide))
  cases form with
  | nil | num | error => exact pure hform
  | sym name =>
    apply bind (ask fun _ h _ hfound => h.value? hfound)
    intro found hfound
    cases found with
    | none => exact fail (hform.2.append_plain (by decide))
    | some value => exact pure (hfound value rfl)
  | pair place =>
    refine bind (car _) fun head hhead => bind (cdr _) fun args hargs => ?_
    cases head.special? with
    | some special => exact ih.special special hargs henv
    | none =>
      exact bind (ih.evaluate hhead henv) fun _ hfn =>
        bind (ih.evaluateAll hargs henv) fun _ hvalues => ih.apply hfn hvalues
  | primitive | closure => exact hprinted
  | foreign object =>
    cases object with
    | flag truth => exact pure hform
    | object => exact hprinted

theorem evaluateAll_succ (ih : Evaluation A depth) {forms env : Value} (hforms : forms.Spelled A)
    (henv : env.Spelled A) :
    A.Ensures (ConsLisp.evaluateAll (depth + 1) forms env) (Value.Spelled A) := by
  rw [ConsLisp.evaluateAll]
  refine nested ⟨by simpa [Call.values] using hforms, by simpa [Call.envs] using henv⟩ ?_
    fun _ hx => hx
  exact bind (look_any _) fun _ _ =>
    collect (fun _ hform => ih.evaluate hform henv) _ (spelled_nil A) forms

theorem body_succ (ih : Evaluation A depth) {forms env : Value} (hforms : forms.Spelled A)
    (henv : env.Spelled A) :
    A.Ensures (evaluateBody (depth + 1) forms env) (Value.Spelled A) := by
  rw [evaluateBody]
  refine nested ⟨by simpa [Call.values] using hforms, by simpa [Call.envs] using henv⟩ ?_
    fun _ hx => hx
  exact bind (look_any _) fun _ _ =>
    inSequence (fun _ hform => ih.evaluate hform henv) _ (spelled_nil A) forms

theorem special_succ (ih : Evaluation A depth) (special : Special) {args env : Value}
    (hargs : args.Spelled A) (henv : env.Spelled A) :
    A.Ensures (evaluateSpecial (depth + 1) special args env) (Value.Spelled A) := by
  unfold ConsLisp.evaluateSpecial
  refine nested ⟨by simpa [Call.values] using hargs, by simpa [Call.envs] using henv⟩ ?_
    fun _ hx => hx
  cases special with
  | quote => exact car args
  | choice =>
    refine bind (car args) fun _ hform => bind (ih.evaluate hform henv) fun condition _ =>
      bind (cdr args) fun arms _ => ?_
    split
    · exact bind (cdr arms) fun _ _ => bind (car _) fun _ harm => ih.evaluate harm henv
    · exact bind (car arms) fun _ harm => ih.evaluate harm henv
  | lambda =>
    exact bind (closeOver args henv) fun _ hclosure => bind (car args) fun _ hparams =>
      bind (noteValue depth _ hparams) fun _ _ => pure hclosure
  | define =>
    exact bind (car args) fun _ hname => bind (cdr args) fun rest _ =>
      bind (closeOver rest henv) fun _ hclosure => bind (defineGlobal hname hclosure env) fun _ _ =>
      bind (noteValue depth _ hname) fun _ _ => pure hname
  | assign =>
    refine bind (cdr args) fun _ _ => bind (car _) fun _ hform =>
      bind (ih.evaluate hform henv) fun value hvalue => bind (car args) fun name hname =>
      bind (assign name hvalue env) fun found _ => ?_
    cases found with
    | true => exact pure hvalue
    | false =>
      exact bind (noteValue depth _ hname) fun _ _ =>
        bind (defineGlobal hname hvalue env) fun _ _ => pure hvalue

theorem apply_succ (ih : Evaluation A depth) {fn args : Value} (hfn : fn.Spelled A)
    (hargs : args.Spelled A) :
    A.Ensures (ConsLisp.apply (depth + 1) fn args) (Value.Spelled A) := by
  unfold ConsLisp.apply
  refine nested ⟨by simpa [Call.values] using ⟨hfn, hargs⟩, by simp [Call.envs]⟩ ?_ fun _ hx => hx
  split
  · exact pure hfn
  · split
    · exact pure hargs
    · cases fn with
      | primitive serial p name => exact applyTo p args
      | closure serial params body env => exact ih.enter hfn.1 hfn.2.1 hfn.2.2 hargs
      | _ =>
        exact bind (print depth hfn) fun text htext => fail (htext.append_plain (by decide))

theorem enter_succ (ih : Evaluation A depth) {params body env args : Value}
    (hparams : params.Spelled A) (hbody : body.Spelled A) (henv : env.Spelled A)
    (hargs : args.Spelled A) :
    A.Ensures (ConsLisp.enter (depth + 1) params body env args) (Value.Spelled A) := by
  unfold ConsLisp.enter
  refine nested ⟨by simpa [Call.values] using ⟨hparams, hbody, hargs⟩,
    by simpa [Call.envs] using henv⟩ ?_ fun _ hx => hx
  exact bind (zip params args) fun _ hframe => bind (cons hframe henv) fun _ henv =>
    ih.body hbody henv

theorem evaluation (depth : Nat) : Evaluation A depth := by
  -- The functions call each other with one nested call less, so all are done in one induction.
  induction depth with
  | zero =>
    exact ⟨fun _ _ => throw _, fun _ _ => throw _, fun _ _ _ _ _ => throw _, fun _ _ => throw _,
      fun _ _ _ _ => throw _, fun _ _ => throw _⟩
  | succ depth ih =>
    exact ⟨evaluate_succ ih, evaluateAll_succ ih, special_succ ih, apply_succ ih, enter_succ ih,
      body_succ ih⟩

/-! ## The reader -/

/-- The form that has been read, and the rest of the text. -/
def FormRead (A : Alphabet) (x : Value × List Char) : Prop :=
  x.1.Spelled A ∧ A.Spells x.2

theorem objectOf {atom : Value} (hatom : atom.Spelled A) :
    A.Ensures (Form.objectOf atom) (Value.Spelled A) := by
  unfold Form.objectOf
  cases atom.unshared? with
  | none => exact pure hatom
  | some n => exact change (d := .number n) trivial fun _ => trivial

theorem refuse {fault : Fault} (hfault : A.Spells fault.message.toList) :
    A.Ensures (Form.refuse fault) (FormRead A) :=
  bind (note _) fun _ _ => bind (fail hfault) fun _ herror => pure ⟨herror, nofun⟩

theorem readEach {readOne : List Char → Watched (Value × List Char)}
    (hread : ∀ text, A.Spells text → A.Ensures (readOne text) (FormRead A)) (fuel : Nat)
    {done : Value} (hdone : done.Spelled A) {text : List Char} (htext : A.Spells text) :
    A.Ensures (Form.readEach readOne fuel done text) (FormRead A) := by
  induction fuel generalizing done text with
  | zero =>
    unfold Form.readEach
    split
    · exact refuse (spells_of_plain (by decide))
    · next rest hskip =>
      exact bind (reverse hdone) fun _ hform => pure ⟨hform, htext.behind hskip⟩
    · exact throw _
  | succ fuel ih =>
    unfold Form.readEach
    split
    · exact refuse (spells_of_plain (by decide))
    · next rest hskip =>
      exact bind (reverse hdone) fun _ hform => pure ⟨hform, htext.behind hskip⟩
    · refine bind (hread _ htext.skipBlanks) fun (form, rest) hform => ?_
      dsimp only
      split
      · exact pure hform
      · exact bind (cons hform.1 hdone) fun _ hdone => ih hdone hform.2

/-- With this many nested calls left, the reader keeps to the alphabet. -/
structure Reading (A : Alphabet) (depth : Nat) : Prop where
  form {text : List Char} (htext : A.Spells text) :
    A.Ensures (Form.readForm depth text) (FormRead A)
  rest {text : List Char} (htext : A.Spells text) :
    A.Ensures (Form.readUntilClose depth text) (FormRead A)

theorem readForm_succ (ih : Reading A depth) {text : List Char} (htext : A.Spells text) :
    A.Ensures (Form.readForm (depth + 1) text) (FormRead A) := by
  unfold Form.readForm
  refine nested (.of_nil rfl rfl) ?_ fun _ hx => hx.1
  split
  · exact refuse (spells_of_plain (by decide))
  · next rest hskip =>
    have hclose : A.Spells (')' :: rest) := hskip ▸ htext.skipBlanks
    refine refuse ?_
    rw [Fault.message, String.toList_append]
    refine (spells_of_plain (by decide)).append ?_
    rwa [String.toList_ofList]
  · next rest hskip => exact ih.rest (htext.behind hskip)
  · next rest hskip =>
    exact bind (ih.form (htext.behind hskip)) fun (form, rest) hform =>
      bind (cons hform.1 (d := .nil) trivial) fun _ hinner =>
      bind (cons (spelled_quote A) hinner) fun _ hquoted => pure ⟨hquoted, hform.2⟩
  · next hempty hclose hopen hquote =>
    -- Where neither a list nor a quote nor the end is read, there is an atom.
    have hne := Reference.split_ne_nil hempty hclose hopen hquote
    have hatom := Grammar.AtomDenotes.denote (Atom.split (Text.skipBlanks text)).1
    have hspelled := hatom.spelled hne (fun c hc => by simpa using List.mem_takeWhile_imp hc)
      (htext.skipBlanks.sublist (List.takeWhile_sublist _))
    exact bind (objectOf hspelled) fun _ hobject =>
      pure ⟨hobject, htext.skipBlanks.sublist (List.dropWhile_sublist _)⟩

theorem reading (depth : Nat) : Reading A depth := by
  induction depth with
  | zero => exact ⟨fun _ => throw _, fun _ => throw _⟩
  | succ depth ih =>
    refine ⟨readForm_succ ih, fun {text} htext => ?_⟩
    unfold Form.readUntilClose
    exact nested (.of_nil rfl rfl) (readEach (fun _ => ih.form) _ (spelled_nil A) htext)
      fun _ hx => hx.1

theorem evalLine (limit : Nat) {env : Value} (henv : env.Spelled A) {text : List Char}
    (htext : A.Spells text) :
    A.Ensures (Action.evalLine limit env text) (Value.Spelled A) :=
  bind ((reading limit).form htext) fun _ hform => (evaluation limit).evaluate hform.1 henv

end Alphabet.Ensures

/-! ## Sessions -/

namespace Chronicle

variable {c : Chronicle} {globals : Value}

/-- A line in the alphabet leads from a spelled chronicle to a spelled one, and so is its result. -/
theorem Spelled.line (h : c.Spelled A) (limit : Nat) (hglobals : globals.Spelled A)
    {text : List Char} (htext : A.Spells text) :
    (c.line limit globals text).2.Spelled A ∧
      ∀ v, (c.line limit globals text).1 = .ok v → v.Spelled A := by
  have hrun := (Alphabet.Ensures.evalLine limit hglobals htext).run [] (c.record [] (.line text))
    (h.record [] (d := .line text) trivial)
  unfold Chronicle.line
  cases hanswer : (Action.evalLine limit globals text : Watched Value) []
      (c.record [] (.line text)) with
  | ok v c' =>
    simp only [hanswer] at hrun
    refine ⟨hrun.1.record [] (d := .ended (.ok v)) hrun.2, fun w hw => ?_⟩
    obtain rfl := Except.ok.inj hw
    exact hrun.2
  | error abort c' =>
    simp only [hanswer] at hrun
    exact ⟨hrun.record [] (d := .ended (.error abort)) trivial, nofun⟩

theorem Spelled.lines (h : c.Spelled A) (limit : Nat) (hglobals : globals.Spelled A)
    {texts : List (List Char)} (htexts : ∀ text ∈ texts, A.Spells text) :
    (c.lines limit globals texts).2.Spelled A := by
  induction texts generalizing c with
  | nil => exact h
  | cons text texts ih =>
    obtain ⟨htext, htexts⟩ := List.forall_mem_cons.mp htexts
    exact ih (h.line limit hglobals htext).1 htexts

end Chronicle

/-- A chronicle may begin with any spelled store. -/
theorem Chronicle.Spelled.start {state : State} (h : state.store.Spelled A) :
    Chronicle.Spelled A ⟨state, []⟩ :=
  ⟨h, fun _ hnone => absurd hnone List.not_mem_nil⟩

namespace Interpreter

variable {i : Interpreter}

/-- A line in the alphabet leaves a spelled store, and so is its value. -/
theorem eval_spelled (hstore : i.state.store.Spelled A) (hglobals : i.globals.Spelled A)
    (limit : Nat) {line : List Char} (hline : A.Spells line) :
    (i.eval limit line).2.state.store.Spelled A ∧
      ∀ v, (i.eval limit line).1 = .ok v → v.Spelled A := by
  obtain ⟨hspelled, hvalue⟩ := (Chronicle.Spelled.start hstore).line limit hglobals hline
  obtain ⟨hresult, hstate⟩ := Chronicle.line_eq_eval limit line i []
  rw [← hstate, ← hresult]
  exact ⟨hspelled.store, hvalue⟩

end Interpreter

/-- A new interpreter has a spelled store. -/
theorem Interpreter.spelled_new (A : Alphabet) (log : Log) :
    (Interpreter.new log).state.store.Spelled A ∧ (Interpreter.new log).globals.Spelled A := by
  refine ⟨?_, trivial⟩
  have hempty : (({} : Store).cons .nil .nil).2.Spelled A :=
    Store.Spelled.cons (fun v c hcell => by cases v <;> simp [Store.cell?] at hcell) trivial trivial
  have hprimitives (primitives : List Primitive) {s : Store} (h : s.Spelled A) (env : Value) :
      (primitives.foldl (fun s p => s.definePrimitive env p) s).Spelled A := by
    induction primitives generalizing s with
    | nil => exact h
    | cons p primitives ih =>
      have hmade : (s.primitive p p.name).2.Spelled A := h.of_cells rfl
      have hvalue : (s.primitive p p.name).1.Spelled A := trivial
      exact ih (hmade.define (spelled_name A p) hvalue env)
  exact (hprimitives Primitive.all hempty _).define (spelled_t A) (spelled_t A) _

/-- Every session over lines in the alphabet has a spelled chronicle. -/
theorem Chronicle.session_spelled (log : Log) (limit : Nat) {texts : List (List Char)}
    (htexts : ∀ text ∈ texts, A.Spells text) : (session log limit texts).2.Spelled A := by
  obtain ⟨hstore, hglobals⟩ := Interpreter.spelled_new A log
  exact (Spelled.start hstore).lines limit hglobals htexts

end ConsLisp
