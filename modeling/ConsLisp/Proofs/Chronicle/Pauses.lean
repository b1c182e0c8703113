import ConsLisp.Proofs.Chronicle.Seclusion

/-!
# While a builder waits

Between two pairs of its list a builder waits for a nested call.  Whatever is read or evaluated
then, all values that come up are parts of those that were there, or are made of new pairs.  So a
call that is made on values of the region outside stays in it: it leaves the pairs of the builder as
they are, and what it answers does not lead to them.

Main statements: one rule for each thing that a machine does, one lemma for each program, and that
the reader and the evaluator stay outside (`Pause.reading`, `Pause.evaluation`).
-/

namespace ConsLisp

/-- A builder that waits, and the chronicle in which it began to wait. -/
structure Pause where
  builder : Builder
  chronicle : Chronicle

namespace Pause

/-- The pairs that the builder has made before. -/
def hidden (p : Pause) : Set Nat :=
  p.builder.made p.chronicle.moments

/-- The value mentions none of the hidden pairs, and none that a store of this size does not
have. -/
def Stays (p : Pause) (n : Nat) (v : Value) : Prop :=
  v.Within {place | place < n ∧ place ∉ p.hidden}

/-- The value that has been read does. -/
def ReadStays (p : Pause) (n : Nat) (x : Value × List Char) : Prop :=
  p.Stays n x.1

/-- The chronicle has gone on without the builder, whose pairs are as they were. -/
structure Lasts (p : Pause) (c : Chronicle) : Prop where
  encloses : p.builder.Encloses c
  made : p.builder.made c.moments = p.hidden
  cell : ∀ place ∈ p.hidden,
    c.state.store.cell? (.pair place) = p.chronicle.state.store.cell? (.pair place)

/-- Below so many calls and from a store of this size on, the program keeps the pause, and its
answer is as `P` says for the size afterwards. -/
structure Ensures (p : Pause) (calls n : Nat) {α : Type} (a : Watched α) (P : Nat → α → Prop) :
    Prop where
  run (callers : List Caller) (c : Chronicle) (hcalls : calls ≤ callers.length) (h : p.Lasts c)
    (hn : n ≤ c.state.store.size) :
    match a callers c with
    | .ok x c' => p.Lasts c' ∧ n ≤ c'.state.store.size ∧ P c'.state.store.size x
    | .error _ c' => p.builder.Encloses c'

/-- The builder may call the program, and so may others. -/
abbrev Around (p : Pause) (n : Nat) {α : Type} (a : Watched α) (P : Nat → α → Prop) : Prop :=
  p.Ensures p.builder.callers.length n a P

/-- The program may run inside of a call that the builder makes. -/
abbrev Inside (p : Pause) (n : Nat) {α : Type} (a : Watched α) (P : Nat → α → Prop) : Prop :=
  p.Ensures (p.builder.callers.length + 1) n a P

variable {p : Pause} {calls n k : Nat} {α β : Type} {P : Nat → α → Prop} {Q : Nat → β → Prop}

theorem Stays.mono {v : Value} (hv : p.Stays n v) (h : n ≤ k) : p.Stays k v := by
  refine Value.Within.mono (fun place hplace => ?_) hv
  exact ⟨Nat.lt_of_lt_of_le hplace.1 h, hplace.2⟩

/-- In a store that has become larger the value is still one of the region outside. -/
theorem Lasts.within {c : Chronicle} (h : p.Lasts c) {v : Value} (hv : p.Stays n v)
    (hn : n ≤ c.state.store.size) : v.Within (p.builder.outside c) := by
  rw [Builder.outside, h.made]
  exact hv.mono hn

theorem Lasts.closed {c : Chronicle} (h : p.Lasts c) :
    c.state.store.Closed (c.state.store.outside p.hidden) := by
  rw [← h.made]
  exact h.encloses.closed

theorem Around.inside {a : Watched α} (h : p.Around n a P) : p.Inside n a P :=
  ⟨fun callers c hcalls => h.run callers c (Nat.le_of_succ_le hcalls)⟩

namespace Ensures

open Machine

/-! ## Single steps -/

theorem pure {x : α} (hx : ∀ k, n ≤ k → P k x) : p.Ensures calls n (Pure.pure x) P :=
  ⟨fun _ c _ h hn => ⟨h, hn, hx c.state.store.size hn⟩⟩

theorem throw (abort : Abort) : p.Ensures calls n (MonadExcept.throw abort : Watched α) P :=
  ⟨fun _ _ _ h _ => h.encloses⟩

theorem bind {a : Watched α} {f : α → Watched β} (ha : p.Ensures calls n a P)
    (hf : ∀ k, n ≤ k → ∀ x, P k x → p.Ensures calls k (f x) Q) :
    p.Ensures calls n (a >>= f) Q := by
  refine ⟨fun callers c hcalls h hn => ?_⟩
  have hrun := ha.run callers c hcalls h hn
  simp only [Bind.bind, ReaderT.bind, EStateM.bind]
  cases hanswer : a callers c with
  | error abort c' =>
    simp only [hanswer] at hrun
    exact hrun
  | ok x c' =>
    simp only [hanswer] at hrun
    obtain ⟨hlasts, hsize, hx⟩ := hrun
    have hrest := (hf c'.state.store.size hsize x hx).run callers c' hcalls hlasts (Nat.le_refl _)
    dsimp only
    cases hanswer' : f x callers c' with
    | error abort c'' =>
      simp only [hanswer'] at hrest
      exact hrest
    | ok y c'' =>
      simp only [hanswer'] at hrest
      exact ⟨hrest.1, Nat.le_trans hsize hrest.2.1, hrest.2.2⟩

theorem look {f : Store → α}
    (hf : ∀ s : Store, n ≤ s.size → s.Closed (s.outside p.hidden) → P s.size (f s)) :
    p.Ensures calls n (look f) P :=
  ⟨fun _ c _ h hn => ⟨h, hn, hf c.state.store hn h.closed⟩⟩

/-- Any answer read off the store. -/
theorem look_any (f : Store → α) : p.Ensures calls n (Machine.look f) fun _ _ => True :=
  look fun _ _ _ => trivial

theorem ask {f : Store → Except Abort α}
    (hf : ∀ s : Store, n ≤ s.size → s.Closed (s.outside p.hidden) → ∀ x, f s = .ok x → P s.size x)
    (hmono : ∀ k k' x, k ≤ k' → P k x → P k' x) : p.Ensures calls n (Action.ask f) P := by
  apply bind (P := fun k result => ∀ x, result = .ok x → P k x) (look hf)
  intro k _ result hresult
  cases result with
  | ok x => exact pure fun k' hk => hmono k k' x hk (hresult x rfl)
  | error abort => exact throw abort

theorem ask_any (f : Store → Except Abort α) :
    p.Ensures calls n (Action.ask f) fun _ _ => True :=
  ask (fun _ _ _ _ _ => trivial) fun _ _ _ _ _ => trivial

/-- A change that is made of values outside. -/
theorem change {d : Change} (hd : ∀ v ∈ d.values, p.Stays n v) {P : Nat → Value → Prop}
    (hanswer : ∀ s : Store, n ≤ s.size → (∀ place ∈ p.hidden, place < s.size) →
      P (d.perform s).2.size (d.perform s).1) : p.Inside n (Machine.change d) P := by
  refine ⟨fun callers c hcalls h hn => ?_⟩
  have hcallers : callers ≠ p.builder.callers := by
    rintro rfl
    omega
  have hsize := d.size_perform c.state.store
  have hhidden : ∀ place ∈ p.hidden, place < c.state.store.size := by
    rw [← h.made]
    exact fun place hplace => (h.encloses.made place hplace).2
  have hd' : ∀ v ∈ d.values, v.Within (p.builder.outside c) := fun v hv => h.within (hd v hv) hn
  refine ⟨⟨h.encloses.change hcallers hd', (Builder.made_of_callers hcallers).trans h.made,
    fun place hplace => ?_⟩, Nat.le_trans hn hsize, hanswer _ hn hhidden⟩
  -- What is overwritten is a pair outside.
  have hother : ∀ v, v ∈ d.values → v ≠ .pair place := by
    rintro v hv rfl
    exact (hd _ hv).2 hplace
  rw [← h.cell place hplace]
  cases d with
  | cons a d =>
    exact (Store.KeepsExcept.cons c.state.store a d).cell (hhidden place hplace) (by simp)
  | setCar v a =>
    show (c.state.store.setCar v a).cell? _ = _
    rw [Store.cell?_setCar, if_neg (hother v (by simp [Change.values])).symm]
  | setCdr v d =>
    show (c.state.store.setCdr v d).cell? _ = _
    rw [Store.cell?_setCdr, if_neg (hother v (by simp [Change.values])).symm]
  | number | error | closure => rfl

theorem note (event : Event) : p.Ensures calls n (note event) fun _ _ => True :=
  ⟨fun _ _ _ h hn => ⟨⟨⟨h.encloses.size, h.encloses.made, h.encloses.closed, h.encloses.mentioned,
    h.encloses.past⟩, h.made, h.cell⟩, hn, trivial⟩⟩

theorem keeps (level : Level) : p.Ensures calls n (keeps level) fun _ _ => True :=
  ⟨fun _ _ _ h hn => ⟨h, hn, trivial⟩⟩

theorem record {c : Chronicle} (h : p.Lasts c) (callers : List Caller) {d : Deed}
    (hdeed : ∀ change, d ≠ .change change)
    (hd : ∀ v ∈ d.mentioned, p.Stays c.state.store.size v) : p.Lasts (c.record callers d) :=
  ⟨h.encloses.record callers hdeed fun v hv => h.within (hd v hv) (Nat.le_refl _),
    (Builder.made_of_not_cons fun _ _ => hdeed _).trans h.made, h.cell⟩

/-- A nested call on values outside, which answers with one. -/
theorem nested {call : Call} {value : α → Value} {a : Watched α}
    (hcall : ∀ v ∈ call.values ++ call.envs, p.Stays n v) (ha : p.Inside n a P)
    (hvalue : ∀ k x, P k x → p.Stays k (value x)) : p.Around n (nested call value a) P := by
  refine ⟨fun callers c hcalls h hn => ?_⟩
  have hcalled : p.Lasts (c.record callers (.call call)) :=
    record h callers (by simp) fun v hv => (hcall v hv).mono hn
  have hrun := ha.run (⟨call, c.state.store⟩ :: callers) (c.record callers (.call call))
    (Nat.succ_le_succ hcalls) hcalled hn
  simp only [Machine.nested]
  cases hanswer : a (⟨call, c.state.store⟩ :: callers) (c.record callers (.call call)) with
  | error abort c' =>
    simp only [hanswer] at hrun
    exact hrun
  | ok x c' =>
    simp only [hanswer] at hrun
    obtain ⟨hlasts, hsize, hx⟩ := hrun
    refine ⟨record hlasts callers (by simp) fun v hv => ?_, hsize, hx⟩
    obtain rfl := List.mem_singleton.mp hv
    exact hvalue _ x hx

/-- A value outside is the answer. -/
theorem answer {v : Value} (hv : p.Stays n v) : p.Ensures calls n (Pure.pure v) p.Stays :=
  pure fun _ h => hv.mono h

/-! ## Small programs -/

theorem car {v : Value} (hv : p.Stays n v) : p.Ensures calls n (Action.car v) p.Stays :=
  look fun _ hn hclosed => hclosed.car (hv.mono hn)

theorem cdr {v : Value} (hv : p.Stays n v) : p.Ensures calls n (Action.cdr v) p.Stays :=
  look fun _ hn hclosed => hclosed.cdr (hv.mono hn)

/-- The fields of a pair, if it is one. -/
theorem cell {v : Value} (hv : p.Stays n v) : p.Ensures calls n (Machine.look (·.cell? v))
    fun k cell => ∀ c ∈ cell, p.Stays k c.car ∧ p.Stays k c.cdr :=
  look fun _ hn hclosed _ hc => hclosed.cell (hv.mono hn) hc

theorem cons {a d : Value} (ha : p.Stays n a) (hd : p.Stays n d) :
    p.Inside n (Action.cons a d) p.Stays := by
  refine change (d := .cons a d) (by simp [Change.values, ha, hd]) fun s _ hhidden => ?_
  -- The place is new, so it is none of the hidden ones.
  refine ⟨?_, fun hmem => Nat.lt_irrefl _ (hhidden _ hmem)⟩
  show s.size < (s.cons a d).2.size
  rw [Store.size_cons]
  exact Nat.lt_succ_self _

theorem setCar {v a : Value} (hv : p.Stays n v) (ha : p.Stays n a) :
    p.Inside n (Action.setCar v a) fun _ _ => True :=
  bind (change (d := .setCar v a) (P := fun _ _ => True) (by simp [Change.values, hv, ha])
    fun _ _ _ => trivial) fun _ _ _ _ => pure fun _ _ => trivial

theorem setCdr {v d : Value} (hv : p.Stays n v) (hd : p.Stays n d) :
    p.Inside n (Action.setCdr v d) fun _ _ => True :=
  bind (change (d := .setCdr v d) (P := fun _ _ => True) (by simp [Change.values, hv, hd])
    fun _ _ _ => trivial) fun _ _ _ _ => pure fun _ _ => trivial

theorem fail (fault : Fault) : p.Inside n (Action.fail fault) p.Stays :=
  change (d := .error fault) (by simp [Change.values]) fun _ _ _ => trivial

theorem reverseOnto (fuel : Nat) {done rest : Value} (hdone : p.Stays n done)
    (hrest : p.Stays n rest) : p.Inside n (Action.reverseOnto fuel done rest) p.Stays := by
  induction fuel generalizing done rest n with
  | zero =>
    unfold Action.reverseOnto
    refine bind (cell hrest) fun k hk c _ => ?_
    cases c with
    | none => exact answer (hdone.mono hk)
    | some c => exact throw _
  | succ fuel ih =>
    unfold Action.reverseOnto
    refine bind (cell hrest) fun k hk c hc => ?_
    cases c with
    | none => exact answer (hdone.mono hk)
    | some c =>
      exact bind (setCdr (hrest.mono hk) (hdone.mono hk)) fun k' hk' _ _ =>
        ih (hrest.mono (hk.trans hk')) ((hc c rfl).2.mono hk')

theorem reverse {v : Value} (hv : p.Stays n v) : p.Inside n (Action.reverse v) p.Stays :=
  bind (look_any _) fun _ hk _ _ => reverseOnto _ trivial (hv.mono hk)

theorem zipOnto (fuel : Nat) {done keys values : Value} (hdone : p.Stays n done)
    (hkeys : p.Stays n keys) (hvalues : p.Stays n values) :
    p.Inside n (Action.zipOnto fuel done keys values) p.Stays := by
  induction fuel generalizing done keys values n with
  | zero =>
    unfold Action.zipOnto
    refine bind (cell hkeys) fun k hk key _ =>
      bind (cell (hvalues.mono hk)) fun k' hk' value _ => ?_
    -- Out of fuel, the walk ends with either list or gives up.
    have hdone' := hdone.mono (hk.trans hk')
    cases key <;> cases value <;> first | exact throw _ | exact reverse hdone'
  | succ fuel ih =>
    unfold Action.zipOnto
    refine bind (cell hkeys) fun k hk key hkey =>
      bind (cell (hvalues.mono hk)) fun k' hk' value hvalue => ?_
    have hdone' := hdone.mono (hk.trans hk')
    cases key with
    | none => exact reverse hdone'
    | some key =>
      cases value with
      | none => exact reverse hdone'
      | some value =>
        obtain ⟨hname, hkeys'⟩ := hkey key rfl
        obtain ⟨hvalue, hvalues'⟩ := hvalue value rfl
        refine bind (cons (hname.mono hk') hvalue) fun l hl binding hbinding =>
          bind (cons hbinding (hdone'.mono hl)) fun l' hl' done hdone => ?_
        exact ih hdone (hkeys'.mono (hk'.trans (hl.trans hl'))) (hvalues'.mono (hl.trans hl'))

theorem zip {keys values : Value} (hkeys : p.Stays n keys) (hvalues : p.Stays n values) :
    p.Inside n (Action.zip keys values) p.Stays :=
  bind (look_any _) fun _ hk _ _ => zipOnto _ trivial (hkeys.mono hk) (hvalues.mono hk)

theorem define {name value env : Value} (hname : p.Stays n name) (hvalue : p.Stays n value)
    (henv : p.Stays n env) : p.Inside n (Action.define name value env) fun _ _ => True :=
  bind (cons hname hvalue) fun _ hk _ hbinding => bind (car (henv.mono hk)) fun _ hk' _ hframe =>
    bind (cons (hbinding.mono hk') hframe) fun _ hk'' _ hframe' =>
    setCar (henv.mono (hk.trans (hk'.trans hk''))) hframe'

theorem defineGlobal {name value env : Value} (hname : p.Stays n name) (hvalue : p.Stays n value)
    (henv : p.Stays n env) : p.Inside n (Action.defineGlobal name value env) fun _ _ => True := by
  have hlast : p.Inside n (Action.ask (·.globalOf env)) p.Stays :=
    ask (fun _ hn hclosed _ hrun => hclosed.last (henv.mono hn) hrun) fun _ _ _ hk hv => hv.mono hk
  exact bind hlast fun _ hk _ hcell => define (hname.mono hk) (hvalue.mono hk) hcell

theorem assign {name value env : Value} (hvalue : p.Stays n value) (henv : p.Stays n env) :
    p.Inside n (Action.assign name value env) fun _ _ => True := by
  have hfound : p.Inside n (Action.ask (·.binding? name env))
      fun k found => ∀ binding ∈ found, p.Stays k binding := by
    refine ask (fun _ hn hclosed found hrun binding hbinding => ?_)
      fun _ _ _ hk hfound binding hbinding => (hfound binding hbinding).mono hk
    rw [Option.mem_def.mp hbinding] at hrun
    exact hclosed.binding? (henv.mono hn) hrun
  refine bind hfound fun k hk found hbinding => ?_
  cases found with
  | none => exact pure fun _ _ => trivial
  | some binding =>
    exact bind (setCdr (hbinding binding rfl) (hvalue.mono hk)) fun _ _ _ _ =>
      pure fun _ _ => trivial

theorem number (x : Option Int) : p.Inside n (Action.number x) p.Stays := by
  cases x with
  | none => exact fail _
  | some x => exact answer trivial

theorem total (operation : List Value → Option Int) (args : Value) :
    p.Inside n (Action.total operation args) p.Stays := by
  refine bind (ask_any _) fun _ _ found _ => ?_
  cases found with
  | true => exact fail _
  | false => exact bind (ask_any _) fun _ _ _ _ => number _

theorem applyTo (f : Primitive) {args : Value} (hargs : p.Stays n args) :
    p.Inside n (f.applyTo args) p.Stays := by
  refine bind (car hargs) fun k hk x hx => bind (cdr (hargs.mono hk)) fun l hl rest hrest =>
    bind (car hrest) fun l' hl' y hy => ?_
  have hx' := hx.mono (hl.trans hl')
  have htruth (n : Nat) (b : Bool) : p.Inside n (Pure.pure (Value.ofBool b)) p.Stays :=
    answer (Value.within_ofBool _ b)
  cases f with
  | car => exact car hx'
  | cdr => exact cdr hx'
  | cons => exact cons hx' hy
  | eq | numberp | symbolp => exact htruth ..
  | atom => exact bind (look_any _) fun _ _ _ _ => htruth ..
  | add | mul => exact total ..
  | sub | div | mod => exact bind (ask_any _) fun _ _ _ _ => number _

theorem closeOver {lambdaList env : Value} (hlist : p.Stays n lambdaList) (henv : p.Stays n env) :
    p.Inside n (ConsLisp.closeOver lambdaList env) p.Stays := by
  refine bind (car hlist) fun k hk params hparams => bind (cdr (hlist.mono hk))
    fun l hl body hbody => ?_
  have hparams' := hparams.mono hl
  have henv' := henv.mono (hk.trans hl)
  exact change (d := .closure params body env) (by simp [Change.values, hparams', hbody, henv'])
    fun _ hn _ => ⟨hparams'.mono hn, hbody.mono hn, henv'.mono hn⟩

theorem noteValue (depth : Nat) (event : String → Event) (v : Value) :
    p.Inside n (ConsLisp.noteValue depth event v) fun _ _ => True := by
  refine bind (keeps _) fun _ _ kept _ => ?_
  cases kept with
  | false => exact pure fun _ _ => trivial
  | true => exact bind (ask_any _) fun _ _ _ _ => note _

theorem collect {valueOf : Value → Watched Value}
    (hvalue : ∀ k, n ≤ k → ∀ form, p.Stays k form → p.Inside k (valueOf form) p.Stays) (fuel : Nat)
    {done forms : Value} (hdone : p.Stays n done) (hforms : p.Stays n forms) :
    p.Inside n (ConsLisp.collect valueOf fuel done forms) p.Stays := by
  induction fuel generalizing done forms n with
  | zero =>
    unfold ConsLisp.collect
    refine bind (cell hforms) fun k hk c _ => ?_
    cases c with
    | none => exact reverse (hdone.mono hk)
    | some c => exact throw _
  | succ fuel ih =>
    unfold ConsLisp.collect
    refine bind (cell hforms) fun k hk c hc => ?_
    cases c with
    | none => exact reverse (hdone.mono hk)
    | some c =>
      refine bind (hvalue k hk c.car (hc c rfl).1) fun l hl value hstays => ?_
      have hl' := hk.trans hl
      cases value.isError with
      | true => exact answer hstays
      | false =>
        refine bind (cons hstays (hdone.mono hl')) fun m hm done hdone =>
          bind (cdr (hforms.mono (hl'.trans hm))) fun m' hm' rest hrest => ?_
        exact ih (fun j hj => hvalue j (hl'.trans (hm.trans (hm'.trans hj)))) (hdone.mono hm') hrest

theorem inSequence {valueOf : Value → Watched Value}
    (hvalue : ∀ k, n ≤ k → ∀ form, p.Stays k form → p.Inside k (valueOf form) p.Stays) (fuel : Nat)
    {before forms : Value} (hbefore : p.Stays n before) (hforms : p.Stays n forms) :
    p.Inside n (ConsLisp.inSequence valueOf fuel before forms) p.Stays := by
  induction fuel generalizing before forms n with
  | zero =>
    unfold ConsLisp.inSequence
    refine bind (cell hforms) fun k hk c _ => ?_
    cases c with
    | none => exact answer (hbefore.mono hk)
    | some c => exact throw _
  | succ fuel ih =>
    unfold ConsLisp.inSequence
    refine bind (cell hforms) fun k hk c hc => ?_
    cases c with
    | none => exact answer (hbefore.mono hk)
    | some c =>
      refine bind (hvalue k hk c.car (hc c rfl).1) fun l hl value hstays =>
        bind (cdr (hforms.mono (hk.trans hl))) fun m hm rest hrest => ?_
      exact ih (fun j hj => hvalue j (hk.trans (hl.trans (hm.trans hj)))) (hstays.mono hm) hrest

/-! ## The evaluator -/

/-- With this many nested calls left, the evaluator stays outside. -/
structure Evaluation (p : Pause) (depth : Nat) : Prop where
  evaluate {n : Nat} {form env : Value} (hform : p.Stays n form) (henv : p.Stays n env) :
    p.Around n (ConsLisp.evaluate depth form env) p.Stays
  evaluateAll {n : Nat} {forms env : Value} (hforms : p.Stays n forms) (henv : p.Stays n env) :
    p.Around n (ConsLisp.evaluateAll depth forms env) p.Stays
  special (special : Special) {n : Nat} {args env : Value} (hargs : p.Stays n args)
    (henv : p.Stays n env) : p.Around n (evaluateSpecial depth special args env) p.Stays
  apply {n : Nat} {fn args : Value} (hfn : p.Stays n fn) (hargs : p.Stays n args) :
    p.Around n (ConsLisp.apply depth fn args) p.Stays
  enter {n : Nat} {params body env args : Value} (hparams : p.Stays n params)
    (hbody : p.Stays n body) (henv : p.Stays n env) (hargs : p.Stays n args) :
    p.Around n (ConsLisp.enter depth params body env args) p.Stays
  body {n : Nat} {forms env : Value} (hforms : p.Stays n forms) (henv : p.Stays n env) :
    p.Around n (evaluateBody depth forms env) p.Stays

variable {depth : Nat} {form forms fn params code args env : Value}

theorem evaluate_succ (ih : Evaluation p depth) (hform : p.Stays n form) (henv : p.Stays n env) :
    p.Around n (ConsLisp.evaluate (depth + 1) form env) p.Stays := by
  unfold ConsLisp.evaluate
  refine nested (P := p.Stays) (by simp [Call.values, Call.envs, hform, henv]) ?_ fun _ _ hx => hx
  have hprinted : p.Inside n (do Action.fail (.notEvaluable (← Action.print depth form)))
      p.Stays := bind (ask_any _) fun _ _ _ _ => fail _
  cases form with
  | nil | num | error => exact answer hform
  | sym name =>
    have hfound : p.Inside n (Action.ask (·.value? (.sym name) env))
        fun k found => ∀ value ∈ found, p.Stays k value := by
      refine ask (fun _ hn hclosed found hrun value hvalue => ?_)
        fun _ _ _ hk hfound value hvalue => (hfound value hvalue).mono hk
      rw [Option.mem_def.mp hvalue] at hrun
      exact hclosed.value? (henv.mono hn) hrun
    refine bind hfound fun k _ found hvalue => ?_
    cases found with
    | none => exact fail _
    | some value => exact answer (hvalue value rfl)
  | pair place =>
    refine bind (car hform) fun k hk head hhead =>
      bind (cdr (hform.mono hk)) fun l hl args hargs => ?_
    have henv' := henv.mono (hk.trans hl)
    cases head.special? with
    | some special => exact (ih.special special hargs henv').inside
    | none =>
      exact bind (ih.evaluate (hhead.mono hl) henv').inside fun m hm _ hfn =>
        bind (ih.evaluateAll (hargs.mono hm) (henv'.mono hm)).inside fun _ hm' _ hvalues =>
        (ih.apply (hfn.mono hm') hvalues).inside
  | primitive | closure => exact hprinted
  | foreign object =>
    cases object with
    | flag truth => exact answer hform
    | object => exact hprinted

theorem evaluateAll_succ (ih : Evaluation p depth) (hforms : p.Stays n forms)
    (henv : p.Stays n env) : p.Around n (ConsLisp.evaluateAll (depth + 1) forms env) p.Stays := by
  rw [ConsLisp.evaluateAll]
  refine nested (P := p.Stays) (by simp [Call.values, Call.envs, hforms, henv]) ?_ fun _ _ hx => hx
  refine bind (look_any _) fun k hk _ _ => collect (fun l hl form hform => ?_) _ trivial
    (hforms.mono hk)
  exact (ih.evaluate hform (henv.mono (hk.trans hl))).inside

theorem body_succ (ih : Evaluation p depth) (hforms : p.Stays n forms) (henv : p.Stays n env) :
    p.Around n (evaluateBody (depth + 1) forms env) p.Stays := by
  rw [evaluateBody]
  refine nested (P := p.Stays) (by simp [Call.values, Call.envs, hforms, henv]) ?_ fun _ _ hx => hx
  refine bind (look_any _) fun k hk _ _ => inSequence (fun l hl form hform => ?_) _ trivial
    (hforms.mono hk)
  exact (ih.evaluate hform (henv.mono (hk.trans hl))).inside

theorem special_succ (ih : Evaluation p depth) (special : Special) (hargs : p.Stays n args)
    (henv : p.Stays n env) : p.Around n (evaluateSpecial (depth + 1) special args env) p.Stays := by
  unfold evaluateSpecial
  refine nested (P := p.Stays) (by simp [Call.values, Call.envs, hargs, henv]) ?_ fun _ _ hx => hx
  cases special with
  | quote => exact car hargs
  | choice =>
    refine bind (car hargs) fun k hk _ hform => bind (ih.evaluate hform (henv.mono hk)).inside
      fun l hl condition _ => bind (cdr (hargs.mono (hk.trans hl))) fun m hm arms harms => ?_
    have henv' := henv.mono (hk.trans (hl.trans hm))
    split
    · exact bind (cdr harms) fun _ hj _ hrest => bind (car hrest) fun _ hj' _ harm =>
        (ih.evaluate harm (henv'.mono (hj.trans hj'))).inside
    · exact bind (car harms) fun _ hj _ harm => (ih.evaluate harm (henv'.mono hj)).inside
  | lambda =>
    exact bind (closeOver hargs henv) fun k hk _ hclosure => bind (car (hargs.mono hk))
      fun l hl params _ => bind (noteValue depth _ params) fun _ hm _ _ =>
      answer (hclosure.mono (hl.trans hm))
  | define =>
    exact bind (car hargs) fun k hk _ hname => bind (cdr (hargs.mono hk)) fun l hl _ hrest =>
      bind (closeOver hrest (henv.mono (hk.trans hl))) fun m hm _ hclosure =>
      bind (defineGlobal (hname.mono (hl.trans hm)) hclosure (henv.mono (hk.trans (hl.trans hm))))
      fun j hj _ _ => bind (noteValue depth _ _) fun _ hj' _ _ =>
      answer (hname.mono (hl.trans (hm.trans (hj.trans hj'))))
  | assign =>
    refine bind (cdr hargs) fun k hk _ hrest => bind (car hrest) fun l hl _ hform =>
      bind (ih.evaluate hform (henv.mono (hk.trans hl))).inside fun m hm value hvalue => ?_
    have hm' := hk.trans (hl.trans hm)
    refine bind (car (hargs.mono hm')) fun j hj name hname =>
      bind (assign (hvalue.mono hj) (henv.mono (hm'.trans hj))) fun i hi found _ => ?_
    have hvalue' := hvalue.mono (hj.trans hi)
    cases found with
    | true => exact answer hvalue'
    | false =>
      refine bind (noteValue depth _ name) fun i' hi' _ _ => ?_
      have hname' := hname.mono (hi.trans hi')
      have henv' := henv.mono (hm'.trans (hj.trans (hi.trans hi')))
      exact bind (defineGlobal hname' (hvalue'.mono hi') henv') fun _ hlast _ _ =>
        answer (hvalue'.mono (hi'.trans hlast))

theorem apply_succ (ih : Evaluation p depth) (hfn : p.Stays n fn) (hargs : p.Stays n args) :
    p.Around n (ConsLisp.apply (depth + 1) fn args) p.Stays := by
  unfold ConsLisp.apply
  refine nested (P := p.Stays) (by simp [Call.values, Call.envs, hfn, hargs]) ?_ fun _ _ hx => hx
  split
  · exact answer hfn
  · split
    · exact answer hargs
    · cases fn with
      | primitive serial f name => exact applyTo f hargs
      | closure serial params body env => exact (ih.enter hfn.1 hfn.2.1 hfn.2.2 hargs).inside
      | _ => exact bind (ask_any _) fun _ _ _ _ => fail _

theorem enter_succ (ih : Evaluation p depth) (hparams : p.Stays n params) (hcode : p.Stays n code)
    (henv : p.Stays n env) (hargs : p.Stays n args) :
    p.Around n (ConsLisp.enter (depth + 1) params code env args) p.Stays := by
  unfold ConsLisp.enter
  refine nested (P := p.Stays) (by simp [Call.values, Call.envs, hparams, hcode, henv, hargs]) ?_
    fun _ _ hx => hx
  exact bind (zip hparams hargs) fun k hk _ hframe => bind (cons hframe (henv.mono hk))
    fun l hl _ hlonger => (ih.body (hcode.mono (hk.trans hl)) hlonger).inside

/-- What is evaluated while the builder waits stays outside. -/
theorem evaluation (p : Pause) (depth : Nat) : Evaluation p depth := by
  -- The functions call each other with one nested call less, so all are done in one induction.
  induction depth with
  | zero =>
    exact ⟨fun _ _ => throw _, fun _ _ => throw _, fun _ _ _ _ _ _ => throw _, fun _ _ => throw _,
      fun _ _ _ _ => throw _, fun _ _ => throw _⟩
  | succ depth ih =>
    exact ⟨evaluate_succ ih, evaluateAll_succ ih,
      fun special _ _ _ hargs henv => special_succ ih special hargs henv, apply_succ ih,
      enter_succ ih, body_succ ih⟩

/-! ## The reader -/

theorem objectOf {atom : Value} (hatom : p.Stays n atom) :
    p.Inside n (Form.objectOf atom) p.Stays := by
  unfold Form.objectOf
  cases atom.unshared? with
  | none => exact answer hatom
  | some m => exact change (d := .number m) (by simp [Change.values]) fun _ _ _ => trivial

theorem refuse (fault : Fault) :
    p.Inside n (Form.refuse fault) p.ReadStays :=
  bind (note _) fun _ _ _ _ => bind (fail fault) fun _ _ _ herror =>
    pure fun _ hk => herror.mono hk

theorem readEach {readOne : List Char → Watched (Value × List Char)}
    (hread : ∀ k text, p.Inside k (readOne text) p.ReadStays) (fuel : Nat)
    {done : Value} (hdone : p.Stays n done) (text : List Char) :
    p.Inside n (Form.readEach readOne fuel done text) p.ReadStays := by
  have hdoneRead {n : Nat} {done : Value} (hdone : p.Stays n done) (rest : List Char) :
      p.Inside n (do return (← Action.reverse done, rest)) p.ReadStays :=
    bind (reverse hdone) fun _ _ _ hlist => pure fun _ hk => hlist.mono hk
  induction fuel generalizing done text n with
  | zero =>
    unfold Form.readEach
    split
    · exact refuse _
    · exact hdoneRead hdone _
    · exact throw _
  | succ fuel ih =>
    unfold Form.readEach
    split
    · exact refuse _
    · exact hdoneRead hdone _
    · refine bind (hread n _) fun k hk (form, rest) hform => ?_
      dsimp only
      split
      · exact pure fun _ hk' => hform.mono hk'
      · exact bind (cons hform (hdone.mono hk)) fun _ _ _ hdone => ih hdone rest

/-- With this many nested calls left, the reader stays outside. -/
structure Reading (p : Pause) (depth : Nat) : Prop where
  form (n : Nat) (text : List Char) :
    p.Around n (Form.readForm depth text) p.ReadStays
  rest (n : Nat) (text : List Char) :
    p.Around n (Form.readUntilClose depth text) p.ReadStays

theorem readForm_succ (ih : Reading p depth) (n : Nat) (text : List Char) :
    p.Around n (Form.readForm (depth + 1) text) p.ReadStays := by
  unfold Form.readForm
  refine nested (P := p.ReadStays) (by simp [Call.values, Call.envs]) ?_
    fun _ _ hx => hx
  split
  · exact refuse _
  · exact refuse _
  · exact (ih.rest n _).inside
  · refine bind (ih.form n _).inside fun k hk x hform => ?_
    obtain ⟨form, rest⟩ := x
    exact bind (cons hform (d := .nil) trivial) fun _ _ _ hinner =>
      bind (cons (a := .sym "quote") trivial hinner) fun _ _ _ hquoted =>
      pure fun _ hk' => hquoted.mono hk'
  · exact bind (objectOf (Value.within_denote ..)) fun _ _ _ hobject =>
      pure fun _ hk => hobject.mono hk

/-- What is read while the builder waits stays outside. -/
theorem reading (p : Pause) (depth : Nat) : Reading p depth := by
  induction depth with
  | zero => exact ⟨fun _ _ => throw _, fun _ _ => throw _⟩
  | succ depth ih =>
    refine ⟨readForm_succ ih, fun n text => ?_⟩
    unfold Form.readUntilClose
    have hnil : p.Stays n .nil := trivial
    exact nested (P := p.ReadStays) (by simp [Call.values, Call.envs])
      (readEach (fun k text => (ih.form k text).inside) _ hnil text) fun _ _ hx => hx

end Ensures

end Pause

end ConsLisp
