import ConsLisp.Proofs.Chronicle.Building

/-!
# Evaluation keeps a chronicle sound

The evaluator leads from sound chronicles to sound ones, at every depth and whether it answers
or aborts.  Program text that is known stays text, environments that are known stay
environments, and a result is a value of the language or an error.  The calls in progress and the
nested calls that are left make up the limit, so an abort for want of nested calls has its cause.

Main statement: one lemma for all mutual functions of the evaluator (`Leads.evaluation`).
-/

namespace ConsLisp.Chronicle

open Layout

variable {o : Opening} {base L : Layout} {callers : List Caller} {c : Chronicle}

namespace Leads

/-! ## Primitives -/

theorem number (h : c.Sound o L callers) (hbase : base ≤ L) (n : Option Int) :
    Leads o base callers c (Action.number n) fun L' _ v => L'.Outcome v := by
  cases n with
  | none => exact imp (fail h hbase nofun) fun _ _ _ _ _ herror => .inr herror
  | some n => exact pure h hbase (.inl (.atom rfl trivial))

theorem total (h : c.Sound o L callers) (hbase : base ≤ L)
    (operation : List Value → Option Int) {args : Value} (hargs : L.Data args) :
    Leads o base callers c (Action.total operation args) fun L' _ v => L'.Outcome v := by
  obtain ⟨places, elements, tail, hlinks, -⟩ := Tree.links h.kept hargs
  unfold Action.total
  refine ask h hbase (fun abort habort => ?_) fun found _ => ?_
  · simp [hlinks.hasElement_eq] at habort
  · cases found with
    | true => exact imp (fail h hbase nofun) fun _ _ _ _ _ herror => .inr herror
    | false =>
      refine ask h hbase (fun abort habort => ?_) fun values _ => number h hbase _
      simp [hlinks.elements_eq] at habort

/-- Arithmetic on two operands aborts only on a quotient or a remainder by zero. -/
theorem division_of_onValues {op : Arithmetic.Operation} {x y : Value} {abort : Abort}
    (h : op.onValues x y = .error abort) :
    op ≠ .difference ∧ abort = .divisionByZero ∧ (∃ n, x.num? = some n) ∧ y.num? = some 0 := by
  unfold Arithmetic.Operation.onValues at h
  split at h
  · next m _ n _ =>
    cases op with
    | difference => simp [Arithmetic.Operation.result, Except.map] at h
    | quotient | remainder =>
      by_cases hn : n = 0
      · obtain rfl : Abort.divisionByZero = abort := by
          simpa [Arithmetic.Operation.result, hn, Except.map] using h
        exact ⟨nofun, rfl, ⟨m, rfl⟩, congrArg some hn⟩
      · simp [Arithmetic.Operation.result, hn, Except.map] at h
  · simp at h

theorem Data.ofBool (L : Layout) (b : Bool) : L.Data (.ofBool b) := by
  cases b with
  | false => exact Data.nil L
  | true => exact .atom rfl L.vocabulary.t

theorem applyTo (h : c.Sound o L callers) (hbase : base ≤ L) {serial : Nat} {p : Primitive}
    {name : String} {args : Value} {calls : List Call} (hargs : L.Data args)
    (hcalls : callers.map Caller.call = .apply (.primitive serial p name) args :: calls) :
    Leads o base callers c (p.applyTo args) fun L' _ v => L'.Outcome v := by
  unfold Primitive.applyTo
  refine look (look (look ?_))
  have hx := Data.car h.kept hargs
  have hy := Data.car h.kept (Data.cdr h.kept hargs)
  have hdivision {abort : Abort} (op : Arithmetic.Operation)
      (hp : op ≠ .difference → p = .div ∨ p = .mod)
      (habort : op.onValues (c.state.store.car args)
        (c.state.store.car (c.state.store.cdr args)) = .error abort) :
      Cause o.limit c.state.store (callers.map Caller.call) abort := by
    obtain ⟨hop, rfl, ⟨n, hx⟩, hy⟩ := division_of_onValues habort
    rw [hcalls]
    exact .division (hp hop) hx hy
  cases p with
  | car => exact look_last h hbase (.inl (Data.car h.kept hx))
  | cdr => exact look_last h hbase (.inl (Data.cdr h.kept hx))
  | cons =>
    apply imp (consData h hbase hx.matter hy.matter (allows_cons hx.isError hy.isError))
    rintro L' s v - - ⟨hgrows, place, rfl, hrole⟩
    have hsettles := settles_of_le hgrows
    exact .inl (.pair hrole (hx.mono hsettles) (hy.mono hsettles))
  | eq | numberp | symbolp => exact pure h hbase (.inl (Data.ofBool L _))
  | atom => exact look (pure h hbase (.inl (Data.ofBool L _)))
  | add | mul => exact total h hbase _ hargs
  | sub => exact ask h hbase (fun _ => hdivision _ (absurd rfl)) fun n _ => number h hbase n
  | div => exact ask h hbase (fun _ => hdivision _ fun _ => .inl rfl) fun n _ => number h hbase n
  | mod => exact ask h hbase (fun _ => hdivision _ fun _ => .inr rfl) fun n _ => number h hbase n

/-- The log may print program text, unless that is nested too deep. -/
theorem noteValue (h : c.Sound o L callers) (hbase : base ≤ L) {depth : Nat}
    (hdepth : callers.length + depth = o.limit) (event : String → Event) {v : Value}
    (hv : L.Code v) {call : Call} {calls : List Call}
    (hcalls : callers.map Caller.call = call :: calls) (hprints : call.Prints c.state.store v) :
    Leads o base callers c (ConsLisp.noteValue depth event v) fun L' s _ =>
      L' = L ∧ s = c.state.store := by
  unfold ConsLisp.noteValue
  refine bind (Q := fun L' s _ => L' = L ∧ s = c.state.store) ⟨L, hbase, h, rfl, rfl⟩ ?_
  rintro L' c' kept hle hsound ⟨rfl, hstore⟩
  rw [← hstore] at hprints ⊢
  cases kept with
  | false => exact pure hsound hle ⟨rfl, rfl⟩
  | true =>
    refine ask hsound hle (fun abort habort => ?_) fun text _ => note hsound hle _
    obtain ⟨rfl, hnests⟩ := hv.unprintable hsound.kept habort
    have hlength : calls.length + 1 = callers.length := by
      simpa using (congrArg List.length hcalls).symm
    rw [hcalls]
    refine .nesting hprints ?_
    rwa [hlength, ← hdepth, Nat.add_sub_cancel_left]

/-! ## Loops over forms -/

variable {valueOf : Value → Watched Value} {elements : List Value} {tail : Value}

/-- The values of the forms of a list are a list. -/
theorem collect
    (hvalue : ∀ (L : Layout) (c : Chronicle) form, base ≤ L → c.Sound o L callers → base.Code form →
      Leads o L callers c (valueOf form) fun L' _ v => L'.Outcome v)
    {fuel : Nat} {done forms : Value} {drafts : List (Nat × Value)} (h : c.Sound o L callers)
    (hbase : base ≤ L) (howns : Owns base L callers done drafts)
    (hdata : ∀ entry ∈ drafts, L.Data entry.2) (hforms : base.Chain forms elements tail)
    (hcode : ∀ form ∈ elements, base.Code form) (hfuel : elements.length ≤ fuel) :
    Leads o base callers c (ConsLisp.collect valueOf fuel done forms) fun L' _ v =>
      L'.Outcome v := by
  -- The caller's layout knows the forms, so evaluating one of them leaves the others.
  induction hforms generalizing fuel done drafts L c with
  | done hplace =>
    unfold ConsLisp.collect
    apply look
    rw [cell?_of_isPlace hplace]
    apply imp (reverse_data h hbase howns fun entry hmem => (hdata entry hmem).matter)
    rintro L' s v - - ⟨hsettles, hchain⟩
    refine .inl (hchain.tree (fun element hmem => ?_) L'.vocabulary.nil)
    obtain ⟨entry, hentry, rfl⟩ := List.mem_map.mp (List.mem_reverse.mp hmem)
    exact (hdata entry hentry).mono hsettles
  | @next place form rest tail elements hrole _ ih =>
    cases fuel with
    | zero => simp at hfuel
    | succ fuel =>
      unfold ConsLisp.collect
      apply look
      rw [h.kept.cell_data (role_of_le hbase hrole)]
      have hform := hvalue L c form hbase h (hcode form List.mem_cons_self)
      apply bind_of_le hbase hform
      intro L₁ c₁ value hle₁ hsound₁ hvalue₁
      have hbase₁ := hbase.trans hle₁
      split
      · exact pure hsound₁ hbase₁ hvalue₁
      · next herror =>
        -- A value that is no error is data, which a draft may hold.
        have hvalue₁ := hvalue₁.resolve_right herror
        have howns₁ := howns.of_le hle₁
        apply bind (consDraft hsound₁ hbase₁ howns₁ (.inl hvalue₁.matter) hvalue₁.isError)
        rintro L₂ c₂ v hbase₂ hsound₂ ⟨hle₂, -, place₂, howns₂⟩
        apply look
        rw [hsound₂.kept.cdr_data (role_of_le hbase₂ hrole)]
        refine ih hsound₂ hbase₂ howns₂ ?_
          (fun other hmem => hcode other (List.mem_cons_of_mem _ hmem))
          (Nat.le_of_succ_le_succ hfuel)
        intro entry hmem
        rcases List.mem_cons.mp hmem with rfl | hmem
        · exact hvalue₁.mono (settles_of_le hle₂)
        · exact (hdata entry hmem).mono (settles_of_le (hle₁.trans hle₂))

/-- The value of the last form of a list is an outcome. -/
theorem inSequence
    (hvalue : ∀ (L : Layout) (c : Chronicle) form, base ≤ L → c.Sound o L callers → base.Code form →
      Leads o L callers c (valueOf form) fun L' _ v => L'.Outcome v)
    {fuel : Nat} {before forms : Value} (h : c.Sound o L callers) (hbase : base ≤ L)
    (hbefore : L.Outcome before) (hforms : base.Chain forms elements tail)
    (hcode : ∀ form ∈ elements, base.Code form) (hfuel : elements.length ≤ fuel) :
    Leads o base callers c (ConsLisp.inSequence valueOf fuel before forms) fun L' _ v =>
      L'.Outcome v := by
  induction hforms generalizing fuel before L c with
  | done hplace =>
    unfold ConsLisp.inSequence
    apply look
    rw [cell?_of_isPlace hplace]
    exact pure h hbase hbefore
  | @next place form rest tail elements hrole _ ih =>
    cases fuel with
    | zero => simp at hfuel
    | succ fuel =>
      unfold ConsLisp.inSequence
      apply look
      rw [h.kept.cell_data (role_of_le hbase hrole)]
      have hform := hvalue L c form hbase h (hcode form List.mem_cons_self)
      apply bind_of_le hbase hform
      intro L₁ c₁ value hle₁ hsound₁ hvalue₁
      have hbase₁ := hbase.trans hle₁
      apply look
      rw [hsound₁.kept.cdr_data (role_of_le hbase₁ hrole)]
      exact ih hsound₁ hbase₁ hvalue₁ (fun other hmem => hcode other (List.mem_cons_of_mem _ hmem))
        (Nat.le_of_succ_le_succ hfuel)

/-! ## The evaluator -/

/-- At a depth, the evaluator leads to outcomes. -/
structure Evaluation (depth : Nat) : Prop where
  evaluate {o : Opening} {L : Layout} {callers : List Caller} {c : Chronicle} {form env : Value}
    (h : c.Sound o L callers) (hdepth : callers.length + depth = o.limit) (hform : L.Code form)
    (henv : L.Env env) :
    Leads o L callers c (ConsLisp.evaluate depth form env) fun L' _ v => L'.Outcome v
  evaluateAll {o : Opening} {L : Layout} {callers : List Caller} {c : Chronicle} {forms env : Value}
    (h : c.Sound o L callers) (hdepth : callers.length + depth = o.limit) (hforms : L.Code forms)
    (henv : L.Env env) :
    Leads o L callers c (ConsLisp.evaluateAll depth forms env) fun L' _ v => L'.Outcome v
  special {o : Opening} {L : Layout} {callers : List Caller} {c : Chronicle} {args env : Value}
    (special : Special) (h : c.Sound o L callers) (hdepth : callers.length + depth = o.limit)
    (hnil : L.Given .nil) (hargs : L.Code args) (henv : L.Env env) :
    Leads o L callers c (evaluateSpecial depth special args env) fun L' _ v => L'.Outcome v
  apply {o : Opening} {L : Layout} {callers : List Caller} {c : Chronicle} {fn args : Value}
    (h : c.Sound o L callers) (hdepth : callers.length + depth = o.limit) (hfn : L.Outcome fn)
    (hargs : L.Outcome args) :
    Leads o L callers c (ConsLisp.apply depth fn args) fun L' _ v => L'.Outcome v
  enter {o : Opening} {L : Layout} {callers : List Caller} {c : Chronicle}
    {params body env args : Value} (h : c.Sound o L callers)
    (hdepth : callers.length + depth = o.limit) (hparams : L.Code params) (hbody : L.Code body)
    (henv : L.Env env) (hargs : L.Data args) :
    Leads o L callers c (ConsLisp.enter depth params body env args) fun L' _ v => L'.Outcome v
  body {o : Opening} {L : Layout} {callers : List Caller} {c : Chronicle} {forms env : Value}
    (h : c.Sound o L callers) (hdepth : callers.length + depth = o.limit) (hforms : L.Code forms)
    (henv : L.Bound c.state.store env) :
    Leads o L callers c (evaluateBody depth forms env) fun L' _ v => L'.Outcome v

/-- An outcome may be the answer of any call. -/
theorem gives_of_outcome {made : Call} {v : Value} (hv : L.Outcome v) : L.Gives made v := by
  cases made with
  | apply => exact hv
  | _ => exact hv.matter

/-- A nested call that is made on what the layout knows, and that answers with an outcome. -/
theorem nested_outcome {depth : Nat} (h : c.Sound o L callers)
    (hdepth : callers.length + (depth + 1) = o.limit) {made : Call} {body : Watched Value}
    (hknows : L.Takes c.state.store made)
    (hbody : ∀ c', c'.Sound o L (⟨made, c.state.store⟩ :: callers) →
      (⟨made, c.state.store⟩ :: callers : List Caller).length + depth = o.limit →
      Leads o base (⟨made, c.state.store⟩ :: callers) c' body fun L' _ v => L'.Outcome v) :
    Leads o base callers c (Machine.nested made id body) fun L' _ v => L'.Outcome v := by
  refine nested h hknows (by omega) (fun c' hsound => ?_) fun _ _ _ => gives_of_outcome
  apply hbody c' hsound
  rw [List.length_cons]
  omega

theorem evaluate_succ {depth : Nat} (ih : Evaluation depth) {form env : Value}
    (h : c.Sound o L callers) (hdepth : callers.length + (depth + 1) = o.limit)
    (hform : L.Code form) (henv : L.Env env) :
    Leads o L callers c (ConsLisp.evaluate (depth + 1) form env) fun L' _ v => L'.Outcome v := by
  unfold ConsLisp.evaluate
  apply nested_outcome h hdepth
  · exact ⟨⟨hform.script, hform.2⟩, henv⟩
  intro c' hsound hdepth
  cases form with
  | nil | num => exact pure hsound le_rfl hform.outcome
  | sym name =>
    obtain ⟨found, hfound, houtcome⟩ := henv.value?_ok hsound.kept (.sym name)
    refine ask hsound le_rfl (fun abort habort => by simp [hfound] at habort) fun x hx => ?_
    obtain rfl : found = x := Except.ok.inj (hfound.symm.trans hx)
    cases found with
    | none => exact imp (fail hsound le_rfl (by simp)) fun _ _ _ _ _ herror => .inr herror
    | some value => exact pure hsound le_rfl (houtcome value rfl)
  | pair place =>
    refine look (look ?_)
    have hnil := Given.nil hsound.oversees.lists hform.2
    have hhead := hform.car hsound.kept hnil
    have hargs := hform.cdr hsound.kept hnil
    split
    · exact ih.special _ hsound hdepth hnil hargs henv
    · apply bind (ih.evaluate hsound hdepth hhead henv)
      intro L₁ c₁ fn hle₁ hsound₁ hfn
      have hsettles₁ := settles_of_le hle₁
      have hall := ih.evaluateAll hsound₁ hdepth (hargs.mono hsettles₁) (henv.mono hsettles₁)
      apply bind_of_le hle₁ hall
      intro L₂ c₂ values hle₂ hsound₂ hvalues
      exact of_le (hle₁.trans hle₂)
        (ih.apply hsound₂ hdepth (hfn.mono (settles_of_le hle₂)) hvalues)
  | primitive | closure | foreign | error =>
    -- These are never part of program text.
    cases hform.1 with
    | atom _ hword => exact (L.vocabulary.token hword).elim

theorem evaluateAll_succ {depth : Nat} (ih : Evaluation depth) {forms env : Value}
    (h : c.Sound o L callers) (hdepth : callers.length + (depth + 1) = o.limit)
    (hforms : L.Code forms) (henv : L.Env env) :
    Leads o L callers c (ConsLisp.evaluateAll (depth + 1) forms env) fun L' _ v =>
      L'.Outcome v := by
  rw [ConsLisp.evaluateAll]
  apply nested_outcome h hdepth
  · exact ⟨hforms, henv⟩
  intro c' hsound hdepth
  apply look
  obtain ⟨elements, tail, hchain, hcode⟩ := hforms.chain
  refine collect ?_ hsound le_rfl (.nil (by simp)) (by simp) hchain hcode ?_
  · intro L' c' form hle hsound' hform
    have hsettles := settles_of_le hle
    exact ih.evaluate hsound' hdepth (hform.mono hsettles) (henv.mono hsettles)
  · exact Nat.le_add_right_of_le (hchain.length_le_size hsound.kept)

theorem body_succ {depth : Nat} (ih : Evaluation depth) {forms env : Value}
    (h : c.Sound o L callers) (hdepth : callers.length + (depth + 1) = o.limit)
    (hforms : L.Code forms) (henv : L.Bound c.state.store env) :
    Leads o L callers c (evaluateBody (depth + 1) forms env) fun L' _ v => L'.Outcome v := by
  rw [evaluateBody]
  apply nested_outcome h hdepth
  · exact ⟨hforms, henv⟩
  intro c' hsound hdepth
  apply look
  obtain ⟨elements, tail, hchain, hcode⟩ := hforms.chain
  refine inSequence ?_ hsound le_rfl (.inl (Data.nil L)) hchain hcode ?_
  · intro L' c' form hle hsound' hform
    have hsettles := settles_of_le hle
    exact ih.evaluate hsound' hdepth (hform.mono hsettles) (henv.env.mono hsettles)
  · exact Nat.le_add_right_of_le (hchain.length_le_size hsound.kept)

theorem enter_succ {depth : Nat} (ih : Evaluation depth) {params body env args : Value}
    (h : c.Sound o L callers) (hdepth : callers.length + (depth + 1) = o.limit)
    (hparams : L.Code params) (hbody : L.Code body) (henv : L.Env env) (hargs : L.Data args) :
    Leads o L callers c (ConsLisp.enter (depth + 1) params body env args) fun L' _ v =>
      L'.Outcome v := by
  unfold ConsLisp.enter
  apply nested_outcome h hdepth
  · exact ⟨hparams, hbody, henv, hargs⟩
  intro c' hsound hdepth
  apply bind (zip hsound (by simp) hparams hargs)
  rintro L₁ c₁ frame hle₁ hsound₁ ⟨bindings, hframe, hvalues⟩
  -- The body runs below the captured environment, not below the caller's.
  have houter := henv.mono (settles_of_le hle₁)
  refine bind (cons hsound₁ hle₁ (.scope frame env) (by simp) ⟨rfl, ⟨bindings, hframe⟩, houter⟩
    (allows_cons hframe.isError houter.isError)) ?_
  rintro L₂ c₂ inner hle₂ hsound₂ ⟨hL₂, rfl, hstore₂⟩
  have hgrows : L₁ ≤ L₂ := by
    rw [hL₂]
    exact le_set le_rfl hsound₁.kept.role_size _
  have hrole : L₂.role c₁.state.store.size = some (.scope frame env) := by
    rw [hL₂, role_set_self]
  have hsettles := settles_of_le hgrows
  have hinner : L₂.Bound c₂.state.store (.pair c₁.state.store.size) := by
    refine ⟨_, frame, env, bindings, rfl, hrole, hframe.mono hsettles, houter.mono hsettles,
      fun binding hmem => ?_⟩
    -- The new pair of the environment is none of the bindings.
    obtain ⟨name, hbinding⟩ := hframe.isBinding hmem
    rw [hstore₂, keepsValues_cons hsound₁.kept frame env binding name hbinding]
    exact (hvalues binding hmem).mono hsettles
  exact of_le hle₂ (ih.body hsound₂ hdepth (hbody.mono (settles_of_le hle₂)) hinner)

/-- What stands in the place of a function, and is none, is printed for the message. -/
theorem cause_of_print {fn args : Value} {depth : Nat} {calls : List Call} {abort : Abort}
    (h : c.Sound o L callers) (hdepth : callers.length + depth = o.limit) (hfn : L.Data fn)
    (hcalls : callers.map Caller.call = .apply fn args :: calls)
    (hprints : (Call.apply fn args).Prints c.state.store fn)
    (habort : c.state.store.print depth fn = .error abort) :
    Cause o.limit c.state.store (callers.map Caller.call) abort := by
  have hlength : calls.length + 1 = callers.length := by
    simpa using (congrArg List.length hcalls).symm
  rw [hcalls]
  rcases hfn.matter.unprintable h.kept habort with ⟨rfl, hnests⟩ | ⟨rfl, n, serial, hpart, hlong⟩
  · refine .nesting hprints ?_
    rwa [hlength, ← hdepth, Nat.add_sub_cancel_left]
  · exact .digits hprints hpart hlong

theorem apply_succ {depth : Nat} (ih : Evaluation depth) {fn args : Value}
    (h : c.Sound o L callers) (hdepth : callers.length + (depth + 1) = o.limit)
    (hfn : L.Outcome fn) (hargs : L.Outcome args) :
    Leads o L callers c (ConsLisp.apply (depth + 1) fn args) fun L' _ v => L'.Outcome v := by
  unfold ConsLisp.apply
  apply nested_outcome h hdepth
  · exact ⟨hfn, hargs⟩
  intro c' hsound hdepth
  split
  · exact pure hsound le_rfl hfn
  · next hnot =>
    have hfn := hfn.resolve_right hnot
    split
    · exact pure hsound le_rfl hargs
    · next hnot' =>
      have hargs := hargs.resolve_right hnot'
      split
      · exact applyTo hsound le_rfl hargs rfl
      · next serial params body env =>
        cases hfn with
        | atom _ hclosure =>
          obtain ⟨hparams, hbody, henv⟩ := hclosure
          exact ih.enter hsound hdepth hparams hbody henv hargs
      · next hprimitive hclosure =>
        have hprints : (Call.apply fn args).Prints c'.state.store fn := by
          refine ⟨rfl, hfn.isError, hargs.isError, ?_⟩
          cases fn with
          | primitive => exact (hprimitive _ _ _ rfl).elim
          | closure => exact (hclosure _ _ _ _ rfl).elim
          | _ => rfl
        refine ask hsound le_rfl (fun abort => cause_of_print hsound hdepth hfn rfl hprints)
          fun text _ => ?_
        exact imp (fail hsound le_rfl nofun) fun _ _ _ _ _ herror => .inr herror

/-- A new closure over program text and an environment is a value. -/
theorem closeOver {lambdaList env : Value} (h : c.Sound o L callers) (hbase : base ≤ L)
    (hnil : L.Given .nil) (hlist : L.Code lambdaList) (henv : L.Env env) :
    Leads o base callers c (ConsLisp.closeOver lambdaList env) fun L' s v =>
      L' = L ∧ s.cells = c.state.store.cells ∧ L.Data v := by
  unfold ConsLisp.closeOver
  refine look (look ?_)
  apply imp (object (d := .closure _ _ env) h hbase trivial rfl)
  rintro L' s v - - ⟨rfl, rfl, rfl⟩
  exact ⟨rfl, rfl, .atom rfl ⟨hlist.car h.kept hnil, hlist.cdr h.kept hnil, henv⟩⟩

theorem special_succ {depth : Nat} (ih : Evaluation depth) (special : Special) {args env : Value}
    (h : c.Sound o L callers) (hdepth : callers.length + (depth + 1) = o.limit)
    (hnil : L.Given .nil) (hargs : L.Code args) (henv : L.Env env) :
    Leads o L callers c (evaluateSpecial (depth + 1) special args env) fun L' _ v =>
      L'.Outcome v := by
  unfold ConsLisp.evaluateSpecial
  apply nested_outcome h hdepth
  · exact ⟨⟨hargs.script, hargs.2⟩, henv⟩
  intro c' hsound hdepth
  have hfirst := hargs.car hsound.kept hnil
  have hrest := hargs.cdr hsound.kept hnil
  cases special with
  | quote => exact look_last hsound le_rfl hfirst.outcome
  | choice =>
    refine look (bind (ih.evaluate hsound hdepth hfirst henv) ?_)
    intro L₁ c₁ condition hle₁ hsound₁ _
    have hnil₁ := hnil.mono (settles_of_le hle₁)
    have henv₁ := henv.mono (settles_of_le hle₁)
    have harms := (hargs.mono (settles_of_le hle₁)).cdr hsound₁.kept hnil₁
    apply look
    split
    · have helse := (harms.cdr hsound₁.kept hnil₁).car hsound₁.kept hnil₁
      exact look (look (of_le hle₁ (ih.evaluate hsound₁ hdepth helse henv₁)))
    · have hthen := harms.car hsound₁.kept hnil₁
      exact look (of_le hle₁ (ih.evaluate hsound₁ hdepth hthen henv₁))
  | lambda =>
    apply bind (closeOver hsound le_rfl hnil hargs henv)
    rintro L₁ c₁ closure hle₁ hsound₁ ⟨rfl, -, hclosure⟩
    refine look (bind (noteValue hsound₁ le_rfl hdepth _ (hargs.car hsound₁.kept hnil) rfl rfl) ?_)
    rintro L₂ c₂ - hle₂ hsound₂ ⟨rfl, -⟩
    exact pure hsound₂ hle₂ (.inl hclosure)
  | define =>
    refine look (look (bind (closeOver hsound le_rfl hnil hrest henv) ?_))
    rintro L₁ c₁ closure hle₁ hsound₁ ⟨rfl, -, hclosure⟩
    refine bind (defineGlobal hsound₁ hfirst.data (.inl hclosure) henv
      (allows_cons hfirst.data.isError hclosure.isError) ?_) ?_
    · intro M s d hle hkept _
      refine ⟨args, env, (Tree.car_eq hsound.kept hkept (settles_of_le hle) hargs.1).symm, .inl rfl⟩
    · intro L₂ c₂ _ hle₂ hsound₂ _
      have hname := hfirst.mono (settles_of_le hle₂)
      have hprints := (Tree.car_eq hsound.kept hsound₂.kept (settles_of_le hle₂) hargs.1).symm
      apply bind (noteValue hsound₂ hle₂ hdepth _ hname rfl hprints)
      rintro L₃ c₃ - hle₃ hsound₃ ⟨rfl, -⟩
      exact pure hsound₃ hle₃ hname.outcome
  | assign =>
    refine look (look (bind (ih.evaluate hsound hdepth (hrest.car hsound.kept hnil) henv) ?_))
    intro L₁ c₁ value hle₁ hsound₁ hvalue
    have hargs₁ := hargs.mono (settles_of_le hle₁)
    have henv₁ := henv.mono (settles_of_le hle₁)
    have hname := hargs₁.car hsound₁.kept (hnil.mono (settles_of_le hle₁))
    apply look
    have hassigns : ∀ d binding,
        c₁.state.store.binding? (c₁.state.store.car args) env = .ok (some binding) →
        Moment.Assigns ⟨⟨.special .assign args env, c.state.store⟩ :: callers, c₁.state.store, d⟩
          binding :=
      fun d binding hbinding => ⟨args, env, rfl, hbinding⟩
    apply bind_of_le hle₁ (assign hsound₁ hvalue henv₁ hassigns)
    intro L₂ c₂ found hle₂ hsound₂ hfound
    cases found with
    | true =>
      exact pure hsound₂ (hle₁.trans hle₂) (hvalue.mono (settles_of_le hle₂))
    | false =>
      -- The name has no binding.  The log may print it meanwhile, which changes no store.
      obtain ⟨rfl, hstore, hnone⟩ := hfound rfl
      apply bind_of_le hle₁ (noteValue hsound₂ le_rfl hdepth _ hname rfl (by rw [hstore]; rfl))
      rintro L₃ c₃ - - hsound₃ ⟨rfl, hstore₃⟩
      rw [← hstore₃] at hnone hstore
      have hallows : L₃.Allows ⟨⟨.special .assign args env, c.state.store⟩ :: callers,
          c₃.state.store, .change (.cons (c₁.state.store.car args) value)⟩
          (.cons (c₁.state.store.car args) value) := by
        refine ⟨fun herror => ?_, fun _ => ⟨args, env, rfl, by rw [hstore]⟩⟩
        simp [hname.data.isError] at herror
      have hdefine := defineGlobal hsound₃ hname.data hvalue henv₁ hallows ?_
      · apply bind_of_le hle₁ hdefine
        intro L₄ c₄ _ hle₄ hsound₄ _
        exact pure hsound₄ (hle₁.trans hle₄) (hvalue.mono (settles_of_le hle₄))
      · -- And it still has none when its binding is put in front.
        intro M s d hle hkept hglobal
        have hsettles := settles_of_le hle
        refine ⟨args, env, (Tree.car_eq hsound₁.kept hkept hsettles hargs₁.1).symm, .inr ⟨rfl, ?_⟩⟩
        rw [henv₁.binding?_congr hsound₃.kept hkept hsettles hglobal]
        exact hnone

/-- With no nested call left, the limit is reached. -/
theorem throw_tooDeep {α : Type} {Q : Layout → Store → α → Prop} (h : c.Sound o L callers)
    (hdepth : callers.length + 0 = o.limit) :
    Leads o L callers c (MonadExcept.throw .tooDeep) Q := by
  refine throw h le_rfl (.calls ?_)
  rw [List.length_map]
  exact Nat.le_of_eq hdepth.symm

/-- At every depth the evaluator leads to outcomes. -/
theorem evaluation (depth : Nat) : Evaluation depth := by
  -- With no nested call left every function aborts, which any sound chronicle survives.
  induction depth with
  | zero =>
    exact ⟨fun h hdepth _ _ => throw_tooDeep h hdepth, fun h hdepth _ _ => throw_tooDeep h hdepth,
      fun _ h hdepth _ _ _ => throw_tooDeep h hdepth, fun h hdepth _ _ => throw_tooDeep h hdepth,
      fun h hdepth _ _ _ _ => throw_tooDeep h hdepth, fun h hdepth _ _ => throw_tooDeep h hdepth⟩
  | succ depth ih =>
    exact ⟨evaluate_succ ih, evaluateAll_succ ih, fun special => special_succ ih special,
      apply_succ ih, enter_succ ih, body_succ ih⟩

end Leads

end ConsLisp.Chronicle
