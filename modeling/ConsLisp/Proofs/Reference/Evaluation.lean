import ConsLisp.Proofs.Reference.Application

/-!
# The evaluators match

The two evaluators make the same nested calls, so they are matched by induction on the number of
calls that are left.  While the arguments of a call are evaluated, the list of those that are done
has no use, and evaluation leaves it alone.

Main statement: `Matches.evaluation`.
-/

namespace ConsLisp.Bridge

open ConsLisp.Action

variable {places : List Nat} {B B' : Bridge} {state : State} {r : Reference.State}
  {v w env : Value} {i j : Datum} {frames : List (List Nat)}

/-- The values that are done stand in front of those that are still to come. -/
theorem collect_pair (valueOf : Datum → Reference.Step Datum) (n : Nat) (form rest : Datum)
    (items : List Datum) :
    (do Reference.finish ((← Reference.collect valueOf (.pair n form rest)).map
      (items.reverse ++ ·))) = (do
        let value ← valueOf form
        if value.isError then
          return value
        else
          Reference.finish ((← Reference.collect valueOf rest).map
            ((value :: items).reverse ++ ·))) := by
  rw [Reference.collect, bind_assoc]
  refine congrArg (valueOf form >>= ·) (funext fun value => ?_)
  split
  · rfl
  · rw [bind_assoc]
    refine congrArg (Reference.collect valueOf rest >>= ·) (funext fun result => ?_)
    cases result <;> simp [Except.map]

namespace Matches

/-! ## Loops -/

/-- The values of the forms of a list, in front of which stand those that are done. -/
theorem collect {valueOf : Value → Action Value} {valueOf' : Datum → Reference.Step Datum}
    (hvalue : ∀ {B' state r v i}, B ≤ B' → B'.Agrees state r → B'.Same v i → i.Avoids B.hidden →
      Matches [] B' (valueOf v) (valueOf' i) Same state r)
    (hle : B ≤ B') (h : B'.Agrees state r) {fuel : Nat} {done forms : Value}
    (hforms : B'.Same forms i) (hasks : i.AllAvoid B.hidden) (hfuel : i.chain.1.length ≤ fuel)
    {elements : List Value} {items : List Datum}
    (hdraft : B'.Draft state.store done places elements)
    (hitems : List.Forall₂ B'.Same elements items) :
    Matches places B' (ConsLisp.collect valueOf fuel done forms)
      (do Reference.finish ((← Reference.collect valueOf' i).map (items.reverse ++ ·))) Same
      state r := by
  -- By induction on the list on the other side, whatever has been done so far.
  induction i generalizing B' state r fuel done forms places elements items with
  | pair n x y _ ih =>
    cases hforms with
    | @pair place _ a d _ _ huse hcar hcdr =>
      cases fuel with
      | zero => simp [Datum.chain] at hfuel
      | succ fuel =>
        unfold ConsLisp.collect
        rw [collect_pair]
        apply look
        rw [h.cell_data huse]
        refine bind (hvalue hle h hcar hasks.1)
          fun {B₁ state₁ r₁} value value' hevolves hagrees hsame => ?_
        rw [hsame.isError_eq]
        split
        · exact pure hagrees hsame
        · -- The value goes into a pair without a use, in front of the others.
          have hdraft₁ := hdraft.evolve hevolves
          refine scratch (state₁.store.size :: places) hagrees (fun hagrees₂ => ?_) ?_
          · apply look
            have hcdr₂ : B₁.Same (Store.cdr _ (.pair place)) y :=
              (Same.pair (hevolves.le.2.1 _ _ huse) (hcar.mono hevolves.le)
                (hcdr.mono hevolves.le)).cdr hagrees₂
            refine ih (le_trans hle hevolves.le) hagrees₂ hcdr₂ hasks.2
              (Nat.le_of_succ_le_succ hfuel) ?_
              (.cons hsame (hitems.imp fun _ _ hitem => hitem.mono hevolves.le))
            exact hdraft₁.push hagrees value
          · intro other hlt hmem _
            have hne : other ≠ state₁.store.size := Nat.ne_of_lt hlt
            simpa [hne] using hmem
  | _ =>
    -- No form is left: the list in place is reversed, and the other side makes it now.
    have hdone := reverse h hdraft hitems
    rw [← List.append_nil items.reverse] at hdone
    cases hforms with
    | _ =>
      unfold ConsLisp.collect
      exact hdone

/-- The last value of the forms of a list. -/
theorem inSequence {valueOf : Value → Action Value} {valueOf' : Datum → Reference.Step Datum}
    (hvalue : ∀ {B' state r v i}, B ≤ B' → B'.Agrees state r → B'.Same v i → i.Avoids B.hidden →
      Matches [] B' (valueOf v) (valueOf' i) Same state r)
    (hle : B ≤ B') (h : B'.Agrees state r) {fuel : Nat} {before forms : Value}
    (hforms : B'.Same forms i) (hasks : i.AllAvoid B.hidden) (hfuel : i.chain.1.length ≤ fuel)
    (hbefore : B'.Same before j) :
    Matches [] B' (ConsLisp.inSequence valueOf fuel before forms)
      (Reference.inSequence valueOf' i j) Same state r := by
  induction i generalizing B' state r fuel before forms j with
  | pair n x y _ ih =>
    cases hforms with
    | @pair place _ a d _ _ huse hcar hcdr =>
      cases fuel with
      | zero => simp [Datum.chain] at hfuel
      | succ fuel =>
        unfold ConsLisp.inSequence Reference.inSequence
        apply look
        rw [h.cell_data huse]
        apply bind (hvalue hle h hcar hasks.1)
        intro B₁ state₁ r₁ value value' hevolves hagrees hsame
        apply look
        have hcdr' := ((Same.pair huse hcar hcdr).mono hevolves.le).cdr hagrees
        exact ih (le_trans hle hevolves.le) hagrees hcdr' hasks.2 (Nat.le_of_succ_le_succ hfuel)
          hsame
  | _ =>
    cases hforms with
    | _ =>
      unfold ConsLisp.inSequence
      exact pure h hbefore

/-! ## Nested calls -/

/-- With this many nested calls left, each function of the evaluator matches. -/
structure Evaluation (depth : Nat) : Prop where
  evaluate {B : Bridge} {state : State} {r : Reference.State} {v env : Value} {i : Datum}
    {frames : List (List Nat)} (h : B.Agrees state r) (hform : B.Same v i)
    (hasks : i.Avoids B.hidden) (henv : B.Scope env frames) :
    Matches [] B (evaluate depth v env) (Reference.evaluate depth i frames) Same state r
  evaluateAll {B : Bridge} {state : State} {r : Reference.State} {v env : Value} {i : Datum}
    {frames : List (List Nat)} (h : B.Agrees state r) (hforms : B.Same v i)
    (hasks : i.AllAvoid B.hidden) (henv : B.Scope env frames) :
    Matches [] B (evaluateAll depth v env) (Reference.evaluateAll depth i frames) Same state r
  special {B : Bridge} {state : State} {r : Reference.State} {v env : Value} {i : Datum}
    {frames : List (List Nat)} (h : B.Agrees state r) (form : Special) (hargs : B.Same v i)
    (hasks : i.AllAvoid B.hidden) (henv : B.Scope env frames) :
    Matches [] B (evaluateSpecial depth form v env) (Reference.evaluateSpecial depth form i frames)
      Same state r
  apply {B : Bridge} {state : State} {r : Reference.State} {v w : Value} {i j : Datum}
    (h : B.Agrees state r) (hfn : B.Same v i) (hargs : B.Same w j) :
    Matches [] B (apply depth v w) (Reference.apply depth i j) Same state r
  enter {B : Bridge} {state : State} {r : Reference.State} {params body env args : Value}
    {i j k : Datum} {frames : List (List Nat)} (h : B.Agrees state r) (hparams : B.Same params i)
    (hbody : B.Same body j) (hasks : j.AllAvoid B.hidden) (henv : B.Scope env frames)
    (hargs : B.Same args k) :
    Matches [] B (enter depth params body env args) (Reference.enter depth i j frames k) Same
      state r
  body {B : Bridge} {state : State} {r : Reference.State} {v env : Value} {i : Datum}
    {frames : List (List Nat)} (h : B.Agrees state r) (hforms : B.Same v i)
    (hasks : i.AllAvoid B.hidden) (henv : B.Scope env frames) :
    Matches [] B (evaluateBody depth v env) (Reference.evaluateBody depth i frames) Same state r

theorem evaluate_succ {depth : Nat} (ih : Evaluation depth) (h : B.Agrees state r)
    (hform : B.Same v i) (hasks : i.Avoids B.hidden) (henv : B.Scope env frames) :
    Matches [] B (evaluate (depth + 1) v env) (Reference.evaluate (depth + 1) i frames) Same
      state r := by
  unfold ConsLisp.evaluate Reference.evaluate
  have hprint : Matches [] B (do Action.fail (.notEvaluable (← Action.print depth v)))
      (do Reference.fail (.notEvaluable (← Reference.lift (i.print depth)))) Same state r :=
    bind (print h hform depth) fun text text' _ hagrees heq => heq ▸ fail hagrees _
  cases hform with
  | nil => exact pure h .nil
  | num n => exact pure h (.num n)
  | number hobject => exact pure h (.number hobject)
  | error hobject => exact pure h (.error hobject)
  | sym name =>
    obtain ⟨found, hfound, hrel⟩ := h.value?_eq henv (.sym name) hasks
    refine ask hfound (get ?_)
    cases hnumber : r.find (.sym name) frames with
    | none =>
      rw [hnumber] at hrel
      cases hrel
      exact fail h _
    | some n =>
      rw [hnumber] at hrel
      cases hrel with
      | some hsame => exact pure h hsame
  | @pair place n a d x y huse hcar hcdr =>
    -- The heads are the same symbol or none, so both sides take the same branch.
    have hpair := Same.pair huse hcar hcdr
    have hhead : B.Same (state.store.car (.pair place)) x := hpair.car h
    have hargs : B.Same (state.store.cdr (.pair place)) y := hpair.cdr h
    refine look (look ?_)
    rw [hhead.special?_eq]
    cases hspecial : x.special? with
    | some special =>
      simp only [hspecial]
      exact ih.special h special hargs hasks.2 henv
    | none =>
      simp only [hspecial]
      have hasked : x.Avoids B.hidden := hasks.1.resolve_left (by simp [hspecial])
      apply bind (ih.evaluate h hhead hasked henv)
      intro B₁ state₁ r₁ fn fn' hevolves₁ h₁ hfn
      have hle₁ := hevolves₁.le
      apply bind (ih.evaluateAll h₁ (hargs.mono hle₁) (hidden_eq hle₁ ▸ hasks.2) (henv.mono hle₁))
      intro B₂ state₂ r₂ values values' hevolves₂ h₂ hvalues
      exact ih.apply h₂ (hfn.mono hevolves₂.le) hvalues
  | primitive => exact hprint
  | closure => exact hprint

theorem closeOver (h : B.Agrees state r) (hargs : B.Same v i) (hasks : i.AllAvoid B.hidden)
    (henv : B.Scope env frames) :
    Matches places B (ConsLisp.closeOver v env) (Reference.closure i.car i.cdr frames) Same
      state r :=
  look (look (closure h (hargs.car h) (hargs.cdr h) hasks.cdr henv))

theorem special_succ {depth : Nat} (ih : Evaluation depth) (h : B.Agrees state r)
    (form : Special) (hargs : B.Same v i) (hasks : i.AllAvoid B.hidden)
    (henv : B.Scope env frames) :
    Matches [] B (evaluateSpecial (depth + 1) form v env)
      (Reference.evaluateSpecial (depth + 1) form i frames) Same state r := by
  unfold ConsLisp.evaluateSpecial Reference.evaluateSpecial
  have hfirst := hargs.car h
  have hrest := hargs.cdr h
  cases form with
  | quote => exact answer rfl rfl (.refl [] B state.store) h hfirst
  | choice =>
    refine look (bind (ih.evaluate h hfirst hasks.car henv) ?_)
    intro B₁ state₁ r₁ condition condition' hevolves h₁ hcondition
    have harms := (hargs.mono hevolves.le).cdr h₁
    have henv₁ := henv.mono hevolves.le
    have hasks₁ : i.AllAvoid B₁.hidden := hidden_eq hevolves.le ▸ hasks
    apply look
    cases hcondition with
    | nil =>
      rw [if_pos rfl, if_pos rfl]
      exact look (look (ih.evaluate h₁ ((harms.cdr h₁).car h₁) hasks₁.cdr.cdr.car henv₁))
    | _ =>
      rw [if_neg (by simp), if_neg (by simp)]
      exact look (ih.evaluate h₁ (harms.car h₁) hasks₁.cdr.car henv₁)
  | lambda =>
    apply bind (closeOver h hargs hasks henv)
    intro B₁ state₁ r₁ function function' hevolves h₁ hfunction
    apply look
    apply bind (noteValue h₁ ((hargs.mono hevolves.le).car h₁) depth _)
    intro B₂ state₂ r₂ _ _ hevolves₂ h₂ _
    exact pure h₂ (hfunction.mono hevolves₂.le)
  | define =>
    refine look (look (bind (closeOver h hrest hasks.cdr henv) ?_))
    intro B₁ state₁ r₁ function function' hevolves₁ h₁ hfunction
    have hname₁ := hfirst.mono hevolves₁.le
    apply bind (defineGlobal h₁ hname₁ hfunction (henv.mono hevolves₁.le))
    intro B₂ state₂ r₂ _ _ hevolves₂ h₂ _
    have hname₂ := hname₁.mono hevolves₂.le
    apply bind (noteValue h₂ hname₂ depth _)
    intro B₃ state₃ r₃ _ _ hevolves₃ h₃ _
    exact pure h₃ (hname₂.mono hevolves₃.le)
  | assign =>
    refine look (look (bind (ih.evaluate h (hrest.car h) hasks.cdr.car henv) ?_))
    intro B₁ state₁ r₁ value value' hevolves₁ h₁ hvalue
    have hname := (hargs.mono hevolves₁.le).car h₁
    have henv₁ := henv.mono hevolves₁.le
    have hasked : i.car.Avoids B₁.hidden := hidden_eq hevolves₁.le ▸ hasks.car
    refine look (bind (assign h₁ hname hasked hvalue henv₁) ?_)
    intro B₂ state₂ r₂ found found' hevolves₂ h₂ heq
    subst heq
    have hvalue₂ := hvalue.mono hevolves₂.le
    cases found with
    | true => exact pure h₂ hvalue₂
    | false =>
      -- The name has no variable on either side, so both define one.
      have hname₂ := hname.mono hevolves₂.le
      apply bind (noteValue h₂ hname₂ depth _)
      intro B₃ state₃ r₃ _ _ hevolves₃ h₃ _
      have hvalue₃ := hvalue₂.mono hevolves₃.le
      have henv₃ := (henv₁.mono hevolves₂.le).mono hevolves₃.le
      apply bind (defineGlobal h₃ (hname₂.mono hevolves₃.le) hvalue₃ henv₃)
      intro B₄ state₄ r₄ _ _ hevolves₄ h₄ _
      exact pure h₄ (hvalue₃.mono hevolves₄.le)

theorem apply_succ {depth : Nat} (ih : Evaluation depth) (h : B.Agrees state r)
    (hfn : B.Same v i) (hargs : B.Same w j) :
    Matches [] B (apply (depth + 1) v w) (Reference.apply (depth + 1) i j) Same state r := by
  unfold ConsLisp.apply Reference.apply
  have hprint : Matches [] B (do Action.fail (.notFunction (← Action.print depth v)))
      (do Reference.fail (.notFunction (← Reference.lift (i.print depth)))) Same state r :=
    bind (print h hfn depth) fun text text' _ hagrees heq => heq ▸ fail hagrees _
  rw [hfn.isError_eq, hargs.isError_eq]
  split
  · exact pure h hfn
  · split
    · exact pure h hargs
    · cases hfn with
      | @primitive _ _ p => exact applyTo h p hargs
      | closure _ hparams hbody hasks henv => exact ih.enter h hparams hbody hasks henv hargs
      | _ => exact hprint

theorem enter_succ {depth : Nat} (ih : Evaluation depth) (h : B.Agrees state r)
    {params body args : Value} {k : Datum} (hparams : B.Same params i) (hbody : B.Same body j)
    (hasks : j.AllAvoid B.hidden) (henv : B.Scope env frames) (hargs : B.Same args k) :
    Matches [] B (enter (depth + 1) params body env args)
      (Reference.enter (depth + 1) i j frames k) Same state r := by
  unfold ConsLisp.enter Reference.enter
  apply bind (zip h hparams hargs)
  intro B₁ state₁ r₁ frame numbers hevolves h₁ hframe
  refine extend h₁ hframe (henv.mono hevolves.le) fun hle hagrees hscope => ?_
  have hle' := le_trans hevolves.le hle
  exact ih.body hagrees (hbody.mono hle') (hidden_eq hle' ▸ hasks) hscope

theorem evaluateAll_succ {depth : Nat} (ih : Evaluation depth) (h : B.Agrees state r)
    (hforms : B.Same v i) (hasks : i.AllAvoid B.hidden) (henv : B.Scope env frames) :
    Matches [] B (evaluateAll (depth + 1) v env) (Reference.evaluateAll (depth + 1) i frames) Same
      state r := by
  rw [ConsLisp.evaluateAll, Reference.evaluateAll]
  apply look
  have hfuel : i.chain.1.length ≤ state.store.size + patience :=
    Nat.le_add_right_of_le (hforms.depicts h).length_chain_le
  have hcollect := collect
    (fun hle hagrees hform hasked =>
      ih.evaluate hagrees hform (hidden_eq hle ▸ hasked) (henv.mono hle))
    (le_refl B) h hforms hasks hfuel (.nil B state.store) .nil
  have hmap : ∀ result : Except Datum (List Datum),
      result.map (([] : List Datum).reverse ++ ·) = result := by
    intro result
    cases result <;> rfl
  simpa only [hmap] using hcollect

theorem body_succ {depth : Nat} (ih : Evaluation depth) (h : B.Agrees state r)
    (hforms : B.Same v i) (hasks : i.AllAvoid B.hidden) (henv : B.Scope env frames) :
    Matches [] B (evaluateBody (depth + 1) v env) (Reference.evaluateBody (depth + 1) i frames) Same
      state r := by
  rw [ConsLisp.evaluateBody, Reference.evaluateBody]
  apply look
  have hfuel : i.chain.1.length ≤ state.store.size + patience :=
    Nat.le_add_right_of_le (hforms.depicts h).length_chain_le
  exact inSequence
    (fun hle hagrees hform hasked =>
      ih.evaluate hagrees hform (hidden_eq hle ▸ hasked) (henv.mono hle))
    (le_refl B) h hforms hasks hfuel .nil

/-- The evaluators match, however many nested calls are left. -/
theorem evaluation (depth : Nat) : Evaluation depth := by
  induction depth with
  | zero =>
    exact ⟨fun h _ _ _ => throw h _, fun h _ _ _ => throw h _, fun h _ _ _ _ => throw h _,
      fun h _ _ => throw h _, fun h _ _ _ _ _ => throw h _, fun h _ _ _ => throw h _⟩
  | succ depth ih =>
    exact ⟨evaluate_succ ih, evaluateAll_succ ih, special_succ ih, apply_succ ih,
      fun h hparams hbody hasks henv hargs => enter_succ ih h hparams hbody hasks henv hargs,
      body_succ ih⟩

end Matches

end ConsLisp.Bridge
