import ConsLisp.Proofs.Chronicle.Sound

/-!
# Programs that keep a chronicle sound

A program leads from a sound chronicle to a sound one, whether it answers or aborts.  What it
must hand on unchanged is the layout `base` of its caller.

Main statements: one rule for each thing that a machine does (`Leads.look`, `Leads.change`,
`Leads.note`, `Leads.nested`) and one for programs in sequence (`Leads.bind`).
-/

namespace ConsLisp.Chronicle

open Layout

variable {o : Opening} {base L : Layout} {callers : List Caller} {c : Chronicle} {α β : Type}
variable {Q : Layout → Store → α → Prop} {R : Layout → Store → β → Prop}

/-- The program ends in a sound chronicle and a layout above `base`: with an answer and a store
as `Q` says, or with an abort that has a cause. -/
def Leads (o : Opening) (base : Layout) (callers : List Caller) (c : Chronicle) (a : Watched α)
    (Q : Layout → Store → α → Prop) : Prop :=
  match a callers c with
  | .ok x c' => ∃ L, base ≤ L ∧ c'.Sound o L callers ∧ Q L c'.state.store x
  | .error abort c' => ∃ L within, base ≤ L ∧ c'.Sound o L within ∧
      Cause o.limit c'.state.store (within.map Caller.call) abort

namespace Leads

/-! ## Single steps -/

theorem pure (h : c.Sound o L callers) (hbase : base ≤ L) {x : α} (hx : Q L c.state.store x) :
    Leads o base callers c (Pure.pure x) Q :=
  ⟨L, hbase, h, hx⟩

theorem throw (h : c.Sound o L callers) (hbase : base ≤ L) {abort : Abort}
    (hcause : Cause o.limit c.state.store (callers.map Caller.call) abort) :
    Leads o base callers c (MonadExcept.throw abort) Q :=
  ⟨L, callers, hbase, h, hcause⟩

/-- A program after another one, which is known to have run. -/
theorem bind_run {a : Watched α} {f : α → Watched β} (ha : Leads o base callers c a Q)
    (hf : ∀ L c' x, base ≤ L → c'.Sound o L callers → Q L c'.state.store x →
      a callers c = .ok x c' → Leads o base callers c' (f x) R) :
    Leads o base callers c (a >>= f) R := by
  unfold Leads at ha ⊢
  simp only [Bind.bind, ReaderT.bind, EStateM.bind]
  cases hrun : a callers c with
  | ok x c' =>
    simp only [hrun] at ha
    obtain ⟨L, hbase, hsound, hx⟩ := ha
    exact hf L c' x hbase hsound hx hrun
  | error abort c' =>
    simp only [hrun] at ha
    exact ha

theorem bind {a : Watched α} {f : α → Watched β} (ha : Leads o base callers c a Q)
    (hf : ∀ L c' x, base ≤ L → c'.Sound o L callers → Q L c'.state.store x →
      Leads o base callers c' (f x) R) :
    Leads o base callers c (a >>= f) R :=
  bind_run ha fun L c' x hbase hsound hx _ => hf L c' x hbase hsound hx

/-- The layout may settle behind a program. -/
theorem settle {a : Watched α} {Q' : Layout → Store → α → Prop}
    (ha : Leads o base callers c a Q)
    (hQ : ∀ L (c' : Chronicle) x, base ≤ L → c'.Sound o L callers → Q L c'.state.store x →
      ∃ M, base ≤ M ∧ c'.Sound o M callers ∧ Q' M c'.state.store x) :
    Leads o base callers c a Q' := by
  unfold Leads at ha ⊢
  cases hrun : a callers c with
  | ok x c' =>
    simp only [hrun] at ha
    obtain ⟨L, hbase, hsound, hx⟩ := ha
    exact hQ L c' x hbase hsound hx
  | error abort c' =>
    simp only [hrun] at ha
    exact ha

theorem imp {a : Watched α} {Q' : Layout → Store → α → Prop} (ha : Leads o base callers c a Q)
    (hQ : ∀ L s x, base ≤ L → L.Kept s → Q L s x → Q' L s x) : Leads o base callers c a Q' :=
  settle ha fun L c' x hbase hsound hx =>
    ⟨L, hbase, hsound, hQ L c'.state.store x hbase hsound.kept hx⟩

/-- A program that hands on more hands on less. -/
theorem of_le {a : Watched α} {above : Layout} (hle : base ≤ above)
    (ha : Leads o above callers c a Q) : Leads o base callers c a Q := by
  unfold Leads at ha ⊢
  cases hrun : a callers c with
  | ok x c' =>
    simp only [hrun] at ha
    obtain ⟨L, hbase, hsound, hx⟩ := ha
    exact ⟨L, hle.trans hbase, hsound, hx⟩
  | error abort c' =>
    simp only [hrun] at ha
    obtain ⟨L, within, hbase, hrest⟩ := ha
    exact ⟨L, within, hle.trans hbase, hrest⟩

/-- A program that hands on more, followed by one that hands on less. -/
theorem bind_of_le {a : Watched α} {f : α → Watched β} {above : Layout} (hle : base ≤ above)
    (ha : Leads o above callers c a Q)
    (hf : ∀ L c' x, above ≤ L → c'.Sound o L callers → Q L c'.state.store x →
      Leads o base callers c' (f x) R) :
    Leads o base callers c (a >>= f) R := by
  have hboth : Leads o above callers c a fun L s x => above ≤ L ∧ Q L s x :=
    imp ha fun L s x habove _ hx => ⟨habove, hx⟩
  apply bind (of_le hle hboth)
  rintro L c' x - hsound ⟨habove, hx⟩
  exact hf L c' x habove hsound hx

/-- An answer that is read off the store. -/
theorem look {g : Store → α} {f : α → Watched β}
    (hf : Leads o base callers c (f (g c.state.store)) R) :
    Leads o base callers c (Machine.look g >>= f) R :=
  hf

theorem look_last (h : c.Sound o L callers) (hbase : base ≤ L) {g : Store → α}
    (hx : Q L c.state.store (g c.state.store)) : Leads o base callers c (Machine.look g) Q :=
  ⟨L, hbase, h, hx⟩

/-- An answer or an abort that is read off the store. -/
theorem ask {g : Store → Except Abort α} {f : α → Watched β} (h : c.Sound o L callers)
    (hbase : base ≤ L) (hg : ∀ abort, g c.state.store = .error abort →
      Cause o.limit c.state.store (callers.map Caller.call) abort)
    (hf : ∀ x, g c.state.store = .ok x → Leads o base callers c (f x) R) :
    Leads o base callers c (Action.ask g >>= f) R := by
  unfold Action.ask
  rw [bind_assoc]
  apply look
  cases hx : g c.state.store with
  | ok x =>
    dsimp only
    rw [pure_bind]
    exact hf x hx
  | error abort => exact throw h hbase (hg abort hx)

/-- A change that the layout allows. -/
theorem change (h : c.Sound o L callers) {M : Layout} (hbase : base ≤ M) {d : Change}
    (hallows : L.Allows ⟨callers, c.state.store, .change d⟩ d) (hsettles : L.Settles M)
    (hform : M.form = L.form) (hkept : M.Kept (d.perform c.state.store).2)
    (htail : M.Tail (M.globalFrame (d.perform c.state.store).2) (M.globalFrame c.state.store))
    (hsize : c.state.store.size ≤ (d.perform c.state.store).2.size) :
    Leads o base callers c (Machine.change d) fun L' s v =>
      L' = M ∧ v = (d.perform c.state.store).1 ∧ s = (d.perform c.state.store).2 :=
  ⟨M, hbase, h.change hallows hsettles hform hkept htail hsize, rfl, rfl, rfl⟩

/-- A new pair of any role but one. -/
theorem cons (h : c.Sound o L callers) (hbase : base ≤ L) {a d : Value} (role : Role)
    (hrole : role ≠ .globals) (hfits : L.Fits role ⟨a, d⟩)
    (hallows : L.Allows ⟨callers, c.state.store, .change (.cons a d)⟩ (.cons a d)) :
    Leads o base callers c (Action.cons a d) fun L' s v =>
      L' = L.set c.state.store.size role ∧ v = .pair c.state.store.size ∧
        s = (c.state.store.cons a d).2 := by
  have hle : L ≤ L.set c.state.store.size role := le_set le_rfl h.kept.role_size role
  refine change (d := .cons a d) h (hbase.trans hle) hallows (settles_of_le hle) rfl
    (h.kept.cons role hrole hfits) ?_ ?_
  · -- A new pair is not the global cell, so the global frame stays.
    have hframe := h.kept.globalFrame_cons a d
    rw [globalFrame_eq (settles_of_le hle), globalFrame_eq (settles_of_le hle)]
    exact hframe ▸ .refl _
  · exact Nat.le_of_lt (Nat.lt_of_lt_of_eq (Nat.lt_succ_self _) (Store.size_cons ..).symm)

/-- A new object that is no pair. -/
theorem object (h : c.Sound o L callers) (hbase : base ≤ L) {d : Change}
    (hallows : L.Allows ⟨callers, c.state.store, .change d⟩ d)
    (hcells : (d.perform c.state.store).2.cells = c.state.store.cells) :
    Leads o base callers c (Machine.change d) fun L' s v =>
      L' = L ∧ v = (d.perform c.state.store).1 ∧ s = (d.perform c.state.store).2 := by
  refine change h hbase hallows settles_refl rfl (h.kept.of_cells hcells) ?_ ?_
  · have hframe : L.globalFrame (d.perform c.state.store).2 = L.globalFrame c.state.store := by
      simp only [globalFrame, Store.car, Store.cell?, hcells]
    exact hframe ▸ .refl _
  · have hsize : (d.perform c.state.store).2.size = c.state.store.size := congrArg Array.size hcells
    exact Nat.le_of_eq hsize.symm

/-- A new error. -/
theorem fail (h : c.Sound o L callers) (hbase : base ≤ L) {fault : Fault}
    (hfault : ∀ printed, fault ≠ .notEvaluable printed) :
    Leads o base callers c (Action.fail fault) fun _ _ v => v.isError = true := by
  apply imp (object (d := .error fault) h hbase hfault rfl)
  rintro L' s v - - ⟨-, rfl, -⟩
  rfl

theorem note (h : c.Sound o L callers) (hbase : base ≤ L) (event : Event) :
    Leads o base callers c (Machine.note event) fun L' s _ => L' = L ∧ s = c.state.store :=
  ⟨L, hbase, h.withLog _, rfl, rfl⟩

/-- A nested call is made on what the layout knows, below the limit, and so is its answer. -/
theorem nested (h : c.Sound o L callers) {made : Call} {value : α → Value} {body : Watched α}
    (hknows : L.Takes c.state.store made) (hlimit : callers.length < o.limit)
    (hbody : ∀ c', c'.Sound o L (⟨made, c.state.store⟩ :: callers) →
      Leads o base (⟨made, c.state.store⟩ :: callers) c' body Q)
    (hanswer : ∀ L s x, Q L s x → L.Gives made (value x)) :
    Leads o base callers c (Machine.nested made value body) Q := by
  -- The body runs below one more call, and what it leaves is judged without that call again.
  have hrun := hbody _ (h.call hknows hlimit)
  unfold Leads at hrun ⊢
  simp only [Machine.nested]
  cases hanswered : body (⟨made, c.state.store⟩ :: callers) (c.record callers (.call made)) with
  | ok x c' =>
    simp only [hanswered] at hrun
    obtain ⟨L', hbase, hsound, hx⟩ := hrun
    have hknows' : L'.Knows c'.state.store (.answer made (value x)) := hanswer L' _ x hx
    have hrecord := hsound.record (List.suffix_cons ..) hknows' (by simp) (by simp) (by simp)
    exact ⟨L', hbase, hrecord, hx⟩
  | error abort c' =>
    simp only [hanswered] at hrun
    exact hrun

end Leads

end ConsLisp.Chronicle
