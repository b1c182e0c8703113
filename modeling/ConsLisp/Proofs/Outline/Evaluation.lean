import ConsLisp.Proofs.Outline
import ConsLisp.Proofs.Sequence

/-!
# Evaluation keeps to an outline

Any form may be evaluated in an environment of an outline, whatever values are met on the way.  The
store afterwards keeps to an outline that has grown, and of the pairs that were there before, only
pairs of environments have changed.

Main statements: one rule for each kind of step, and one lemma for all mutual functions of the
evaluator (`Answers.evaluation`).
-/

namespace ConsLisp.Outline

/-- The outline and the store have both grown.  Of the first `n` pairs, only pairs of environments
have changed. -/
structure Grows (n : Nat) (O : Outline) (s : Store) (O' : Outline) (s' : Store) : Prop where
  le : O ≤ O'
  size : s.size ≤ s'.size
  old {place : Nat} (hlt : place < n) (hplace : place < s.size) (hfree : O.part place = none) :
    O'.part place = none ∧ s'.cell? (.pair place) = s.cell? (.pair place)

/-- Each answer of the program comes with an outline that has grown, and is as `P` says. -/
structure Answers (O : Outline) (n : Nat) (s : Store) {α : Type} (a : Action α)
    (P : Outline → Store → α → Prop) : Prop where
  run (log : Log) (x : α) (after : State) (hrun : a ⟨s, log⟩ = .ok x after) :
    ∃ O', Grows n O s O' after.store ∧ O'.Kept after.store ∧ P O' after.store x

/-- Wherever there is this environment, the program keeps to the outline, and so does its answer. -/
def Safe (env : Value) (a : Action Value) : Prop :=
  ∀ (O : Outline) (n : Nat) (s : Store), O.Kept s → O.Lists .scope env → n ≤ s.size →
    O.Answers n s a fun O' _ v => O'.Admits v

/-- A list of new pairs that have no parts yet. -/
structure Draft (O : Outline) (n : Nat) (s : Store) (done : Value) (places : List Nat)
    (elements : List Value) : Prop where
  links : s.Links done places elements .nil
  new {place : Nat} (hmem : place ∈ places) : n ≤ place
  free : ∀ place ∈ places, O.part place = none

variable {O O' : Outline} {n k : Nat} {s s' : Store} {α β : Type} {P Q : Outline → Store → α → Prop}
  {R : Outline → Store → β → Prop} {v env done : Value} {places : List Nat} {elements : List Value}

theorem Grows.refl (n : Nat) (O : Outline) (s : Store) : Grows n O s O s :=
  ⟨fun _ _ h => h, Nat.le_refl _, fun _ _ hfree => ⟨hfree, rfl⟩⟩

theorem Grows.trans {O'' : Outline} {s'' : Store} (h : Grows n O s O' s')
    (h' : Grows n O' s' O'' s'') : Grows n O s O'' s'' := by
  refine ⟨fun _ _ hpart => h'.le _ _ (h.le _ _ hpart), Nat.le_trans h.size h'.size,
    fun hlt hplace hfree => ?_⟩
  obtain ⟨hfree', hcell⟩ := h.old hlt hplace hfree
  obtain ⟨hfree'', hcell'⟩ := h'.old hlt (Nat.lt_of_lt_of_le hplace h.size) hfree'
  exact ⟨hfree'', hcell'.trans hcell⟩

theorem Grows.mono (h : Grows k O s O' s') (hn : n ≤ k) : Grows n O s O' s' :=
  ⟨h.le, h.size, fun hlt => h.old (Nat.lt_of_lt_of_le hlt hn)⟩

/-- The outline stays, and all pairs but those of environments and those behind the first `n`. -/
theorem Grows.of_keeps {changed : List Nat} (h : Store.KeepsExcept changed s s')
    (hchanged : ∀ place ∈ changed, n ≤ place ∨ O.part place ≠ none) : Grows n O s O s' := by
  refine ⟨fun _ _ h => h, h.size, fun {place} hlt hplace hfree => ⟨hfree, h.cell hplace ?_⟩⟩
  intro hmem
  rcases hchanged place hmem with hle | hpart
  · exact Nat.not_le.mpr hlt hle
  · exact hpart hfree

/-- A list under construction stays as it is while only pairs of environments change. -/
theorem Draft.grows (h : O.Draft n s done places elements) (hgrows : Grows s.size O s O' s') :
    O'.Draft n s' done places elements := by
  have hold (place : Nat) (hmem : place ∈ places) :=
    hgrows.old (h.links.lt_size hmem) (h.links.lt_size hmem) (h.free place hmem)
  exact ⟨h.links.congr (fun place hmem => (hold place hmem).2) rfl, h.new,
    fun place hmem => (hold place hmem).1⟩

theorem Draft.admits (h : O.Draft n s done places elements) : O'.Admits done := by
  cases h.links with
  | done | next => trivial

theorem Draft.nil (O : Outline) (n : Nat) (s : Store) : O.Draft n s .nil [] [] :=
  ⟨.done rfl, by simp, by simp⟩

/-- One more pair is put in front. -/
theorem Draft.cons (h : O.Draft n s done places elements) (hkept : O.Kept s) (hn : n ≤ s.size)
    (a : Value) :
    O.Draft n (s.cons a done).2 (.pair s.size) (s.size :: places) (a :: elements) := by
  have hkeeps : Store.KeepsExcept [] s (s.cons a done).2 := .cons ..
  refine ⟨.next (Store.cell?_cons_self ..) (h.links.keep hkeeps (by simp) rfl), fun hmem => ?_,
    fun place hmem => ?_⟩
  · rcases List.mem_cons.mp hmem with rfl | hmem
    · exact hn
    · exact h.new hmem
  · rcases List.mem_cons.mp hmem with rfl | hmem
    · exact hkept.part_size
    · exact h.free place hmem

namespace Answers

open Machine

/-! ## Single steps -/

theorem pure (h : O.Kept s) {x : α} (hx : P O s x) : O.Answers n s (Pure.pure x) P := by
  refine ⟨fun log y after hrun => ?_⟩
  cases hrun
  exact ⟨O, .refl n O s, h, hx⟩

theorem throw (abort : Abort) : O.Answers n s (MonadExcept.throw abort : Action α) P :=
  ⟨nofun⟩

/-- The first part may promise that more old pairs stay than the whole does. -/
theorem bind (hn : n ≤ k) {a : Action α} {f : α → Action β} (ha : O.Answers k s a P)
    (hf : ∀ O' s' x, Grows k O s O' s' → O'.Kept s' → P O' s' x → O'.Answers n s' (f x) R) :
    O.Answers n s (a >>= f) R := by
  refine ⟨fun log y after hrun => ?_⟩
  obtain ⟨x, ⟨s', log'⟩, hfirst, hrest⟩ := Action.exists_of_bind_ok hrun
  obtain ⟨O', hgrows, hkept, hx⟩ := ha.run log x _ hfirst
  obtain ⟨O'', hgrows', hkept', hy⟩ := (hf O' s' x hgrows hkept hx).run log' y after hrest
  exact ⟨O'', (hgrows.mono hn).trans hgrows', hkept', hy⟩

/-- Fewer old pairs are promised to stay, or less is said of the answer. -/
theorem imp {a : Action α} (ha : O.Answers k s a P) (hn : n ≤ k)
    (hP : ∀ O' s' x, P O' s' x → Q O' s' x) : O.Answers n s a Q := by
  refine ⟨fun log x after hrun => ?_⟩
  obtain ⟨O', hgrows, hkept, hx⟩ := ha.run log x after hrun
  exact ⟨O', hgrows.mono hn, hkept, hP _ _ _ hx⟩

theorem look {g : Store → α} {f : α → Action β} (hf : O.Answers n s (f (g s)) R) :
    O.Answers n s (look g >>= f) R :=
  ⟨hf.run⟩

theorem look_last (h : O.Kept s) {g : Store → α} (hx : P O s (g s)) :
    O.Answers n s (Machine.look g) P := by
  refine ⟨fun log y after hrun => ?_⟩
  cases hrun
  exact ⟨O, .refl n O s, h, hx⟩

theorem ask {g : Store → Except Abort α} {f : α → Action β}
    (hf : ∀ x, g s = .ok x → O.Answers n s (f x) R) : O.Answers n s (Action.ask g >>= f) R := by
  unfold Action.ask
  rw [bind_assoc]
  apply look
  cases hx : g s with
  | ok x =>
    dsimp only
    rw [pure_bind]
    exact hf x hx
  | error abort =>
    refine ⟨fun log y after hrun => ?_⟩
    cases hrun

theorem note (h : O.Kept s) (event : Event) :
    O.Answers n s (note event) fun O' s' _ => O' = O ∧ s' = s := by
  refine ⟨fun log y after hrun => ?_⟩
  cases hrun
  exact ⟨O, .refl n O s, h, rfl, rfl⟩

theorem keeps (level : Level) {f : Bool → Action β} (hf : ∀ kept, O.Answers n s (f kept) R) :
    O.Answers n s (keeps level >>= f) R :=
  ⟨fun log => (hf (log.keeps level)).run log⟩

/-! ## Changes -/

/-- An object that is no pair is made. -/
theorem object (h : O.Kept s) {d : Change} (hcells : (d.perform s).2.cells = s.cells) :
    O.Answers n s (change d) fun O' s' v => O' = O ∧ s' = (d.perform s).2 ∧
      v = (d.perform s).1 := by
  refine ⟨fun log v after hrun => ?_⟩
  cases hrun
  have hcell (v : Value) : (d.perform s).2.cell? v = s.cell? v := by
    cases v <;> simp [Store.cell?, hcells]
  refine ⟨O, ⟨fun _ _ h => h, ?_, fun _ _ hfree => ⟨hfree, hcell _⟩⟩, h.of_cells hcells, rfl, rfl,
    rfl⟩
  exact Nat.le_of_eq (congrArg Array.size hcells).symm

/-- A pair of no part is made. -/
theorem cons (h : O.Kept s) {a d : Value} (ha : O.Admits a) (hd : O.Admits d) :
    O.Answers n s (Action.cons a d) fun O' s' v => O' = O ∧ s' = (s.cons a d).2 ∧
      v = .pair s.size := by
  refine ⟨fun log v after hrun => ?_⟩
  cases hrun
  exact ⟨O, .of_keeps (.cons s a d) (by simp), h.cons ha hd, rfl, rfl, rfl⟩

/-- A pair of a part is made. -/
theorem consAs (h : O.Kept s) {a d : Value} (part : Part) (hfits : O.Fits part ⟨a, d⟩)
    (ha : O.Admits a) (hd : O.Admits d) :
    O.Answers n s (Action.cons a d) fun O' s' v => O' = O.set s.size part ∧ s' = (s.cons a d).2 ∧
      v = .pair s.size := by
  refine ⟨fun log v after hrun => ?_⟩
  cases hrun
  have hkeeps : Store.KeepsExcept [] s (s.cons a d).2 := .cons ..
  refine ⟨O.set s.size part, ⟨le_set h.part_size, hkeeps.size, fun _ hplace hfree => ?_⟩,
    (h.cons ha hd).set h.part_size (Store.cell?_cons_self ..) hfits, rfl, rfl, rfl⟩
  rw [part_set_of_ne (Nat.ne_of_lt hplace)]
  exact ⟨hfree, hkeeps.cell hplace (by simp)⟩

/-- The value of a binding is overwritten. -/
theorem setCdr (h : O.Kept s) (hv : O.Is .binding v) {d : Value} (hd : O.Admits d) :
    O.Answers n s (Action.setCdr v d) fun _ _ _ => True := by
  refine ⟨fun log _ after hrun => ?_⟩
  cases hrun
  have hkept := h.setCdr hv hd
  obtain ⟨place, rfl, hpart⟩ := hv
  exact ⟨O, .of_keeps (.setCdr s place d) (by simp [hpart]), hkept, trivial⟩

/-- The first frame of an environment is overwritten. -/
theorem setCar (h : O.Kept s) (henv : O.Lists .scope env) {frame : Value}
    (hframe : O.Lists .frame frame) :
    O.Answers n s (Action.setCar env frame) fun _ _ _ => True := by
  refine ⟨fun log _ after hrun => ?_⟩
  cases hrun
  have hkept := h.setCar henv hframe
  rcases henv with rfl | ⟨place, rfl, hpart⟩
  · exact ⟨O, .refl n O s, hkept, trivial⟩
  · exact ⟨O, .of_keeps (.setCar s place frame) (by simp [hpart]), hkept, trivial⟩

/-- A list under construction is turned around. -/
theorem reverse (h : O.Kept s) (hdraft : O.Draft n s done places elements) :
    O.Answers n s (Action.reverse done) fun O' s' v =>
      O' = O ∧ O.Draft n s' v places.reverse elements.reverse := by
  refine ⟨fun log v after hrun => ?_⟩
  have hdone : (⟨s, log⟩ : State).store.Links done places elements .nil := hdraft.links
  obtain ⟨w, s', hreverse, hturned, hkeeps, -⟩ := Action.reverse_of_links hdone
  have hsize := Action.size_of_reverse hreverse
  obtain ⟨rfl, rfl⟩ : w = v ∧ ⟨s', log⟩ = after := by simpa [hreverse] using hrun
  refine ⟨O, .of_keeps hkeeps fun place hmem => .inl (hdraft.new hmem),
    h.turned hdraft.links hdraft.free hturned hkeeps hsize, rfl, hturned, fun hmem => ?_,
    fun place hmem => ?_⟩
  · exact hdraft.new (List.mem_reverse.mp hmem)
  · exact hdraft.free place (List.mem_reverse.mp hmem)

/-! ## Frames and bindings -/

/-- The new list is a frame of new bindings. -/
theorem frame (h : O.Kept s) (hdraft : O.Draft n s done places elements)
    (helements : ∀ element ∈ elements, O.Is .binding element) :
    O.Answers n s (Action.reverse done) fun O' _ v => O'.Lists .frame v := by
  refine ⟨fun log v after hrun => ?_⟩
  obtain ⟨O₁, hgrows, hkept, rfl, hturned⟩ := (reverse h hdraft).run log v after hrun
  obtain ⟨O', hle, hkept', hframe, hothers⟩ := hkept.exists_frame hturned.links hturned.free
    fun element hmem => helements element (List.mem_reverse.mp hmem)
  refine ⟨O', ⟨hle, hgrows.size, fun {place} hlt hplace hfree => ?_⟩, hkept', hframe⟩
  -- The pairs of the frame are new.
  have hnot : place ∉ places.reverse := fun hmem => Nat.not_le.mpr hlt (hturned.new hmem)
  rw [hothers place hnot]
  exact hgrows.old hlt hplace hfree

theorem zipOnto (h : O.Kept s) (hn : n ≤ s.size) (hdraft : O.Draft n s done places elements)
    (helements : ∀ element ∈ elements, O.Is .binding element) (fuel : Nat) (keys values : Value) :
    O.Answers n s (Action.zipOnto fuel done keys values) fun O' _ v => O'.Lists .frame v := by
  induction fuel generalizing O s done places elements keys values with
  | zero =>
    unfold Action.zipOnto
    refine look (look ?_)
    cases s.cell? keys <;> cases s.cell? values <;>
      first | exact throw _ | exact frame h hdraft helements
  | succ fuel ih =>
    unfold Action.zipOnto
    refine look (look ?_)
    cases hkey : s.cell? keys with
    | none => exact frame h hdraft helements
    | some key =>
      cases hvalue : s.cell? values with
      | none => exact frame h hdraft helements
      | some value =>
        have hname : O.Admits key.car := Store.car_of_cell? hkey ▸ h.car keys
        have hargument : O.Admits value.car := Store.car_of_cell? hvalue ▸ h.car values
        apply bind hn (consAs h .binding trivial hname hargument)
        rintro O₁ s₁ _ hgrows₁ hkept₁ ⟨rfl, rfl, rfl⟩
        have hn₁ := Nat.le_trans hn hgrows₁.size
        have hdraft₁ := hdraft.grows hgrows₁
        apply bind hn₁ (cons hkept₁ (a := .pair s.size) trivial hdraft₁.admits)
        rintro O₂ s₂ _ hgrows₂ hkept₂ ⟨rfl, rfl, rfl⟩
        refine ih hkept₂ (Nat.le_trans hn₁ hgrows₂.size) (hdraft₁.cons hkept₁ hn₁ _) ?_ _ _
        intro element hmem
        rcases List.mem_cons.mp hmem with rfl | hmem
        · exact ⟨s.size, rfl, part_set_self ..⟩
        · exact (helements element hmem).mono hgrows₁.le

theorem zip (h : O.Kept s) (hn : n ≤ s.size) (keys values : Value) :
    O.Answers n s (Action.zip keys values) fun O' _ v => O'.Lists .frame v :=
  look (zipOnto h hn (.nil O n s) (by simp) ..)

theorem defineGlobal (h : O.Kept s) (hn : n ≤ s.size) {name value env : Value}
    (hname : O.Admits name) (hvalue : O.Admits value) (henv : O.Lists .scope env) :
    O.Answers n s (Action.defineGlobal name value env) fun _ _ _ => True := by
  unfold Action.defineGlobal Action.define
  refine ask fun last hlast => ?_
  have hlast := h.last henv hlast
  apply bind hn (consAs h .binding trivial hname hvalue)
  rintro O₁ s₁ _ hgrows₁ hkept₁ ⟨rfl, rfl, rfl⟩
  have hn₁ := Nat.le_trans hn hgrows₁.size
  have hlast₁ := hlast.mono hgrows₁.le
  have hbinding : (O.set s.size .binding).Is .binding (.pair s.size) :=
    ⟨_, rfl, part_set_self ..⟩
  have hframe := hkept₁.frame hlast₁
  apply look
  apply bind hn₁ (consAs hkept₁ .frame ⟨hbinding, hframe⟩ trivial hframe.admits)
  rintro O₂ s₂ _ hgrows₂ hkept₂ ⟨rfl, rfl, rfl⟩
  exact setCar hkept₂ (hlast₁.mono hgrows₂.le) (.inr ⟨_, rfl, part_set_self ..⟩)

theorem assign (h : O.Kept s) {name value env : Value} (hvalue : O.Admits value)
    (henv : O.Lists .scope env) :
    O.Answers n s (Action.assign name value env) fun _ _ _ => True := by
  refine ask fun found hfound => ?_
  cases found with
  | none => exact pure h trivial
  | some binding =>
    refine bind (Nat.le_refl _) (setCdr h (h.binding henv hfound) hvalue) ?_
    exact fun O' s' _ _ hkept _ => pure hkept trivial

/-! ## Primitives -/

theorem fail (h : O.Kept s) (fault : Fault) :
    O.Answers n s (Action.fail fault) fun O' _ v => O'.Admits v := by
  refine imp (object h (d := .error fault) rfl) (Nat.le_refl n) ?_
  rintro O' s' v ⟨rfl, rfl, rfl⟩
  trivial

theorem number (h : O.Kept s) (m : Option Int) :
    O.Answers n s (Action.number m) fun O' _ v => O'.Admits v := by
  cases m with
  | none => exact fail h _
  | some m => exact pure h trivial

theorem total (h : O.Kept s) (operation : List Value → Option Int) (args : Value) :
    O.Answers n s (Action.total operation args) fun O' _ v => O'.Admits v := by
  refine ask fun found _ => ?_
  cases found with
  | true => exact fail h _
  | false => exact ask fun values _ => number h _

theorem applyTo (h : O.Kept s) (p : Primitive) (args : Value) :
    O.Answers n s (p.applyTo args) fun O' _ v => O'.Admits v := by
  refine look (look (look ?_))
  cases p with
  | car => exact look_last h (h.car _)
  | cdr => exact look_last h (h.cdr _)
  | cons =>
    refine imp (cons h (h.car _) (h.car _)) (Nat.le_refl n) ?_
    rintro O' s' v ⟨rfl, rfl, rfl⟩
    trivial
  | eq | numberp | symbolp => exact pure h (admits_ofBool O _)
  | atom => exact look (pure h (admits_ofBool O _))
  | add | mul => exact total h ..
  | sub | div | mod => exact ask fun m _ => number h m

/-! ## Programs of the evaluator -/

theorem noteValue (h : O.Kept s) (depth : Nat) (event : String → Event) (v : Value) :
    O.Answers n s (ConsLisp.noteValue depth event v) fun O' s' _ => O' = O ∧ s' = s := by
  refine keeps _ fun kept => ?_
  cases kept with
  | true => exact ask fun text _ => note h _
  | false => exact pure h ⟨rfl, rfl⟩

theorem closeOver (h : O.Kept s) (lambdaList : Value) (henv : O.Lists .scope env) :
    O.Answers n s (ConsLisp.closeOver lambdaList env) fun O' _ v => O' = O ∧ O.Admits v := by
  refine look (look ?_)
  refine imp (object h (d := .closure _ _ env) rfl) (Nat.le_refl n) ?_
  rintro O' s' v ⟨rfl, rfl, rfl⟩
  exact ⟨rfl, h.car lambdaList, h.cdr lambdaList, henv⟩

variable {valueOf : Value → Action Value}

theorem inSequence (hvalue : ∀ form, Safe env (valueOf form)) (h : O.Kept s)
    (henv : O.Lists .scope env) (hn : n ≤ s.size) {before : Value} (hbefore : O.Admits before)
    (fuel : Nat) (forms : Value) :
    O.Answers n s (ConsLisp.inSequence valueOf fuel before forms) fun O' _ v => O'.Admits v := by
  induction fuel generalizing O s before forms with
  | zero =>
    unfold ConsLisp.inSequence
    refine look ?_
    cases s.cell? forms with
    | none => exact pure h hbefore
    | some c => exact throw _
  | succ fuel ih =>
    unfold ConsLisp.inSequence
    refine look ?_
    cases s.cell? forms with
    | none => exact pure h hbefore
    | some c =>
      refine bind hn (hvalue c.car O _ s h henv (Nat.le_refl _))
        fun O₁ s₁ v hgrows hkept hv => look ?_
      exact ih hkept (henv.mono hgrows.le) (Nat.le_trans hn hgrows.size) hv _

theorem collect (hvalue : ∀ form, Safe env (valueOf form)) (h : O.Kept s)
    (henv : O.Lists .scope env) (hn : n ≤ s.size) (hdraft : O.Draft n s done places elements)
    (fuel : Nat) (forms : Value) :
    O.Answers n s (ConsLisp.collect valueOf fuel done forms) fun O' _ v => O'.Admits v := by
  have hreverse {O : Outline} {s : Store} {done : Value} {places : List Nat}
      {elements : List Value} (h : O.Kept s)
      (hdraft : O.Draft n s done places elements) :
      O.Answers n s (Action.reverse done) fun O' _ v => O'.Admits v := by
    refine imp (reverse h hdraft) (Nat.le_refl n) ?_
    rintro O' s' v ⟨rfl, hturned⟩
    exact hturned.admits
  induction fuel generalizing O s done places elements forms with
  | zero =>
    unfold ConsLisp.collect
    refine look ?_
    cases s.cell? forms with
    | none => exact hreverse h hdraft
    | some c => exact throw _
  | succ fuel ih =>
    unfold ConsLisp.collect
    refine look ?_
    cases s.cell? forms with
    | none => exact hreverse h hdraft
    | some c =>
      refine bind hn (hvalue c.car O _ s h henv (Nat.le_refl _)) fun O₁ s₁ v hgrows₁ hkept₁ hv => ?_
      have hn₁ := Nat.le_trans hn hgrows₁.size
      split
      · exact pure hkept₁ hv
      · have hdraft₁ := hdraft.grows hgrows₁
        apply bind hn₁ (cons hkept₁ hv hdraft₁.admits)
        rintro O₂ s₂ _ hgrows₂ hkept₂ ⟨rfl, rfl, rfl⟩
        exact look (ih hkept₂ (henv.mono hgrows₁.le) (Nat.le_trans hn₁ hgrows₂.size)
          (hdraft₁.cons hkept₁ hn₁ v) _)

/-! ## The evaluator -/

/-- With this many nested calls left, each function of the evaluator keeps to any outline. -/
structure Evaluation (depth : Nat) : Prop where
  evaluate (form env : Value) : Safe env (ConsLisp.evaluate depth form env)
  evaluateAll (forms env : Value) : Safe env (ConsLisp.evaluateAll depth forms env)
  special (special : Special) (args env : Value) : Safe env (evaluateSpecial depth special args env)
  apply (fn args : Value) (O : Outline) (n : Nat) (s : Store) (h : O.Kept s)
    (hfn : O.Admits fn) (hn : n ≤ s.size) :
    O.Answers n s (ConsLisp.apply depth fn args) fun O' _ v => O'.Admits v
  enter (params body env args : Value) : Safe env (ConsLisp.enter depth params body env args)
  body (forms env : Value) : Safe env (evaluateBody depth forms env)

variable {depth : Nat}

theorem evaluate_succ (ih : Evaluation depth) (form env : Value) :
    Safe env (ConsLisp.evaluate (depth + 1) form env) := by
  intro O n s h henv hn
  unfold ConsLisp.evaluate
  rw [Action.nested_eq]
  split
  · exact pure h trivial
  · exact pure h trivial
  · exact pure h trivial
  · exact pure h trivial
  · next name =>
    refine ask fun found hfound => ?_
    cases found with
    | none => exact fail h _
    | some value => exact pure h (h.value hfound)
  · next place =>
    refine look (look ?_)
    split
    · next special _ => exact ih.special special _ env O n s h henv hn
    · refine bind hn (ih.evaluate _ env O _ s h henv (Nat.le_refl _))
        fun O₁ s₁ fn hgrows₁ hkept₁ hfn => ?_
      have hn₁ := Nat.le_trans hn hgrows₁.size
      refine bind hn₁ (ih.evaluateAll _ env O₁ _ s₁ hkept₁ (henv.mono hgrows₁.le) (Nat.le_refl _))
        fun O₂ s₂ values hgrows₂ hkept₂ _ => ?_
      exact ih.apply fn values O₂ n s₂ hkept₂ (hfn.mono hgrows₂.le) (Nat.le_trans hn₁ hgrows₂.size)
  · exact ask fun text _ => fail h _

theorem evaluateAll_succ (ih : Evaluation depth) (forms env : Value) :
    Safe env (ConsLisp.evaluateAll (depth + 1) forms env) := by
  intro O n s h henv hn
  unfold ConsLisp.evaluateAll
  rw [Action.nested_eq]
  exact look (collect (ih.evaluate · env) h henv hn (.nil O n s) _ forms)

theorem special_succ (ih : Evaluation depth) (special : Special) (args env : Value) :
    Safe env (evaluateSpecial (depth + 1) special args env) := by
  intro O n s h henv hn
  unfold evaluateSpecial
  rw [Action.nested_eq]
  cases special with
  | quote => exact look_last h (h.car args)
  | choice =>
    refine look (bind hn (ih.evaluate _ env O _ s h henv (Nat.le_refl _)) ?_)
    intro O₁ s₁ condition hgrows₁ hkept₁ _
    have henv₁ := henv.mono hgrows₁.le
    have hn₁ := Nat.le_trans hn hgrows₁.size
    refine look ?_
    split
    · exact look (look (ih.evaluate _ env O₁ n s₁ hkept₁ henv₁ hn₁))
    · exact look (ih.evaluate _ env O₁ n s₁ hkept₁ henv₁ hn₁)
  | lambda =>
    apply bind hn (closeOver h args henv)
    rintro O₁ s₁ closure hgrows₁ hkept₁ ⟨rfl, hclosure⟩
    apply look
    apply bind (Nat.le_trans hn hgrows₁.size) (noteValue hkept₁ ..)
    rintro O₂ s₂ - - hkept₂ ⟨rfl, rfl⟩
    exact pure hkept₂ hclosure
  | define =>
    refine look (look ?_)
    apply bind hn (closeOver h _ henv)
    rintro O₁ s₁ closure hgrows₁ hkept₁ ⟨rfl, hclosure⟩
    have hn₁ := Nat.le_trans hn hgrows₁.size
    refine bind hn₁ (defineGlobal hkept₁ (Nat.le_refl _) (h.car args) hclosure henv) ?_
    intro O₂ s₂ _ hgrows₂ hkept₂ _
    apply bind (Nat.le_trans hn₁ hgrows₂.size) (noteValue hkept₂ ..)
    rintro O₃ s₃ - - hkept₃ ⟨rfl, rfl⟩
    exact pure hkept₃ ((h.car args).mono hgrows₂.le)
  | assign =>
    refine look (look (bind hn (ih.evaluate _ env O _ s h henv (Nat.le_refl _)) ?_))
    intro O₁ s₁ value hgrows₁ hkept₁ hvalue
    have henv₁ := henv.mono hgrows₁.le
    have hn₁ := Nat.le_trans hn hgrows₁.size
    refine look (bind hn₁ (assign hkept₁ hvalue henv₁) ?_)
    intro O₂ s₂ found hgrows₂ hkept₂ _
    have hvalue₂ := hvalue.mono hgrows₂.le
    have hn₂ := Nat.le_trans hn₁ hgrows₂.size
    cases found with
    | true => exact pure hkept₂ hvalue₂
    | false =>
      apply bind hn₂ (noteValue hkept₂ ..)
      rintro O₃ s₃ - - hkept₃ ⟨rfl, rfl⟩
      have hname := (hkept₁.car args).mono hgrows₂.le
      refine bind hn₂ (defineGlobal hkept₃ (Nat.le_refl _) hname hvalue₂
        (henv₁.mono hgrows₂.le)) ?_
      exact fun O₄ s₄ _ hgrows₄ hkept₄ _ => pure hkept₄ (hvalue₂.mono hgrows₄.le)

theorem apply_succ (ih : Evaluation depth) (fn args : Value) (O : Outline) (n : Nat) (s : Store)
    (h : O.Kept s) (hfn : O.Admits fn) (hn : n ≤ s.size) :
    O.Answers n s (ConsLisp.apply (depth + 1) fn args) fun O' _ v => O'.Admits v := by
  unfold ConsLisp.apply
  rw [Action.nested_eq]
  split
  · exact pure h hfn
  · split
    · next herror => exact pure h (admits_error herror)
    · split
      · exact applyTo h ..
      · exact ih.enter _ _ _ args O n s h hfn.2.2 hn
      · exact ask fun text _ => fail h _

theorem enter_succ (ih : Evaluation depth) (params body env args : Value) :
    Safe env (ConsLisp.enter (depth + 1) params body env args) := by
  intro O n s h henv hn
  unfold ConsLisp.enter
  rw [Action.nested_eq]
  refine bind hn (zip h (Nat.le_refl _) params args) fun O₁ s₁ frame hgrows₁ hkept₁ hframe => ?_
  have hn₁ := Nat.le_trans hn hgrows₁.size
  have henv₁ := henv.mono hgrows₁.le
  apply bind hn₁ (consAs hkept₁ .scope ⟨hframe, henv₁⟩ hframe.admits henv₁.admits)
  rintro O₂ s₂ _ hgrows₂ hkept₂ ⟨rfl, rfl, rfl⟩
  exact ih.body body _ _ n _ hkept₂ (.inr ⟨_, rfl, part_set_self ..⟩)
    (Nat.le_trans hn₁ hgrows₂.size)

theorem body_succ (ih : Evaluation depth) (forms env : Value) :
    Safe env (evaluateBody (depth + 1) forms env) := by
  intro O n s h henv hn
  unfold evaluateBody
  rw [Action.nested_eq]
  have hnil : O.Admits .nil := trivial
  exact look (inSequence (ih.evaluate · env) h henv hn hnil _ forms)

/-- At every depth the evaluator keeps to any outline. -/
theorem evaluation (depth : Nat) : Evaluation depth := by
  induction depth with
  | zero =>
    exact ⟨fun _ _ _ _ _ _ _ _ => throw _, fun _ _ _ _ _ _ _ _ => throw _,
      fun _ _ _ _ _ _ _ _ _ => throw _, fun _ _ _ _ _ _ _ _ => throw _,
      fun _ _ _ _ _ _ _ _ _ _ => throw _, fun _ _ _ _ _ _ _ _ => throw _⟩
  | succ depth ih =>
    exact ⟨evaluate_succ ih, evaluateAll_succ ih, special_succ ih, apply_succ ih, enter_succ ih,
      body_succ ih⟩

end Answers

/-- The forms of a list are evaluated in order, if its pairs are none of environments.  So is every
list that a program can get hold of. -/
theorem Kept.collects (h : O.Kept s) {valueOf : Value → Action Value}
    (hvalue : ∀ form, Safe env (valueOf form)) (henv : O.Lists .scope env) {front : List Nat}
    {values : List Value} (hdraft : O.Draft 0 s done front values) {first : Store}
    {forms tail : Value} (hforms : first.Links forms places elements tail)
    (hsame : ∀ place ∈ places, O.part place = none ∧
      s.cell? (.pair place) = first.cell? (.pair place))
    (htail : ∀ s : Store, s.cell? tail = none) {fuel : Nat} (hfuel : elements.length ≤ fuel)
    (log : Log) :
    Action.Collects valueOf done front values ⟨s, log⟩ elements
      ((collect valueOf fuel done forms : Action Value) ⟨s, log⟩) := by
  -- By induction on the forms.  No evaluation changes the pairs of the forms or of the draft.
  induction hforms generalizing O s log done front values fuel with
  | done =>
    rw [Action.collect_done (htail s)]
    exact .values .nil (by simp) (by simpa using hdraft.links)
  | @next place a d tail places elements hcell hrest ih =>
    cases fuel with
    | zero => simp at hfuel
    | succ fuel =>
      obtain ⟨hfree, hplace⟩ := hsame place List.mem_cons_self
      have hcell' := hplace.trans hcell
      rw [Action.collect_next hcell']
      cases hrun : valueOf a ⟨s, log⟩ with
      | error abort after => exact .aborts (List.nil_append _).symm .nil hrun
      | ok value between =>
        obtain ⟨O₁, hgrows₁, hkept₁, hadmits⟩ :=
          (hvalue a O s.size s h henv (Nat.le_refl _)).run log value between hrun
        dsimp only
        cases herror : value.isError with
        | true => exact .error (List.nil_append _).symm .nil hrun herror
        | false =>
          have hdraft₁ := hdraft.grows hgrows₁
          have hkeeps : Store.KeepsExcept [] between.store (between.store.cons value done).2 :=
            .cons ..
          -- The pairs of the forms are older than all that is made meanwhile.
          have hsame₁ : ∀ other ∈ place :: places, O₁.part other = none ∧
              (between.store.cons value done).2.cell? (.pair other) =
                first.cell? (.pair other) := by
            intro other hmem
            obtain ⟨hfree, heq⟩ := hsame other hmem
            obtain ⟨_, hpair, -⟩ := (Store.Links.next hcell hrest).cell_of_mem hmem
            have hlt := Store.lt_size_of_cell? (heq.trans hpair)
            obtain ⟨hfree₁, heq₁⟩ := hgrows₁.old hlt hlt hfree
            refine ⟨hfree₁, ?_⟩
            rw [hkeeps.cell (Nat.lt_of_lt_of_le hlt hgrows₁.size) (by simp), heq₁, heq]
          have hcdr : (between.store.cons value done).2.cdr (.pair place) = d :=
            Store.cdr_of_cell? ((hsame₁ place List.mem_cons_self).2.trans hcell)
          rw [if_neg Bool.false_ne_true, hcdr]
          apply Action.Collects.next hrun herror hgrows₁.size
          exact ih (hkept₁.cons hadmits hdraft₁.admits) (henv.mono hgrows₁.le)
            (hdraft₁.cons hkept₁ (Nat.zero_le _) value)
            (fun other hmem => hsame₁ other (List.mem_cons_of_mem _ hmem)) htail
            (Nat.le_of_succ_le_succ hfuel) between.log

end ConsLisp.Outline
