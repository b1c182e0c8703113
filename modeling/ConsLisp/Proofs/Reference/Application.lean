import ConsLisp.Proofs.Reference.Matches
import ConsLisp.Proofs.Store.Visible
import Mathlib.Data.List.Nodup

/-!
# Lists, variables and primitives match

Reversing a complete list in place is where the other side makes the list, and reversing a complete
frame is where it makes the variables.  An assignment overwrites the value of the same variable, a
definition puts a new one in front of the global frame, and the primitives compute the same.

Main statements: `Matches.reverse`, `Matches.zip`, `Matches.assign`, `Matches.defineGlobal`,
`Matches.applyTo`.
-/

namespace ConsLisp.Bridge

open ConsLisp.Action

variable {places cells : List Nat} {B : Bridge} {state : State} {r : Reference.State}
  {v w : Value} {i j : Datum}

namespace Matches

/-! ## Lists and frames -/

/-- A complete list in place is reversed, and the list is made in the order of its elements. -/
theorem reverse (h : B.Agrees state r) {done : Value} {elements : List Value}
    {items : List Datum} (hdraft : B.Draft state.store done places elements)
    (hitems : List.Forall₂ B.Same elements items) :
    Matches places B (Action.reverse done) (Reference.listOf items.reverse) Same state r := by
  obtain ⟨v, s', hrun, hlinks, hkeeps, hserial⟩ := reverse_of_links hdraft.links
  have hagrees : B.Agrees ⟨s', state.log⟩ r := h.keep hkeeps hdraft.unused hserial
  have hdraft' : B.Draft s' v places.reverse elements.reverse :=
    ⟨hlinks, fun place hmem => hdraft.unused place (List.mem_reverse.mp hmem)⟩
  obtain ⟨x, r', B', hrun', hevolves, hagrees', hx⟩ :=
    hagrees.listOf hdraft' (List.rel_reverse hitems)
  refine answer hrun hrun' ?_ hagrees' hx
  exact (Evolves.of_keeps hkeeps hserial B).trans hevolves fun _ _ hmem _ =>
    List.mem_reverse.mp hmem

/-- A complete frame in place is reversed, and its variables are made in the order of its
bindings. -/
theorem reverse_frame (h : B.Agrees state r) {done : Value} {pairs : List (Datum × Datum)}
    (hframe : B.FrameDraft state.store done places cells pairs) :
    Matches (places ++ cells) B (Action.reverse done) (Reference.bindEach pairs.reverse) Frame
      state r := by
  obtain ⟨v, s', hrun, hlinks, hkeeps, hserial⟩ := reverse_of_links hframe.draft.links
  have hagrees : B.Agrees ⟨s', state.log⟩ r := h.keep hkeeps hframe.draft.unused hserial
  obtain ⟨hnodup, hnodup', hdisjoint⟩ := List.nodup_append.mp hframe.nodup
  -- Only the pairs of the list are turned around; the bindings stay as they are.
  have hholds : List.Forall₂ (B.Holds s') cells pairs := by
    have hmem := (List.forall₂_and_left cells pairs).mpr ⟨fun _ hmem => hmem, hframe.holds⟩
    refine hmem.imp fun place pair ⟨hplace, c, hcell, hsame⟩ => ⟨c, ?_, hsame⟩
    have hother : place ∉ places := fun hmem => hdisjoint place hmem place hplace rfl
    rw [hkeeps.cell (Store.lt_size_of_cell? hcell) hother, hcell]
  have hframe' : B.FrameDraft s' v places.reverse cells.reverse pairs.reverse := by
    refine ⟨⟨?_, fun place hmem => ?_⟩, fun place hmem => ?_, ?_, List.rel_reverse hholds⟩
    · rwa [List.map_reverse]
    · exact hframe.draft.unused place (List.mem_reverse.mp hmem)
    · exact hframe.unused place (List.mem_reverse.mp hmem)
    · rw [← List.reverse_append, List.nodup_reverse, List.nodup_append_comm]
      exact hframe.nodup
  obtain ⟨numbers, r', B', hrun', hevolves, hagrees', hnumbers⟩ := hagrees.bindEach hframe'
  refine answer hrun hrun' ?_ hagrees' hnumbers
  refine (Evolves.of_keeps hkeeps hserial B).weaken (fun _ _ hmem _ => List.mem_append_left _ hmem)
    |>.trans hevolves fun place _ hmem _ => ?_
  simpa using hmem

/-- Names and values are paired up, and the variables are made. -/
theorem zipOnto (h : B.Agrees state r) {keys values done : Value} {fuel : Nat}
    (hkeys : B.Same keys i) (hvalues : B.Same values j) (hfuel : i.chain.1.length ≤ fuel)
    {pairs all : List (Datum × Datum)}
    (hframe : B.FrameDraft state.store done places cells pairs)
    (hall : all = pairs.reverse ++ i.chain.1.zip j.chain.1) :
    Matches (places ++ cells) B (Action.zipOnto fuel done keys values) (Reference.bindEach all)
      Frame state r := by
  induction i generalizing j keys values done fuel pairs places cells state with
  | pair n x y _ ih =>
    cases hkeys with
    | pair huse hcar hcdr =>
      unfold Action.zipOnto
      refine look (look ?_)
      rw [h.cell_data huse]
      cases hvalues with
      | pair huse' hcar' hcdr' =>
        rw [h.cell_data huse']
        cases fuel with
        | zero => simp [Datum.chain] at hfuel
        | succ fuel =>
          -- The binding lies behind all cells, and the pair of the list behind the binding.
          let size := state.store.size
          refine scratch ((size + 1) :: places ++ size :: cells) h (fun h₁ => ?_) ?_
          · refine scratch _ h₁ (fun h₂ => ?_) fun _ _ hmem _ => hmem
            have hrest := ih h₂ hcdr hcdr' (Nat.le_of_succ_le_succ hfuel)
              (hframe.push h hcar hcar') (by simp [hall, Datum.chain])
            rwa [Store.size_cons]
          · intro place hlt hmem _
            have hne : place ≠ size := Nat.ne_of_lt hlt
            have hne' : place ≠ size + 1 := Nat.ne_of_lt (Nat.lt_succ_of_lt hlt)
            simpa [hne, hne'] using hmem
      | _ =>
        obtain rfl : all = pairs.reverse := by simpa [Datum.chain] using hall
        exact reverse_frame h hframe
  | _ =>
    obtain rfl : all = pairs.reverse := by simpa [Datum.chain] using hall
    cases hkeys with
    | _ =>
      unfold Action.zipOnto
      exact reverse_frame h hframe

/-- The frame of a call is made on both sides. -/
theorem zip (h : B.Agrees state r) (hparams : B.Same v i) (hargs : B.Same w j) :
    Matches [] B (Action.zip v w) (Reference.bindEach (i.chain.1.zip j.chain.1)) Frame
      state r := by
  unfold Action.zip
  apply look
  exact zipOnto h hparams hargs (hparams.depicts h).length_chain_le (.nil B state.store) rfl

/-- A frame comes in front of an environment. -/
theorem extend (h : B.Agrees state r) {frame env : Value} {numbers : List Nat}
    {frames : List (List Nat)} (hframe : B.Frame frame numbers) (henv : B.Scope env frames)
    {f : Value → Action Value} {d : Reference.Step Datum}
    (hnext : ∀ {B' state' v}, B ≤ B' → B'.Agrees state' r → B'.Scope v (numbers :: frames) →
      Matches [] B' (f v) d Same state' r) :
    Matches [] B (Action.cons frame env >>= f) d Same state r := by
  obtain ⟨s, log⟩ := state
  have hunused : B.use s.size = none := h.use_size (Nat.le_refl _)
  have hkeeps := Store.KeepsExcept.cons s frame env
  have hle := le_adopt hunused (.spine frame env)
  have hagrees := (h.keep hkeeps (by simp) rfl).adopt_spine hunused
    (s.cell?_cons_self frame env) (u := .spine frame env) rfl rfl
  have henv' : (B.adopt s.size (.spine frame env)).Scope (.pair s.size) (numbers :: frames) :=
    .inner (use_adopt_self ..) (hframe.mono hle) (henv.mono hle)
  have hevolves : Evolves [] B (B.adopt s.size (.spine frame env)) s (s.cons frame env).2 :=
    (Evolves.of_keeps hkeeps rfl B).adopt hunused _ fun hlt _ => absurd hlt (Nat.lt_irrefl _)
  exact left rfl hevolves (hnext hle hagrees henv') fun _ _ hmem _ => hmem

/-! ## Variables -/

/-- The first variable of a name that is not hidden gets a new value on both sides, if there is
one. -/
theorem assign (h : B.Agrees state r) {env : Value} {frames : List (List Nat)}
    (hname : B.Same v i) (hasked : i.Avoids B.hidden) (hvalue : B.Same w j)
    (henv : B.Scope env frames) :
    Matches [] B (Action.assign v w env) (Reference.assign i j frames) (fun _ x y => x = y)
      state r := by
  obtain ⟨found, hfound, hrel⟩ := h.binding?_eq henv hname hasked
  unfold Action.assign Reference.assign
  refine ask hfound (get ?_)
  generalize r.find i frames = number at hrel ⊢
  cases hrel with
  | none => exact pure h rfl
  | @some binding n hv =>
    obtain ⟨place, name, rfl, huse⟩ := hv
    obtain ⟨s, log⟩ := state
    refine answer rfl rfl ?_ (h.setCdr_binding huse hvalue) rfl
    -- The cell that is overwritten has a use, so nothing without a use changes.
    refine (Evolves.of_keeps (.setCdr s place w) (s.serial_setCdr ..) B).weaken
      fun other _ hmem hother => ?_
    rw [List.mem_singleton.mp hmem, huse] at hother
    exact absurd hother (by simp)

/-- A new variable comes in front of the global frame on both sides. -/
theorem defineGlobal (h : B.Agrees state r) {env : Value} {frames : List (List Nat)}
    (hname : B.Same v i) (hvalue : B.Same w j) (henv : B.Scope env frames) :
    Matches [] B (Action.defineGlobal v w env) (Reference.defineGlobal i j) (fun _ _ _ => True)
      state r := by
  obtain ⟨s, log⟩ := state
  obtain ⟨B', hevolves, hagrees⟩ := h.define hname hvalue
  exact answer (Action.defineGlobal_eq (henv.globalOf_eq h)) rfl hevolves hagrees trivial

/-! ## Primitives -/

theorem number (h : B.Agrees state r) (result : Option Int) :
    Matches [] B (Action.number result) (Reference.number result) Same state r := by
  cases result with
  | some n => exact pure h (.num n)
  | none => exact fail h .wrongType

theorem mapM_num?_eq {s : Store} {elements : List Value} {items : List Datum}
    (h : List.Forall₂ s.Depicts elements items) :
    elements.mapM Value.num? = items.mapM Datum.num? := by
  induction h with
  | nil => rfl
  | cons hfirst _ ih =>
    have hnum : ∀ {v x}, s.Depicts v x → v.num? = x.num? := fun hv => by cases hv <;> rfl
    rw [List.mapM_cons, List.mapM_cons, hnum hfirst, ih]

theorem mapM_num?_of_any {elements : List Value}
    (h : elements.any (·.num?.isNone) = true) : elements.mapM Value.num? = none := by
  induction elements with
  | nil => simp at h
  | cons a elements ih =>
    rw [List.mapM_cons]
    cases hnum : a.num? with
    | none => rfl
    | some n =>
      rw [List.any_cons, hnum] at h
      rw [ih (by simpa using h)]
      rfl

/-- An operation on all arguments gives the same on both sides. -/
theorem total (h : B.Agrees state r) {args : Value} (hargs : B.Same args i)
    (combine : List Int → Int) :
    Matches [] B (Action.total (fun values => (values.mapM Value.num?).map combine) args)
      (Reference.number ((i.chain.1.mapM Datum.num?).map combine)) Same state r := by
  obtain ⟨places, elements, tail, hlinks, helements, -⟩ := (hargs.depicts h).links
  unfold Action.total
  rw [← mapM_num?_eq helements]
  refine ask (hlinks.hasElement_eq _) ?_
  split
  · next hany =>
    rw [mapM_num?_of_any hany]
    exact fail h .wrongType
  · exact ask hlinks.elements_eq (number h _)

/-- An operation on two numbers gives the same on both sides, whatever objects they are. -/
theorem ofNumbers (h : B.Agrees state r) (op : Arithmetic.Operation) (m n : Int)
    (serial serial' other other' : Option Nat) :
    Matches [] B (do Action.number (← Action.ask fun _ =>
        op.onValues (.num m serial) (.num n serial')))
      (Reference.ofTwo op (.num m other) (.num n other')) Same state r := by
  cases hresult : op.result m n with
  | ok k =>
    refine ask (x := some k) ?_ ?_
    · simp [Arithmetic.Operation.onValues, hresult, Except.map]
    · simp only [Reference.ofTwo, hresult]
      exact number h (some k)
  | error reason =>
    -- A division by zero aborts on both sides.
    have hrun : (do Action.number (← Action.ask fun _ =>
        op.onValues (.num m serial) (.num n serial')) : Action Value) state =
        .error reason state := by
      simp only [Action.ask, Bind.bind, EStateM.bind, Machine.look,
        Arithmetic.Operation.onValues, hresult, Except.map]
      rfl
    have hrun' : Reference.ofTwo op (.num m other) (.num n other') r = .error reason r := by
      simp only [Reference.ofTwo, hresult]
      rfl
    exact abort hrun hrun' (.refl [] B state.store) h

theorem ofTwo (h : B.Agrees state r) (op : Arithmetic.Operation) (hx : B.Same v i)
    (hy : B.Same w j) :
    Matches [] B (do Action.number (← Action.ask fun _ => op.onValues v w))
      (Reference.ofTwo op i j) Same state r := by
  cases hx with
  | num | number =>
    cases hy with
    | num | number => exact ofNumbers h op ..
    | _ => exact ask rfl (number h none)
  | _ => exact ask rfl (number h none)

/-- A primitive computes the same on both sides. -/
theorem applyTo (h : B.Agrees state r) (p : Primitive) {args : Value} (hargs : B.Same args i) :
    Matches [] B (p.applyTo args) (Reference.applyPrimitive p i) Same state r := by
  have hx := hargs.car h
  have hy := (hargs.cdr h).car h
  unfold Primitive.applyTo Reference.applyPrimitive
  refine look (look (look ?_))
  cases p with
  | car => exact answer rfl rfl (.refl [] B state.store) h (hx.car h)
  | cdr => exact answer rfl rfl (.refl [] B state.store) h (hx.cdr h)
  | cons => exact cons h hx hy
  | eq =>
    rw [hx.isEq_eq h hy]
    exact pure h (.ofBool B _)
  | atom =>
    apply look
    rw [hx.isPair_eq h]
    exact pure h (.ofBool B _)
  | numberp =>
    rw [hx.num?_eq]
    exact pure h (.ofBool B _)
  | symbolp =>
    generalize state.store.car args = v at hx
    generalize i.car = x at hx
    cases hx <;> exact pure h (.ofBool B _)
  | add => exact total h hargs _
  | mul => exact total h hargs _
  | sub => exact ofTwo h .difference hx hy
  | div => exact ofTwo h .quotient hx hy
  | mod => exact ofTwo h .remainder hx hy

end Matches

end ConsLisp.Bridge
