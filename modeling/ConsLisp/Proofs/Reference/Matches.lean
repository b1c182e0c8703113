import ConsLisp.Proofs.Reference.Growth
import ConsLisp.Proofs.Reference.Printing

/-!
# Programs that match

A program on cells matches one on values that never change if they answer alike or abort alike,
and in states that agree again under a larger bridge.  Programs are matched piece by piece: steps
that both sides take, and steps on cells alone, which change nothing but pairs without a use.

Main statement: programs that match run one after the other (`Matches.bind`).
-/

namespace ConsLisp.Bridge

open ConsLisp.Action

variable {α β γ δ : Type} {places places' : List Nat} {B B' : Bridge} {state state' : State}
  {r r' : Reference.State}

/-- Both programs answer, and the answers are related, or both abort for the same reason; and the
states agree again.  On the way, cells without a use may change at these places only. -/
def Matches (places : List Nat) (B : Bridge) (a : Action α) (b : Reference.Step β)
    (Q : Bridge → α → β → Prop) (state : State) (r : Reference.State) : Prop :=
  match a state, b r with
  | .ok x state', .ok y r' =>
    ∃ B', Evolves places B B' state.store state'.store ∧ B'.Agrees state' r' ∧ Q B' x y
  | .error abort state', .error abort' r' =>
    abort = abort' ∧ ∃ B', Evolves places B B' state.store state'.store ∧ B'.Agrees state' r'
  | _, _ => False

namespace Matches

variable {a : Action α} {b : Reference.Step β} {Q : Bridge → α → β → Prop} {x : α} {y : β}

theorem answer (hrun : a state = .ok x state') (hrun' : b r = .ok y r')
    (hevolves : Evolves places B B' state.store state'.store) (h : B'.Agrees state' r')
    (hq : Q B' x y) : Matches places B a b Q state r := by
  unfold Matches
  rw [hrun, hrun']
  exact ⟨B', hevolves, h, hq⟩

theorem pure (h : B.Agrees state r) (hq : Q B x y) :
    Matches places B (pure x) (pure y) Q state r :=
  answer rfl rfl (.refl places B state.store) h hq

theorem abort {reason : Abort} (hrun : a state = .error reason state')
    (hrun' : b r = .error reason r') (hevolves : Evolves places B B' state.store state'.store)
    (h : B'.Agrees state' r') : Matches places B a b Q state r := by
  unfold Matches
  rw [hrun, hrun']
  exact ⟨rfl, B', hevolves, h⟩

theorem throw (h : B.Agrees state r) (reason : Abort) :
    Matches places B (throw reason) (throw reason) Q state r :=
  abort rfl rfl (.refl places B state.store) h

/-- What is left to run matches, after a stretch in which the bridge has grown. -/
theorem of_run {a' : Action α} {b' : Reference.Step β} (hrun : a state = a' state')
    (hrun' : b r = b' r') (hevolves : Evolves places B B' state.store state'.store)
    (h : Matches places' B' a' b' Q state' r')
    (hplaces : ∀ place < state.store.size, place ∈ places' → B.use place = none →
      place ∈ places) : Matches places B a b Q state r := by
  unfold Matches at h ⊢
  rw [hrun, hrun']
  cases hlast : a' state' with
  | ok x state'' =>
    cases hlast' : b' r' with
    | ok y r'' =>
      simp only [hlast, hlast'] at h ⊢
      obtain ⟨B'', hevolves', hagrees, hxy⟩ := h
      exact ⟨B'', hevolves.trans hevolves' hplaces, hagrees, hxy⟩
    | error abort r'' => simp [hlast, hlast'] at h
  | error abort state'' =>
    cases hlast' : b' r' with
    | ok y r'' => simp [hlast, hlast'] at h
    | error abort' r'' =>
      simp only [hlast, hlast'] at h ⊢
      obtain ⟨heq, B'', hevolves', hagrees⟩ := h
      exact ⟨heq, B'', hevolves.trans hevolves' hplaces, hagrees⟩

variable {f : α → Action γ} {g : β → Reference.Step δ} {d : Reference.Step δ}
  {P : Bridge → α → β → Prop} {R : Bridge → γ → δ → Prop}

/-- One program after another, on both sides.  The first leaves all pairs without a use alone. -/
theorem bind (h : Matches [] B a b P state r)
    (hnext : ∀ {B' state' r'} x y, Evolves [] B B' state.store state'.store →
      B'.Agrees state' r' → P B' x y → Matches places B' (f x) (g y) R state' r') :
    Matches places B (a >>= f) (b >>= g) R state r := by
  unfold Matches at h
  cases hrun : a state with
  | error reason state' =>
    cases hrun' : b r with
    | ok y r' => simp [hrun, hrun'] at h
    | error reason' r' =>
      unfold Matches
      simp only [Bind.bind, EStateM.bind, hrun, hrun'] at h ⊢
      obtain ⟨heq, B', hevolves, hagrees⟩ := h
      exact ⟨heq, B', hevolves.weaken (by simp), hagrees⟩
  | ok x state' =>
    cases hrun' : b r with
    | error reason r' => simp [hrun, hrun'] at h
    | ok y r' =>
      simp only [hrun, hrun'] at h
      obtain ⟨B', hevolves, hagrees, hxy⟩ := h
      -- The first program has left all pairs without a use, so the second may change its own.
      have hweak : Evolves places B B' state.store state'.store := hevolves.weaken (by simp)
      refine of_run ?_ ?_ hweak (hnext x y hevolves hagrees hxy) fun _ _ hmem _ => hmem
      · simp only [Bind.bind, EStateM.bind, hrun]
      · simp only [Bind.bind, EStateM.bind, hrun']

/-- With the answers it is known that the other program has given its own. -/
theorem answered (h : Matches places B a b Q state r) :
    Matches places B a b (fun B' x y => Q B' x y ∧ ∃ r', b r = .ok y r') state r := by
  unfold Matches at h ⊢
  cases hrun : a state with
  | error reason state' =>
    cases hrun' : b r with
    | ok y r' => simp [hrun, hrun'] at h
    | error reason' r' => simpa only [hrun, hrun'] using h
  | ok x state' =>
    cases hrun' : b r with
    | error reason r' => simp [hrun, hrun'] at h
    | ok y r' =>
      simp only [hrun, hrun'] at h
      obtain ⟨B', hevolves, hagrees, hxy⟩ := h
      exact ⟨B', hevolves, hagrees, hxy, r', rfl⟩

/-- The answers are put into something else. -/
theorem map (h : Matches places B a b P state r) {f : α → γ} {g : β → δ}
    (hanswer : ∀ {B'} x y, P B' x y → R B' (f x) (g y)) :
    Matches places B (do return f (← a)) (do return g (← b)) R state r := by
  unfold Matches at h ⊢
  simp only [Bind.bind, EStateM.bind]
  cases hrun : a state with
  | error reason state' =>
    cases hrun' : b r with
    | ok y r' => simp [hrun, hrun'] at h
    | error reason' r' => simpa [hrun, hrun'] using h
  | ok x state' =>
    cases hrun' : b r with
    | error reason r' => simp [hrun, hrun'] at h
    | ok y r' =>
      simp only [hrun, hrun'] at h
      obtain ⟨B', hevolves, hagrees, hxy⟩ := h
      exact ⟨B', hevolves, hagrees, hanswer x y hxy⟩

/-- The next step is taken on cells alone. -/
theorem left (hrun : a state = .ok x state')
    (hevolves : Evolves places B B' state.store state'.store)
    (hnext : Matches places' B' (f x) d R state' r)
    (hplaces : ∀ place < state.store.size, place ∈ places' → B.use place = none →
      place ∈ places) : Matches places B (a >>= f) d R state r := by
  refine of_run ?_ rfl hevolves hnext hplaces
  simp only [Bind.bind, EStateM.bind, hrun]

/-- Cells are looked at. -/
theorem look {q : Store → α} (h : Matches places B (f (q state.store)) d R state r) :
    Matches places B (Machine.look q >>= f) d R state r :=
  h

/-- Cells are looked at, and the answer is known. -/
theorem ask {q : Store → Except Abort α} (hask : q state.store = .ok x)
    (h : Matches places B (f x) d R state r) :
    Matches places B (Action.ask q >>= f) d R state r := by
  refine left ?_ (.refl places B state.store) h fun _ _ hmem _ => hmem
  simp only [Action.ask, Bind.bind, EStateM.bind, Machine.look, hask]
  rfl

/-- The other state is looked at. -/
theorem get {q : Reference.State → Reference.Step β} (h : Matches places B a (q r) Q state r) :
    Matches places B a (get >>= q) Q state r :=
  h

/-! ## Values -/

variable {v w : Value} {i j : Datum}

/-- A new pair on both sides. -/
theorem cons (h : B.Agrees state r) (hcar : B.Same v i) (hcdr : B.Same w j) :
    Matches [] B (Action.cons v w) (Reference.cons i j) Same state r := by
  obtain ⟨s, log⟩ := state
  have hunused : B.use s.size = none := h.use_size (Nat.le_refl _)
  have hkeeps := Store.KeepsExcept.cons s v w
  have hcell := s.cell?_cons_self v w
  have hle := le_adopt hunused (.data r.identities v w)
  refine answer rfl rfl ?_ ((h.keep hkeeps (by simp) rfl).data hunused hcell) ?_
  · exact (Evolves.of_keeps hkeeps rfl B).adopt hunused _ fun hlt _ =>
      absurd hlt (Nat.lt_irrefl _)
  · exact .pair (use_adopt_self ..) (hcar.mono hle) (hcdr.mono hle)

/-- A new pair on one side only, which has no use yet. -/
theorem scratch (places' : List Nat) (h : B.Agrees state r) {f : Value → Action γ}
    (hnext : B.Agrees ⟨(state.store.cons v w).2, state.log⟩ r →
      Matches places' B (f (.pair state.store.size)) d R
        ⟨(state.store.cons v w).2, state.log⟩ r)
    (hplaces : ∀ place < state.store.size, place ∈ places' → B.use place = none →
      place ∈ places) : Matches places B (Action.cons v w >>= f) d R state r := by
  obtain ⟨s, log⟩ := state
  have hkeeps := Store.KeepsExcept.cons s v w
  refine left rfl ?_ (hnext (h.keep hkeeps (by simp) rfl)) hplaces
  exact (Evolves.of_keeps hkeeps rfl B).weaken (by simp)

theorem evolves_register (h : B.Agrees state r) (v : Value) :
    Evolves places B (B.register state.store.serial r.serials v) state.store
      { state.store with serial := state.store.serial + 1 } :=
  ⟨le_register h.object_eq_none _ v, Nat.le_refl _, Nat.le_succ _, fun _ _ huse => ⟨huse, rfl⟩⟩

/-- A new object for a number on both sides. -/
theorem newNumber (h : B.Agrees state r) (n : Int) :
    Matches [] B (Machine.change (.number n)) (Reference.newNumber n) Same state r := by
  obtain ⟨s, log⟩ := state
  refine answer rfl rfl (evolves_register h (.num n (some s.serial))) (h.register _) ?_
  exact .number (object_register_self ..)

/-- A new error on both sides. -/
theorem fail (h : B.Agrees state r) (fault : Fault) :
    Matches places B (Action.fail fault) (Reference.fail fault) Same state r := by
  obtain ⟨s, log⟩ := state
  refine answer rfl rfl (evolves_register h (.error s.serial fault)) (h.register _) ?_
  exact .error (object_register_self ..)

/-- A new closure on both sides, whose body asks for no hidden name. -/
theorem closure (h : B.Agrees state r) {env : Value} {frames : List (List Nat)}
    (hparams : B.Same v i) (hbody : B.Same w j) (hasks : j.AllAvoid B.hidden)
    (henv : B.Scope env frames) :
    Matches places B (Machine.change (.closure v w env)) (Reference.closure i j frames) Same
      state r := by
  obtain ⟨s, log⟩ := state
  have hle := le_register h.object_eq_none r.serials (.closure s.serial v w env)
  refine answer rfl rfl (evolves_register h (.closure s.serial v w env)) (h.register _) ?_
  exact .closure (object_register_self ..) (hparams.mono hle) (hbody.mono hle) hasks
    (henv.mono hle)

/-- An event is reported on both sides. -/
theorem note (h : B.Agrees state r) (event : Event) :
    Matches places B (Machine.note event) (Reference.note event) (fun _ _ _ => True) state r := by
  obtain ⟨s, log⟩ := state
  refine answer rfl rfl (.refl places B s) ?_ trivial
  constructor
  case threshold => exact ⟨(Log.threshold_note ..).trans h.threshold.1,
    (Log.threshold_note ..).trans h.threshold.2⟩
  case log => exact fun halone => congrArg (·.note event) (h.log halone)
  case serial => exact h.serial
  case home => exact h.home
  case cell => exact h.cell
  case known => exact h.known
  case unique => exact h.unique
  case object => exact h.object
  case single => exact h.single

/-- A result or an abort that is the same on both sides. -/
theorem lift (h : B.Agrees state r) {q : Store → Except Abort α} {e : Except Abort α}
    (heq : q state.store = e) :
    Matches places B (Action.ask q) (Reference.lift e) (fun _ x y => x = y) state r := by
  subst heq
  unfold Action.ask
  apply look
  cases q state.store with
  | ok x => exact pure h rfl
  | error reason => exact throw h reason

/-- A value is printed on both sides. -/
theorem print (h : B.Agrees state r) (hv : B.Same v i) (depth : Nat) :
    Matches places B (Action.print depth v) (Reference.lift (i.print depth))
      (fun _ x y => x = y) state r :=
  lift h ((hv.depicts h).print_eq depth)

theorem noteValue (h : B.Agrees state r) (hv : B.Same v i) (depth : Nat)
    (event : String → Event) :
    Matches [] B (ConsLisp.noteValue depth event v) (Reference.noteValue depth event i)
      (fun _ _ _ => True) state r := by
  unfold ConsLisp.noteValue Reference.noteValue
  apply get
  -- Both logs have the same threshold, so they keep the same events.
  have hkeeps : state.log.keeps (event "").level = r.log.keeps (event "").level := by
    simp only [Log.keeps, h.threshold.1, h.threshold.2]
  show Matches [] B (if state.log.keeps (event "").level then _ else _) _ _ _ _
  rw [hkeeps]
  split
  · apply bind (print h hv depth)
    rintro B₁ state₁ r₁ text _ - hagrees rfl
    exact note hagrees _
  · exact pure h trivial

end Matches

end ConsLisp.Bridge
