import ConsLisp.Dialogue
import ConsLisp.Proofs.Termination

/-!
# Lines under two thresholds of the log

Two runs of a line with the same store and different thresholds of their logs do the same, step by
step: the store stays the same, and of what the first log receives the second receives the events
that reach its threshold.  There is one exception.  Some special forms print a detail to report it,
within the nesting limit, and only if the report is kept.  So where only the first log keeps
details, the first run may be cut off in such a form, while the second goes on.

Main statements: the results of a line under two thresholds (`Volumes.Alike.evalPrint`), and beside
other events in the log (`Interpreter.Beside.evalPrint`).
-/

namespace ConsLisp

/-- The thresholds of two logs, the first of which keeps all that the second keeps, and the events
that they hold at first. -/
structure Volumes where
  loud : Level
  soft : Level
  le : loud.severity ≤ soft.severity
  loudPast : List Event
  softPast : List Event

namespace Volumes

/-- Does the second log keep the event? -/
def passes (V : Volumes) (event : Event) : Bool :=
  V.soft.severity ≤ event.level.severity

/-- Only the first log keeps the details of what is evaluated. -/
def Differ (V : Volumes) : Prop :=
  V.loud.severity ≤ Level.debug.severity ∧ ¬V.soft.severity ≤ Level.debug.severity

/-- Two states with the same store, whose logs have received the same events. -/
structure Hush (V : Volumes) (a b : State) : Prop where
  store : a.store = b.store
  loud : a.log.threshold = V.loud
  soft : b.log.threshold = V.soft
  events : ∃ new, a.log.events = new ++ V.loudPast ∧
    b.log.events = new.filter V.passes ++ V.softPast

variable {V : Volumes} {a b : State}

theorem Hush.keeps_iff (h : V.Hush a b) (level : Level) :
    (a.log.keeps level = true ↔ V.loud.severity ≤ level.severity) ∧
      (b.log.keeps level = true ↔ V.soft.severity ≤ level.severity) := by
  unfold Log.keeps
  rw [h.loud, h.soft, decide_eq_true_iff, decide_eq_true_iff]
  exact ⟨Iff.rfl, Iff.rfl⟩

/-- What the second log keeps, the first one keeps as well. -/
theorem Hush.keeps (h : V.Hush a b) {level : Level} (hsoft : b.log.keeps level = true) :
    a.log.keeps level = true :=
  (h.keeps_iff level).1.mpr (Nat.le_trans V.le ((h.keeps_iff level).2.mp hsoft))

/-- An event that the second log does not keep may be added to the first. -/
theorem Hush.noteLoud (h : V.Hush a b) {event : Event}
    (hsoft : b.log.keeps event.level = false) :
    V.Hush { a with log := a.log.note event } b := by
  refine ⟨h.store, (Log.threshold_note a.log event).trans h.loud, h.soft, ?_⟩
  obtain ⟨new, hloud, hkept⟩ := h.events
  unfold Log.note
  split
  · have hpasses : V.passes event = false := by
      simpa [passes, Log.keeps, h.soft] using hsoft
    refine ⟨event :: new, by simp [hloud], ?_⟩
    rw [List.filter_cons_of_neg (by simp [hpasses])]
    exact hkept
  · exact ⟨new, hloud, hkept⟩

/-- An event is reported to both logs. -/
theorem Hush.note (h : V.Hush a b) (event : Event) :
    V.Hush { a with log := a.log.note event } { b with log := b.log.note event } := by
  cases hsoft : b.log.keeps event.level with
  | false =>
    have hsame : b.log.note event = b.log := by
      unfold Log.note
      rw [hsoft]
      rfl
    rw [hsame]
    exact h.noteLoud hsoft
  | true =>
    refine ⟨h.store, (Log.threshold_note a.log event).trans h.loud,
      (Log.threshold_note b.log event).trans h.soft, ?_⟩
    obtain ⟨new, hloud, hkept⟩ := h.events
    have hpasses : V.passes event = true := by
      simpa [passes, Log.keeps, h.soft] using hsoft
    refine ⟨event :: new, ?_, ?_⟩
    · simp [Log.note, h.keeps hsoft, hloud]
    · simp [Log.note, hsoft, hpasses, hkept]

end Volumes

/-! ## Programs -/

/-- This special form is the innermost of these calls. -/
def Caller.InSpecial (special : Special) (args env : Value) (callers : List Caller) : Prop :=
  ∃ store outer, callers = ⟨.special special args env, store⟩ :: outer

/-- A special form that reports a detail is the innermost of these calls. -/
def Caller.InReport (callers : List Caller) : Prop :=
  ∃ special args env, special.Reports ∧ InSpecial special args env callers

/-- Below calls of some sort, the watched program and the program do the same under two thresholds.
If only the first log keeps details, the watched program may instead be cut off in a special form
that reports one. -/
structure Hushes (V : Volumes) (P : List Caller → Prop) {α : Type} (a : Watched α) (b : Action α) :
    Prop where
  run (callers : List Caller) (hcallers : P callers) (c : Chronicle) (state : State)
    (hnow : Moment.inProgress c.moments = callers) (h : V.Hush c.state state) :
    match a callers c with
    | .ok x c' => ∃ state', b state = .ok x state' ∧ V.Hush c'.state state' ∧
        Moment.inProgress c'.moments = callers
    | .error abort c' => (∃ state', b state = .error abort state' ∧ V.Hush c'.state state') ∨
        V.Differ ∧ Caller.InReport (Moment.inProgress c'.moments)

namespace Hushes

variable {V : Volumes} {P : List Caller → Prop} {α β : Type}

theorem pure (x : α) : Hushes V P (Pure.pure x) (Pure.pure x) :=
  ⟨fun _ _ _ state hnow h => ⟨state, rfl, h, hnow⟩⟩

theorem throw (abort : Abort) :
    Hushes V P (MonadExcept.throw abort : Watched α) (MonadExcept.throw abort) :=
  ⟨fun _ _ _ state _ h => .inl ⟨state, rfl, h⟩⟩

theorem bind {a : Watched α} {b : Action α} {f : α → Watched β} {g : α → Action β}
    (ha : Hushes V P a b) (hf : ∀ x, Hushes V P (f x) (g x)) :
    Hushes V P (a >>= f) (b >>= g) := by
  refine ⟨fun callers hcallers c state hnow h => ?_⟩
  have hac := ha.run callers hcallers c state hnow h
  simp only [Bind.bind, ReaderT.bind, EStateM.bind]
  cases hrun : a callers c with
  | ok x c' =>
    simp only [hrun] at hac
    obtain ⟨state', hb, h', hnow'⟩ := hac
    rw [hb]
    exact (hf x).run callers hcallers c' state' hnow' h'
  | error abort c' =>
    simp only [hrun] at hac
    rcases hac with ⟨state', hb, h'⟩ | hcut
    · rw [hb]
      exact .inl ⟨state', rfl, h'⟩
    · exact .inr hcut

theorem look (f : Store → α) : Hushes V P (Machine.look f) (Machine.look f) := by
  refine ⟨fun callers _ c state hnow h => ⟨state, ?_, h, hnow⟩⟩
  rw [h.store]
  rfl

theorem change (d : Change) : Hushes V P (Machine.change d) (Machine.change d) := by
  refine ⟨fun callers _ c state _ h => ?_⟩
  obtain ⟨⟨store, log⟩, moments⟩ := c
  obtain ⟨store', log'⟩ := state
  obtain ⟨rfl, hloud, hsoft, hevents⟩ := h
  exact ⟨_, rfl, ⟨rfl, hloud, hsoft, hevents⟩, rfl⟩

theorem note (event : Event) : Hushes V P (Machine.note event) (Machine.note event) :=
  ⟨fun _ _ _ _ hnow h => ⟨_, rfl, h.note event, hnow⟩⟩

/-- Inside a call the programs are related below that call. -/
theorem nested {Q : List Caller → Prop} {call : Call} (value : α → Value) {a : Watched α}
    {b : Action α} (ha : Hushes V Q a b)
    (hcall : ∀ store callers, P callers → Q (⟨call, store⟩ :: callers)) :
    Hushes V P (Machine.nested call value a) (Machine.nested call value b) := by
  refine ⟨fun callers hcallers c state _ h => ?_⟩
  have hac := ha.run (⟨call, c.state.store⟩ :: callers) (hcall _ _ hcallers)
    (c.record callers (.call call)) state rfl h
  simp only [Machine.nested]
  cases hrun : a (⟨call, c.state.store⟩ :: callers) (c.record callers (.call call)) with
  | ok x c' =>
    simp only [hrun] at hac
    obtain ⟨state', hb, h', -⟩ := hac
    exact ⟨state', hb, h', rfl⟩
  | error abort c' =>
    simp only [hrun] at hac
    exact hac

theorem weaken {Q : List Caller → Prop} {a : Watched α} {b : Action α} (ha : Hushes V Q a b)
    (h : ∀ callers, P callers → Q callers) : Hushes V P a b :=
  ⟨fun callers hcallers => ha.run callers (h callers hcallers)⟩

/-- The steps that programs take one after the other. -/
def steps (V : Volumes) (P : List Caller → Prop) : Machine.Steps Watched Action where
  Rel := Hushes V P
  pure := pure
  throw := throw
  bind := bind
  look := look
  change := change
  note := note

/-- The steps of which programs are made, nested calls included, below any calls. -/
def calls (V : Volumes) : Machine.Calls Watched Action where
  toSteps := steps V fun _ => True
  nested _ value _ _ h := nested value h fun _ _ _ => trivial

/-- A report is made of a printed form, or the printing is cut off. -/
theorem report_run (depth : Nat) (event : String → Event) (v : Value) (callers : List Caller)
    (c : Chronicle) :
    (Action.print depth v >>= fun text => Machine.note (event text) : Watched Unit) callers c =
      match c.state.store.print depth v with
      | .ok text => .ok () { c with state.log := c.state.log.note (event text) }
      | .error abort => .error abort c := by
  simp only [Action.print, Action.ask, Bind.bind, ReaderT.bind, EStateM.bind, Machine.look]
  cases c.state.store.print depth v with
  | ok text => rfl
  | error abort => rfl

/-- The report of a special form.  If only the first log keeps it, then only the first program
prints for it, and may be cut off. -/
theorem noteValue {special : Special} (hreports : special.Reports) {args env : Value} (depth : Nat)
    {event : String → Event} (hlevel : ∀ text, (event text).level = .debug) (v : Value) :
    Hushes V (Caller.InSpecial special args env) (noteValue depth event v)
      (noteValue depth event v) := by
  refine ⟨fun callers hcallers c state hnow h => ?_⟩
  have hloudly : (ConsLisp.noteValue depth event v : Watched Unit) callers c =
      if c.state.log.keeps .debug then
        (Action.print depth v >>= fun text => Machine.note (event text) : Watched Unit) callers c
      else .ok () c := by
    unfold ConsLisp.noteValue
    simp only [Bind.bind, ReaderT.bind, EStateM.bind, Machine.keeps, hlevel]
    split <;> rfl
  have hsoftly : (ConsLisp.noteValue depth event v : Action Unit) state =
      if state.log.keeps .debug then
        (Action.print depth v >>= fun text => Machine.note (event text) : Action Unit) state
      else .ok () state := by
    unfold ConsLisp.noteValue
    simp only [Bind.bind, EStateM.bind, Machine.keeps, hlevel]
    split <;> rfl
  rw [hloudly, hsoftly]
  cases hsoft : state.log.keeps .debug with
  | true =>
    -- Both programs print.
    rw [if_pos (h.keeps hsoft), if_pos rfl]
    have hreport : Hushes V (Caller.InSpecial special args env)
        (Action.print depth v >>= fun text => Machine.note (event text))
        (Action.print depth v >>= fun text => Machine.note (event text)) :=
      bind ((steps V _).ask _) fun _ => note _
    exact hreport.run callers hcallers c state hnow h
  | false =>
    rw [if_neg Bool.false_ne_true]
    cases hloud : c.state.log.keeps .debug with
    | false => exact ⟨state, rfl, h, hnow⟩
    | true =>
      rw [if_pos rfl, report_run]
      cases c.state.store.print depth v with
      | ok text => exact ⟨state, rfl, h.noteLoud (hlevel text ▸ hsoft), hnow⟩
      | error abort =>
        refine .inr ⟨⟨(h.keeps_iff .debug).1.mp hloud, fun hle => ?_⟩, special, args, env, hreports,
          hnow.symm ▸ hcallers⟩
        simp [(h.keeps_iff .debug).2.mpr hle] at hsoft

/-- The evaluator does the same under both thresholds, unless it is cut off. -/
theorem evaluation (V : Volumes) (depth : Nat) : (calls V).Evaluation depth depth := by
  refine (calls V).evaluation (calls V).evaluation_zero
    (fun _ _ => (calls V).ask _) (fun depth ih special args env => ?_) depth
  -- Inside of the call of a special form, that form is the innermost call.
  exact (steps V (Caller.InSpecial special args env)).special _ _ (P := Hushes V fun _ => True)
    (fun h => nested id h fun store callers _ => ⟨store, callers, rfl⟩)
    (fun form => (ih.evaluate form env).weaken fun _ _ => trivial)
    fun hreports event v hlevel => noteValue hreports depth hlevel v

theorem evalLine (V : Volumes) (limit : Nat) (env : Value) (line : List Char) :
    Hushes V (fun _ => True) (Action.evalLine limit env line) (Action.evalLine limit env line) :=
  (calls V).evalLine ((calls V).reading_self limit) (evaluation V limit) env line

end Hushes

/-! ## Lines -/

/-- The line is cut off in a special form that reports a detail, which nests deeper than there are
nested calls left. -/
def Interpreter.CutOff (i : Interpreter) (limit : Nat) (text : List Char) : Prop :=
  let watched := Chronicle.line limit i.globals text ⟨i.state, []⟩
  ∃ special args env store outer earlier,
    watched.1 = .error .tooDeep ∧
      watched.2.moments =
        ⟨[], watched.2.state.store, .ended (.error .tooDeep)⟩ :: earlier ∧
      Moment.inProgress earlier = ⟨.special special args env, store⟩ :: outer ∧
      special.Reports ∧
      watched.2.state.store.Nests (limit - (outer.length + 1))
        (watched.2.state.store.car args)

/-- In a special form that reports a detail, an evaluation aborts only because the detail nests too
deep. -/
theorem Cause.nests {limit : Nat} {s : Store} {special : Special} {args env : Value}
    {calls : List Call} {abort : Abort}
    (h : Cause limit s (.special special args env :: calls) abort) (hreports : special.Reports) :
    abort = .tooDeep ∧ s.Nests (limit - (calls.length + 1)) (s.car args) := by
  cases h with
  | calls hlimit =>
    rw [List.length_cons] at hlimit
    rw [Nat.sub_eq_zero_of_le hlimit]
    exact ⟨rfl, .value _⟩
  | nesting hprints hnests =>
    cases special with
    | lambda | define | assign =>
      obtain rfl := hprints
      exact ⟨rfl, hnests⟩
    | quote | choice => exact hreports.elim

namespace Volumes

/-- Two interpreters with the same store and the same global environment, whose logs have received
the same events. -/
structure Alike (V : Volumes) (i j : Interpreter) : Prop where
  state : V.Hush i.state j.state
  globals : i.globals = j.globals

variable {V : Volumes} {i j : Interpreter}

theorem Alike.note (h : V.Alike i j) (event : Event) : V.Alike (i.note event) (j.note event) :=
  ⟨h.state.note event, h.globals⟩

/-- A line has the same value under both thresholds, or the evaluation under the first one ends in a
special form that reports a detail. -/
theorem Alike.line (h : V.Alike i j) (limit : Nat) (text : List Char) :
    let watched := Chronicle.line limit i.globals text ⟨i.state, []⟩
    (watched.1 = (j.eval limit text).1 ∧ V.Hush watched.2.state (j.eval limit text).2.state) ∨
      V.Differ ∧ ∃ abort earlier, watched.1 = .error abort ∧
        watched.2.moments = ⟨[], watched.2.state.store, .ended (.error abort)⟩ :: earlier ∧
        Caller.InReport (Moment.inProgress earlier) := by
  obtain ⟨state, globals, initial⟩ := j
  obtain ⟨hstate, rfl⟩ := h
  have hrun := (Hushes.evalLine V limit i.globals text).run [] trivial
    (Chronicle.record ⟨i.state, []⟩ [] (.line text)) state rfl hstate
  simp only [Chronicle.line, Interpreter.eval, Interpreter.perform]
  cases hwatched : (Action.evalLine limit i.globals text : Watched Value) []
      (Chronicle.record ⟨i.state, []⟩ [] (.line text)) with
  | ok v c =>
    simp only [hwatched] at hrun
    obtain ⟨state', heval, hstate', -⟩ := hrun
    rw [heval]
    exact .inl ⟨rfl, hstate'⟩
  | error abort c =>
    simp only [hwatched] at hrun
    rcases hrun with ⟨state', heval, hstate'⟩ | ⟨hdiffer, hreport⟩
    · rw [heval]
      exact .inl ⟨rfl, hstate'⟩
    · exact .inr ⟨hdiffer, abort, c.moments, rfl, rfl, hreport⟩

/-- A line has the same printed result under both thresholds, unless only the first log keeps
details and the line is cut off where it reports one. -/
theorem Alike.evalPrint (h : V.Alike i j) {L : Layout} (hsuits : L.Suits i) (limit : Nat)
    (text : List Char) :
    ((i.evalPrint limit text).1 = (j.evalPrint limit text).1 ∧
        V.Alike (i.evalPrint limit text).2 (j.evalPrint limit text).2) ∨
      V.Differ ∧ i.CutOff limit text := by
  obtain ⟨hstate, hresult⟩ := Chronicle.line_eq_evalPrint limit text i []
  rcases h.line limit text with ⟨heq, hhush⟩ | ⟨hdiffer, abort, earlier, hend, hmoments, hreport⟩
  · left
    obtain ⟨hstate', hresult'⟩ := Interpreter.evalPrint_eq limit text j
    rw [← hresult, hresult', heq, hhush.store]
    refine ⟨rfl, ?_, ?_⟩
    · rw [← hstate, hstate']
      exact hhush
    · rw [Interpreter.evalPrint_snd, Interpreter.evalPrint_snd limit text j]
      exact h.globals
  · right
    obtain ⟨special, args, env, hreports, store, outer, hcallers⟩ := hreport
    -- The evaluation has a cause for its abort, and the innermost call is the special form.
    have hended : (Chronicle.line limit i.globals text ⟨i.state, []⟩).1.bind
        ((Chronicle.line limit i.globals text ⟨i.state, []⟩).2.state.store.print limit) =
          .error abort := by
      rw [hend]
      rfl
    have haborts := (hsuits.sound limit).aborts hsuits.full hsuits.env text hended
    cases haborts with
    | evaluation _ hmoments' hcause =>
      rw [hmoments] at hmoments'
      obtain ⟨-, rfl⟩ := List.cons_eq_cons.mp hmoments'
      rw [hcallers, List.map_cons] at hcause
      obtain ⟨rfl, hnests⟩ := hcause.nests hreports
      rw [List.length_map] at hnests
      exact ⟨hdiffer, special, args, env, store, outer, earlier, hend, hmoments, hcallers,
        hreports, hnests⟩
    | nesting hok => simp [hend] at hok
    | digits hok => simp [hend] at hok

end Volumes

/-- A line that is cut off has no other result. -/
theorem Interpreter.CutOff.evalPrint {i : Interpreter} {limit : Nat} {text : List Char}
    (h : i.CutOff limit text) : (i.evalPrint limit text).1 = .error .tooDeep := by
  obtain ⟨-, -, -, -, -, -, hend, -⟩ := h
  rw [← (Chronicle.line_eq_evalPrint limit text i []).2, hend]
  rfl

/-- Two interpreters that differ at most in the events of their logs. -/
structure Interpreter.Beside (i j : Interpreter) : Prop where
  store : i.state.store = j.state.store
  globals : i.globals = j.globals
  threshold : i.state.log.threshold = j.state.log.threshold

namespace Interpreter.Beside

variable {i j : Interpreter}

theorem note (h : i.Beside j) (event : Event) : (i.note event).Beside j :=
  ⟨h.store, h.globals, (Log.threshold_note i.state.log event).trans h.threshold⟩

/-- A line has the same printed result, whatever events the logs hold. -/
theorem evalPrint (h : i.Beside j) {L : Layout} (hsuits : L.Suits i) (limit : Nat)
    (text : List Char) :
    (i.evalPrint limit text).1 = (j.evalPrint limit text).1 ∧
      (i.evalPrint limit text).2.Beside (j.evalPrint limit text).2 := by
  let V : Volumes := ⟨i.state.log.threshold, i.state.log.threshold, Nat.le_refl _,
    i.state.log.events, j.state.log.events⟩
  have halike : V.Alike i j := ⟨⟨h.store, rfl, h.threshold.symm, [], rfl, rfl⟩, h.globals⟩
  -- Under one threshold no line is cut off that the other interpreter goes on with.
  obtain ⟨heq, hstate, hglobals⟩ :=
    (halike.evalPrint hsuits limit text).resolve_right fun hcut => hcut.1.2 hcut.1.1
  exact ⟨heq, hstate.store, hglobals, hstate.loud.trans hstate.soft.symm⟩

end Interpreter.Beside

end ConsLisp
