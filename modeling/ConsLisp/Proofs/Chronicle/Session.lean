import ConsLisp.Proofs.Chronicle.Reading

/-!
# Sessions are sound

A new interpreter starts in a kept store, and each line leads from a sound chronicle to a sound
one, whether it answers or aborts.

Main statements: every session has a sound chronicle (`session_sound`); a printed line aborts as its
evaluation does, or as the printing of its value (`Interpreter.evalPrint_eq`), and only for a reason
(`Sound.aborts`).
-/

namespace ConsLisp

/-! ## Printed lines -/

/-- A line is evaluated, and then its value is printed, which changes nothing. -/
theorem Interpreter.evalPrint_eq (limit : Nat) (text : List Char) (i : Interpreter) :
    (i.evalPrint limit text).2 = (i.eval limit text).2 ∧
      (i.evalPrint limit text).1 =
        (i.eval limit text).1.bind ((i.eval limit text).2.state.store.print limit) := by
  obtain ⟨state, globals, initial⟩ := i
  unfold evalPrint eval perform Action.evalPrint Action.print Action.ask
  simp only [bind, EStateM.bind]
  cases hrun : (Action.evalLine limit globals text : Action Value) state with
  | error abort state' => exact ⟨rfl, rfl⟩
  | ok v state' =>
    simp only [Machine.look, Except.bind]
    cases state'.store.print limit v with
    | ok text => exact ⟨rfl, rfl⟩
    | error abort => exact ⟨rfl, rfl⟩

/-- A line changes nothing of an interpreter but its state. -/
theorem Interpreter.evalPrint_snd (limit : Nat) (text : List Char) (i : Interpreter) :
    (i.evalPrint limit text).2 = { i with state := (i.evalPrint limit text).2.state } := by
  obtain ⟨state, globals, initial⟩ := i
  unfold evalPrint perform
  dsimp only
  split <;> rfl

namespace Chronicle

open Layout

variable {o : Opening} {L : Layout} {c : Chronicle}

/-! ## Lines -/

/-- A watched line says how the printed line ends: its value is printed in the end. -/
theorem line_eq_evalPrint (limit : Nat) (text : List Char) (i : Interpreter)
    (moments : List Moment) :
    (line limit i.globals text ⟨i.state, moments⟩).2.state = (i.evalPrint limit text).2.state ∧
      (line limit i.globals text ⟨i.state, moments⟩).1.bind
          ((line limit i.globals text ⟨i.state, moments⟩).2.state.store.print limit) =
        (i.evalPrint limit text).1 := by
  obtain ⟨hresult, hstate⟩ := line_eq_eval limit text i moments
  obtain ⟨hprinted, hanswer⟩ := Interpreter.evalPrint_eq limit text i
  rw [hresult, hstate]
  exact ⟨congrArg Interpreter.state hprinted.symm, hanswer.symm⟩

/-- The last moment of a line is its end. -/
theorem moments_line (limit : Nat) (globals : Value) (text : List Char) (c : Chronicle) :
    ∃ earlier, (c.line limit globals text).2.moments =
      ⟨[], (c.line limit globals text).2.state.store, .ended (c.line limit globals text).1⟩ ::
        earlier := by
  unfold Chronicle.line
  cases (Action.evalLine limit globals text : Watched Value) [] (c.record [] (.line text)) with
  | ok v c' => exact ⟨c'.moments, rfl⟩
  | error abort c' => exact ⟨c'.moments, rfl⟩

/-- A line leads from a sound chronicle to a sound one.  A result is an outcome, or what stands
behind the first quote of a line with two quotes and no expression behind them. -/
theorem Sound.line (h : c.Sound o L []) (hfull : L.vocabulary.IsFull) {globals : Value}
    (henv : L.Env globals) (text : List Char) :
    ∃ L', L ≤ L' ∧ (c.line o.limit globals text).2.Sound o L' [] ∧
      ∀ v, (c.line o.limit globals text).1 = .ok v → L'.Matter v ∧
        (L'.Outcome v ∨ ∃ rest, Grammar.Quotes 2 text rest ∧ ¬Grammar.Accepts rest) := by
  -- What begins and what ends a line are moments without a change.
  have hbegun : (c.record [] (.line text)).Sound o L [] :=
    h.record (List.suffix_refl []) trivial nofun nofun nofun
  have hline := Leads.evalLine hbegun hfull henv text
  unfold Leads at hline
  unfold Chronicle.line
  cases hrun : (Action.evalLine o.limit globals text : Watched Value) []
      (c.record [] (.line text)) with
  | ok v c' =>
    simp only [hrun] at hline
    obtain ⟨L', hle, hsound, hv⟩ := hline
    refine ⟨L', hle, hsound.record (List.suffix_refl []) hv.1 nofun nofun nofun, fun w hw => ?_⟩
    obtain rfl := Except.ok.inj hw
    exact hv
  | error abort c' =>
    simp only [hrun] at hline
    obtain ⟨L', callers, hle, hsound, hcause⟩ := hline
    refine ⟨L', hle, hsound.record List.nil_suffix trivial nofun nofun ?_, nofun⟩
    intro abort' habort
    obtain rfl : abort = abort' := by simpa using habort
    exact hcause

/-- Why a line ends in an abort, whose value is printed: its evaluation has a cause for it, or its
value has no printed form within the limit. -/
inductive Aborts (limit : Nat) (c : Chronicle) (result : Except Abort Value) : Abort → Prop
  | evaluation {abort : Abort} {earlier : List Moment} (hresult : result = .error abort)
      (hmoments : c.moments = ⟨[], c.state.store, .ended (.error abort)⟩ :: earlier)
      (hcause : Cause limit c.state.store ((Moment.inProgress earlier).map Caller.call) abort) :
      Aborts limit c result abort
  | nesting {v : Value} (hresult : result = .ok v) (hnests : c.state.store.Nests limit v) :
      Aborts limit c result .tooDeep
  | digits {v : Value} {n : Int} {serial : Option Nat} (hresult : result = .ok v)
      (hpart : c.state.store.Part v (.num n serial)) (hlong : Decimal.bound ≤ n.natAbs) :
      Aborts limit c result .numberTooLong

theorem Aborts.ordinary {limit : Nat} {result : Except Abort Value} {abort : Abort}
    (h : c.Aborts limit result abort) : abort.Ordinary := by
  cases h with
  | evaluation _ _ hcause => exact hcause.ordinary
  | nesting | digits => trivial

/-- The evaluation of a line or the printing of its value aborts only for a reason. -/
theorem Sound.aborts (h : c.Sound o L []) (hfull : L.vocabulary.IsFull) {globals : Value}
    (henv : L.Env globals) (text : List Char) {abort : Abort}
    (habort : (c.line o.limit globals text).1.bind
      ((c.line o.limit globals text).2.state.store.print o.limit) = .error abort) :
    (c.line o.limit globals text).2.Aborts o.limit (c.line o.limit globals text).1 abort := by
  obtain ⟨L', -, hsound, hvalue⟩ := h.line hfull henv text
  cases hresult : (c.line o.limit globals text).1 with
  | error abort' =>
    rw [hresult] at habort
    obtain rfl := Except.error.inj habort
    -- The abort is the last thing that is written down, and that has a cause.
    obtain ⟨earlier, hmoments⟩ := moments_line o.limit globals text c
    rw [hresult] at hmoments
    have haccounted := hsound.accounted
    rw [hmoments] at haccounted
    exact .evaluation rfl hmoments (haccounted.2.2.1.cause _ rfl)
  | ok v =>
    rw [hresult] at habort
    rcases (hvalue v hresult).1.unprintable hsound.kept habort with
      ⟨rfl, hnests⟩ | ⟨rfl, n, serial, hpart, hlong⟩
    · exact .nesting rfl hnests
    · exact .digits rfl hpart hlong

theorem Sound.lines (h : c.Sound o L []) (hfull : L.vocabulary.IsFull) {globals : Value}
    (henv : L.Env globals) (texts : List (List Char)) :
    ∃ L', L ≤ L' ∧ (c.lines o.limit globals texts).2.Sound o L' [] := by
  induction texts generalizing L c with
  | nil => exact ⟨L, le_rfl, h⟩
  | cons text texts ih =>
    obtain ⟨L₁, hle₁, hsound₁, -⟩ := h.line hfull henv text
    obtain ⟨L₂, hle₂, hsound₂⟩ := ih hsound₁ (hle₁.1 ▸ hfull) (henv.mono (settles_of_le hle₁))
    exact ⟨L₂, hle₁.trans hle₂, hsound₂⟩

end Chronicle

/-! ## New interpreters -/

namespace Layout

variable {L : Layout} {s : Store}

/-- A definition in the global environment keeps to a layout that has grown.  The new binding comes
in front of the global frame. -/
theorem Kept.define (h : L.Kept s) {name value : Value} (hname : L.Data name)
    (hvalue : L.Outcome value) :
    ∃ M, L ≤ M ∧ M.form = L.form ∧ M.Kept (s.define name value (.pair L.home)) ∧
      ∀ bindings, L.Frame (L.globalFrame s) bindings →
        M.Frame (M.globalFrame (s.define name value (.pair L.home))) (s.size :: bindings) := by
  -- The binding gets its role first, then the pair of the frame that holds it.
  have hkept₁ := h.cons (.binding name) (by simp) ⟨rfl, hname, hvalue⟩
  have hle₁ := le_set (le_refl L) h.role_size (.binding name)
  have hbinding : (L.set s.size (.binding name)).role s.size = some (.binding name) :=
    role_set_self ..
  obtain ⟨bindings, hframe⟩ := h.frame_home
  rw [← h.globalFrame_cons name value] at hframe ⊢
  have hkept₂ := hkept₁.cons (.frame (.pair s.size) _) (by simp)
    ⟨rfl, ⟨_, name, rfl, hbinding⟩, bindings, hframe.mono (settles_of_le hle₁)⟩
  have hle₂ := le_set (le_refl (L.set s.size (.binding name))) hkept₁.role_size
    (.frame (.pair s.size) (L.globalFrame (s.cons name value).2))
  have hle := hle₁.trans hle₂
  have hlonger {bindings : List Nat}
      (hframe : L.Frame (L.globalFrame (s.cons name value).2) bindings) :=
    Frame.cons (role_set_self (L := L.set s.size (.binding name)) ..)
      (role_of_le hle₂ hbinding) (hframe.mono (settles_of_le hle))
  refine ⟨_, hle, rfl, hkept₂.setCar_home (hlonger hframe), fun bindings hframe => ?_⟩
  have hnew := hkept₂.globalFrame_setCar (.pair (s.cons name value).2.size)
  exact hnew ▸ hlonger hframe

/-- The layout of a store that holds only the cell of an empty global frame. -/
def first : Layout where
  vocabulary := .full
  home := 0
  form _ := False
  role := Function.update (fun _ => none) 0 (some .globals)

theorem Kept.first : first.Kept (({} : Store).cons .nil .nil).2 := by
  constructor
  case fits =>
    intro place c hcell
    rw [Store.cell?_cons] at hcell
    split at hcell
    · next hplace =>
      obtain rfl := Value.pair.inj hplace
      obtain rfl := Option.some.inj hcell
      exact ⟨.globals, rfl, rfl, [], .nil⟩
    · simp [Store.cell?] at hcell
  case lt_size =>
    intro place role hrole
    by_cases hplace : place = 0
    · simp [hplace]
    · simp [Layout.first, hplace] at hrole
  case home => rfl
  case only_home =>
    intro place hrole
    by_cases hplace : place = 0
    · exact hplace
    · simp [Layout.first, hplace] at hrole

theorem Kept.definePrimitives (h : L.Kept s) (primitives : List Primitive) :
    ∃ M, L ≤ M ∧ M.form = L.form ∧
      M.Kept (primitives.foldl (fun s p => s.definePrimitive (.pair L.home) p) s) := by
  induction primitives generalizing L s with
  | nil => exact ⟨L, le_rfl, rfl, h⟩
  | cons p primitives ih =>
    -- No primitive is called `nil`, so its name is a symbol.
    have hname : L.Data (.ofName p.name) := by
      have hsym : Value.ofName p.name = .sym p.name := by cases p <;> decide
      rw [hsym]
      exact .atom rfl (L.vocabulary.name p)
    have hvalue : L.Outcome (s.primitive p p.name).1 := .inl (.atom rfl trivial)
    have hkept : L.Kept (s.primitive p p.name).2 := h.of_cells rfl
    obtain ⟨M, hle, hform, hdefined, -⟩ := hkept.define hname hvalue
    obtain ⟨M', hle', hform', hkept'⟩ := ih hdefined
    rw [← hle.2.1] at hkept'
    exact ⟨M', hle.trans hle', hform'.trans hform, hkept'⟩

/-- A store that an interpreter may have, with its global environment. -/
structure Suits (L : Layout) (i : Interpreter) : Prop where
  full : L.vocabulary.IsFull
  globals : i.globals = .pair L.home
  kept : L.Kept i.state.store
  lists : L.ReadsLists

/-- A new interpreter has a kept store, and nothing has been read. -/
theorem suits_new (log : Log) :
    ∃ L : Layout, L.Suits (Interpreter.new log) ∧ ∀ form, ¬L.form form := by
  obtain ⟨M, hle, hform, hprimitives⟩ := Kept.first.definePrimitives Primitive.all
  have ht : M.Data .t := .atom rfl M.vocabulary.t
  obtain ⟨L, hle', hform', hkept, -⟩ := hprimitives.define ht (.inl ht)
  rw [← hle.2.1] at hkept
  have hhome : L.home = 0 := (hle.trans hle').2.1.symm
  have hnone : ∀ form, ¬L.form form := by
    rw [hform', hform]
    exact fun _ => id
  refine ⟨L, ⟨(hle.trans hle').1 ▸ fun _ hv => hv, ?_, hkept, fun _ hplace => ?_⟩, hnone⟩
  · rw [hhome]
    rfl
  · exact absurd hplace (hnone _)

/-- A chronicle may begin with any store that keeps to a layout. -/
theorem Kept.sound (h : L.Kept s) (hlists : L.ReadsLists) (log : Log) (limit : Nat) :
    Chronicle.Sound ⟨⟨s, log⟩, []⟩ ⟨L, s, limit⟩ L [] :=
  ⟨⟨h, ⟨settles_refl, h, .refl _⟩, nofun, fun _ => .inl, hlists⟩, rfl, trivial, nofun, rfl,
    Nat.zero_le _⟩

namespace Suits

variable {i : Interpreter}

theorem env (h : L.Suits i) : L.Env i.globals :=
  h.globals ▸ ⟨[], .globals⟩

/-- A chronicle may begin with any suitable store. -/
theorem sound (h : L.Suits i) (limit : Nat) :
    Chronicle.Sound ⟨i.state, []⟩ ⟨L, i.state.store, limit⟩ L [] :=
  h.kept.sound h.lists i.state.log limit

end Suits

end Layout

namespace Chronicle

open Layout

/-- Every session has a sound chronicle, which begins with no form read. -/
theorem session_sound_within (log : Log) (limit : Nat) (texts : List (List Char)) :
    ∃ (o : Opening) (L : Layout), o.store = (Interpreter.new log).state.store ∧
      (Interpreter.new log).globals = .pair o.layout.home ∧ o.limit = limit ∧
      (∀ form, ¬o.layout.form form) ∧ L.vocabulary.IsFull ∧ L.Env (Interpreter.new log).globals ∧
      (session log limit texts).2.Sound o L [] := by
  obtain ⟨L, hsuits, hform⟩ := suits_new log
  obtain ⟨L', hle, hsound⟩ := (hsuits.sound limit).lines hsuits.full hsuits.env texts
  exact ⟨_, L', rfl, hsuits.globals, rfl, hform, hle.1 ▸ hsuits.full,
    hsuits.env.mono (settles_of_le hle), hsound⟩

/-- Every session has a sound chronicle. -/
theorem session_sound (log : Log) (limit : Nat) (texts : List (List Char)) :
    ∃ (o : Opening) (L : Layout), o.store = (Interpreter.new log).state.store ∧
      (Interpreter.new log).globals = .pair o.layout.home ∧
      (session log limit texts).2.Sound o L [] := by
  obtain ⟨o, L, hstore, hglobals, -, -, -, -, hsound⟩ := session_sound_within log limit texts
  exact ⟨o, L, hstore, hglobals, hsound⟩

theorem globals_evalAll (limit : Nat) (texts : List (List Char)) (i : Interpreter) :
    (i.evalAll limit texts).2.globals = i.globals := by
  induction texts generalizing i with
  | nil => rfl
  | cons text texts ih => exact (ih _).trans (globals_eval limit text i)

/-- One more line of a watched session is that line of the session. -/
theorem session_line (log : Log) (limit : Nat) (texts : List (List Char)) (text : List Char) :
    let reached := ((Interpreter.new log).evalAll limit texts).2
    (session log limit texts).2.line limit (Interpreter.new log).globals text =
      line limit reached.globals text ⟨reached.state, (session log limit texts).2.moments⟩ := by
  intro reached
  rw [globals_evalAll, ← (session_eq_evalAll log limit texts).2]

end Chronicle

end ConsLisp
