import ConsLisp.Proofs.Chronicle.Points

/-!
# What assignments and definitions change

An assignment changes the value of one variable: the first one of its name that the environment
sees or, if there is none, a new one in front of the global frame.  A definition always makes a new
variable there.  All environments share the cell of the global frame, so each of them sees the new
variable behind its local frames, and for none of them anything else changes.

Main statements: both at any point of any session, for any form that may be evaluated there in any
environment (`session_assigns`, `session_defines`).
-/

namespace ConsLisp

/-! ## Environments of a kept store -/

namespace Layout

variable {L M : Layout} {s s' : Store} {env : Value}

/-- A definition puts the new binding in front of what every environment sees of the global
frame.  Serials that are handed out meanwhile do not count. -/
theorem Kept.define_sees (h : L.Kept s) {name value : Value} (hname : L.Data name)
    (hvalue : L.Outcome value) (hcells : s'.cells = (s.define name value (.pair L.home)).cells) :
    s.Pushes s' (.pair L.home) name value ∧
      ∀ env, L.Env env → ∃ locals shared, s.Sees (.pair L.home) env locals shared ∧
        s'.Sees (.pair L.home) env locals (.pair s.size :: shared) := by
  obtain ⟨M, hle, -, hkept, hlonger⟩ := h.define hname hvalue
  refine ⟨(s.pushes_define name value (h.lt_size h.home)).of_cells hcells, ?_⟩
  rintro env ⟨frames, hscope⟩
  obtain ⟨shared, hshared⟩ := h.frame_home
  have hframe : M.globalFrame s' = M.globalFrame (s.define name value (.pair L.home)) := by
    simp only [globalFrame, Store.car, Store.cell?, hcells]
  have hsees := (hscope.mono (settles_of_le hle)).sees (hkept.of_cells hcells)
    (hframe ▸ hlonger shared hshared)
  rw [← hle.2.1] at hsees
  exact ⟨_, _, hscope.sees h hshared, hsees⟩

/-- After a binding has been overwritten, every lookup finds what it found. -/
theorem Env.binding?_setCdr (h : L.Kept s) {place : Nat} {name value : Value}
    (hrole : L.role place = some (.binding name)) (hvalue : L.Outcome value) (henv : L.Env env)
    (other : Value) :
    (s.setCdr (.pair place) value).binding? other env = s.binding? other env :=
  henv.binding?_congr h (h.setCdr_binding hrole hvalue) settles_refl (globalFrame_setCdr ..) other

end Layout

/-! ## Assignments -/

/-- What an assignment of a value to a name does, against the state just after its operand has been
evaluated. -/
structure State.Assigns (globals : Value) (held : Value → Prop) (name : String) (env value : Value)
    (between after : State) : Prop where
  /-- The name has this very value. -/
  reads (depth : Nat) :
    (evaluate (depth + 1) (.sym name) env : Action Value) after = .ok value after
  /-- No other value changes, in whatever environment: only a name that has the same binding as the
  assigned name afterwards may have another value. -/
  others {env' other : Value} (henv : held env')
    (hother : after.store.binding? other env' ≠ after.store.binding? (.sym name) env) :
    after.store.value? other env' = between.store.value? other env'
  /-- A name without a binding gets one, in front of the global frame. -/
  unbound (hnone : between.store.binding? (.sym name) env = .ok none) :
    between.store.Pushes after.store globals (.sym name) value
  /-- Otherwise the value of the first binding of the name is overwritten, and nothing else. -/
  bound (hsome : between.store.binding? (.sym name) env ≠ .ok none) :
    ∃ locals shared before binding behind, between.store.Sees globals env locals shared ∧
      locals ++ shared = before ++ binding :: behind ∧ between.store.car binding = .sym name ∧
      (∀ other ∈ before, between.store.car other ≠ .sym name) ∧
      after.store = between.store.setCdr binding value

namespace Action

variable {s : Store} {log : Log} {args env value : Value} {name : String} {depth : Nat}

theorem evaluate_sym (h : s.value? (.sym name) env = .ok (some value)) (depth : Nat) :
    (evaluate (depth + 1) (.sym name) env : Action Value) ⟨s, log⟩ = .ok value ⟨s, log⟩ := by
  simp only [evaluate, Machine.nested, ask, Bind.bind, EStateM.bind, Machine.look, h]
  rfl

/-- A report about a symbol changes the log only, and fails only without a nested call left. -/
theorem noteValue_sym (depth : Nat) (event : String → Event) (name : String) (s : Store)
    (log : Log) :
    (∃ log', (noteValue depth event (.sym name) : Action Unit) ⟨s, log⟩ = .ok () ⟨s, log'⟩) ∨
      depth = 0 ∧
        (noteValue depth event (.sym name) : Action Unit) ⟨s, log⟩ = .error .tooDeep ⟨s, log⟩ := by
  simp only [noteValue, Bind.bind, EStateM.bind, Machine.keeps]
  cases log.keeps (event "").level with
  | false => exact .inl ⟨log, rfl⟩
  | true =>
    cases depth with
    | zero => exact .inr ⟨rfl, rfl⟩
    | succ depth => exact .inl ⟨log.note (event name), rfl⟩

theorem evaluateSpecial_assign :
    (evaluateSpecial (depth + 1) .assign args env : Action Value) ⟨s, log⟩ =
      (do
        let value ← evaluate depth (s.car (s.cdr args)) env
        let name ← Action.car args
        if ← assign name value env then
          return value
        else
          noteValue depth .globalDefined name
          defineGlobal name value env
          return value : Action Value) ⟨s, log⟩ := by
  rw [evaluateSpecial]
  rfl

/-- A definition makes a closure, binds it in the last cell of the environment, and then reports
that. -/
theorem evaluateSpecial_define {cell params body : Value} (hname : s.car args = .sym name)
    (hparams : s.car (s.cdr args) = params) (hbody : s.cdr (s.cdr args) = body)
    (hcell : (s.closure params body env).2.globalOf env = .ok cell) :
    (evaluateSpecial (depth + 1) .define args env : Action Value) ⟨s, log⟩ =
      (do
        noteValue depth .functionDefined (.sym name)
        return .sym name : Action Value)
        ⟨(s.closure params body env).2.define (.sym name) (s.closure params body env).1 cell,
          log⟩ := by
  have hdefined (log : Log) :
      (defineGlobal (.sym name) (s.closure params body env).1 env : Action Unit)
          ⟨(s.closure params body env).2, log⟩ =
        .ok () ⟨(s.closure params body env).2.define (.sym name) (s.closure params body env).1 cell,
          log⟩ :=
    defineGlobal_eq hcell
  rw [evaluateSpecial]
  show (do
    defineGlobal (s.car args) (s.closure (s.car (s.cdr args)) (s.cdr (s.cdr args)) env).1 env
    noteValue depth .functionDefined (s.car args)
    return s.car args : Action Value)
    ⟨(s.closure (s.car (s.cdr args)) (s.cdr (s.cdr args)) env).2, log⟩ = _
  rw [hname, hparams, hbody]
  simp only [Bind.bind, EStateM.bind, hdefined]

end Action

namespace Layout

variable {L : Layout} {s : Store} {log : Log} {env value : Value} {name : String}
  {held : Value → Prop}

/-- An assignment to a name that has a binding. -/
theorem Kept.assigns_of_bound (h : L.Kept s) (hheld : ∀ env, held env → L.Env env)
    (henv : L.Env env) (hvalue : L.Outcome value) {binding : Value}
    (hbinding : s.binding? (.sym name) env = .ok (some binding)) :
    State.Assigns (.pair L.home) held name env value ⟨s, log⟩ ⟨s.setCdr binding value, log⟩ := by
  obtain ⟨found, hfound, hplace⟩ := henv.binding?_ok h (.sym name)
  obtain rfl : found = some binding := Except.ok.inj (hfound.symm.trans hbinding)
  obtain ⟨place, rfl, hrole⟩ := hplace binding rfl
  obtain ⟨old, hcell, -⟩ := h.cell_binding hrole
  have hafter := henv.binding?_setCdr h hrole hvalue (.sym name)
  rw [hbinding] at hafter
  constructor
  case reads =>
    have hcdr : (s.setCdr (.pair place) value).cdr (.pair place) = value := by
      simp [Store.cdr, Store.cell?_setCdr, hcell]
    exact Action.evaluate_sym (by rw [Store.value?, hafter, Except.map, Option.map_some, hcdr])
  case others =>
    intro env' other henv' hother
    have hsame := (hheld env' henv').binding?_setCdr h hrole hvalue other
    refine Store.value?_congr hsame fun binding' hbinding' => ?_
    -- The other name has another binding, which keeps its value.
    have hne : binding' ≠ .pair place := by
      rintro rfl
      exact hother (hsame.trans (hbinding'.trans hafter.symm))
    rw [Store.cdr, Store.cdr, Store.cell?_setCdr, if_neg hne]
  case unbound =>
    intro hnone
    rw [hbinding] at hnone
    simp at hnone
  case bound =>
    intro _
    obtain ⟨locals, shared, hsees⟩ := henv.sees h
    have hfirst := hsees.binding?_eq (.sym name)
    rw [hbinding] at hfirst
    obtain ⟨hname, before, behind, hsplit, hbefore⟩ :=
      Store.firstOf_eq_some (Except.ok.inj hfirst).symm
    exact ⟨locals, shared, before, .pair place, behind, hsees, hsplit, hname, hbefore, rfl⟩

/-- An assignment to a name that has no binding. -/
theorem Kept.assigns_of_unbound (h : L.Kept s) (hheld : ∀ env, held env → L.Env env)
    (henv : L.Env env) (hname : L.Data (.sym name)) (hvalue : L.Outcome value)
    (hnone : s.binding? (.sym name) env = .ok none) (log' : Log) :
    State.Assigns (.pair L.home) held name env value ⟨s, log⟩
      ⟨s.define (.sym name) value (.pair L.home), log'⟩ := by
  obtain ⟨hpush, hdefine⟩ := h.define_sees hname hvalue rfl
  obtain ⟨locals, shared, hsees, hsees'⟩ := hdefine env henv
  have hlocals : s.firstOf (.sym name) locals = none := by
    rw [hsees.binding?_eq, Store.firstOf_append, Except.ok.injEq, Option.or_eq_none_iff] at hnone
    exact hnone.1
  obtain ⟨hbinding, hnew⟩ := hpush.found hsees hsees' hlocals
  constructor
  case reads => exact Action.evaluate_sym hnew
  case others =>
    intro env' other henv' hother
    obtain ⟨locals', shared', hseen, hseen'⟩ := hdefine env' (hheld env' henv')
    rw [hbinding] at hother
    exact (hpush.unchanged hseen hseen' hother).2
  case unbound => exact fun _ => hpush
  case bound => exact fun hsome => absurd hnone hsome

/-- An assignment after its operand has been evaluated. -/
theorem Kept.assigns (h : L.Kept s) (hheld : ∀ env, held env → L.Env env) (henv : L.Env env)
    (hname : L.Data (.sym name)) (hvalue : L.Outcome value) {depth : Nat} {v : Value}
    {after : State}
    (hrun : (do
      if ← Action.assign (.sym name) value env then
        return value
      else
        noteValue depth .globalDefined (.sym name)
        Action.defineGlobal (.sym name) value env
        return value : Action Value) ⟨s, log⟩ = .ok v after) :
    v = value ∧ State.Assigns (.pair L.home) held name env value ⟨s, log⟩ after := by
  obtain ⟨found, hfound, -⟩ := henv.binding?_ok h (.sym name)
  obtain ⟨assigned, between, hassign, hrest⟩ := Action.exists_of_bind_ok hrun
  rw [Action.assign_eq hfound] at hassign
  cases found with
  | some binding =>
    cases hassign
    cases hrest
    exact ⟨rfl, h.assigns_of_bound hheld henv hvalue hfound⟩
  | none =>
    cases hassign
    -- The report may fail, but then there is no answer.
    obtain ⟨_, noted, hnoted, hdefined⟩ := Action.exists_of_bind_ok hrest
    obtain ⟨_, defined, hdefine, hanswer⟩ := Action.exists_of_bind_ok hdefined
    rcases Action.noteValue_sym depth .globalDefined name s log with ⟨log', hlog⟩ | ⟨-, hlog⟩
    · rw [hlog] at hnoted
      cases hnoted
      obtain ⟨frames, hscope⟩ := henv
      rw [Action.defineGlobal_eq (hscope.globalOf_eq h)] at hdefine
      cases hdefine
      cases hanswer
      exact ⟨rfl, h.assigns_of_unbound hheld ⟨frames, hscope⟩ hname hvalue hfound log'⟩
    · rw [hlog] at hnoted
      simp at hnoted

end Layout

namespace Chronicle

open Layout

/-- At any point of a session, an assignment that answers has evaluated its operand, and all that
it changes after that is one variable. -/
theorem session_assigns (log : Log) (limit : Nat) (texts : List (List Char)) {m : Moment}
    {earlier : List Moment} (hpoint : m :: earlier <:+ (session log limit texts).2.moments)
    {form env : Value} (hposed : m.Poses (Interpreter.new log).globals earlier form env)
    {name : String} {operand : Value} {rest : List Value}
    (helements : m.store.elements form = .ok (.sym "setq" :: .sym name :: operand :: rest))
    {depth : Nat} {noted : Log} {value : Value} {after : State}
    (hrun : (evaluate depth form env : Action Value) ⟨m.store, noted⟩ = .ok value after) :
    ∃ left between, depth = left + 2 ∧
      (evaluate left operand env : Action Value) ⟨m.store, noted⟩ = .ok value between ∧
      State.Assigns (Interpreter.new log).globals
        (fun env' => m.Holds (Interpreter.new log).globals earlier .environment env' ∨
          Moment.HoldsWith (Interpreter.new log).globals (m :: earlier) between.store value
            .environment env')
        name env value between after := by
  obtain ⟨L, hglobals, hready, hcode, henv, hshown⟩ :=
    session_poses log limit texts hpoint hposed
  rw [hglobals] at hshown ⊢
  -- The head, the name and the operand of the form.
  obtain ⟨place, d, rfl, hrole, -, hd, helements⟩ := hcode.uncons hready.kept helements
  obtain ⟨place₁, d₁, rfl, hrole₁, hname, hd₁, helements⟩ := hd.uncons hready.kept helements
  obtain ⟨place₂, d₂, rfl, hrole₂, hoperand, -, -⟩ := hd₁.uncons hready.kept helements
  have hhead : (m.store.car (.pair place)).special? = some .assign := by
    rw [hready.kept.car_data hrole]
    rfl
  have hfields : m.store.cdr (.pair place) = .pair place₁ ∧
      m.store.car (m.store.cdr (.pair place₁)) = operand := by
    rw [hready.kept.cdr_data hrole, hready.kept.cdr_data hrole₁, hready.kept.car_data hrole₂]
    exact ⟨rfl, rfl⟩
  cases depth with
  | zero => cases hrun
  | succ depth =>
    rw [Action.evaluate_special hhead, hfields.1] at hrun
    cases depth with
    | zero => cases hrun
    | succ left =>
      rw [Action.evaluateSpecial_assign, hfields.2] at hrun
      obtain ⟨v, between, hoperand', hrest⟩ := Action.exists_of_bind_ok hrun
      obtain ⟨M, hle, hready', hv⟩ := hready.evaluate hoperand henv hoperand'
      have hsettles := settles_of_le hle
      -- The name is still the one that stands in the form.
      have hcar : between.store.car (.pair place₁) = .sym name :=
        hready'.kept.car_data (role_of_le hle hrole₁)
      have hheld (env' : Value)
          (henv' : m.Holds (.pair L.home) earlier .environment env' ∨
            Moment.HoldsWith (.pair L.home) (m :: earlier) between.store v .environment env') :
          M.Env env' := by
        rcases henv' with henv' | henv'
        · exact Env.mono hsettles (hready.kept.held hshown henv')
        · exact hready'.heldWith (fun sense v hv => (hshown sense v hv).mono hsettles) hv henv'
      obtain ⟨name', _, hlook, hassign⟩ := Action.exists_of_bind_ok hrest
      cases hlook
      simp only [hcar] at hassign
      obtain ⟨rfl, hassigns⟩ := hready'.kept.assigns hheld (henv.mono hsettles)
        (hname.mono hsettles).data hv hassign
      rw [← hle.2.1] at hassigns
      exact ⟨left, between, rfl, hoperand', hassigns⟩

/-- The variable `x` of the captured environment gets a new value. -/
theorem session_assigns_captured :
    ∃ m earlier between after, m :: earlier <:+ (session {} 100 [sample]).2.moments ∧
      m.Poses (Interpreter.new {}).globals earlier (.pair 32) (.pair 46) ∧
      m.store.value? (.sym "x") (.pair 46) = .ok (some (.num 2)) ∧
      (evaluate 50 (.pair 32) (.pair 46) : Action Value) ⟨m.store, {}⟩ = .ok .t after ∧
      State.Assigns (Interpreter.new {}).globals
        (fun env' => m.Holds (Interpreter.new {}).globals earlier .environment env' ∨
          Moment.HoldsWith (Interpreter.new {}).globals (m :: earlier) between.store .t
            .environment env')
        "x" (.pair 46) .t between after := by
  obtain ⟨m, earlier, hpoint, hstore, hposed, -⟩ := sample_poses
  have hdecided : sampleStore.elements (.pair 32) = .ok [.sym "setq", .sym "x", .sym "t"] ∧
      sampleStore.value? (.sym "x") (.pair 46) = .ok (some (.num 2)) := by decide +kernel
  have hanswer : (match (evaluate 50 (.pair 32) (.pair 46) : Action Value) ⟨sampleStore, {}⟩ with
      | .ok v _ => some v
      | .error .. => none) = some .t := by decide +kernel
  rw [← hstore] at hdecided hanswer
  cases hrun : (evaluate 50 (.pair 32) (.pair 46) : Action Value) ⟨m.store, {}⟩ with
  | error abort state => simp [hrun] at hanswer
  | ok v after =>
    obtain rfl : v = .t := by simpa [hrun] using hanswer
    obtain ⟨left, between, -, -, hassigns⟩ :=
      session_assigns {} 100 [sample] hpoint hposed hdecided.1 hrun
    exact ⟨m, earlier, between, after, hpoint, hposed, hdecided.2, hrun, hassigns⟩

end Chronicle

/-! ## Definitions -/

/-- What an environment sees after a definition of a name, against the store before. -/
structure Store.Redefines (s s' : Store) (globals : Value) (name : String) (value env : Value) :
    Prop where
  /-- A name that no local frame binds has the new value, and one that a local frame binds keeps
  its old one. -/
  resolves : ∃ locals shared, s.Sees globals env locals shared ∧
    s'.Sees globals env locals (.pair s.size :: shared) ∧
    (s.firstOf (.sym name) locals = none →
      s'.binding? (.sym name) env = .ok (some (.pair s.size)) ∧
        s'.value? (.sym name) env = .ok (some value)) ∧
    ∀ binding, s.firstOf (.sym name) locals = some binding →
      s'.binding? (.sym name) env = .ok (some binding) ∧
        s'.value? (.sym name) env = .ok (some (s.cdr binding))
  /-- Every other name has the binding and the value that it had. -/
  others {other : Value} (hne : other ≠ .sym name) :
    s'.binding? other env = s.binding? other env ∧ s'.value? other env = s.value? other env

namespace Store.Pushes

variable {s s' : Store} {globals env value : Value} {locals shared : List Value} {name : String}

theorem redefines (h : s.Pushes s' globals (.sym name) value)
    (hsees : s.Sees globals env locals shared)
    (hsees' : s'.Sees globals env locals (.pair s.size :: shared)) :
    s.Redefines s' globals name value env := by
  constructor
  case resolves =>
    refine ⟨locals, shared, hsees, hsees', h.found hsees hsees', fun binding hlocal => ?_⟩
    have hbinding := h.binding?_eq hsees hsees' (.sym name)
    rw [hlocal, Option.some_or] at hbinding
    have hold : s.binding? (.sym name) env = .ok (some binding) := by
      rw [hsees.binding?_eq, Store.firstOf_append, hlocal, Option.some_or]
    -- A local binding is a pair of before, so it is not the new one.
    have hne : binding ≠ .pair s.size := by
      rintro rfl
      exact hsees.fresh (List.mem_append_left _ (Store.mem_of_firstOf hlocal))
    have hother : s'.binding? (.sym name) env ≠ .ok (some (.pair s.size)) := by
      rw [hbinding]
      simpa using hne
    obtain ⟨-, hvalue⟩ := h.unchanged hsees hsees' hother
    exact ⟨hbinding, by rw [hvalue, Store.value?, hold, Except.map, Option.map_some]⟩
  case others =>
    intro other hne
    apply h.unchanged hsees hsees'
    rw [h.binding?_eq hsees hsees', if_neg hne, ← Store.firstOf_append]
    intro hnew
    exact hsees.fresh (Store.mem_of_firstOf (Except.ok.inj hnew))

end Store.Pushes

namespace Chronicle

open Layout

/-- At any point of a session, a lookup in any environment is the first hit in its local frames, or
else the lookup in the global frame.  A definition, evaluated there in any environment, puts one
binding in front of the global frame, which every environment finds unless a local frame binds the
name; nothing else changes.  If no nested call is left for the report to the log, it aborts after
that. -/
theorem session_defines (log : Log) (limit : Nat) (texts : List (List Char)) :
    let globals := (Interpreter.new log).globals
    let moments := (session log limit texts).2.moments
    (∀ m earlier, m :: earlier <:+ moments → ∀ env, m.Holds globals earlier .environment env →
      ∃ locals shared, m.store.Sees globals env locals shared ∧
        ∀ name, m.store.binding? name env =
          match m.store.firstOf name locals with
          | some binding => .ok (some binding)
          | none => m.store.binding? name globals) ∧
    ∀ m earlier, m :: earlier <:+ moments →
      ∀ form env, m.Poses globals earlier form env →
      ∀ name params forms,
        m.store.elements form = .ok (.sym "defun" :: .sym name :: params :: forms) →
      ∀ depth noted,
        let body := m.store.cdr (m.store.cdr (m.store.cdr form))
        let closure := Value.closure m.store.serial params body env
        ∃ after,
          ((evaluate (depth + 2) form env : Action Value) ⟨m.store, noted⟩ =
              .ok (.sym name) after ∨
            depth = 0 ∧ (evaluate (depth + 2) form env : Action Value) ⟨m.store, noted⟩ =
              .error .tooDeep after) ∧
          m.store.Pushes after.store globals (.sym name) closure ∧
          ∀ env', m.Holds globals earlier .environment env' →
            m.store.Redefines after.store globals name closure env' := by
  intro globals moments
  refine ⟨fun m earlier hpoint env henv => ?_, ?_⟩
  · obtain ⟨L, hglobals, hready, hshown⟩ := session_ready log limit texts hpoint
    obtain ⟨locals, shared, hsees⟩ := Env.sees hready.kept (hready.kept.held hshown henv)
    rw [← hglobals] at hsees
    exact ⟨locals, shared, hsees, hsees.lookup⟩
  intro m earlier hpoint form env hposed name params forms helements depth noted body closure
  obtain ⟨L, hglobals, hready, hcode, henv, hshown⟩ :=
    session_poses log limit texts hpoint hposed
  -- The head, the name and the parameters of the form.
  obtain ⟨place, d, rfl, hrole, -, hd, helements⟩ := hcode.uncons hready.kept helements
  obtain ⟨place₁, d₁, rfl, hrole₁, hname, hd₁, helements⟩ := hd.uncons hready.kept helements
  obtain ⟨place₂, d₂, rfl, hrole₂, hparams, hd₂, -⟩ := hd₁.uncons hready.kept helements
  have hkept := hready.kept
  have hhead : (m.store.car (.pair place)).special? = some .define := by
    rw [hkept.car_data hrole]
    rfl
  have hbody : body = d₂ := by
    simp only [body, hkept.cdr_data hrole, hkept.cdr_data hrole₁, hkept.cdr_data hrole₂]
  have hclosure : L.Outcome closure := .inl (.atom rfl ⟨hparams, hbody ▸ hd₂, henv⟩)
  obtain ⟨frames, hscope⟩ := id henv
  -- The closure takes a serial, and then the store is extended by the definition.
  let s := (m.store.closure params body env).2
  have hkept' : L.Kept s := hkept.of_cells rfl
  let defined := s.define (.sym name) closure (.pair L.home)
  have hrun : (evaluate (depth + 2) (.pair place) env : Action Value) ⟨m.store, noted⟩ =
      (do
        noteValue depth .functionDefined (.sym name)
        return .sym name : Action Value) ⟨defined, noted⟩ := by
    rw [Action.evaluate_special hhead]
    refine Action.evaluateSpecial_define ?_ ?_ ?_ (hscope.globalOf_eq hkept')
    · rw [hkept.cdr_data hrole, hkept.car_data hrole₁]
    · rw [hkept.cdr_data hrole, hkept.cdr_data hrole₁, hkept.car_data hrole₂]
    · rfl
  have hcells : defined.cells = (m.store.define (.sym name) closure (.pair L.home)).cells := rfl
  obtain ⟨hpush, hsees⟩ := hkept.define_sees hname.data hclosure hcells
  have hredefines (env' : Value) (henv' : m.Holds globals earlier .environment env') :
      m.store.Redefines defined globals name closure env' := by
    obtain ⟨locals, shared, hsees, hsees'⟩ := hsees env' (hkept.held hshown henv')
    rw [← hglobals] at hsees hsees' hpush
    exact hpush.redefines hsees hsees'
  rw [← hglobals] at hpush
  rw [hrun]
  simp only [Bind.bind, EStateM.bind]
  rcases Action.noteValue_sym depth .functionDefined name defined noted with
    ⟨log', hlog⟩ | ⟨hzero, hlog⟩
  · exact ⟨⟨defined, log'⟩, .inl (by rw [hlog]; rfl), hpush, hredefines⟩
  · exact ⟨⟨defined, noted⟩, .inr ⟨hzero, by rw [hlog]⟩, hpush, hredefines⟩

/-- A line that leaves a closure without parameters.  Its body defines a function under the name of
a variable of the captured environment. -/
def shadowed : List Char :=
  "((lambda (x) (lambda () (defun x (y) y))) 2)".toList

/-- The store after the line. -/
def shadowedStore : Store :=
  (session {} 100 [shadowed]).2.state.store

theorem shadowed_result :
    (session {} 100 [shadowed]).1 = [.ok (.closure 13 .nil (.pair 37) (.pair 44))] := by
  decide +kernel

/-- After the line the definition may be evaluated in the captured environment. -/
theorem shadowed_poses :
    ∃ m earlier, m :: earlier <:+ (session {} 100 [shadowed]).2.moments ∧ m.store = shadowedStore ∧
      m.Poses (Interpreter.new {}).globals earlier (.pair 32) (.pair 44) := by
  obtain ⟨m, earlier, hpoint, hstore, henv, hlist⟩ := holds_captured shadowed_result
  obtain ⟨hbody, hdefine, hname, hparams, hparam, hforms⟩ :
      shadowedStore.cell? (.pair 37) = some ⟨.pair 32, .nil⟩ ∧
      shadowedStore.cell? (.pair 32) = some ⟨.sym "defun", .pair 33⟩ ∧
      shadowedStore.cell? (.pair 33) = some ⟨.sym "x", .pair 35⟩ ∧
      shadowedStore.cell? (.pair 35) = some ⟨.pair 34, .pair 36⟩ ∧
      shadowedStore.cell? (.pair 34) = some ⟨.sym "y", .nil⟩ ∧
      shadowedStore.cell? (.pair 36) = some ⟨.sym "y", .nil⟩ := by decide +kernel
  have hshadowed : m.store = shadowedStore := hstore
  rw [← hshadowed] at hbody hdefine hname hparams hparam hforms
  refine ⟨m, earlier, hpoint, hshadowed, henv, .car hbody hlist, ?_⟩
  have hparameters : m.store.IsForm (.pair 34) :=
    .pair hparam (.atom trivial) (.atom trivial) (.inr rfl)
  have hform : m.store.IsForm (.pair 36) :=
    .pair hforms (.atom trivial) (.atom trivial) (.inr rfl)
  exact .pair hdefine (.atom trivial) (.pair hname (.atom trivial)
    (.pair hparams hparameters hform (.inl rfl)) (.inl rfl)) (.inl rfl)

/-- The name keeps its value in the captured environment, and it has the new closure in the global
one. -/
theorem session_defines_shadowed :
    ∃ m earlier after, m :: earlier <:+ (session {} 100 [shadowed]).2.moments ∧
      m.Poses (Interpreter.new {}).globals earlier (.pair 32) (.pair 44) ∧
      (evaluate 50 (.pair 32) (.pair 44) : Action Value) ⟨m.store, {}⟩ = .ok (.sym "x") after ∧
      (∀ env, m.Holds (Interpreter.new {}).globals earlier .environment env →
        m.store.Redefines after.store (Interpreter.new {}).globals "x"
          (.closure 14 (.pair 34) (.pair 36) (.pair 44)) env) ∧
      after.store.value? (.sym "x") (.pair 44) = .ok (some (.num 2)) ∧
      after.store.value? (.sym "x") (Interpreter.new {}).globals =
        .ok (some (.closure 14 (.pair 34) (.pair 36) (.pair 44))) := by
  obtain ⟨m, earlier, hpoint, hstore, hposed⟩ := shadowed_poses
  obtain ⟨helements, hclosure⟩ :
      shadowedStore.elements (.pair 32) = .ok [.sym "defun", .sym "x", .pair 34, .sym "y"] ∧
      Value.closure shadowedStore.serial (.pair 34)
        (shadowedStore.cdr (shadowedStore.cdr (shadowedStore.cdr (.pair 32)))) (.pair 44) =
          .closure 14 (.pair 34) (.pair 36) (.pair 44) := by decide +kernel
  have hvalues : (match (evaluate 50 (.pair 32) (.pair 44) : Action Value) ⟨shadowedStore, {}⟩ with
      | .ok _ after => [after.store.value? (.sym "x") (.pair 44),
          after.store.value? (.sym "x") (Interpreter.new {}).globals]
      | .error .. => []) =
        [.ok (some (.num 2)),
          .ok (some (.closure 14 (.pair 34) (.pair 36) (.pair 44)))] := by decide +kernel
  rw [← hstore] at helements hclosure hvalues
  obtain ⟨-, hdefines⟩ := session_defines {} 100 [shadowed]
  obtain ⟨after, hanswer, -, hredefines⟩ :=
    hdefines m earlier hpoint _ _ hposed "x" (.pair 34) [.sym "y"] helements 48 {}
  rw [hclosure] at hredefines
  rcases hanswer with hrun | ⟨hzero, -⟩
  · rw [hrun] at hvalues
    simp only [List.cons.injEq, and_true] at hvalues
    exact ⟨m, earlier, after, hpoint, hposed, hrun, hredefines, hvalues⟩
  · cases hzero

end Chronicle

end ConsLisp
