import ConsLisp.Proofs.Chronicle.Held

/-!
# Where errors get

Errors are values, but no data are made of them.  Lists of arguments, parameters, and what a call
answers with are free of errors at any depth, or are errors themselves; and so is the value of every
variable.  A change puts an error into a pair for two reasons only: the reader quotes it, or an
assignment makes it the value of a name.

Main statement: all of this at every moment of every session, and which lines have a result with an
error inside (`Chronicle.session_errors`).
-/

namespace ConsLisp

/-- No part of the value is an error. -/
def Store.ErrorFree (s : Store) (v : Value) : Prop :=
  ∀ w, s.Part v w → w.isError = false

/-- The value is an error, or no part of it is one. -/
def Store.Clean (s : Store) (v : Value) : Prop :=
  v.isError = true ∨ s.ErrorFree v

/-- The change puts an error into a field of a pair. -/
def Change.PutsError : Change → Prop
  | .cons a d => a.isError = true ∨ d.isError = true
  | .setCar _ v | .setCdr _ v => v.isError = true
  | .number _ | .error _ | .closure .. => False

namespace Moment

/-- Why a change may put an error into a pair.  The reader makes a list of it, which it quotes; or
an error is assigned, to a name that has no binding yet or to the binding of the name. -/
inductive MayPut (m : Moment) : Change → Prop
  | quoting {text : List Char} {a d : Value} (hcurrent : m.current = some (.read text))
      (hcdr : d.isError = false) : MayPut m (.cons a d)
  | naming {args env a d : Value} (hcurrent : m.current = some (.special .assign args env))
      (hname : a = m.store.car args) (hcar : a.isError = false) : MayPut m (.cons a d)
  | assigning {binding v : Value} (hassigns : m.Assigns binding) : MayPut m (.setCdr binding v)

/-- What may be said of errors at a moment. -/
structure ErrorsApart (globals : Value) (m : Moment) (earlier : List Moment) : Prop where
  /-- A list of arguments that has been handed to a function is free of errors. -/
  arguments {m' : Moment} (hmem : m' ∈ m :: earlier) {fn args : Value}
    (hcall : m'.deed = .call (.apply fn args)) (hargs : args.isError = false) :
    m.store.ErrorFree args
  /-- So is one that parameters have been bound to. -/
  entered {m' : Moment} (hmem : m' ∈ m :: earlier) {params body env args : Value}
    (hcall : m'.deed = .call (.enter params body env args)) : m.store.ErrorFree args
  /-- When the body of a closure begins, the parameters have values that are free of errors. -/
  parameters {forms env : Value} (hcall : m.deed = .call (.body forms env)) {places : List Nat}
    {bindings : List Value} {tail : Value}
    (hbindings : m.store.Links (m.store.car env) places bindings tail) {binding : Value}
    (hbinding : binding ∈ bindings) : m.store.ErrorFree (m.store.cdr binding)
  /-- The value of a variable is free of errors, unless it is one as a whole. -/
  values {env binding : Value} {places places' : List Nat} {frames bindings : List Value}
    {frame tail tail' : Value} (henv : m.Holds globals earlier .environment env)
    (hframes : m.store.Links env places frames tail) (hframe : frame ∈ frames)
    (hbindings : m.store.Links frame places' bindings tail') (hbinding : binding ∈ bindings) :
    m.store.Clean (m.store.cdr binding)
  /-- So is what a function has answered with, such as a pair that `cons` has made. -/
  answers {m' : Moment} (hmem : m' ∈ m :: earlier) {fn args v : Value}
    (hanswer : m'.deed = .answer (.apply fn args) v) : m.store.Clean v
  /-- An error is put into a pair only to quote it or to assign it. -/
  changes {d : Change} (hchange : m.deed = .change d) (herror : d.PutsError) : m.MayPut d

end Moment

namespace Layout

variable {L : Layout} {s : Store} {o : Opening} {m : Moment} {earlier : List Moment}

theorem Data.errorFree (h : L.Kept s) {v : Value} (hv : L.Data v) : s.ErrorFree v :=
  fun _ hpart => hv.isError_of_part h hpart

theorem Outcome.clean (h : L.Kept s) {v : Value} (hv : L.Outcome v) : s.Clean v :=
  hv.symm.imp_right (·.errorFree h)

/-- The bindings of the first frame of an environment that has just been made hold no errors. -/
theorem Bound.errorFree (h : L.Kept s) {env : Value} (hbound : L.Bound s env) {places : List Nat}
    {bindings : List Value} {tail : Value} (hbindings : s.Links (s.car env) places bindings tail)
    {binding : Value} (hbinding : binding ∈ bindings) : s.ErrorFree (s.cdr binding) := by
  obtain ⟨place, frame, outer, numbers, rfl, hrole, hframe, -, hvalues⟩ := hbound
  obtain ⟨places', hlinks⟩ := hframe.links h
  rw [Store.car_of_cell? (h.cell_scope hrole)] at hbindings
  obtain ⟨-, rfl, -⟩ := hbindings.functional hlinks
  obtain ⟨number, hnumber, rfl⟩ := List.mem_map.mp hbinding
  exact (hvalues number hnumber).errorFree h

theorem Allows.mayPut {d : Change} (h : L.Allows m d) (herror : d.PutsError) : m.MayPut d := by
  cases d with
  | cons a d =>
    obtain ⟨hcar, hcdr⟩ := h
    cases ha : a.isError with
    | true =>
      obtain ⟨text, hcurrent⟩ := hcar ha
      refine .quoting hcurrent ?_
      -- An assignment is not the reader, so the second field is none as well.
      cases hd : d.isError with
      | false => rfl
      | true =>
        obtain ⟨args, env, hassign, -⟩ := hcdr hd
        simp [hcurrent] at hassign
    | false =>
      obtain ⟨args, env, hcurrent, hname⟩ := hcdr (herror.resolve_left (by simp [ha]))
      exact .naming hcurrent hname ha
  | setCar v frame =>
    obtain ⟨-, place, _, _, _, rfl, -⟩ := h
    simp [Change.PutsError, Value.isError] at herror
  | setCdr v w =>
    rcases h with ⟨place, name, rfl, -, hassigns⟩ | ⟨_, _, _, _, _, _, hnone⟩
    · exact .assigning hassigns
    · simp [Change.PutsError, hnone] at herror
  | number | error | closure => exact herror.elim

theorem Vouches.errorsApart (h : L.Vouches m) (hover : L.Oversees o m.store earlier) :
    m.ErrorsApart (.pair o.layout.home) earlier := by
  constructor
  case arguments =>
    intro m' hmem fn args hcall hargs
    obtain ⟨old, hsettles, hknown⟩ := hover.knew h hmem
    rw [hcall] at hknown
    have hdata := hknown.2.resolve_right (by simp [hargs])
    exact (hdata.mono hsettles).errorFree h.kept
  case entered =>
    intro m' hmem params body env args hcall
    obtain ⟨old, hsettles, hknown⟩ := hover.knew h hmem
    rw [hcall] at hknown
    exact (hknown.2.2.2.mono hsettles).errorFree h.kept
  case parameters =>
    intro forms env hcall places bindings tail hbindings binding hbinding
    have hknows := h.knows
    rw [hcall] at hknows
    exact hknows.2.errorFree h.kept hbindings hbinding
  case values =>
    intro env binding places places' frames bindings frame tail tail' henv hframes hframe hbindings
      hbinding
    obtain ⟨place, name, rfl, hrole⟩ :=
      Env.isBinding h.kept (h.held hover henv) hframes hframe hbindings hbinding
    obtain ⟨value, hcell, -, hvalue⟩ := h.kept.cell_binding hrole
    simpa [Store.cdr, hcell] using hvalue.clean h.kept
  case answers =>
    intro m' hmem fn args v hanswer
    obtain ⟨old, hsettles, hknown⟩ := hover.knew h hmem
    rw [hanswer] at hknown
    exact (Outcome.mono hsettles hknown).clean h.kept
  case changes =>
    intro d hchange
    exact (h.allows d hchange).mayPut

end Layout

namespace Chronicle

/-- At every moment of a session errors are kept apart from data.  If the result of a line is no
error and an error is part of it, then the line begins with two quotes, and no expression stands
behind them. -/
theorem session_errors (log : Log) (limit : Nat) (texts : List (List Char)) (text : List Char) :
    let i := Interpreter.new log
    let watched := (session log limit texts).2.line limit i.globals text
    let answered := (i.evalAll limit texts).2.eval limit text
    (watched.1 = answered.1 ∧ watched.2.state = answered.2.state) ∧
      (∀ m earlier, m :: earlier <:+ watched.2.moments → m.ErrorsApart i.globals earlier) ∧
      ∀ v part, answered.1 = .ok v → v.isError = false →
        answered.2.state.store.Part v part → part.isError = true →
        ∃ rest, Grammar.Quotes 2 text rest ∧ ¬Grammar.Accepts rest := by
  intro i watched answered
  obtain ⟨o, L, -, hglobals, rfl, -, hfull, henv, hsound⟩ := session_sound_within log limit texts
  obtain ⟨L', -, hline, hvalue⟩ := hsound.line hfull henv text
  have hanswered : watched.1 = answered.1 ∧ watched.2.state = answered.2.state := by
    have heq : watched = _ := session_line log o.limit texts text
    rw [heq]
    exact line_eq_eval ..
  refine ⟨hanswered, fun m earlier hsuffix => ?_, fun v part hok hv hpart herror => ?_⟩
  · obtain ⟨-, ⟨M, hvouches, hover⟩, -⟩ := hline.accounted.of_suffix hsuffix
    rw [hglobals]
    exact hvouches.errorsApart hover
  · -- The value is not free of errors, so it is no outcome.
    refine (hvalue v (hanswered.1.trans hok)).2.resolve_left fun houtcome => ?_
    have hdata := houtcome.resolve_right (by simp [hv])
    rw [← hanswered.2] at hpart
    simp [hdata.errorFree hline.kept part hpart] at herror

/-- Two quotes and nothing behind them. -/
example :
    ((Interpreter.new {}).evalPrint 100 "''".toList).1 = .ok "(quote <error: empty input>)" := by
  decide +kernel

end Chronicle

end ConsLisp
