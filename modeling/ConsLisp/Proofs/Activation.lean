import ConsLisp.Proofs.Chronicle.Activations
import ConsLisp.Proofs.Chronicle.Points

/-!
# What a closure binds its parameters to

The body of a closure begins in the captured environment with a new frame in front.  The frame binds
the parameters to the arguments pairwise, as far as there are both.  So a name resolves to the first
argument that is paired with it, and otherwise to what it is in the captured environment; a
parameter without an argument is not bound, and an argument without a parameter is ignored.

Main statement: this holds of all closures and all lists of arguments at any point of any session,
and no two bodies ever begin with a binding in common (`session_activates`).
-/

namespace ConsLisp

namespace Store

/-- In the later store the environment `inner` has been made for a body: names are bound to
arguments in front of the environment `env`. -/
structure Activates (s s' : Store) (names arguments : List Value) (env inner : Value) : Prop where
  /-- A frame of new pairs, in a new pair in front of the environment.  No other pair changes. -/
  frame : ∃ place frame places bindings,
    s.NewFrame s' frame places bindings (names.zip arguments) ∧ inner = .pair place ∧
      s.size ≤ place ∧ place ∉ places ++ bindings ∧ s'.cell? inner = some ⟨frame, env⟩
  /-- A name is the argument at the first index at which it is a parameter. -/
  bound {name argument : Value} {i : Nat} (hname : names[i]? = some name)
    (hargument : arguments[i]? = some argument) (hfirst : ∀ j < i, names[j]? ≠ some name) :
    s'.value? name inner = .ok (some argument)
  /-- A name that is no parameter, or only beyond the last argument, is what it was. -/
  unbound {name : Value} (hnone : ∀ i < arguments.length, names[i]? ≠ some name) :
    s'.binding? name inner = s.binding? name env ∧ s'.value? name inner = s.value? name env

variable {s s' : Store} {globals env frame name argument : Value} {locals shared : List Value}
  {names arguments : List Value} {places bindings : List Nat}

/-- The first pair of a name is the one at the first index of the name. -/
theorem find?_zip_eq_some {i : Nat} (hname : names[i]? = some name)
    (hargument : arguments[i]? = some argument) (hfirst : ∀ j < i, names[j]? ≠ some name) :
    (names.zip arguments).find? (fun pair => pair.1 = name) = some (name, argument) := by
  have hpair : (names.zip arguments)[i]? = some (name, argument) :=
    List.getElem?_zip_eq_some.mpr ⟨hname, hargument⟩
  obtain ⟨hi, hget⟩ := List.getElem?_eq_some_iff.mp hpair
  refine List.find?_eq_some_iff_getElem.mpr ⟨by simp, i, hi, hget, fun j hj => ?_⟩
  have hne := hfirst j hj
  have hlt : j < names.length := by
    rw [List.length_zip] at hi
    omega
  rw [List.getElem?_eq_getElem hlt, ne_eq, Option.some.injEq] at hne
  simpa using hne

/-- A name without an argument is in no pair. -/
theorem find?_zip_eq_none (hnone : ∀ i < arguments.length, names[i]? ≠ some name) :
    (names.zip arguments).find? (fun pair => pair.1 = name) = none := by
  refine List.find?_eq_none.mpr fun pair hmem => ?_
  obtain ⟨i, hi, rfl⟩ := List.getElem_of_mem hmem
  have hlength : i < arguments.length ∧ i < names.length := by
    rw [List.length_zip] at hi
    omega
  have hne := hnone i hlength.1
  rw [List.getElem?_eq_getElem hlength.2, ne_eq, Option.some.injEq] at hne
  simpa using hne

/-- The global cell is a pair of the store. -/
theorem Sees.isPair_globals (h : s.Sees globals env locals shared) :
    ∃ place, globals = .pair place ∧ place < s.size := by
  obtain ⟨places, last, frames, frame, lists, rfl, hlinks, -⟩ := h.frames
  exact ⟨last, rfl, hlinks.lt_size (by simp)⟩

/-- With a new frame in front, an environment sees the new bindings first. -/
theorem NewFrame.sees (h : s.NewFrame s' frame places bindings (names.zip arguments))
    (hsees : s.Sees globals env locals shared) :
    (s'.cons frame env).2.Sees globals (.pair s'.size) (bindings.map .pair ++ locals) shared := by
  have hkeeps : KeepsExcept [] s' (s'.cons frame env).2 := .cons ..
  have hframe := h.keep hkeeps
  apply (hsees.keep hframe.keeps).extend (s'.cell?_cons_self frame env) ⟨places, hframe.links⟩
  · intro binding hmem
    obtain ⟨place, hplace, rfl⟩ := List.mem_map.mp hmem
    exact hframe.holds.isPair hplace
  · -- The global cell is not new.
    intro hmem
    obtain ⟨place, hplace, rfl⟩ := List.mem_map.mp hmem
    obtain ⟨home, hhome, hlt⟩ := hsees.isPair_globals
    obtain rfl := Value.pair.inj hhome
    have hle := h.fresh place (List.mem_append_right _ hplace)
    omega

/-- A new frame in front of an environment is made for a body. -/
theorem NewFrame.activates (h : s.NewFrame s' frame places bindings (names.zip arguments))
    (hsees : s.Sees globals env locals shared) :
    s.Activates (s'.cons frame env).2 names arguments env (.pair s'.size) := by
  have hframe := h.keep (.cons s' frame env)
  have hsees' := h.sees hsees
  have hfirst (name : Value) := hframe.holds.map_firstOf name
  have hbinding (name : Value) := hsees'.binding?_eq name
  simp only [List.append_assoc, firstOf_append] at hbinding
  constructor
  case frame =>
    refine ⟨s'.size, frame, places, bindings, hframe, rfl, h.keeps.size, fun hmem => ?_,
      s'.cell?_cons_self frame env⟩
    exact absurd (h.lt_size hmem) (Nat.lt_irrefl _)
  case bound =>
    intro name argument i hname hargument hbefore
    have hfound := hfirst name
    rw [find?_zip_eq_some hname hargument hbefore] at hfound
    obtain ⟨binding, hsome, hcdr⟩ := Option.map_eq_some_iff.mp hfound
    rw [value?, hbinding, hsome, Option.some_or, Except.map, Option.map_some, hcdr]
  case unbound =>
    intro name hnone
    have hfound := hfirst name
    rw [find?_zip_eq_none hnone, Option.map_none, Option.map_eq_none_iff] at hfound
    -- What the captured environment sees has not changed.
    have hcell (binding : Value) (hmem : binding ∈ locals ++ shared) :
        (s'.cons frame env).2.cell? binding = s.cell? binding :=
      hframe.keeps.cell_of_isPair (hsees.isPair binding hmem)
    have hsame : (s'.cons frame env).2.binding? name (.pair s'.size) = s.binding? name env := by
      rw [hbinding, hfound, Option.none_or, ← firstOf_append, hsees.binding?_eq, firstOf_congr]
      exact fun binding hmem => by rw [car, car, hcell binding hmem]
    refine ⟨hsame, value?_congr hsame fun binding hmem => ?_⟩
    rw [hsees.binding?_eq] at hmem
    rw [cdr, cdr, hcell binding (mem_of_firstOf (Except.ok.inj hmem))]

end Store

namespace Action

variable {s s' : Store} {log : Log} {params body env args frame : Value} {serial : Nat}

/-- A closure is applied by making a frame and evaluating the body. -/
theorem apply_closure (hzip : (zip params args : Action Value) ⟨s, log⟩ = .ok frame ⟨s', log⟩)
    (hargs : args.isError = false) (depth : Nat) :
    (apply (depth + 2) (.closure serial params body env) args : Action Value) ⟨s, log⟩ =
      (evaluateBody depth body (.pair s'.size) : Action Value) ⟨(s'.cons frame env).2, log⟩ := by
  have henter : (apply (depth + 2) (.closure serial params body env) args : Action Value) =
      (do
        let frame ← zip params args
        evaluateBody depth body (← cons frame env)) := by
    rw [apply, hargs]
    simp only [Machine.nested, Value.isError, enter, Bool.false_eq_true, if_false]
  rw [henter]
  simp only [Bind.bind, EStateM.bind, hzip]
  rfl

end Action

/-- A list is no error. -/
theorem Store.IsList.isError {s : Store} {v : Value} {elements : List Value}
    (h : s.IsList v elements) : v.isError = false := by
  obtain ⟨places, hlinks⟩ := h
  cases hlinks with
  | done | next => rfl

namespace Chronicle

open Layout

/-- At any point of a session, a closure that is held may be applied to any list of arguments, in a
store that may have grown.  Its body begins with the names bound to the arguments.  And no two
bodies begin with a binding in common. -/
theorem session_activates (log : Log) (limit : Nat) (texts : List (List Char)) :
    let globals := (Interpreter.new log).globals
    let moments := (session log limit texts).2.moments
    (∀ m earlier, m :: earlier <:+ moments → ∀ serial params body env,
      m.Holds globals earlier .value (.closure serial params body env) →
      ∃ names, m.store.elements params = .ok names ∧
        ∀ s, Store.KeepsExcept [] m.store s → ∀ args arguments, s.IsList args arguments →
          ∀ depth noted, ∃ s' inner,
            (apply (depth + 2) (.closure serial params body env) args : Action Value) ⟨s, noted⟩ =
              (evaluateBody depth body inner : Action Value) ⟨s', noted⟩ ∧
            s.Activates s' names arguments env inner) ∧
    ∀ m earlier, m :: earlier <:+ moments → ∀ m' ∈ earlier, ∀ forms env forms' env',
      m.deed = .call (.body forms env) → m'.deed = .call (.body forms' env') →
      ∃ bindings bindings', m.store.IsList (m.store.car env) bindings ∧
        m'.store.IsList (m'.store.car env') bindings' ∧ bindings.Disjoint bindings' := by
  intro globals moments
  constructor
  · intro m earlier hpoint serial params body env hheld
    obtain ⟨L, -, hready, hshown⟩ := session_ready log limit texts hpoint
    obtain ⟨hparams, -, henv⟩ := Matter.closure (hready.kept.held hshown hheld)
    obtain ⟨places, names, tail, hlinks, -, htail, -⟩ := Tree.links hready.kept hparams.1
    obtain ⟨locals, shared, hsees⟩ := Env.sees hready.kept henv
    refine ⟨names, hlinks.elements_eq, fun s hkeeps args arguments hargs depth noted => ?_⟩
    -- The parameters and the environment are the same in the store that has grown.
    have hend (s : Store) : s.cell? tail = none := cell?_of_isPlace htail
    have hkeys := hlinks.keep hkeeps (by simp) (hend s)
    obtain ⟨frame, s', places', bindings, hzip, hframe⟩ :=
      Action.zip_of_links hkeys hend hargs noted
    exact ⟨_, _, Action.apply_closure hzip hargs.isError depth,
      hframe.activates (hsees.keep hkeeps)⟩
  · intro m earlier hpoint m' hmem forms env forms' env' hbody hbody'
    exact (session_ordered log limit texts).disjoint hpoint hmem hbody hbody'

/-- A line with a repeated parameter. -/
def repeated : List Char :=
  "(lambda (x y x) x)".toList

/-- Of the parameters `x`, `y` and `x` again, one argument binds the first only. -/
theorem session_activates_repeated :
    ∃ m earlier s' inner, m :: earlier <:+ (session {} 100 [repeated]).2.moments ∧
      m.store.elements (.pair 28) = .ok [.sym "x", .sym "y", .sym "x"] ∧
      (apply 50 (.closure 12 (.pair 28) (.pair 32) (.pair 0)) (.pair m.store.size) : Action Value)
          ⟨(m.store.cons (.num 1) .nil).2, {}⟩ =
        (evaluateBody 48 (.pair 32) inner : Action Value) ⟨s', {}⟩ ∧
      s'.value? (.sym "x") inner = .ok (some (.num 1)) ∧
      s'.value? (.sym "y") inner =
        (m.store.cons (.num 1) .nil).2.value? (.sym "y") (.pair 0) := by
  have hresult : (session {} 100 [repeated]).1 =
      [.ok (.closure 12 (.pair 28) (.pair 32) (.pair 0))] := by decide +kernel
  have helements : (session {} 100 [repeated]).2.state.store.elements (.pair 28) =
      .ok [.sym "x", .sym "y", .sym "x"] := by decide +kernel
  have hactivates := (session_activates {} 100 [repeated]).1
  obtain ⟨earlier, hmoments⟩ := moments_session hresult
  rw [hmoments] at hactivates ⊢
  generalize (session {} 100 [repeated]).2.state.store = s at *
  generalize (Interpreter.new {}).globals = globals at *
  let m : Moment := ⟨[], s, .ended (.ok (.closure 12 (.pair 28) (.pair 32) (.pair 0)))⟩
  have hheld : m.Holds globals earlier .value (.closure 12 (.pair 28) (.pair 32) (.pair 0)) :=
    .shown ⟨m, List.mem_cons_self, List.mem_singleton_self _⟩
  obtain ⟨names, hnames, happly⟩ := hactivates m earlier (List.suffix_refl _) _ _ _ _ hheld
  obtain rfl := Except.ok.inj (hnames.symm.trans helements)
  have hargs : (s.cons (.num 1) .nil).2.IsList (.pair s.size) [.num 1] :=
    ⟨[s.size], .next (s.cell?_cons_self ..) (.done rfl)⟩
  obtain ⟨s', inner, hrun, h⟩ := happly _ (.cons ..) _ _ hargs 48 {}
  refine ⟨m, earlier, s', inner, List.suffix_refl _, helements, hrun, ?_, ?_⟩
  · have hx : ([.sym "x", .sym "y", .sym "x"] : List Value)[0]? = some (.sym "x") := rfl
    exact h.bound hx rfl (by simp)
  · refine (h.unbound fun i hi => ?_).2
    obtain rfl : i = 0 := by simpa using hi
    decide

end Chronicle

end ConsLisp
