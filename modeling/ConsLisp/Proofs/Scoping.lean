import ConsLisp.Proofs.Chronicle.Held

/-!
# Environments

Every environment that is handed to a call or captured by a closure is a list of frames that
ends in the global cell, and every frame is a list of pairs.  The global cell holds one frame,
which only grows at its front: the bindings of an earlier store are the last ones of each later
store, in the same order and under the same names, whatever their values are then.

Main statement: all of this at every moment of every session (`session_keeps_scopes`).
-/

namespace ConsLisp

namespace Store

/-- The environment is a list of frames, the last cell of which is the global one, and each
frame is a list of pairs. -/
def ProperEnvironment (s : Store) (globals env : Value) : Prop :=
  ∃ places last frames, globals = .pair last ∧ s.Links env (places ++ [last]) frames .nil ∧
    ∀ frame ∈ frames, ∃ places' bindings, s.Links frame places' bindings .nil ∧
      ∀ binding ∈ bindings, s.isPair binding = true

/-- The global frame of the earlier store is a tail of the one of this store, with the same
names. -/
def Grows (globals : Value) (s earlier : Store) : Prop :=
  ∃ newPlaces places newBindings bindings,
    s.Links (s.car globals) (newPlaces ++ places) (newBindings ++ bindings) .nil ∧
      earlier.Links (earlier.car globals) places bindings .nil ∧
      ∀ binding ∈ bindings, s.car binding = earlier.car binding

end Store

/-- The stores of a chronicle, newest first. -/
def Chronicle.stores (first : Store) (c : Chronicle) : List Store :=
  c.state.store :: (c.moments.map Moment.store ++ [first])

namespace Layout

variable {L : Layout} {s : Store} {o : Opening}

theorem Env.proper (h : L.Kept s) {env : Value} (henv : L.Env env) :
    s.ProperEnvironment (.pair L.home) env := by
  obtain ⟨places, frames, hframes, hall⟩ := henv.frames h
  refine ⟨places, L.home, frames, rfl, hframes, fun frame hmem => ?_⟩
  obtain ⟨places', bindings, hbindings, hframe⟩ := hall frame hmem
  refine ⟨places', _, hbindings, fun binding hbinding => ?_⟩
  obtain ⟨number, hnumber, rfl⟩ := List.mem_map.mp hbinding
  obtain ⟨name, hrole⟩ := hframe.isBinding hnumber
  exact h.isPair hrole

/-- In front of a tail stand the pairs that are new. -/
theorem Tail.links (h : L.Kept s) {u v tail : Value} {places : List Nat} {elements : List Value}
    (htail : L.Tail u v) (hv : s.Links v places elements tail) :
    ∃ newPlaces newElements, s.Links u (newPlaces ++ places) (newElements ++ elements) tail := by
  induction htail with
  | refl => exact ⟨[], [], hv⟩
  | @cons place binding rest v hrole _ ih =>
    obtain ⟨newPlaces, newElements, hlinks⟩ := ih hv
    exact ⟨place :: newPlaces, binding :: newElements, .next (h.cell_frame hrole) hlinks⟩

/-- A layout that recalls an earlier store has a global frame that has grown since. -/
theorem Recalls.grows (h : L.Kept s) {earlier : Store} {old : Layout}
    (hold : L.Recalls (L.globalFrame s) earlier old) : s.Grows (.pair L.home) earlier := by
  obtain ⟨numbers, hframe⟩ := hold.kept.frame_home
  obtain ⟨places, hlinks⟩ := hframe.links_of_settles
  have hlinks' := hlinks L s hold.settles h
  obtain ⟨newPlaces, newBindings, hnew⟩ := hold.tail.links h hlinks'
  refine ⟨newPlaces, places, newBindings, _, hnew, ?_, fun binding hbinding => ?_⟩
  · rw [← hold.settles.home]
    exact hlinks old earlier settles_refl hold.kept
  · obtain ⟨number, hnumber, rfl⟩ := List.mem_map.mp hbinding
    obtain ⟨name, hrole⟩ := hframe.isBinding hnumber
    obtain ⟨value, hcell, -⟩ := hold.kept.cell_binding hrole
    obtain ⟨value', hcell', -⟩ := h.cell_binding (hold.settles.role hrole rfl)
    simp [Store.car, hcell, hcell']

theorem Oversees.grows {earlier : List Moment} (h : L.Oversees o s earlier) {s' : Store}
    (hmem : s' ∈ earlier.map Moment.store ++ [o.store]) : s.Grows (.pair o.layout.home) s' := by
  rw [h.opening.settles.home]
  rcases List.mem_append.mp hmem with hmem | hmem
  · obtain ⟨m, hm, rfl⟩ := List.mem_map.mp hmem
    obtain ⟨old, -, hrecalls⟩ := h.past m hm
    exact hrecalls.grows h.kept
  · rw [List.mem_singleton.mp hmem]
    exact h.opening.grows h.kept

end Layout

/-- The stores of an account: the global frame of each is a tail of those of the later ones. -/
theorem Accounted.grows {o : Opening} {moments : List Moment} (h : Accounted o moments) :
    (moments.map Moment.store ++ [o.store]).Pairwise (Store.Grows (.pair o.layout.home)) := by
  induction moments with
  | nil => simp
  | cons m earlier ih =>
    obtain ⟨-, ⟨L, -, hover⟩, -, hrest⟩ := h
    exact List.pairwise_cons.mpr ⟨fun s' hmem => hover.grows hmem, ih hrest⟩

/-- Each store of an account keeps to a layout into which the first one has settled. -/
theorem Accounted.kept {o : Opening} {moments : List Moment} (h : Accounted o moments)
    (hopening : o.layout.Kept o.store) {s : Store}
    (hmem : s ∈ moments.map Moment.store ++ [o.store]) :
    ∃ L : Layout, o.layout.Settles L ∧ L.Kept s := by
  induction moments with
  | nil =>
    rw [List.map_nil, List.nil_append] at hmem
    exact ⟨o.layout, Layout.settles_refl, List.mem_singleton.mp hmem ▸ hopening⟩
  | cons m earlier ih =>
    obtain ⟨-, ⟨L, -, hover⟩, -, hrest⟩ := h
    rcases List.mem_cons.mp hmem with rfl | hmem
    · exact ⟨L, hover.opening.settles, hover.kept⟩
    · exact ih hrest hmem

namespace Chronicle

variable {c : Chronicle} {o : Opening} {L : Layout} {callers : List Caller}

theorem Sound.grows (h : c.Sound o L callers) :
    (c.stores o.store).Pairwise (Store.Grows (.pair o.layout.home)) :=
  List.pairwise_cons.mpr ⟨fun _ hmem => h.oversees.grows hmem, h.accounted.grows⟩

/-- At every point the global cell holds one frame. -/
theorem Sound.single (h : c.Sound o L callers) {s : Store} (hmem : s ∈ c.stores o.store) :
    ∃ frame, s.cell? (.pair o.layout.home) = some ⟨frame, .nil⟩ := by
  obtain ⟨M, hsettles, hkept⟩ : ∃ M : Layout, o.layout.Settles M ∧ M.Kept s := by
    rcases List.mem_cons.mp hmem with rfl | hmem
    · exact ⟨L, h.oversees.opening.settles, h.kept⟩
    · exact h.accounted.kept h.oversees.opening.kept hmem
  obtain ⟨frame, bindings, hcell, -⟩ := hkept.cell_home
  exact ⟨frame, hsettles.home ▸ hcell⟩

/-- Every store is the first one or has grown since. -/
theorem Sound.grows_or_eq (h : c.Sound o L callers) {s : Store} (hmem : s ∈ c.stores o.store) :
    s = o.store ∨ s.Grows (.pair o.layout.home) o.store := by
  have hpairwise := h.grows
  rw [stores, ← List.cons_append, List.pairwise_append] at hpairwise
  rw [stores, ← List.cons_append, List.mem_append, List.mem_singleton] at hmem
  rcases hmem with hmem | rfl
  · exact .inr (hpairwise.2.2 s hmem o.store (List.mem_singleton_self _))
  · exact .inl rfl

end Chronicle

namespace Store

/-- The bindings of an earlier store stand last, as the same pairs and under the same names. -/
theorem Grows.bindingsOf {globals : Value} {s earlier : Store} (h : s.Grows globals earlier)
    {bindings : List Binding}
    (hbindings : earlier.bindingsOf (earlier.car globals) = .ok bindings) :
    ∃ added kept, s.bindingsOf (s.car globals) = .ok (added ++ kept) ∧
      kept.map Binding.pair = bindings.map Binding.pair ∧
      kept.map Binding.name = bindings.map Binding.name := by
  obtain ⟨newPlaces, places, newPairs, pairs, hlinks, hlinks', hnames⟩ := h
  simp only [Store.bindingsOf, hlinks'.elements_eq, bind, Except.bind, pure, Except.pure,
    Except.ok.injEq] at hbindings
  refine ⟨newPairs.map fun pair => ⟨pair, s.car pair, s.cdr pair⟩,
    pairs.map fun pair => ⟨pair, s.car pair, s.cdr pair⟩, ?_, ?_, ?_⟩
  · simp [Store.bindingsOf, hlinks.elements_eq, bind, Except.bind, pure, Except.pure]
  · simp [← hbindings]
  · simpa [← hbindings] using hnames

end Store

namespace Interpreter

/-- A new interpreter binds the true value and the primitives, the first of which stands
last. -/
theorem names_initial (log : Log) :
    (new log).initial.map Binding.name =
      .t :: (Primitive.all.map fun p => Value.sym p.name).reverse :=
  rfl

theorem bindingsOf_initial (log : Log) :
    (new log).state.store.bindingsOf ((new log).state.store.car (new log).globals) =
      .ok (new log).initial :=
  rfl

end Interpreter

namespace Chronicle

/-- At every moment of a session, all environments of calls and closures are lists of frames
that end in the global cell; that cell holds a single frame; and from the opening to the end of
the session this frame only grows at its front, so the thirteen bindings that a new interpreter
starts with stay the last ones. -/
theorem session_keeps_scopes (log : Log) (limit : Nat) (texts : List (List Char)) :
    let i := Interpreter.new log
    let watched := session log limit texts
    let stores := watched.2.stores i.state.store
    (watched.1 = (i.evalAll limit texts).1 ∧ watched.2.state = (i.evalAll limit texts).2.state) ∧
      (∀ m earlier, m :: earlier <:+ watched.2.moments → ∀ env,
        m.Holds i.globals earlier .environment env → m.store.ProperEnvironment i.globals env) ∧
      (∀ s ∈ stores, ∃ frame, s.cell? i.globals = some ⟨frame, .nil⟩) ∧
      stores.Pairwise (Store.Grows i.globals) ∧
      ∀ s ∈ stores, ∃ added kept, s.bindingsOf (s.car i.globals) = .ok (added ++ kept) ∧
        kept.map Binding.pair = i.initial.map Binding.pair ∧
        kept.map Binding.name = .t :: (Primitive.all.map fun p => Value.sym p.name).reverse := by
  intro i watched stores
  obtain ⟨o, L, hstore, hglobals, hsound⟩ := session_sound log limit texts
  have hhome : (.pair o.layout.home : Value) = i.globals := hglobals.symm
  have hopening : i.state.store = o.store := hstore.symm
  have hstores : stores = watched.2.stores o.store := by rw [← hopening]
  refine ⟨session_eq_evalAll log limit texts, ?_, ?_, ?_, ?_⟩
  · intro m earlier hsuffix env henv
    obtain ⟨-, ⟨M, hvouches, hover⟩, -⟩ := hsound.accounted.of_suffix hsuffix
    rw [← hhome] at henv ⊢
    rw [hover.opening.settles.home]
    exact Layout.Env.proper hover.kept (hvouches.held hover henv)
  · intro s hmem
    rw [← hhome]
    exact hsound.single (hstores ▸ hmem)
  · rw [← hhome, hstores]
    exact hsound.grows
  · intro s hmem
    have hinitial := Interpreter.bindingsOf_initial log
    rcases hsound.grows_or_eq (hstores ▸ hmem) with rfl | hgrows
    · refine ⟨[], i.initial, ?_, rfl, Interpreter.names_initial log⟩
      rw [← hopening]
      exact hinitial
    · rw [hhome, ← hopening] at hgrows
      obtain ⟨added, kept, hbindings, hpairs, hnames⟩ := hgrows.bindingsOf hinitial
      exact ⟨added, kept, hbindings, hpairs, hnames.trans (Interpreter.names_initial log)⟩

end Chronicle

end ConsLisp
