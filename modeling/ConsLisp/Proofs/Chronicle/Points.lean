import ConsLisp.Proofs.Chronicle.Held
import ConsLisp.Proofs.Sequence
import ConsLisp.Proofs.Store.Visible

/-!
# Evaluation from any point of a session

A point of a session is a moment with those before it.  Any form that the program holds there might
be evaluated in any environment that occurs there, by a call in progress or by a closure that is
called later.  Statements about such an evaluation speak about all of these at once: its state
begins with the store of the point, and its nesting limit and log are arbitrary.  A form that is new
to the session is held as soon as one more line has read it.

Main statements: at each point the store keeps to a layout that knows what is held
(`session_ready`), the layout may learn the form (`session_poses`), and evaluation leads to a store
of the same kind (`Ready.evaluate`).
-/

namespace ConsLisp

/-- A form as lines spell it: an atom that stands in texts, or a list of forms. -/
inductive Store.IsForm (s : Store) : Value → Prop
  | atom {v : Value} (htoken : v.IsToken) : IsForm s v
  | pair {place : Nat} {a d : Value} (hcell : s.cell? (.pair place) = some ⟨a, d⟩)
      (hcar : IsForm s a) (hcdr : IsForm s d) (hlist : d.isPlace = true ∨ d = .nil) :
      IsForm s (.pair place)

namespace Moment

/-- The form and the environment are held at the moment, so the one may be evaluated in the
other. -/
structure Poses (globals : Value) (m : Moment) (earlier : List Moment) (form env : Value) :
    Prop where
  environment : m.Holds globals earlier .environment env
  held : m.Holds globals earlier .value form
  isForm : m.store.IsForm form

/-- What a program holds in a later store, if one more value has been shown since. -/
def HoldsWith (globals : Value) (moments : List Moment) (s : Store) (answer : Value) :
    Sense → Value → Prop :=
  s.Held fun sense v => shown globals moments sense v ∨ sense = .value ∧ v = answer

end Moment

namespace Layout

variable {L M : Layout} {s : Store}

/-- The first element of a list of program text, and the list behind it. -/
theorem Code.uncons (h : L.Kept s) {form first : Value} {rest : List Value} (hcode : L.Code form)
    (helements : s.elements form = .ok (first :: rest)) :
    ∃ place d, form = .pair place ∧ L.role place = some (.data first d) ∧ L.Code first ∧
      L.Code d ∧ s.elements d = .ok rest := by
  obtain ⟨htree, hgiven⟩ := hcode
  cases htree with
  | atom hplace =>
    have hlinks : s.Links form [] [] form := .done (cell?_of_isPlace hplace)
    simp [hlinks.elements_eq] at helements
  | @pair place a d hrole hcar hcdr =>
    obtain ⟨places, elements, tail, hlinks, -⟩ := Tree.links h hcdr
    have hwhole := Store.Links.next (h.cell_data hrole) hlinks
    obtain ⟨rfl, rfl⟩ : a = first ∧ elements = rest := by simpa [hwhole.elements_eq] using helements
    exact ⟨place, d, rfl, hrole, ⟨hcar, .car hrole hgiven⟩, ⟨hcdr, .cdr hrole hgiven⟩,
      hlinks.elements_eq⟩

/-- An environment sees the bindings of its frames. -/
theorem Scope.sees (h : L.Kept s) {env : Value} {frames : List (List Nat)}
    (henv : L.Scope env frames) {shared : List Nat}
    (hshared : L.Frame (L.globalFrame s) shared) :
    s.Sees (.pair L.home) env (frames.flatten.map .pair) (shared.map .pair) := by
  obtain ⟨places, locals, hlinks, hlocals⟩ := henv.links h
  have hlists : List.Forall₂ s.IsList locals (frames.map (List.map .pair)) := by
    rw [List.forall₂_map_right_iff]
    exact hlocals.imp fun frame bindings hframe => hframe.isList h
  have hbinding {binding : Value} (hmem : binding ∈ frames.flatten.map .pair ++ shared.map .pair) :
      L.IsBinding binding := by
    rw [← List.map_append] at hmem
    obtain ⟨place, hplace, rfl⟩ := List.mem_map.mp hmem
    obtain ⟨name, hrole⟩ := henv.isBinding_append hshared place hplace
    exact ⟨place, name, rfl, hrole⟩
  refine ⟨⟨places, L.home, locals, L.globalFrame s, _, rfl, hlinks, hlists, ?_, hshared.isList h⟩,
    fun binding hmem => ?_, fun hmem => ?_⟩
  · rw [List.map_flatten]
  · obtain ⟨place, name, rfl, hrole⟩ := hbinding hmem
    exact h.isPair hrole
  · -- The global cell has a role of its own.
    obtain ⟨place, name, hhome, hrole⟩ := hbinding hmem
    rw [← Value.pair.inj hhome, h.home] at hrole
    simp at hrole

theorem Env.sees (h : L.Kept s) {env : Value} (henv : L.Env env) :
    ∃ locals shared, s.Sees (.pair L.home) env locals shared := by
  obtain ⟨frames, hscope⟩ := henv
  obtain ⟨shared, hshared⟩ := h.frame_home
  exact ⟨_, _, hscope.sees h hshared⟩

/-! ## Stores in which evaluation may begin -/

/-- A store in which evaluation may begin, with a layout for it. -/
structure Ready (L : Layout) (s : Store) : Prop where
  full : L.vocabulary.IsFull
  kept : L.Kept s
  lists : L.ReadsLists

theorem Means.mono (h : L.Settles M) {sense : Sense} {v : Value} (hv : L.Means sense v) :
    M.Means sense v := by
  cases sense with
  | value => exact Matter.mono h hv
  | environment => exact Env.mono h hv

/-- A form that is made of pairs of data is a tree of words. -/
theorem Kept.tree_of_isForm (h : L.Kept s) (hfull : L.vocabulary.IsFull) {form : Value}
    (hform : s.IsForm form) (hmatter : L.Matter form) : L.Tree L.vocabulary.word form := by
  induction hform with
  | atom htoken => exact .atom (Value.isPlace_of_isToken htoken) (hfull _ htoken)
  | pair hcell _ _ _ ihcar ihcdr =>
    obtain ⟨place, hpair, hrole, hcar, hcdr⟩ := Tree.cell h hmatter hcell
    obtain rfl := Value.pair.inj hpair
    exact .pair hrole (ihcar hcar) (ihcdr hcdr)

/-- At the end of a form that is a pair stands `nil`. -/
theorem Kept.within_nil_of_isForm (h : L.Kept s) {form : Value} (hform : s.IsForm form)
    (hmatter : L.Matter form) (hplace : form.isPlace = true) : L.Within form .nil := by
  induction hform with
  | atom htoken => simp [Value.isPlace_of_isToken htoken] at hplace
  | pair hcell _ _ hlist _ ih =>
    obtain ⟨place, hpair, hrole, -, hcdr⟩ := Tree.cell h hmatter hcell
    obtain rfl := Value.pair.inj hpair
    have hrest : L.Within (.pair _) _ := .cdr hrole .refl
    rcases hlist with hplace | rfl
    · exact hrest.trans (ih hcdr hplace)
    · exact hrest

namespace Ready

/-- A form that is held may be learned. -/
theorem learn (h : L.Ready s) {form : Value} (hmatter : L.Matter form) (hform : s.IsForm form) :
    L ≤ L.learn form ∧ (L.learn form).Ready s ∧ (L.learn form).Code form := by
  have hle := L.le_learn form
  have hsettles := settles_of_le hle
  have htree := h.kept.tree_of_isForm h.full hform hmatter
  refine ⟨hle, ⟨h.full, h.kept.learn form, ?_⟩, htree.mono hsettles fun _ hword => hword,
    form, .inr rfl, .refl⟩
  rintro place (hplace | hplace)
  · exact (h.lists place hplace).mono hsettles
  · subst hplace
    exact (h.kept.within_nil_of_isForm hform hmatter rfl).mono hsettles

/-- Evaluation leads to a store in which it may begin again, with a layout that has grown. -/
theorem evaluate (h : L.Ready s) {form env v : Value} (hform : L.Code form) (henv : L.Env env)
    {depth : Nat} {log : Log} {state : State}
    (hrun : (ConsLisp.evaluate depth form env : Action Value) ⟨s, log⟩ = .ok v state) :
    ∃ M, L ≤ M ∧ M.Ready state.store ∧ M.Outcome v := by
  -- The same evaluation is watched, in a chronicle that begins here.
  have hsound := h.kept.sound h.lists log depth
  have hleads := (Chronicle.Leads.evaluation depth).evaluate hsound (Nat.zero_add depth) hform henv
  have hwatch := ((Watches.relation.evaluation_self depth).evaluate form env).run []
    ⟨⟨s, log⟩, []⟩
  unfold Chronicle.Leads at hleads
  cases hwatched : (ConsLisp.evaluate depth form env : Watched Value) [] ⟨⟨s, log⟩, []⟩ with
  | error abort c => simp [hwatched, hrun] at hwatch
  | ok w c =>
    simp only [hwatched, hrun, EStateM.Result.ok.injEq] at hwatch hleads
    obtain ⟨rfl, rfl⟩ := hwatch
    obtain ⟨M, hle, hsound', houtcome⟩ := hleads
    exact ⟨M, hle, ⟨hle.1 ▸ h.full, hsound'.kept, hsound'.oversees.lists⟩, houtcome⟩

/-- What is held with one more value is what the layout says of it. -/
theorem heldWith (h : L.Ready s) {globals answer : Value} {moments : List Moment}
    (hshown : ∀ sense v, Moment.shown globals moments sense v → L.Means sense v)
    (hanswer : L.Outcome answer) {sense : Sense} {v : Value}
    (hv : Moment.HoldsWith globals moments s answer sense v) : L.Means sense v := by
  refine h.kept.held (fun sense v hv => ?_) hv
  rcases hv with hv | ⟨rfl, rfl⟩
  · exact hshown sense v hv
  · exact hanswer.matter

end Ready

end Layout

namespace Chronicle

open Layout

/-- At each point of a session evaluation may begin, with a layout that knows what has been
shown. -/
theorem session_ready (log : Log) (limit : Nat) (texts : List (List Char)) {m : Moment}
    {earlier : List Moment} (hpoint : m :: earlier <:+ (session log limit texts).2.moments) :
    ∃ L : Layout, (Interpreter.new log).globals = .pair L.home ∧ L.Ready m.store ∧
      ∀ sense v, Moment.shown (Interpreter.new log).globals (m :: earlier) sense v →
        L.Means sense v := by
  obtain ⟨o, M, -, hglobals, -, -, hfull, -, hsound⟩ := session_sound_within log limit texts
  obtain ⟨-, ⟨L, hvouches, hover⟩, -⟩ := hsound.accounted.of_suffix hpoint
  have hsettles := hover.opening.settles
  refine ⟨L, hglobals.trans (hsettles.home ▸ rfl), ⟨?_, hover.kept, hover.lists⟩, ?_⟩
  · rw [← hsettles.vocabulary, hsound.oversees.opening.settles.vocabulary]
    exact hfull
  · rw [hglobals]
    exact fun sense v hv => hvouches.shown hover hv

/-- At each point of a session a form that may be evaluated there is program text, and the
environment for it is one. -/
theorem session_poses (log : Log) (limit : Nat) (texts : List (List Char)) {m : Moment}
    {earlier : List Moment} (hpoint : m :: earlier <:+ (session log limit texts).2.moments)
    {form env : Value} (hposed : m.Poses (Interpreter.new log).globals earlier form env) :
    ∃ L : Layout, (Interpreter.new log).globals = .pair L.home ∧ L.Ready m.store ∧
      L.Code form ∧ L.Env env ∧
      ∀ sense v, Moment.shown (Interpreter.new log).globals (m :: earlier) sense v →
        L.Means sense v := by
  obtain ⟨L, hglobals, hready, hshown⟩ := session_ready log limit texts hpoint
  have henv := hready.kept.held hshown hposed.environment
  obtain ⟨hle, hready', hcode⟩ :=
    hready.learn (hready.kept.held hshown hposed.held) hposed.isForm
  have hsettles := settles_of_le hle
  exact ⟨L.learn form, hglobals, hready', hcode, Env.mono hsettles henv,
    fun sense v hv => (hshown sense v hv).mono hsettles⟩

/-! ## An example -/

/-- A line that leaves a closure without parameters.  Its body assigns to a variable of the captured
environment, and then it applies a primitive. -/
def sample : List Char :=
  "((lambda (x) (lambda () (setq x t) (cons x x))) 2)".toList

/-- The store after the line. -/
def sampleStore : Store :=
  (session {} 100 [sample]).2.state.store

theorem moments_session {log : Log} {limit : Nat} {text : List Char} {result : Except Abort Value}
    (h : (session log limit [text]).1 = [result]) :
    ∃ earlier, (session log limit [text]).2.moments =
      ⟨[], (session log limit [text]).2.state.store, .ended result⟩ :: earlier := by
  let i := Interpreter.new log
  obtain ⟨earlier, hmoments⟩ := moments_line limit i.globals text ⟨i.state, []⟩
  have hresult : (line limit i.globals text ⟨i.state, []⟩).1 = result := List.singleton_inj.mp h
  rw [hresult] at hmoments
  exact ⟨earlier, hmoments⟩

/-- After a line that answers with a closure, its environment and its body are held. -/
theorem holds_captured {log : Log} {limit : Nat} {text : List Char} {serial : Nat}
    {params body env : Value}
    (h : (session log limit [text]).1 = [.ok (.closure serial params body env)]) :
    ∃ m earlier, m :: earlier <:+ (session log limit [text]).2.moments ∧
      m.store = (session log limit [text]).2.state.store ∧
      m.Holds (Interpreter.new log).globals earlier .environment env ∧
      m.Holds (Interpreter.new log).globals earlier .value body := by
  obtain ⟨earlier, hmoments⟩ := moments_session h
  let closure := Value.closure serial params body env
  let m : Moment := ⟨[], (session log limit [text]).2.state.store, .ended (.ok closure)⟩
  have hclosure : m.Holds (Interpreter.new log).globals earlier .value closure :=
    .shown ⟨m, List.mem_cons_self, List.mem_singleton_self _⟩
  rw [hmoments]
  exact ⟨m, earlier, List.suffix_refl _, rfl, .captured hclosure, .body hclosure⟩

theorem sample_result :
    (session {} 100 [sample]).1 = [.ok (.closure 13 .nil (.pair 35) (.pair 46))] := by
  decide +kernel

/-- After the line both forms of the body may be evaluated in the captured environment. -/
theorem sample_poses :
    ∃ m earlier, m :: earlier <:+ (session {} 100 [sample]).2.moments ∧ m.store = sampleStore ∧
      m.Poses (Interpreter.new {}).globals earlier (.pair 32) (.pair 46) ∧
      m.Poses (Interpreter.new {}).globals earlier (.pair 36) (.pair 46) := by
  obtain ⟨m, earlier, hpoint, hstore, henv, hlist⟩ := holds_captured sample_result
  obtain ⟨hbody, hassign, hname, hoperand, hlast, happly, hfirst, hsecond⟩ :
      sampleStore.cell? (.pair 35) = some ⟨.pair 32, .pair 39⟩ ∧
      sampleStore.cell? (.pair 32) = some ⟨.sym "setq", .pair 33⟩ ∧
      sampleStore.cell? (.pair 33) = some ⟨.sym "x", .pair 34⟩ ∧
      sampleStore.cell? (.pair 34) = some ⟨.sym "t", .nil⟩ ∧
      sampleStore.cell? (.pair 39) = some ⟨.pair 36, .nil⟩ ∧
      sampleStore.cell? (.pair 36) = some ⟨.sym "cons", .pair 37⟩ ∧
      sampleStore.cell? (.pair 37) = some ⟨.sym "x", .pair 38⟩ ∧
      sampleStore.cell? (.pair 38) = some ⟨.sym "x", .nil⟩ := by decide +kernel
  have hsample : m.store = sampleStore := hstore
  rw [← hsample] at hbody hassign hname hoperand hlast happly hfirst hsecond
  refine ⟨m, earlier, hpoint, hsample, ⟨henv, .car hbody hlist, ?_⟩,
    ⟨henv, .car hlast (.cdr hbody hlist), ?_⟩⟩
  · exact .pair hassign (.atom trivial) (.pair hname (.atom trivial)
      (.pair hoperand (.atom trivial) (.atom trivial) (.inr rfl)) (.inl rfl)) (.inl rfl)
  · exact .pair happly (.atom trivial) (.pair hfirst (.atom trivial)
      (.pair hsecond (.atom trivial) (.atom trivial) (.inr rfl)) (.inl rfl)) (.inl rfl)

end Chronicle

end ConsLisp
