import ConsLisp.Proofs.Chronicle.Session

/-!
# What a program can get hold of

At a moment of a session a program holds all values that have been shown so far: the forms that
were read, the arguments and the results of calls.  It holds their parts, the insides of the
closures among them, and the values of all variables of the environments that it holds; and it
holds the environments of calls and closures and the global one.

Main statements: in a sound chronicle all values that are held are finite trees of atoms and
errors, and all environments are well-formed (`Vouches.held`); no pair of an environment is a pair
of a value (`Env.not_isData`).
-/

namespace ConsLisp

/-- What a reference of a program may be. -/
inductive Sense where
  | value
  | environment

/-- A pair that belongs to an environment: to its own list, to the list of a frame, or to a
binding. -/
inductive Store.Spine (s : Store) (env : Value) : Nat → Prop
  | scope {place : Nat} {places : List Nat} {frames : List Value} {tail : Value}
      (hframes : s.Links env places frames tail) (hplace : place ∈ places) : Spine s env place
  | frame {place : Nat} {places places' : List Nat} {frames bindings : List Value}
      {frame tail tail' : Value} (hframes : s.Links env places frames tail)
      (hframe : frame ∈ frames) (hbindings : s.Links frame places' bindings tail')
      (hplace : place ∈ places') : Spine s env place
  | binding {place : Nat} {places places' : List Nat} {frames bindings : List Value}
      {frame tail tail' : Value} (hframes : s.Links env places frames tail)
      (hframe : frame ∈ frames) (hbindings : s.Links frame places' bindings tail')
      (hbinding : .pair place ∈ bindings) : Spine s env place

/-- What a program holds in a store, if it has been shown this much. -/
inductive Store.Held (s : Store) (shown : Sense → Value → Prop) : Sense → Value → Prop
  | shown {sense : Sense} {v : Value} (h : shown sense v) : Held s shown sense v
  | car {v : Value} {c : Cell} (hcell : s.cell? v = some c) (h : Held s shown .value v) :
      Held s shown .value c.car
  | cdr {v : Value} {c : Cell} (hcell : s.cell? v = some c) (h : Held s shown .value v) :
      Held s shown .value c.cdr
  | params {serial : Nat} {params body env : Value}
      (h : Held s shown .value (.closure serial params body env)) : Held s shown .value params
  | body {serial : Nat} {params body env : Value}
      (h : Held s shown .value (.closure serial params body env)) : Held s shown .value body
  | captured {serial : Nat} {params body env : Value}
      (h : Held s shown .value (.closure serial params body env)) : Held s shown .environment env
  | name {env binding : Value} {places places' : List Nat} {frames bindings : List Value}
      {frame tail tail' : Value} (henv : Held s shown .environment env)
      (hframes : s.Links env places frames tail) (hframe : frame ∈ frames)
      (hbindings : s.Links frame places' bindings tail') (hbinding : binding ∈ bindings) :
      Held s shown .value (s.car binding)
  | contents {env binding : Value} {places places' : List Nat} {frames bindings : List Value}
      {frame tail tail' : Value} (henv : Held s shown .environment env)
      (hframes : s.Links env places frames tail) (hframe : frame ∈ frames)
      (hbindings : s.Links frame places' bindings tail') (hbinding : binding ∈ bindings) :
      Held s shown .value (s.cdr binding)

/-- What the moments so far have shown, beside the global environment. -/
def Moment.shown (globals : Value) (moments : List Moment) : Sense → Value → Prop
  | .value, v => ∃ m ∈ moments, v ∈ m.deed.values
  | .environment, env => env = globals ∨ ∃ m ∈ moments, env ∈ m.deed.envs

/-- What a program holds at a moment. -/
def Moment.Holds (globals : Value) (m : Moment) (earlier : List Moment) :
    Sense → Value → Prop :=
  m.store.Held (Moment.shown globals (m :: earlier))

namespace Layout

variable {L : Layout} {s : Store}

/-- What a layout says of a value or an environment. -/
def Means (L : Layout) : Sense → Value → Prop
  | .value, v => L.Matter v
  | .environment, env => L.Env env

theorem Matter.closure {serial : Nat} {params body env : Value}
    (hv : L.Matter (.closure serial params body env)) :
    L.Code params ∧ L.Code body ∧ L.Env env := by
  cases hv with
  | atom _ hatom => exact hatom.resolve_right (by simp [Value.isError])

/-- The frames of an environment are lists of bindings. -/
theorem Env.frames (h : L.Kept s) {env : Value} (henv : L.Env env) :
    ∃ places frames, s.Links env (places ++ [L.home]) frames .nil ∧
      ∀ frame ∈ frames, ∃ places' bindings, s.Links frame places' (bindings.map .pair) .nil ∧
        L.Frame frame bindings := by
  obtain ⟨bindings, hscope⟩ := henv
  obtain ⟨places, locals, hlinks, hlocals⟩ := hscope.links h
  refine ⟨places, _, hlinks, fun frame hmem => ?_⟩
  rcases List.mem_append.mp hmem with hmem | hmem
  · obtain ⟨i, hi, rfl⟩ := List.getElem_of_mem hmem
    have hframe := hlocals.get hi (hlocals.length_eq ▸ hi)
    obtain ⟨places', hbindings⟩ := hframe.links h
    exact ⟨places', _, hbindings, hframe⟩
  · obtain ⟨globals, hframe⟩ := h.frame_home
    obtain ⟨places', hbindings⟩ := hframe.links h
    rw [List.mem_singleton.mp hmem]
    exact ⟨places', _, hbindings, hframe⟩

theorem Env.isBinding (h : L.Kept s) {env binding : Value} (henv : L.Env env)
    {places places' : List Nat} {frames bindings : List Value} {frame tail tail' : Value}
    (hframes : s.Links env places frames tail) (hframe : frame ∈ frames)
    (hbindings : s.Links frame places' bindings tail') (hbinding : binding ∈ bindings) :
    L.IsBinding binding := by
  obtain ⟨_, frames', hframes', hall⟩ := henv.frames h
  obtain ⟨-, rfl, -⟩ := hframes.functional hframes'
  obtain ⟨_, numbers, hnumbers, hv⟩ := hall frame hframe
  obtain ⟨-, rfl, -⟩ := hbindings.functional hnumbers
  obtain ⟨number, hmem, rfl⟩ := List.mem_map.mp hbinding
  obtain ⟨name, hrole⟩ := hv.isBinding hmem
  exact ⟨number, name, rfl, hrole⟩

/-- Is the cell a pair of program text or of a value? -/
def IsData (L : Layout) (place : Nat) : Prop :=
  ∃ a d, L.role place = some (.data a d)

theorem not_isData {place : Nat} {role : Role} (hrole : L.role place = some role)
    (hdata : ∀ a d, role ≠ .data a d) : ¬L.IsData place := by
  rintro ⟨a, d, h⟩
  exact hdata a d (Option.some.inj (hrole.symm.trans h))

theorem Frame.not_isData (h : L.Kept s) {frame tail : Value} {numbers places : List Nat}
    {bindings : List Value} (hframe : L.Frame frame numbers)
    (hlinks : s.Links frame places bindings tail) {place : Nat} (hmem : place ∈ places) :
    ¬L.IsData place := by
  induction hframe generalizing places bindings with
  | nil =>
    cases hlinks with
    | done => simp at hmem
  | cons hrole _ _ ih =>
    cases hlinks with
    | done => simp at hmem
    | next hcell hrest =>
      obtain ⟨rfl, rfl⟩ : _ ∧ _ := by simpa [h.cell_frame hrole] using hcell
      rcases List.mem_cons.mp hmem with rfl | hmem
      · exact Layout.not_isData hrole (by simp)
      · exact ih hrest hmem

theorem Scope.not_isData (h : L.Kept s) {env tail : Value} {numbers : List (List Nat)}
    {places : List Nat} {frames : List Value} (henv : L.Scope env numbers)
    (hlinks : s.Links env places frames tail) {place : Nat} (hmem : place ∈ places) :
    ¬L.IsData place := by
  induction henv generalizing places frames with
  | globals =>
    cases hlinks with
    | done => simp at hmem
    | next hcell hrest =>
      obtain ⟨frame, _, hhome, -⟩ := h.cell_home
      obtain ⟨rfl, rfl⟩ : _ ∧ _ := by simpa [hhome] using hcell
      cases hrest with
      | done =>
        rw [List.mem_singleton.mp hmem]
        exact Layout.not_isData h.home (by simp)
  | cons hrole _ _ ih =>
    cases hlinks with
    | done => simp at hmem
    | next hcell hrest =>
      obtain ⟨rfl, rfl⟩ : _ ∧ _ := by simpa [h.cell_scope hrole] using hcell
      rcases List.mem_cons.mp hmem with rfl | hmem
      · exact Layout.not_isData hrole (by simp)
      · exact ih hrest hmem

/-- No pair of an environment is a pair of data. -/
theorem Env.not_isData (h : L.Kept s) {env : Value} (henv : L.Env env) {place : Nat}
    (hspine : s.Spine env place) : ¬L.IsData place := by
  cases hspine with
  | scope hframes hplace =>
    obtain ⟨numbers, hscope⟩ := henv
    exact hscope.not_isData h hframes hplace
  | frame hframes hframe hbindings hplace =>
    obtain ⟨_, frames', hframes', hall⟩ := henv.frames h
    obtain ⟨-, rfl, -⟩ := hframes.functional hframes'
    obtain ⟨_, numbers, -, hv⟩ := hall _ hframe
    exact hv.not_isData h hbindings hplace
  | binding hframes hframe hbindings hbinding =>
    obtain ⟨_, name, hpair, hrole⟩ := henv.isBinding h hframes hframe hbindings hbinding
    obtain rfl := Value.pair.inj hpair
    exact Layout.not_isData hrole (by simp)

/-- A pair of a value is a pair of data. -/
theorem Matter.isData {place : Nat} (hv : L.Matter (.pair place)) : L.IsData place := by
  cases hv with
  | atom hplace => simp [Value.isPlace] at hplace
  | pair hrole => exact ⟨_, _, hrole⟩

/-- All that is held is what the layout says, if all that is shown is. -/
theorem Kept.held (h : L.Kept s) {shown : Sense → Value → Prop}
    (hshown : ∀ sense v, shown sense v → L.Means sense v) {sense : Sense} {v : Value}
    (hv : s.Held shown sense v) : L.Means sense v := by
  induction hv with
  | shown hs => exact hshown _ _ hs
  | car hcell _ ih => exact Tree.part h ih (.car .refl hcell)
  | cdr hcell _ ih => exact Tree.part h ih (.cdr .refl hcell)
  | params _ ih => exact (Matter.closure ih).1.data.matter
  | body _ ih => exact (Matter.closure ih).2.1.data.matter
  | captured _ ih => exact (Matter.closure ih).2.2
  | name _ hframes hframe hbindings hbinding ih =>
    obtain ⟨place, name, rfl, hrole⟩ := Env.isBinding h ih hframes hframe hbindings hbinding
    obtain ⟨value, hcell, hname, -⟩ := h.cell_binding hrole
    simpa [Means, Store.car, hcell] using hname.matter
  | contents _ hframes hframe hbindings hbinding ih =>
    obtain ⟨place, name, rfl, hrole⟩ := Env.isBinding h ih hframes hframe hbindings hbinding
    obtain ⟨value, hcell, -, hvalue⟩ := h.cell_binding hrole
    simpa [Means, Store.cdr, hcell] using hvalue.matter

end Layout

/-! ## At a moment of a session -/

/-- Each moment of an account has a layout that vouches for it and for those before. -/
theorem Accounted.of_suffix {o : Opening} {moments : List Moment} (h : Accounted o moments)
    {m : Moment} {earlier : List Moment} (hsuffix : m :: earlier <:+ moments) :
    Accounted o (m :: earlier) := by
  induction moments with
  | nil => simp at hsuffix
  | cons first rest ih =>
    rcases List.suffix_cons_iff.mp hsuffix with heq | hsuffix
    · exact heq ▸ h
    · exact ih h.2.2.2 hsuffix

/-- What has been known of a moment was known to a layout that has settled since. -/
theorem Layout.Oversees.knew {L : Layout} {o : Opening} {m : Moment} {earlier : List Moment}
    (hover : L.Oversees o m.store earlier) (h : L.Vouches m) {m' : Moment}
    (hmem : m' ∈ m :: earlier) : ∃ old : Layout, old.Settles L ∧ old.Knows m'.store m'.deed := by
  rcases List.mem_cons.mp hmem with rfl | hmem
  · exact ⟨L, Layout.settles_refl, h.knows⟩
  · obtain ⟨old, hvouches, hrecalls⟩ := hover.past m' hmem
    exact ⟨old, hrecalls.settles, hvouches.knows⟩

/-- What has been shown up to a moment is what its layout says. -/
theorem Layout.Vouches.shown {L : Layout} {o : Opening} {m : Moment} {earlier : List Moment}
    (h : L.Vouches m) (hover : L.Oversees o m.store earlier) {sense : Sense} {v : Value}
    (hv : Moment.shown (.pair o.layout.home) (m :: earlier) sense v) : L.Means sense v := by
  cases sense with
  | value =>
    obtain ⟨m', hmem, hvalue⟩ := hv
    obtain ⟨old, hsettles, hknown⟩ := hover.knew h hmem
    exact (hknown.values hvalue).mono hsettles
  | environment =>
    rcases hv with rfl | ⟨m', hmem, henv⟩
    · rw [hover.opening.settles.home]
      exact ⟨[], .globals⟩
    · obtain ⟨old, hsettles, hknown⟩ := hover.knew h hmem
      exact (hknown.envs henv).mono hsettles

/-- What is held at a moment is what its layout says. -/
theorem Layout.Vouches.held {L : Layout} {o : Opening} {m : Moment} {earlier : List Moment}
    (h : L.Vouches m) (hover : L.Oversees o m.store earlier) {sense : Sense} {v : Value}
    (hv : m.Holds (.pair o.layout.home) earlier sense v) : L.Means sense v :=
  h.kept.held (fun _ _ => h.shown hover) hv

end ConsLisp
