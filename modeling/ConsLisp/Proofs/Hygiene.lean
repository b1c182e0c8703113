import ConsLisp.Proofs.Reference.Tokens
import ConsLisp.Proofs.Termination
import ConsLisp.Proofs.Widening

/-!
# Bindings that nobody asks for

An interpreter may have extra bindings in its global frame and in the environments of its closures.
If their names occur in no body of a closure that it holds, and in no line that it receives, it
gives the results that it gives without them.

Both interpreters agree with the same one on values.  The bridge of the second is made from the
bridge of the first: a twin has the use of the pair that it is a twin of, and all other cells are
spare bindings or parts of frames and of environments, which no line changes.

Main statement: `Interpreter.evalPrintAll_of_widens`.
-/

namespace ConsLisp

namespace Store

/-- The binding stands in a frame of the environment. -/
def Binds (s : Store) (env binding : Value) : Prop :=
  ∃ places frames tail frame places' bindings tail', s.Links env places frames tail ∧
    frame ∈ frames ∧ s.Links frame places' bindings tail' ∧ binding ∈ bindings

variable {s : Store} {place : Nat} {frame outer binding tail tail' : Value}
  {places places' : List Nat} {frames bindings : List Value}

theorem Binds.first (hcell : s.cell? (.pair place) = some ⟨frame, outer⟩)
    (hframes : s.Links (.pair place) places frames tail)
    (hbindings : s.Links frame places' bindings tail') (hmem : binding ∈ bindings) :
    s.Binds (.pair place) binding := by
  cases hframes with
  | done hnone => simp [hcell] at hnone
  | next hcell' hrest =>
    obtain ⟨rfl, rfl⟩ : _ ∧ _ := by simpa [hcell] using hcell'
    exact ⟨_, _, _, _, _, _, _, .next hcell hrest, List.mem_cons_self, hbindings, hmem⟩

theorem Binds.later (hcell : s.cell? (.pair place) = some ⟨frame, outer⟩)
    (h : s.Binds outer binding) : s.Binds (.pair place) binding := by
  obtain ⟨places, frames, tail, other, places', bindings, tail', hframes, hother, hrest⟩ := h
  exact ⟨_, _, _, other, _, _, _, .next hcell hframes, List.mem_cons_of_mem _ hother, hrest⟩

end Store

namespace Interpreter

/-- The interpreter holds the name and the value of the binding. -/
def HoldsBinding (i : Interpreter) (binding : Value) : Prop :=
  i.Holds .value (i.state.store.car binding) ∧ i.Holds .value (i.state.store.cdr binding)

variable {i : Interpreter}

theorem Holds.binding {env binding : Value} (h : i.Holds .environment env)
    (hbinds : i.state.store.Binds env binding) : i.HoldsBinding binding := by
  obtain ⟨_, _, _, frame, _, _, _, hframes, hframe, hbindings, hmem⟩ := hbinds
  exact ⟨.name h hframes hframe hbindings hmem, .contents h hframes hframe hbindings hmem⟩

theorem holds_globals : i.Holds .environment i.globals :=
  .shown (.inl rfl)

end Interpreter

/-- A value in which none of these names occurs asks for none of them. -/
theorem Bridge.Same.avoids {B : Bridge} {state : State} {r : Reference.State} {v : Value}
    {x : Datum} {names : Set String} (h : B.Agrees state r) (hv : B.Same v x)
    (hnames : ∀ name ∈ names, ¬state.store.Part v (.sym name)) :
    x.Avoids names ∧ x.AllAvoid names := by
  induction hv with
  | sym name => exact ⟨fun hmem => hnames name hmem .refl, trivial⟩
  | pair huse _ _ ihcar ihcdr =>
    have hcell := h.cell_data huse
    obtain ⟨hcar, -⟩ := ihcar fun name hmem hpart =>
      hnames name hmem (.trans (.car .refl hcell) hpart)
    obtain ⟨-, hcdr⟩ := ihcdr fun name hmem hpart =>
      hnames name hmem (.trans (.cdr .refl hcell) hpart)
    exact ⟨⟨.inr hcar, hcdr⟩, hcar, hcdr⟩
  | _ => exact ⟨trivial, trivial⟩

namespace Use

/-- What the twin with these fields stands for. -/
def twin (c' : Cell) : Use → Option Use
  | data n _ _ => some (data n c'.car c'.cdr)
  | binding n _ => some (binding n c'.car)
  | _ => none

/-- What a cell with these fields stands for if it is no twin: a binding that is left out, or a part
of a frame or of an environment. -/
def own (c' : Cell) : Use :=
  match c'.car with
  | .sym name => spare name
  | first => spine first c'.cdr

theorem own_of_ne_sym {first rest : Value} (h : ∀ name, first ≠ .sym name) :
    own ⟨first, rest⟩ = spine first rest := by
  cases first with
  | sym name => exact absurd rfl (h name)
  | _ => rfl

theorem label_own (c' : Cell) : (own c').label = none := by
  unfold own
  split <;> rfl

end Use

namespace Twins

variable {T : Twins} {place place' other : Nat}

theorem Own.not_mem (h : T.Own place') : (place, place') ∉ T.pairs :=
  fun hmem => h (List.mem_map_of_mem hmem)

/-- A pair has one twin. -/
theorem twin_unique (h : (place, place') ∈ T.pairs) (h' : (place, other) ∈ T.pairs) :
    place' = other :=
  congrArg Prod.snd (List.inj_on_of_nodup_map T.pairs_fst h h' rfl)

/-- A pair is the twin of one. -/
theorem origin_unique (h : (place, place') ∈ T.pairs) (h' : (other, place') ∈ T.pairs) :
    place = other :=
  congrArg Prod.fst (List.inj_on_of_nodup_map T.pairs_snd h h' rfl)

theorem object_unique {n : Nat} {v w : Value} (h : (n, v) ∈ T.objects) (h' : (n, w) ∈ T.objects) :
    v = w :=
  congrArg Prod.snd (List.inj_on_of_nodup_map T.objects_fst h h' rfl)

theorem serial_unique {n m : Nat} {v w : Value} (h : (n, v) ∈ T.objects) (h' : (m, w) ∈ T.objects)
    (hserial : v.serial? = w.serial?) : n = m :=
  congrArg Prod.fst (List.inj_on_of_nodup_map T.objects_snd h h' hserial)

/-! ## The bridge of the second interpreter -/

/-- What a cell of the second interpreter stands for.  The twin of a binding that is not held any
more stands for nothing: nothing is known of the closures in it. -/
inductive Role (T : Twins) (B : Bridge) (i i' : Interpreter) (home' : Nat) : Nat → Use → Prop
  | home : Role T B i i' home' home' .globals
  | twin {place place' : Nat} {u u' : Use} {c' : Cell} (hmem : (place, place') ∈ T.pairs)
      (huse : B.use place = some u) (hcell' : i'.state.store.cell? (.pair place') = some c')
      (htwin : u.twin c' = some u')
      (hheld : ∀ n name, u = .binding n name → i.HoldsBinding (.pair place)) :
      Role T B i i' home' place' u'
  | own {place' : Nat} {c' : Cell} (hown : T.Own place') (hne : place' ≠ home')
      (hcell' : i'.state.store.cell? (.pair place') = some c') :
      Role T B i i' home' place' (.own c')

/-- The number on the other side of an object of the second interpreter. -/
def Number (T : Twins) (B : Bridge) (n' : Nat) (x : Nat × Value) : Prop :=
  ∃ n v, (n, x.2) ∈ T.objects ∧ x.2.serial? = some n' ∧ B.object n = some (x.1, v)

open Classical in
/-- What is related to the argument, if anything is. -/
noncomputable def pick {α β : Type} (R : α → β → Prop) (a : α) : Option β :=
  if h : ∃ b, R a b then some h.choose else none

theorem pick_eq_some_iff {α β : Type} {R : α → β → Prop} {a : α} {b : β}
    (hunique : ∀ {b b'}, R a b → R a b' → b = b') : pick R a = some b ↔ R a b := by
  constructor
  · intro hpick
    unfold pick at hpick
    split at hpick
    · next hex => exact Option.some.inj hpick ▸ hex.choose_spec
    · simp at hpick
  · intro hrel
    have hex : ∃ b, R a b := ⟨b, hrel⟩
    rw [pick, dif_pos hex]
    exact congrArg some (hunique hex.choose_spec hrel)

/-- The bridge of the second interpreter. -/
noncomputable def bridge (T : Twins) (hidden : Set String) (B : Bridge) (i i' : Interpreter)
    (home' : Nat) : Bridge where
  home := home'
  hidden := hidden
  threshold := B.threshold
  alone := False
  use := pick (T.Role B i i' home')
  object := pick (T.Number B)

variable {hidden : Set String} {B : Bridge} {i i' : Interpreter} {r : Reference.State} {home' : Nat}

/-- A cell has one role. -/
theorem Role.unique (hown : T.Own home') {u u' : Use} (h : T.Role B i i' home' place' u)
    (h' : T.Role B i i' home' place' u') : u = u' := by
  cases h with
  | home =>
    cases h' with
    | home => rfl
    | twin hmem => exact absurd hmem hown.not_mem
    | own _ hne => exact absurd rfl hne
  | twin hmem huse hcell' htwin =>
    cases h' with
    | home => exact absurd hmem hown.not_mem
    | twin hmem' huse' hcell'' htwin' =>
      obtain rfl := origin_unique hmem hmem'
      obtain rfl := Option.some.inj (huse.symm.trans huse')
      obtain rfl := Option.some.inj (hcell'.symm.trans hcell'')
      exact Option.some.inj (htwin.symm.trans htwin')
    | own hown' => exact absurd hmem hown'.not_mem
  | own hown' hne hcell' =>
    cases h' with
    | home => exact absurd rfl hne
    | twin hmem => exact absurd hmem hown'.not_mem
    | own _ _ hcell'' =>
      obtain rfl := Option.some.inj (hcell'.symm.trans hcell'')
      rfl

theorem use_eq_some_iff (hown : T.Own home') {u : Use} :
    (T.bridge hidden B i i' home').use place' = some u ↔ T.Role B i i' home' place' u :=
  pick_eq_some_iff fun h h' => h.unique hown h'

theorem object_eq_some_iff {n' : Nat} {x : Nat × Value} :
    (T.bridge hidden B i i' home').object n' = some x ↔ T.Number B n' x := by
  refine pick_eq_some_iff fun {x y} h h' => ?_
  obtain ⟨n, v, hmem, hserial, hobject⟩ := h
  obtain ⟨m, w, hmem', hserial', hobject'⟩ := h'
  obtain rfl := serial_unique hmem hmem' (hserial.trans hserial'.symm)
  have hnumber := congrArg Prod.fst (Option.some.inj (hobject.symm.trans hobject'))
  exact Prod.ext hnumber (object_unique hmem hmem')

/-! ## Frames and environments -/

/-- A pair of a frame holds a binding, which is a twin or has a symbol for a name. -/
theorem Frame.pair {v : Value} (h : T.Frame hidden i i' v (.pair place')) :
    T.Own place' ∧ ∃ binding' rest',
      i'.state.store.cell? (.pair place') = some ⟨.pair binding', rest'⟩ ∧
        (T.Own binding' → ∃ name value,
          i'.state.store.cell? (.pair binding') = some ⟨.sym name, value⟩) := by
  cases h with
  | cons _ hcell' hown hbinding =>
    exact ⟨hown, _, _, hcell', fun hown' => absurd hbinding hown'.not_mem⟩
  | extra hcell' hown _ hbinding' => exact ⟨hown, _, _, hcell', fun _ => ⟨_, _, hbinding'⟩⟩

theorem Frame.ne_sym {v v' : Value} (h : T.Frame hidden i i' v v') (name : String) :
    v' ≠ .sym name := by
  rintro rfl
  cases h

/-- What the cell of the second global frame is like. -/
structure IsHome (T : Twins) (hidden : Set String) (i i' : Interpreter) (home' : Nat) : Prop where
  globals : i'.globals = .pair home'
  own : T.Own home'
  cell : ∃ home frame frame', i.globals = .pair home ∧
    i.state.store.cell? (.pair home) = some ⟨frame, .nil⟩ ∧
    i'.state.store.cell? (.pair home') = some ⟨frame', .nil⟩ ∧ T.Frame hidden i i' frame frame'

theorem Widens.isHome (h : T.Widens hidden i i') : ∃ home', T.IsHome hidden i i' home' := by
  obtain ⟨home, home', frame, frame', hglobals, hglobals', hcell, hcell', hown, hframe⟩ := h.globals
  exact ⟨home', hglobals', hown, home, frame, frame', hglobals, hcell, hcell', hframe⟩

/-- A pair of a frame does not hold the global frame. -/
theorem Frame.ne_home (hhome : T.IsHome hidden i i' home') {v : Value}
    (h : T.Frame hidden i i' v (.pair place')) : place' ≠ home' := by
  rintro rfl
  obtain ⟨home, frame, frame', -, -, hcell', hframe⟩ := hhome.cell
  obtain ⟨-, binding', rest', hcell'', hbinding'⟩ := h.pair
  obtain ⟨rfl, rfl⟩ : _ ∧ _ := by simpa [hcell'] using hcell''
  -- Otherwise the global frame would start with a binding, which starts no frame.
  obtain ⟨hown, first, rest, hfirst, -⟩ := hframe.pair
  obtain ⟨name, value, hname⟩ := hbinding' hown
  simp [hfirst] at hname

/-- A spare binding does not hold the global frame. -/
theorem IsHome.ne_spare (hhome : T.IsHome hidden i i' home') {name : String} {value : Value}
    (hcell : i'.state.store.cell? (.pair place') = some ⟨.sym name, value⟩) : place' ≠ home' := by
  rintro rfl
  obtain ⟨home, frame, frame', -, -, hcell', hframe⟩ := hhome.cell
  obtain ⟨rfl, -⟩ : _ ∧ _ := by simpa [hcell'] using hcell
  exact hframe.ne_sym name rfl

/-- The chain of an environment does not end before the global frame. -/
theorem Env.isPair (hhome : T.IsHome hidden i i' home') {v v' : Value}
    (h : T.Env hidden i i' v v') : (∃ place, v = .pair place) ∧ ∃ place', v' = .pair place' := by
  induction h with
  | globals =>
    obtain ⟨home, _, _, hglobals, -⟩ := hhome.cell
    exact ⟨⟨home, hglobals⟩, home', hhome.globals⟩
  | cons => exact ⟨⟨_, rfl⟩, _, rfl⟩
  | extra _ _ _ _ ih => exact ⟨ih.1, _, rfl⟩

/-- A pair of an environment before the global one does not hold the global frame. -/
theorem Env.ne_home (hhome : T.IsHome hidden i i' home') {v v' frame' : Value}
    (h : T.Env hidden i i' v v') (hcell : i'.state.store.cell? (.pair place') = some ⟨frame', v'⟩) :
    place' ≠ home' := by
  rintro rfl
  obtain ⟨home, _, _, -, -, hcell', -⟩ := hhome.cell
  obtain ⟨-, next, rfl⟩ := h.isPair hhome
  simp [hcell'] at hcell

/-- The first interpreter agrees with one on values and has no closure that mentions a hidden name,
and the second is the first with extra bindings of hidden names. -/
structure Setting (T : Twins) (hidden : Set String) (B : Bridge) (i i' : Interpreter)
    (r : Reference.State) (home' : Nat) : Prop where
  joins : B.Joins i r
  none : B.hidden = ∅
  bodies : i.Unmentioned hidden
  widens : T.Widens hidden i i'
  home : T.IsHome hidden i i' home'

theorem Setting.use_eq (h : T.Setting hidden B i i' r home') {u : Use}
    (hrole : T.Role B i i' home' place' u) :
    (T.bridge hidden B i i' home').use place' = some u :=
  (use_eq_some_iff h.home.own).mpr hrole

theorem Setting.role (h : T.Setting hidden B i i' r home') {u : Use}
    (huse : (T.bridge hidden B i i' home').use place' = some u) :
    T.Role B i i' home' place' u :=
  (use_eq_some_iff h.home.own).mp huse

/-- A frame of bindings that the first interpreter holds has the variables of that frame. -/
theorem Frame.bridge (hset : T.Setting hidden B i i' r home') {v v' : Value}
    (h : T.Frame hidden i i' v v') {numbers : List Nat} (hframe : B.Frame v numbers)
    (hheld : ∀ {places bindings tail}, i.state.store.Links v places bindings tail →
      ∀ binding ∈ bindings, i.HoldsBinding binding) :
    (T.bridge hidden B i i' home').Frame v' numbers := by
  -- The induction is on the second frame, which is the longer one; what is extra is skipped.
  induction h generalizing numbers with
  | nil =>
    cases hframe
    exact .nil
  | cons hcell hcell' hown hbinding hrest ih =>
    cases hframe with
    | skip _ _ hhidden => exact (hset.none ▸ hhidden).elim
    | cons hspine hvariable hvariables =>
      obtain ⟨hbinding₁, rfl⟩ : _ ∧ _ := by simpa [hcell] using hset.joins.agrees.cell_spine hspine
      subst hbinding₁
      obtain ⟨bindings, ⟨places, tail, hlinks⟩, -⟩ := hvariables.lists hset.joins.agrees
      obtain ⟨c, c', -, hcell'', -⟩ := hset.widens.fields hbinding
      have hne := (Frame.cons hcell hcell' hown hbinding hrest).ne_home hset.home
      refine .cons (hset.use_eq (.own hown hne hcell'))
        (hset.use_eq (.twin hbinding hvariable hcell'' rfl fun _ _ _ => ?_))
        (ih hvariables fun hlinks' binding hmem => ?_)
      · exact hheld (.next hcell hlinks) _ List.mem_cons_self
      · exact hheld (.next hcell hlinks') binding (List.mem_cons_of_mem _ hmem)
  | extra hcell' hown hname hbinding' hown' hrest ih =>
    have hne := (Frame.extra hcell' hown hname hbinding' hown' hrest).ne_home hset.home
    have hspare := hset.use_eq (.own hown' (hset.home.ne_spare hbinding') hbinding')
    exact .skip (hset.use_eq (.own hown hne hcell')) hspare hname (ih hframe hheld)

/-- An environment that the first interpreter holds has the local frames of that environment. -/
theorem Env.bridge (hset : T.Setting hidden B i i' r home') {v v' : Value}
    (h : T.Env hidden i i' v v') {frames : List (List Nat)} (hscope : B.Scope v frames)
    (hheld : ∀ binding, i.state.store.Binds v binding → i.HoldsBinding binding) :
    (T.bridge hidden B i i' home').Scope v' frames := by
  have hglobal : B.use B.home = some .globals := hset.joins.agrees.home
  -- Again the induction is on the second one.  That the bindings of the first are held is known of
  -- the whole environment, and handed on to its frames one by one.
  induction h generalizing frames with
  | globals =>
    rw [hset.joins.globals] at hscope
    rw [hset.home.globals]
    cases hscope with
    | globals => exact .globals
    | inner hspine => simp [hglobal] at hspine
    | skip hspine => simp [hglobal] at hspine
  | cons hcell hcell' hown hframe houter ih =>
    have hrole := hset.use_eq (.own hown (houter.ne_home hset.home hcell') hcell')
    rw [Use.own_of_ne_sym hframe.ne_sym] at hrole
    obtain ⟨places, values, lists, hlinks, -⟩ := hscope.links hset.joins.agrees
    have hfirst {places' bindings tail} (hbindings : i.state.store.Links _ places' bindings tail) :
        ∀ binding ∈ bindings, i.HoldsBinding binding :=
      fun binding hmem => hheld binding (.first hcell hlinks hbindings hmem)
    have hrest : ∀ binding, i.state.store.Binds _ binding → i.HoldsBinding binding :=
      fun binding hbinds => hheld binding (hbinds.later hcell)
    cases hscope with
    | globals =>
      -- Behind the global frame there is none.
      obtain ⟨frame, hcell'', -⟩ := hset.joins.agrees.cell_home
      obtain ⟨⟨place, heq⟩, -⟩ := houter.isPair hset.home
      simp [heq, hcell''] at hcell
    | inner hspine hvariables hscope =>
      obtain ⟨rfl, rfl⟩ : _ ∧ _ := by simpa [hcell] using hset.joins.agrees.cell_spine hspine
      exact .inner hrole (hframe.bridge hset hvariables hfirst) (ih hscope hrest)
    | skip hspine hvariables hscope =>
      obtain ⟨rfl, rfl⟩ : _ ∧ _ := by simpa [hcell] using hset.joins.agrees.cell_spine hspine
      exact .skip hrole (hframe.bridge hset hvariables hfirst) (ih hscope hrest)
  | extra hcell' hown hframe houter ih =>
    have hrole := hset.use_eq (.own hown (houter.ne_home hset.home hcell') hcell')
    rw [Use.own_of_ne_sym hframe.ne_sym] at hrole
    refine .skip hrole (hframe.bridge hset .nil ?_) (ih hscope hheld)
    rintro places bindings tail ⟨-⟩ binding hmem
    simp at hmem

/-! ## Values -/

/-- A value that the first interpreter holds is the same as its twin is. -/
theorem Alike.bridge (hset : T.Setting hidden B i i' r home') {v v' : Value} {x : Datum}
    (h : T.Alike hidden i i' v v') (hsame : B.Same v x) (hheld : i.Holds .value v) :
    (T.bridge hidden B i i' home').Same v' x := by
  induction hsame generalizing v' with
  | nil =>
    cases h
    exact .nil
  | num n =>
    cases h
    exact .num n
  | number hobject =>
    cases h with
    | number hmem => exact .number (object_eq_some_iff.mpr ⟨_, _, hmem, rfl, hobject⟩)
  | sym name =>
    cases h
    exact .sym name
  | error hobject =>
    cases h with
    | error hmem => exact .error (object_eq_some_iff.mpr ⟨_, _, hmem, rfl, hobject⟩)
  | primitive hobject =>
    cases h with
    | primitive hmem => exact .primitive (object_eq_some_iff.mpr ⟨_, _, hmem, rfl, hobject⟩)
  | pair huse _ _ ihcar ihcdr =>
    cases h with
    | pair hmem =>
      obtain ⟨c, c', hcell, hcell', hcar, hcdr⟩ := hset.widens.fields hmem
      obtain rfl := Option.some.inj (hcell.symm.trans (hset.joins.agrees.cell_data huse))
      exact .pair (hset.use_eq (.twin hmem huse hcell' rfl nofun))
        (ihcar hcar (.car hcell hheld)) (ihcdr hcdr (.cdr hcell hheld))
  | closure hobject hparams hbody _ henv ihparams ihbody =>
    cases h with
    | closure hmem hparams' hbody' henv' =>
      have hasks := (hbody.avoids hset.joins.agrees (hset.bodies _ _ _ _ hheld)).2
      exact .closure (object_eq_some_iff.mpr ⟨_, _, hmem, rfl, hobject⟩)
        (ihparams hparams' (.params hheld)) (ihbody hbody' (.body hheld)) hasks
        (henv'.bridge hset henv fun _ => Interpreter.Holds.binding (.captured hheld))

/-! ## The two interpreters -/

/-- The label of a twin is that of the pair that it is a twin of. -/
theorem Role.label {u : Use} {label : Label} (h : T.Role B i i' home' place' u)
    (hlabel : u.label = some label) :
    place' = home' ∧ label = .globals ∨
      label ≠ .globals ∧ ∃ place u₀, (place, place') ∈ T.pairs ∧ B.use place = some u₀ ∧
        u₀.label = some label := by
  cases h with
  | home => exact .inl ⟨rfl, (Option.some.inj hlabel).symm⟩
  | @twin _ _ u₀ _ _ hmem huse _ htwin =>
    cases u₀ with
    | data =>
      obtain rfl := Option.some.inj htwin
      obtain rfl := Option.some.inj hlabel
      exact .inr ⟨nofun, _, _, hmem, huse, rfl⟩
    | binding =>
      obtain rfl := Option.some.inj htwin
      obtain rfl := Option.some.inj hlabel
      exact .inr ⟨nofun, _, _, hmem, huse, rfl⟩
    | _ => cases htwin
  | own => simp [Use.label_own] at hlabel

/-- The second global frame has the variables of the first. -/
theorem Setting.fits_home (hset : T.Setting hidden B i i' r home') :
    ∃ c', i'.state.store.cell? (.pair home') = some c' ∧
      (T.bridge hidden B i i' home').Fits r c' .globals := by
  obtain ⟨home, frame, frame', hglobals, hcell, hcell', hframe⟩ := hset.home.cell
  obtain ⟨_, hcell'', hvariables⟩ := hset.joins.agrees.cell_home
  obtain rfl : B.home = home := by simpa [hglobals] using hset.joins.globals.symm
  obtain rfl : frame = _ := by simpa [hcell] using hcell''
  refine ⟨_, hcell', rfl, hframe.bridge hset hvariables ?_⟩
  intro places bindings tail hlinks binding hmem
  have hhome : i.state.store.Links i.globals [B.home] [frame] .nil :=
    hglobals ▸ .next hcell (.done rfl)
  exact Interpreter.holds_globals.binding
    ⟨_, _, _, _, _, _, _, hhome, List.mem_singleton.mpr rfl, hlinks, hmem⟩

/-- The twin of a binding that is held has the name and the value of the same variable. -/
theorem Setting.fits_binding (hset : T.Setting hidden B i i' r home') {n : Nat} {name : Value}
    {c' : Cell} (hmem : (place, place') ∈ T.pairs) (huse : B.use place = some (.binding n name))
    (hcell' : i'.state.store.cell? (.pair place') = some c')
    (hheld : i.HoldsBinding (.pair place)) :
    (T.bridge hidden B i i' home').Fits r c' (.binding n c'.car) := by
  obtain ⟨value, x, hcell, hx, hname, hvalue⟩ := hset.joins.agrees.cell_binding huse
  obtain ⟨c, c', hold, hnew, hcar, hcdr⟩ := hset.widens.fields hmem
  obtain rfl := Option.some.inj (hcell'.symm.trans hnew)
  obtain rfl := Option.some.inj (hcell.symm.trans hold)
  simp only [Interpreter.HoldsBinding, Store.car, Store.cdr, hcell, Option.map_some,
    Option.getD_some] at hheld
  exact ⟨rfl, x, hx, hcar.bridge hset hname hheld.1, hcdr.bridge hset hvalue hheld.2⟩

theorem fits_own (c' : Cell) : (T.bridge hidden B i i' home').Fits r c' (.own c') := by
  obtain ⟨first, rest⟩ := c'
  cases first <;> rfl

/-- The second interpreter agrees with the one on values that the first one agrees with. -/
theorem Setting.joins_bridge (hset : T.Setting hidden B i i' r home') :
    (T.bridge hidden B i i' home').Joins i' r := by
  refine ⟨hset.home.globals, ?_⟩
  constructor
  case threshold =>
    exact ⟨hset.widens.threshold.trans hset.joins.agrees.threshold.1, hset.joins.agrees.threshold.2⟩
  case log => exact False.elim
  case serial => exact False.elim
  case home => exact hset.use_eq .home
  case cell =>
    intro place' u huse
    have hrole := hset.role huse
    clear huse
    cases hrole with
    | home => exact hset.fits_home
    | @twin _ _ u₀ _ _ hmem huse hcell' htwin hheld =>
      cases u₀ with
      | data =>
        obtain rfl := Option.some.inj htwin
        exact ⟨_, hcell', rfl⟩
      | binding =>
        obtain rfl := Option.some.inj htwin
        exact ⟨_, hcell', hset.fits_binding hmem huse hcell' (hheld _ _ rfl)⟩
      | _ => cases htwin
    | @own _ c' _ _ hcell' => exact ⟨c', hcell', fits_own c'⟩
  case known =>
    intro place' u label huse hlabel
    rcases (hset.role huse).label hlabel with
      ⟨-, rfl⟩ | ⟨-, place, u₀, -, huse₀, hlabel₀⟩
    · trivial
    · exact hset.joins.agrees.known huse₀ hlabel₀
  case unique =>
    intro place' other' u u' label huse huse' hlabel hlabel'
    rcases (hset.role huse).label hlabel with
      ⟨rfl, rfl⟩ | ⟨hne, place, u₀, hmem, huse₀, hlabel₀⟩ <;>
    rcases (hset.role huse').label hlabel' with
      ⟨rfl, heq⟩ | ⟨hne', other, u₁, hmem', huse₁, hlabel₁⟩
    · rfl
    · exact absurd rfl hne'
    · exact absurd heq hne
    · obtain rfl := hset.joins.agrees.unique huse₀ huse₁ hlabel₀ hlabel₁
      exact twin_unique hmem hmem'
  case object =>
    intro n' m v hobject
    obtain ⟨n, w, hmem, hserial, hobject⟩ := object_eq_some_iff.mp hobject
    exact ⟨hset.widens.serials hmem hserial, (hset.joins.agrees.object hobject).2.1, False.elim⟩
  case single =>
    intro n' n'' m v v' hobject hobject'
    obtain ⟨n, w, hmem, hserial, hobject⟩ := object_eq_some_iff.mp hobject
    obtain ⟨n₂, w₂, hmem', hserial', hobject'⟩ := object_eq_some_iff.mp hobject'
    obtain rfl := hset.joins.agrees.single hobject hobject'
    obtain rfl : v = v' := object_unique hmem hmem'
    exact Option.some.inj (hserial.symm.trans hserial')

end Twins

namespace Bridge

/-- After any lines there is a bridge. -/
theorem Joins.after {B : Bridge} {i : Interpreter} {r : Reference.State} (h : B.Joins i r)
    (hnone : B.hidden = ∅) (lines : List (Nat × List Char)) :
    ∃ B' : Bridge, B'.hidden = ∅ ∧ ∃ r', B'.Joins (i.after lines) r' := by
  induction lines generalizing B i r with
  | nil => exact ⟨B, hnone, r, h⟩
  | cons line lines ih =>
    obtain ⟨-, B₁, hevolves, hjoins⟩ :=
      h.evalPrint line.1 (hnone ▸ Reference.avoids_empty line.2)
    exact ih hjoins ((hidden_eq hevolves.le).symm.trans hnone)

end Bridge

/-- Nobody notices bindings whose names occur in no body of a closure and in no line.  An
interpreter that has been reached by any lines, and one that is the same with extra bindings of such
names, anywhere in the global frame and in the environments of closures, give the same results,
texts and aborts alike, for all further lines. -/
theorem Interpreter.evalPrintAll_of_widens (log : Log) (before : List (Nat × List Char))
    (i' : Interpreter) (T : Twins) (hidden : Set String) (limit : Nat) (lines : List (List Char))
    (hwidens : T.Widens hidden ((new log).after before) i')
    (hbodies : ((new log).after before).Unmentioned hidden)
    (hlines : ∀ line ∈ lines, Atom.Lacks hidden line) :
    (i'.evalPrintAll limit lines).1 = (((new log).after before).evalPrintAll limit lines).1 := by
  obtain ⟨B₀, hnone₀, -, hjoins₀⟩ := Bridge.joins_new log
  obtain ⟨B, hnone, r, hjoins⟩ := hjoins₀.after hnone₀ before
  obtain ⟨home', hhome⟩ := hwidens.isHome
  have hjoins' := Twins.Setting.joins_bridge ⟨hjoins, hnone, hbodies, hwidens, hhome⟩
  -- The first interpreter hides no name, so it may be given any line.
  have hany : ∀ line ∈ lines, Reference.Avoids B.hidden line :=
    fun line _ => hnone ▸ Reference.avoids_empty line
  have hresults := hjoins.evalPrintAll limit hany
  have hresults' := hjoins'.evalPrintAll limit fun line hmem =>
    Reference.avoids_of_lacks (hlines line hmem)
  exact hresults'.1.trans hresults.1.symm

/-- Twins for a closure over `x` and one that was made with two unused parameters, the first in a
frame of its own and the second beside `x`, in a session with an unused global variable. -/
def Twins.ofUnused : Twins where
  pairs := (List.range 13).map (fun n => (2 * n + 1, 2 * n + 1)) ++
    [(33, 42), (35, 44), (36, 45), (37, 46), (38, 47), (44, 64), (47, 67)]
  objects := Primitive.all.zipIdx.map (fun (p, n) => (n, .primitive n p p.name)) ++
    [(13, .closure 14 (.pair 42) (.pair 47) (.pair 66))]
  pairs_fst := by decide
  pairs_snd := by decide
  objects_fst := by decide
  objects_snd := by decide

/-- A global variable, a frame and a parameter that nobody uses change no result. -/
theorem Interpreter.evalPrintAll_of_widens_unused :
    let i := (new {}).after [(40, "(setq add ((lambda (x) (lambda (y) (+ x y))) 2))".toList)]
    let i' := (new {}).after [(40, "(setq unused 5)".toList),
      (40, "(setq add ((lambda (unused) ((lambda (spare x) (lambda (y) (+ x y))) 3 2)) 7))".toList)]
    let hidden := {name | name ∈ ["unused", "spare"]}
    let lines := ["(add 3)".toList, "(setq x (add 4))".toList, "(/ x 0)".toList]
    (Twins.ofUnused.Widens hidden i i' ∧ i.Unmentioned hidden ∧
        ∀ line ∈ lines, Atom.Lacks hidden line) ∧
      (i'.evalPrintAll 40 lines).1 = (i.evalPrintAll 40 lines).1 ∧
      (i.evalPrintAll 40 lines).1 = [.ok "5", .ok "6", .error .divisionByZero] := by
  intro i i' hidden lines
  have hwidens : Twins.ofUnused.Widens hidden i i' :=
    Twins.widens_of_check (by decide +kernel)
  have hbodies : i.Unmentioned hidden := unmentioned_of_check (by decide +kernel)
  have hlines : ∀ line ∈ lines, ∀ name ∈ ["unused", "spare"], ¬Atom.Occurs name line := by
    decide +kernel
  exact ⟨⟨hwidens, hbodies, hlines⟩,
    evalPrintAll_of_widens {} _ i' Twins.ofUnused hidden 40 lines hwidens hbodies hlines,
    by decide +kernel⟩

end ConsLisp
