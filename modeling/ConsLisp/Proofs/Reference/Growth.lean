import ConsLisp.Proofs.Reference.Bridge

/-!
# How a bridge grows

Each change of a store is met by a change on the other side, and by a new use of a cell or a new
object where one is made.  A list that is built in place has no use until it is complete; then all
its pairs get theirs at once, the last one first, which is the order in which the other side makes
them.

Main statements: a list in place becomes a list of pairs (`Agrees.listOf`), and a list of bindings
becomes a frame of variables (`Agrees.bindEach`).
-/

namespace ConsLisp.Bridge

variable {B B' B'' : Bridge} {places places' : List Nat} {s s' s'' : Store} {log : Log}
  {r r' : Reference.State}

/-- From a store to a later one the bridge grows, and the cells without a use stay as they are and
without a use, apart from those at these places. -/
structure Evolves (places : List Nat) (B B' : Bridge) (s s' : Store) : Prop where
  le : B ≤ B'
  size : s.size ≤ s'.size
  serial : s.serial ≤ s'.serial
  unused {place : Nat} (hlt : place < s.size) (hplace : place ∉ places)
    (huse : B.use place = none) :
    B'.use place = none ∧ s'.cell? (.pair place) = s.cell? (.pair place)

namespace Evolves

theorem refl (places : List Nat) (B : Bridge) (s : Store) : Evolves places B B s s :=
  ⟨le_refl B, Nat.le_refl _, Nat.le_refl _, fun _ _ huse => ⟨huse, rfl⟩⟩

theorem trans (h : Evolves places B B' s s') (h' : Evolves places' B' B'' s' s'')
    (hplaces : ∀ place < s.size, place ∈ places' → B.use place = none → place ∈ places) :
    Evolves places B B'' s s'' := by
  refine ⟨le_trans h.le h'.le, Nat.le_trans h.size h'.size, Nat.le_trans h.serial h'.serial,
    fun {place} hlt hplace huse => ?_⟩
  -- What the second stretch may change, and had no use at the start, the first may change too.
  obtain ⟨huse', hcell⟩ := h.unused hlt hplace huse
  have hlt' := Nat.lt_of_lt_of_le hlt h.size
  have hplace' : place ∉ places' := fun hmem => hplace (hplaces place hlt hmem huse)
  obtain ⟨huse'', hcell'⟩ := h'.unused hlt' hplace' huse'
  exact ⟨huse'', hcell'.trans hcell⟩

theorem weaken (h : Evolves places B B' s s')
    (hplaces : ∀ place < s.size, place ∈ places → B.use place = none → place ∈ places') :
    Evolves places' B B' s s' :=
  (refl places' B s).trans h hplaces

/-- Cells may change while the bridge stays. -/
theorem of_keeps (h : Store.KeepsExcept places s s') (hserial : s'.serial = s.serial) (B : Bridge) :
    Evolves places B B s s' :=
  ⟨le_refl B, h.size, Nat.le_of_eq hserial.symm,
    fun hlt hplace huse => ⟨huse, h.cell hlt hplace⟩⟩

end Evolves

/-! ## New uses and objects -/

/-- The bridge under which a cell has this use. -/
def adopt (B : Bridge) (place : Nat) (u : Use) : Bridge :=
  { B with use := Function.update B.use place (some u) }

/-- The bridge under which a serial number belongs to this object, and to that number on the other
side. -/
def register (B : Bridge) (n m : Nat) (v : Value) : Bridge :=
  { B with object := Function.update B.object n (some (m, v)) }

theorem use_adopt_self (B : Bridge) (place : Nat) (u : Use) :
    (B.adopt place u).use place = some u :=
  Function.update_self ..

theorem use_adopt_of_ne {place other : Nat} (hne : other ≠ place) (u : Use) :
    (B.adopt place u).use other = B.use other :=
  Function.update_of_ne hne ..

theorem le_adopt {place : Nat} (hunused : B.use place = none) (u : Use) :
    B ≤ B.adopt place u := by
  refine ⟨rfl, fun other u' huse => ?_, fun _ _ h => h⟩
  have hne : other ≠ place := by
    rintro rfl
    simp [hunused] at huse
  rwa [use_adopt_of_ne hne]

/-- In the end another cell may get a use. -/
theorem Evolves.adopt (h : Evolves places B B' s s') {place : Nat}
    (hunused : B'.use place = none) (u : Use)
    (hplace : place < s.size → B.use place = none → place ∈ places) :
    Evolves places B (B'.adopt place u) s s' := by
  refine ⟨le_trans h.le (le_adopt hunused u), h.size, h.serial, fun {other} hlt hother huse => ?_⟩
  obtain ⟨huse', hcell⟩ := h.unused hlt hother huse
  have hne : other ≠ place := by
    rintro rfl
    exact hother (hplace hlt huse)
  exact ⟨by rwa [use_adopt_of_ne hne], hcell⟩

theorem object_register_self (B : Bridge) (n m : Nat) (v : Value) :
    (B.register n m v).object n = some (m, v) :=
  Function.update_self ..

theorem object_register_of_ne {n other : Nat} (hne : other ≠ n) (m : Nat) (v : Value) :
    (B.register n m v).object other = B.object other :=
  Function.update_of_ne hne ..

/-- The next serial number belongs to no object yet. -/
theorem Agrees.object_eq_none {state : State} (h : B.Agrees state r) :
    B.object state.store.serial = none := by
  cases hobject : B.object state.store.serial with
  | none => rfl
  | some _ => exact absurd (h.object hobject).1 (Nat.lt_irrefl _)

theorem le_register {n : Nat} (hunused : B.object n = none) (m : Nat) (v : Value) :
    B ≤ B.register n m v := by
  refine ⟨rfl, fun _ _ h => h, fun other x hobject => ?_⟩
  have hne : other ≠ n := by
    rintro rfl
    simp [hunused] at hobject
  rwa [object_register_of_ne hne]

/-! ## States that still agree -/

/-- Cells without a use may change. -/
theorem Agrees.keep (h : B.Agrees ⟨s, log⟩ r) (hkeeps : Store.KeepsExcept places s s')
    (hunused : ∀ place ∈ places, B.use place = none) (hserial : s'.serial = s.serial) :
    B.Agrees ⟨s', log⟩ r := by
  constructor
  case threshold => exact h.threshold
  case log => exact h.log
  case serial => exact fun halone => hserial.trans (h.serial halone)
  case home => exact h.home
  case known => exact h.known
  case unique => exact h.unique
  case object => exact fun hobject => hserial.symm ▸ h.object hobject
  case single => exact h.single
  case cell =>
    intro place u huse
    obtain ⟨c, hcell, hfits⟩ := h.cell huse
    -- A cell with a use is none of those that have changed.
    have hplace : place ∉ places := fun hmem => by simp [hunused place hmem] at huse
    exact ⟨c, (hkeeps.cell (h.lt_size huse) hplace).trans hcell, hfits⟩

/-- A cell gets a use that fits its fields and has a label of its own. -/
theorem Agrees.adopt (h : B.Agrees ⟨s, log⟩ r) {place : Nat} {u : Use} {c : Cell}
    (hunused : B.use place = none) (hcell : s.cell? (.pair place) = some c)
    (hfits : (B.adopt place u).Fits r' c u)
    (hlabel : ∀ label, u.label = some label → ¬label.Known r ∧ label.Known r')
    (hlog : r'.log = r.log) (hserials : r'.serials = r.serials)
    (hknown : ∀ label : Label, label.Known r → label.Known r')
    (holder : ∀ c u, B.Fits r c u → B.Fits r' c u) :
    (B.adopt place u).Agrees ⟨s, log⟩ r' := by
  have hle := le_adopt hunused u
  constructor
  case threshold => exact ⟨h.threshold.1, hlog.symm ▸ h.threshold.2⟩
  case log => exact fun halone => (h.log halone).trans hlog.symm
  case serial => exact fun halone => (h.serial halone).trans hserials.symm
  case home => exact hle.2.1 _ _ h.home
  case single => exact h.single
  case cell =>
    intro other u' huse
    by_cases heq : other = place
    · subst heq
      rw [use_adopt_self] at huse
      exact ⟨c, hcell, Option.some.inj huse ▸ hfits⟩
    · rw [use_adopt_of_ne heq] at huse
      obtain ⟨c', hcell', hfits'⟩ := h.cell huse
      exact ⟨c', hcell', (holder c' u' hfits').mono hle⟩
  case known =>
    intro other u' label huse hlabel'
    by_cases heq : other = place
    · subst heq
      rw [use_adopt_self] at huse
      obtain rfl := Option.some.inj huse
      exact (hlabel label hlabel').2
    · rw [use_adopt_of_ne heq] at huse
      exact hknown label (h.known huse hlabel')
  case unique =>
    intro other other' u₁ u₂ label huse huse' hlabel₁ hlabel₂
    -- The new label is none of those that were known before.
    by_cases heq : other = place <;> by_cases heq' : other' = place
    · exact heq.trans heq'.symm
    · subst heq
      rw [use_adopt_self] at huse
      rw [use_adopt_of_ne heq'] at huse'
      obtain rfl := Option.some.inj huse
      exact absurd (h.known huse' hlabel₂) (hlabel label hlabel₁).1
    · subst heq'
      rw [use_adopt_self] at huse'
      rw [use_adopt_of_ne heq] at huse
      obtain rfl := Option.some.inj huse'
      exact absurd (h.known huse hlabel₁) (hlabel label hlabel₂).1
    · rw [use_adopt_of_ne heq] at huse
      rw [use_adopt_of_ne heq'] at huse'
      exact h.unique huse huse' hlabel₁ hlabel₂
  case object =>
    intro n m v hobject
    exact hserials.symm ▸ h.object hobject

/-- A cell becomes a pair with the next identity. -/
theorem Agrees.data (h : B.Agrees ⟨s, log⟩ r) {place : Nat} {a d : Value}
    (hunused : B.use place = none) (hcell : s.cell? (.pair place) = some ⟨a, d⟩) :
    (B.adopt place (.data r.identities a d)).Agrees ⟨s, log⟩
      { r with identities := r.identities + 1 } := by
  refine h.adopt hunused hcell rfl ?_ rfl rfl ?_ fun c u hfits => ?_
  · intro label hlabel
    obtain rfl := Option.some.inj hlabel
    exact ⟨Nat.lt_irrefl _, Nat.lt_succ_self _⟩
  · intro label hknown
    cases label with
    | identity n => exact Nat.lt_succ_of_lt hknown
    | _ => exact hknown
  · cases u <;> exact hfits

/-- A cell becomes the next variable. -/
theorem Agrees.newVariable (h : B.Agrees ⟨s, log⟩ r) {place : Nat} {name value : Value}
    {x y : Datum} (hunused : B.use place = none)
    (hcell : s.cell? (.pair place) = some ⟨name, value⟩)
    (hname : B.Same name x) (hvalue : B.Same value y) :
    (B.adopt place (.binding r.table.length name)).Agrees ⟨s, log⟩
      { r with table := r.table ++ [⟨x, y⟩] } := by
  have hle := le_adopt hunused (.binding r.table.length name)
  refine h.adopt hunused hcell ⟨rfl, ⟨x, y⟩, ?_, hname.mono hle, hvalue.mono hle⟩ ?_ rfl rfl ?_
    fun c u hfits => ?_
  · simp
  · intro label hlabel
    obtain rfl := Option.some.inj hlabel
    exact ⟨Nat.lt_irrefl _, by simp [Label.Known]⟩
  · intro label hknown
    cases label with
    | number n =>
      simp only [Label.Known, List.length_append] at hknown ⊢
      omega
    | _ => exact hknown
  · cases u with
    | binding n name' =>
      obtain ⟨hcar, z, hz, hsame⟩ := hfits
      refine ⟨hcar, z, ?_, hsame⟩
      rw [List.getElem?_append_left (List.getElem?_eq_some_iff.mp hz).1]
      exact hz
    | _ => exact hfits

/-- A cell becomes a part of a frame or of an environment. -/
theorem Agrees.adopt_spine (h : B.Agrees ⟨s, log⟩ r) {place : Nat} {u : Use} {c : Cell}
    (hunused : B.use place = none) (hcell : s.cell? (.pair place) = some c)
    (hfits : (B.adopt place u).Fits r c u) (hlabel : u.label = none) :
    (B.adopt place u).Agrees ⟨s, log⟩ r :=
  h.adopt hunused hcell hfits (by simp [hlabel]) rfl rfl (fun _ hknown => hknown)
    fun _ _ hfits => hfits

/-- A variable gets a new value. -/
theorem Agrees.setCdr_binding (h : B.Agrees ⟨s, log⟩ r) {place n : Nat} {name value : Value}
    {y : Datum} (huse : B.use place = some (.binding n name)) (hvalue : B.Same value y) :
    B.Agrees ⟨s.setCdr (.pair place) value, log⟩
      { r with table := r.table.modify n ({ · with value := y }) } := by
  obtain ⟨old, hold, hcar, z, hz, hname, -⟩ := h.cell huse
  have hcells := Store.cell?_setCdr_pair hold value
  have hserial := s.serial_setCdr (.pair place) value
  constructor
  case threshold => exact h.threshold
  case log => exact h.log
  case serial => exact fun halone => hserial.trans (h.serial halone)
  case home => exact h.home
  case unique => exact h.unique
  case object => exact fun hobject => hserial.symm ▸ h.object hobject
  case single => exact h.single
  case cell =>
    intro other u hother
    by_cases heq : other = place
    · subst heq
      obtain rfl := Option.some.inj (huse.symm.trans hother)
      refine ⟨{ old with cdr := value }, ?_, hcar, { z with value := y }, ?_, hname, hvalue⟩
      · rw [hcells, if_pos rfl]
      · simp [hz]
    · obtain ⟨c, hcell, hfits⟩ := h.cell hother
      refine ⟨c, ?_, ?_⟩
      · rw [hcells, if_neg heq]
        exact hcell
      · cases u with
        | binding m name' =>
          -- Two cells of one variable would be one cell.
          have hne : n ≠ m := by
            rintro rfl
            exact heq (h.unique hother huse rfl rfl)
          obtain ⟨hcar, z, hz, hsame⟩ := hfits
          exact ⟨hcar, z, by simp [hz, hne], hsame⟩
        | _ => exact hfits
  case known =>
    intro other u label hother hlabel
    have hknown := h.known hother hlabel
    cases label with
    | number m => simpa [Label.Known] using hknown
    | _ => exact hknown

/-- The global frame gets a new list of variables. -/
theorem Agrees.setCar_home (h : B.Agrees ⟨s, log⟩ r) {frame : Value} {numbers : List Nat}
    (hframe : B.Frame frame numbers) :
    B.Agrees ⟨s.setCar (.pair B.home) frame, log⟩ { r with globals := numbers } := by
  obtain ⟨old, hold, hcdr, -⟩ := h.cell h.home
  have hcells := Store.cell?_setCar_pair hold frame
  have hserial := s.serial_setCar (.pair B.home) frame
  constructor
  case threshold => exact h.threshold
  case log => exact h.log
  case serial => exact fun halone => hserial.trans (h.serial halone)
  case home => exact h.home
  case unique => exact h.unique
  case object => exact fun hobject => hserial.symm ▸ h.object hobject
  case single => exact h.single
  case cell =>
    intro other u hother
    by_cases heq : other = B.home
    · subst heq
      obtain rfl := Option.some.inj (h.home.symm.trans hother)
      refine ⟨{ old with car := frame }, ?_, hcdr, hframe⟩
      rw [hcells, if_pos rfl]
    · obtain ⟨c, hcell, hfits⟩ := h.cell hother
      refine ⟨c, ?_, ?_⟩
      · rw [hcells, if_neg heq]
        exact hcell
      · cases u with
        | globals => exact absurd (h.unique hother h.home rfl rfl) heq
        | _ => exact hfits
  case known =>
    intro other u label hother hlabel
    have hknown := h.known hother hlabel
    cases label <;> exact hknown

/-- An object is made under the next serial number of each side. -/
theorem Agrees.register (h : B.Agrees ⟨s, log⟩ r) (v : Value) :
    (B.register s.serial r.serials v).Agrees ⟨{ s with serial := s.serial + 1 }, log⟩
      { r with serials := r.serials + 1 } := by
  have hle := le_register h.object_eq_none r.serials v
  have holder : ∀ {n m w}, (B.register s.serial r.serials v).object n = some (m, w) →
      n = s.serial ∧ m = r.serials ∨ B.object n = some (m, w) := by
    intro n m w hobject
    by_cases heq : n = s.serial
    · subst heq
      rw [object_register_self] at hobject
      exact .inl ⟨rfl, (congrArg Prod.fst (Option.some.inj hobject)).symm⟩
    · rw [object_register_of_ne heq] at hobject
      exact .inr hobject
  constructor
  case threshold => exact h.threshold
  case log => exact h.log
  case serial => exact fun halone => congrArg Nat.succ (h.serial halone)
  case home => exact h.home
  case unique => exact h.unique
  case cell =>
    intro place u huse
    obtain ⟨c, hcell, hfits⟩ := h.cell huse
    refine ⟨c, hcell, Fits.mono hle ?_⟩
    cases u <;> exact hfits
  case known =>
    intro place u label huse hlabel
    have hknown := h.known huse hlabel
    cases label <;> exact hknown
  case object =>
    intro n m w hobject
    rcases holder hobject with ⟨rfl, rfl⟩ | hobject
    · exact ⟨Nat.lt_succ_self _, Nat.lt_succ_self _, h.serial⟩
    · obtain ⟨hn, hm, heq⟩ := h.object hobject
      exact ⟨Nat.lt_succ_of_lt hn, Nat.lt_succ_of_lt hm, heq⟩
  case single =>
    intro n n' m w w' hobject hobject'
    -- A number that was in use before is not the one that is given out now.
    rcases holder hobject with ⟨rfl, rfl⟩ | hold <;> rcases holder hobject' with ⟨rfl, h'⟩ | hold'
    · rfl
    · exact absurd (h.object hold').2.1 (Nat.lt_irrefl _)
    · exact absurd (h' ▸ (h.object hold).2.1) (Nat.lt_irrefl _)
    · exact h.single hold hold'

/-- A definition puts a new variable in front of the global frame. -/
theorem Agrees.define (h : B.Agrees ⟨s, log⟩ r) {name value : Value} {x y : Datum}
    (hname : B.Same name x) (hvalue : B.Same value y) :
    ∃ B', Evolves [] B B' s (s.define name value (.pair B.home)) ∧
      B'.Agrees ⟨s.define name value (.pair B.home), log⟩ (r.define x y) := by
  -- First the binding is made, then the pair of the frame that holds it.
  let s₁ := (s.cons name value).2
  let B₁ := B.adopt s.size (.binding r.table.length name)
  have hunused₁ : B.use s.size = none := h.use_size (Nat.le_refl _)
  have hkeeps₁ : Store.KeepsExcept [] s s₁ := .cons s name value
  have hagrees₁ : B₁.Agrees ⟨s₁, log⟩ { r with table := r.table ++ [⟨x, y⟩] } :=
    (h.keep hkeeps₁ (by simp) rfl).newVariable hunused₁ (s.cell?_cons_self ..) hname hvalue
  have hevolves₁ : Evolves [] B B₁ s s₁ :=
    (Evolves.of_keeps hkeeps₁ rfl B).adopt hunused₁ _ fun hlt _ => absurd hlt (Nat.lt_irrefl _)
  obtain ⟨frame, hhome, hframe⟩ := hagrees₁.cell_home
  let s₂ := (s₁.cons (.pair s.size) frame).2
  let B₂ := B₁.adopt s₁.size (.spine (.pair s.size) frame)
  have hunused₂ : B₁.use s₁.size = none := hagrees₁.use_size (Nat.le_refl _)
  have hkeeps₂ : Store.KeepsExcept [] s₁ s₂ := .cons s₁ (.pair s.size) frame
  have hagrees₂ : B₂.Agrees ⟨s₂, log⟩ { r with table := r.table ++ [⟨x, y⟩] } :=
    (hagrees₁.keep hkeeps₂ (by simp) rfl).adopt_spine hunused₂ (s₁.cell?_cons_self ..) rfl rfl
  have hevolves₂ : Evolves [] B₁ B₂ s₁ s₂ :=
    (Evolves.of_keeps hkeeps₂ rfl B₁).adopt hunused₂ _ fun hlt _ => absurd hlt (Nat.lt_irrefl _)
  have hbinding : B₂.use s.size = some (.binding r.table.length name) :=
    hevolves₂.le.2.1 _ _ (use_adopt_self ..)
  have hframe₂ : B₂.Frame (.pair s₁.size) (r.table.length :: r.globals) :=
    .cons (use_adopt_self ..) hbinding (hframe.mono hevolves₂.le)
  -- The global cell has a use, so overwriting it changes nothing that has none.
  have hevolves₃ : Evolves [] B₂ B₂ s₂ (s₂.setCar (.pair B.home) (.pair s₁.size)) :=
    (Evolves.of_keeps (.setCar s₂ B.home _) (s₂.serial_setCar ..) B₂).weaken
      fun place _ hmem huse => by
      rw [List.mem_singleton.mp hmem] at huse
      simp [show B₂.use B.home = some .globals from hagrees₂.home] at huse
  have hdefine : s.define name value (.pair B.home) =
      s₂.setCar (.pair B.home) (.pair s₁.size) := by
    have hcar : s₁.car (.pair B.home) = frame := by
      simp [Store.car, show s₁.cell? (.pair B.home) = some ⟨frame, .nil⟩ from hhome]
    simp only [s₂, ← hcar]
    rfl
  rw [hdefine]
  exact ⟨B₂, (hevolves₁.trans hevolves₂ (by simp)).trans hevolves₃ (by simp),
    hagrees₂.setCar_home hframe₂⟩

/-! ## Lists in place -/

/-- The value is a list in place: its pairs hold these elements and have no use yet. -/
structure Draft (B : Bridge) (s : Store) (v : Value) (places : List Nat)
    (elements : List Value) : Prop where
  links : s.Links v places elements .nil
  unused : ∀ place ∈ places, B.use place = none

variable {v : Value} {elements : List Value}

theorem Draft.nil (B : Bridge) (s : Store) : B.Draft s .nil [] [] :=
  ⟨.done rfl, by simp⟩

/-- A new pair comes in front of a list in place. -/
theorem Draft.push (h : B.Agrees ⟨s, log⟩ r) (hdraft : B.Draft s v places elements) (a : Value) :
    B.Draft (s.cons a v).2 (.pair s.size) (s.size :: places) (a :: elements) := by
  refine ⟨.next (s.cell?_cons_self a v) ?_, fun place hmem => ?_⟩
  · exact hdraft.links.keep (.cons s a v) (by simp) rfl
  · rcases List.mem_cons.mp hmem with rfl | hmem
    · exact h.use_size (Nat.le_refl _)
    · exact hdraft.unused place hmem

theorem Draft.evolve (h : B.Draft s v places elements) (hevolves : Evolves [] B B' s s') :
    B'.Draft s' v places elements := by
  obtain ⟨hlinks, hunused⟩ := h
  generalize htail : (.nil : Value) = tail at hlinks
  induction hlinks with
  | done =>
    subst htail
    exact .nil B' s'
  | next hcell _ ih =>
    obtain ⟨hrest, hunused'⟩ :=
      ih (fun place hmem => hunused place (List.mem_cons_of_mem _ hmem)) htail
    obtain ⟨huse, hsame⟩ := hevolves.unused (Store.lt_size_of_cell? hcell) (by simp)
      (hunused _ List.mem_cons_self)
    refine ⟨.next (hsame.trans hcell) hrest, fun place hmem => ?_⟩
    rcases List.mem_cons.mp hmem with rfl | hmem
    · exact huse
    · exact hunused' place hmem

/-- A complete list in place becomes the list of its elements. -/
theorem Agrees.listOf (h : B.Agrees ⟨s, log⟩ r) (hdraft : B.Draft s v places elements)
    {items : List Datum} (hitems : List.Forall₂ B.Same elements items) :
    ∃ x r' B', Reference.listOf items r = .ok x r' ∧ Evolves places B B' s s ∧
      B'.Agrees ⟨s, log⟩ r' ∧ B'.Same v x := by
  obtain ⟨hlinks, hunused⟩ := hdraft
  -- The last pair of the list gets its use first, so the induction goes before the pair itself.
  generalize htail : (.nil : Value) = tail at hlinks
  induction hlinks generalizing items with
  | done =>
    cases hitems
    subst htail
    exact ⟨.nil, r, B, rfl, .refl [] B s, h, .nil⟩
  | @next place a d tail places elements hcell hrest ih =>
    cases hitems with
    | @cons _ item _ items ha hitems =>
      obtain ⟨x, r₁, B₁, hrun, hevolves, hagrees, hx⟩ :=
        ih hitems (fun place hmem => hunused place (List.mem_cons_of_mem _ hmem)) htail
      have hnot := (List.nodup_cons.mp (Store.Links.next hcell hrest).nodup).1
      have hunused₁ : B₁.use place = none :=
        (hevolves.unused (Store.lt_size_of_cell? hcell) hnot (hunused place List.mem_cons_self)).1
      have hle := le_adopt hunused₁ (.data r₁.identities a d)
      refine ⟨.pair r₁.identities item x, _, _, ?_, ?_, hagrees.data hunused₁ hcell,
        .pair (use_adopt_self ..) (ha.mono (le_trans hevolves.le hle)) (hx.mono hle)⟩
      · unfold Reference.listOf
        simp only [Bind.bind, EStateM.bind, hrun]
        rfl
      · have hall : Evolves (place :: places) B B₁ s s :=
          hevolves.weaken fun other _ hmem _ => List.mem_cons_of_mem place hmem
        exact hall.adopt hunused₁ _ fun _ _ => List.mem_cons_self

/-! ## Frames in place -/

/-- The cell holds this name and this value. -/
def Holds (B : Bridge) (s : Store) (place : Nat) (pair : Datum × Datum) : Prop :=
  ∃ c, s.cell? (.pair place) = some c ∧ B.Same c.car pair.1 ∧ B.Same c.cdr pair.2

/-- The value is a frame in place: a list in place of bindings that have no use yet either, and
that hold these names and values. -/
structure FrameDraft (B : Bridge) (s : Store) (v : Value) (places cells : List Nat)
    (pairs : List (Datum × Datum)) : Prop where
  draft : B.Draft s v places (cells.map .pair)
  unused : ∀ place ∈ cells, B.use place = none
  nodup : (places ++ cells).Nodup
  holds : List.Forall₂ (B.Holds s) cells pairs

variable {cells : List Nat} {pairs : List (Datum × Datum)}

theorem FrameDraft.nil (B : Bridge) (s : Store) : B.FrameDraft s .nil [] [] [] :=
  ⟨.nil B s, by simp, by simp, .nil⟩

theorem Holds.mono (hle : B ≤ B') {place : Nat} {pair : Datum × Datum}
    (h : B.Holds s place pair) : B'.Holds s place pair := by
  obtain ⟨c, hcell, hname, hvalue⟩ := h
  exact ⟨c, hcell, hname.mono hle, hvalue.mono hle⟩

/-- Beside a frame in place another cell gets a use. -/
theorem FrameDraft.adopt (h : B.FrameDraft s v places cells pairs) {place : Nat}
    (hunused : B.use place = none) (hplace : place ∉ places ++ cells) (u : Use) :
    (B.adopt place u).FrameDraft s v places cells pairs := by
  have hkeep : ∀ other ∈ places ++ cells, B.use other = none →
      (B.adopt place u).use other = none := by
    intro other hmem huse
    have hne : other ≠ place := by
      rintro rfl
      exact hplace hmem
    rwa [use_adopt_of_ne hne]
  refine ⟨⟨h.draft.links, fun other hmem => ?_⟩, fun other hmem => ?_, h.nodup, ?_⟩
  · exact hkeep other (List.mem_append_left _ hmem) (h.draft.unused other hmem)
  · exact hkeep other (List.mem_append_right _ hmem) (h.unused other hmem)
  · exact h.holds.imp fun _ _ hholds => hholds.mono (le_adopt hunused u)

/-- A new binding comes in front of a frame in place. -/
theorem FrameDraft.push (h : B.Agrees ⟨s, log⟩ r) (hframe : B.FrameDraft s v places cells pairs)
    {name value : Value} {x y : Datum} (hname : B.Same name x) (hvalue : B.Same value y) :
    B.FrameDraft ((s.cons name value).2.cons (.pair s.size) v).2 (.pair (s.size + 1))
      ((s.size + 1) :: places) (s.size :: cells) ((x, y) :: pairs) := by
  have hkeeps := Store.KeepsExcept.cons s name value
  have hkeeps' := Store.KeepsExcept.cons (s.cons name value).2 (.pair s.size) v
  have hagrees := h.keep hkeeps (by simp) rfl
  have hlt : ∀ place ∈ places ++ cells, place < s.size := by
    intro place hmem
    rcases List.mem_append.mp hmem with hmem | hmem
    · exact hframe.draft.links.lt_size hmem
    · obtain ⟨i, hi, rfl⟩ := List.getElem_of_mem hmem
      obtain ⟨c, hcell, -⟩ := hframe.holds.get hi (hframe.holds.length_eq ▸ hi)
      exact Store.lt_size_of_cell? hcell
  have hcell : ∀ {place c}, s.cell? (.pair place) = some c →
      ((s.cons name value).2.cons (.pair s.size) v).2.cell? (.pair place) = some c := by
    intro place c hcell
    have hplace := Store.lt_size_of_cell? hcell
    rw [hkeeps'.cell (Nat.lt_of_lt_of_le hplace hkeeps.size) (by simp),
      hkeeps.cell hplace (by simp), hcell]
  refine ⟨?_, fun place hmem => ?_, ?_, ?_⟩
  · have hdraft := hframe.draft.evolve (.of_keeps hkeeps rfl B)
    have hpush := hdraft.push hagrees (.pair s.size)
    rwa [Store.size_cons] at hpush
  · rcases List.mem_cons.mp hmem with rfl | hmem
    · exact h.use_size (Nat.le_refl _)
    · exact hframe.unused place hmem
  · rw [List.perm_middle.nodup_iff, List.cons_append, List.nodup_cons, List.nodup_cons]
    refine ⟨fun hmem => ?_, fun hmem => ?_, hframe.nodup⟩
    · rcases List.mem_cons.mp hmem with heq | hmem
      · omega
      · exact Nat.lt_irrefl _ (hlt _ hmem)
    · have := hlt _ hmem
      omega
  · refine .cons ⟨⟨name, value⟩, ?_, hname, hvalue⟩ (hframe.holds.imp ?_)
    · rw [hkeeps'.cell (by simp) (by simp), s.cell?_cons_self]
    · rintro place pair ⟨c, hold, hsame⟩
      exact ⟨c, hcell hold, hsame⟩

/-- A complete frame in place becomes a frame of new variables. -/
theorem Agrees.bindEach (h : B.Agrees ⟨s, log⟩ r) (hframe : B.FrameDraft s v places cells pairs) :
    ∃ numbers r' B', Reference.bindEach pairs r = .ok numbers r' ∧
      Evolves (places ++ cells) B B' s s ∧ B'.Agrees ⟨s, log⟩ r' ∧ B'.Frame v numbers := by
  -- Variables are numbered from the front, so a binding gets its use before those behind it, and
  -- the pair that holds it afterwards.
  induction cells generalizing B r v places pairs with
  | nil =>
    obtain ⟨⟨hlinks, -⟩, -, -, hholds⟩ := hframe
    cases hholds
    cases hlinks
    exact ⟨[], r, B, rfl, .refl _ B s, h, .nil⟩
  | cons b cells ih =>
    obtain ⟨⟨hlinks, hspine⟩, hunused, hnodup, hholds⟩ := hframe
    cases hholds with
    | @cons _ pair _ pairs hfirst hholds =>
      obtain ⟨⟨name, value⟩, hbinding, hname, hvalue⟩ := hfirst
      cases hlinks with
      | @next place _ rest _ places _ hcell hlinks =>
        obtain ⟨hb, hnodup'⟩ := List.nodup_cons.mp (List.perm_middle.nodup_iff.mp hnodup)
        obtain ⟨hplace, hnodup'⟩ := List.nodup_cons.mp hnodup'
        have hne : b ≠ place := List.ne_of_not_mem_cons hb
        have hb : b ∉ places ++ cells := List.not_mem_of_not_mem_cons hb
        have huse : B.use place = none := hspine place List.mem_cons_self
        have hunusedb : B.use b = none := hunused b List.mem_cons_self
        have hrest : B.FrameDraft s rest places cells pairs :=
          ⟨⟨hlinks, fun other hmem => hspine other (List.mem_cons_of_mem _ hmem)⟩,
            fun other hmem => hunused other (List.mem_cons_of_mem _ hmem), hnodup', hholds⟩
        obtain ⟨numbers, r', B₁, hrun, hevolves, hagrees, hnumbers⟩ :=
          ih (h.newVariable hunusedb hbinding hname hvalue) (hrest.adopt hunusedb hb _)
        -- The pair has stayed without a use, since it is none of those behind it.
        have huse₁ : B₁.use place = none := by
          refine (hevolves.unused (Store.lt_size_of_cell? hcell) hplace ?_).1
          rwa [use_adopt_of_ne hne.symm]
        have hfits : (B₁.adopt place (.spine (.pair b) rest)).Fits r' ⟨.pair b, rest⟩
            (.spine (.pair b) rest) := rfl
        have hle₁ := le_adopt huse₁ (.spine (.pair b) rest)
        have hbound : (B₁.adopt place (.spine (.pair b) rest)).use b =
            some (.binding r.table.length name) :=
          hle₁.2.1 _ _ (hevolves.le.2.1 _ _ (use_adopt_self ..))
        refine ⟨r.table.length :: numbers, r', _, ?_, ?_,
          hagrees.adopt_spine huse₁ hcell hfits rfl,
          .cons (use_adopt_self ..) hbound (hnumbers.mono hle₁)⟩
        · unfold Reference.bindEach
          simp only [Bind.bind, EStateM.bind, Reference.newVariable, hrun]
          rfl
        · have hstart : Evolves (place :: places ++ b :: cells) B
              (B.adopt b (.binding r.table.length name)) s s :=
            (Evolves.refl _ B s).adopt hunusedb _ fun _ _ => by simp
          have hmiddle := hstart.trans hevolves fun other _ hmem _ => by
            rcases List.mem_append.mp hmem with hmem | hmem <;> simp [hmem]
          exact hmiddle.adopt huse₁ _ fun _ _ => by simp

/-! ## Two bridges in one store -/

variable {B₁ : Bridge}

/-- No cell has a use in both. -/
def Disjoint (B B' : Bridge) : Prop :=
  ∀ place, B.use place = none ∨ B'.use place = none

theorem Disjoint.symm (h : B.Disjoint B') : B'.Disjoint B :=
  fun place => (h place).symm

/-- What is done beside a bridge stays beside it. -/
theorem Evolves.disjoint (hevolves : Evolves [] B₁ B' s s')
    (h : B.Agrees ⟨s, log⟩ r) (hdisjoint : B.Disjoint B₁) : B.Disjoint B' := by
  intro place
  cases huse : B.use place with
  | none => exact .inl rfl
  | some u =>
    have hunused : B₁.use place = none := (hdisjoint place).resolve_left (by simp [huse])
    exact .inr (hevolves.unused (h.lt_size huse) (by simp) hunused).1

/-- A bridge does not notice what is done beside it. -/
theorem Agrees.beside {state state' : State} (h : B.Agrees state r) (hshared : ¬B.alone)
    (hevolves : Evolves [] B₁ B' state.store state'.store) (hdisjoint : B.Disjoint B₁)
    (hthreshold : state'.log.threshold = state.log.threshold) : B.Agrees state' r := by
  constructor
  case threshold => exact ⟨hthreshold.trans h.threshold.1, h.threshold.2⟩
  case log => exact fun halone => absurd halone hshared
  case serial => exact fun halone => absurd halone hshared
  case home => exact h.home
  case known => exact h.known
  case unique => exact h.unique
  case single => exact h.single
  case cell =>
    intro place u huse
    obtain ⟨c, hcell, hfits⟩ := h.cell huse
    have hunused : B₁.use place = none := (hdisjoint place).resolve_left (by simp [huse])
    exact ⟨c, (hevolves.unused (h.lt_size huse) (by simp) hunused).2.trans hcell, hfits⟩
  case object =>
    intro n m v hobject
    obtain ⟨hn, hm, -⟩ := h.object hobject
    exact ⟨Nat.lt_of_lt_of_le hn hevolves.serial, hm, fun halone => absurd halone hshared⟩

end ConsLisp.Bridge
