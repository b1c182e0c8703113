import ConsLisp.Proofs.Chronicle.Points
import ConsLisp.Proofs.Outline.Evaluation
import ConsLisp.Proofs.Store.Sealed

/-!
# The outline of a layout

A layout says of every pair what it is for, so it has an outline.  A store that keeps to the layout
keeps to its outline, and it is sealed: no pair leads to a place where there is none.

Main statements: `Kept.outline`, `Kept.sealed`, and the list that any value is which a program can
get hold of (`Matter.links`).
-/

namespace ConsLisp.Layout

variable {L : Layout} {s : Store} {v : Value} {place : Nat} {role : Role}

/-- The part that a pair of this role has in environments. -/
def part : Role → Option Part
  | .scope .. | .globals => some .scope
  | .frame .. => some .frame
  | .binding _ => some .binding
  | .data .. | .draft .. => none

/-- The pairs that environments are made of. -/
def outline (L : Layout) : Outline :=
  ⟨fun place => (L.role place).bind part⟩

theorem part_outline (hrole : L.role place = some role) : L.outline.part place = part role := by
  simp [outline, hrole]

/-- A pair of data is none of an environment. -/
theorem IsData.part_outline (h : L.IsData place) : L.outline.part place = none := by
  obtain ⟨a, d, hrole⟩ := h
  rw [Layout.part_outline hrole]
  rfl

/-- The value leads to places where there are pairs, and its closures have environments. -/
structure Grasps (L : Layout) (s : Store) (v : Value) : Prop where
  knows : s.Knows v
  admits : L.outline.Admits v

theorem Kept.grasps_pair (h : L.Kept s) (hrole : L.role place = some role) :
    L.Grasps s (.pair place) :=
  ⟨h.lt_size hrole, trivial⟩

theorem grasps_of_token (h : v.IsToken) : L.Grasps s v := by
  cases v with
  | nil | num | sym => exact ⟨trivial, trivial⟩
  | _ => exact h.elim

theorem grasps_nil : L.Grasps s .nil :=
  grasps_of_token trivial

theorem grasps_error (h : v.isError = true) : L.Grasps s v := by
  obtain ⟨serial, fault, rfl⟩ := Value.isError_iff.mp h
  exact ⟨trivial, trivial⟩

theorem Tree.grasps (h : L.Kept s) {atom : Value → Prop}
    (hatom : ∀ v, v.isPlace = false → atom v → L.Grasps s v) (hv : L.Tree atom v) :
    L.Grasps s v := by
  cases hv with
  | atom hplace ha => exact hatom v hplace ha
  | pair hrole => exact h.grasps_pair hrole

theorem Code.grasps (h : L.Kept s) (hv : L.Code v) : L.Grasps s v :=
  hv.1.grasps h fun _ _ hword => grasps_of_token (L.vocabulary.token hword)

theorem Env.grasps (h : L.Kept s) (hv : L.Env v) : L.Grasps s v := by
  obtain ⟨frames, hscope⟩ := hv
  cases hscope with
  | globals => exact h.grasps_pair h.home
  | cons hrole => exact h.grasps_pair hrole

theorem Frame.grasps (h : L.Kept s) {bindings : List Nat} (hv : L.Frame v bindings) :
    L.Grasps s v := by
  cases hv with
  | nil => exact grasps_nil
  | cons hrole => exact h.grasps_pair hrole

theorem IsBinding.grasps (h : L.Kept s) (hv : L.IsBinding v) : L.Grasps s v := by
  obtain ⟨place, name, rfl, hrole⟩ := hv
  exact h.grasps_pair hrole

theorem Ends.grasps (h : L.Kept s) (hv : L.Ends v) : L.Grasps s v := by
  cases hv with
  | nil => exact grasps_nil
  | other hrole | draft hrole => exact h.grasps_pair hrole

/-! ## Environments -/

theorem Frame.lists {bindings : List Nat} (hv : L.Frame v bindings) :
    L.outline.Lists .frame v := by
  cases hv with
  | nil => exact .inl rfl
  | cons hrole => exact .inr ⟨_, rfl, Layout.part_outline hrole⟩

theorem Env.lists (h : L.Kept s) (hv : L.Env v) : L.outline.Lists .scope v := by
  obtain ⟨frames, hscope⟩ := hv
  cases hscope with
  | globals => exact .inr ⟨_, rfl, Layout.part_outline h.home⟩
  | cons hrole => exact .inr ⟨_, rfl, Layout.part_outline hrole⟩

theorem IsBinding.is (hv : L.IsBinding v) : L.outline.Is .binding v := by
  obtain ⟨place, name, rfl, hrole⟩ := hv
  exact ⟨place, rfl, Layout.part_outline hrole⟩

theorem DataAtom.grasps (h : L.Kept s) (hv : L.DataAtom v) : L.Grasps s v := by
  cases v with
  | closure serial params body env =>
    obtain ⟨hparams, hbody, henv⟩ := hv
    have hparams := hparams.grasps h
    have hbody := hbody.grasps h
    exact ⟨⟨hparams.knows, hbody.knows, (henv.grasps h).knows⟩,
      ⟨hparams.admits, hbody.admits, henv.lists h⟩⟩
  | num | primitive => exact ⟨trivial, trivial⟩
  | _ => exact grasps_of_token (L.vocabulary.token hv)

theorem Matter.grasps (h : L.Kept s) (hv : L.Matter v) : L.Grasps s v :=
  Tree.grasps h (fun _ _ ha => ha.elim (·.grasps h) grasps_error) hv

/-- Both fields of every pair lead to pairs of the store. -/
theorem Fits.grasps (h : L.Kept s) {c : Cell} (hfits : L.Fits role c) :
    L.Grasps s c.car ∧ L.Grasps s c.cdr := by
  cases role with
  | data a d =>
    obtain ⟨rfl, ha, hd⟩ := hfits
    exact ⟨ha.grasps h, hd.grasps h⟩
  | draft a d =>
    obtain ⟨rfl, ha, hd⟩ := hfits
    exact ⟨ha.elim (·.grasps h) (·.grasps h), hd.grasps h⟩
  | binding name =>
    obtain ⟨rfl, hname, hvalue⟩ := hfits
    exact ⟨hname.matter.grasps h, hvalue.matter.grasps h⟩
  | frame binding rest =>
    obtain ⟨rfl, hbinding, bindings, hrest⟩ := hfits
    exact ⟨hbinding.grasps h, hrest.grasps h⟩
  | scope frame outer =>
    obtain ⟨rfl, ⟨bindings, hframe⟩, houter⟩ := hfits
    exact ⟨hframe.grasps h, houter.grasps h⟩
  | globals =>
    obtain ⟨hcdr, bindings, hframe⟩ := hfits
    exact ⟨hframe.grasps h, hcdr ▸ grasps_nil⟩

/-- The fields of a pair of an environment are as its part asks for. -/
theorem Fits.outline (h : L.Kept s) {c : Cell} {p : Part} (hpart : part role = some p)
    (hfits : L.Fits role c) : L.outline.Fits p c := by
  cases role with
  | data | draft => simp [part] at hpart
  | binding =>
    cases hpart
    trivial
  | frame binding rest =>
    cases hpart
    obtain ⟨rfl, hbinding, bindings, hrest⟩ := hfits
    exact ⟨hbinding.is, hrest.lists⟩
  | scope frame outer =>
    cases hpart
    obtain ⟨rfl, ⟨bindings, hframe⟩, houter⟩ := hfits
    exact ⟨hframe.lists, houter.lists h⟩
  | globals =>
    cases hpart
    obtain ⟨hcdr, bindings, hframe⟩ := hfits
    exact ⟨hframe.lists, .inl hcdr⟩

theorem Kept.outline (h : L.Kept s) : L.outline.Kept s := by
  constructor
  case fits =>
    intro place p hpart
    obtain ⟨role, hrole, hp⟩ := Option.bind_eq_some_iff.mp hpart
    obtain ⟨c, hcell, hfits⟩ := h.cell hrole
    exact ⟨c, hcell, hfits.outline h hp⟩
  case admits =>
    intro place c hcell
    obtain ⟨role, -, hfits⟩ := h.fits hcell
    exact ⟨(hfits.grasps h).1.admits, (hfits.grasps h).2.admits⟩

theorem Kept.sealed (h : L.Kept s) : s.Sealed := by
  intro place c _ hcell
  obtain ⟨role, -, hfits⟩ := h.fits hcell
  exact ⟨(hfits.grasps h).1.knows, (hfits.grasps h).2.knows⟩

/-! ## Lists that are held -/

/-- The chain of a value ends in an atom, and its pairs are pairs of data. -/
theorem Matter.links (h : L.Kept s) (hv : L.Matter v) :
    ∃ places elements tail, s.Links v places elements tail ∧
      (∀ place ∈ places, L.IsData place) ∧ tail.isPlace = false := by
  induction hv with
  | @atom v hplace _ => exact ⟨[], [], v, .done (cell?_of_isPlace hplace), by simp, hplace⟩
  | @pair place a d hrole _ _ _ ih =>
    obtain ⟨places, elements, tail, hlinks, hdata, htail⟩ := ih
    refine ⟨place :: places, a :: elements, tail, .next (h.cell_data hrole) hlinks, ?_, htail⟩
    exact List.forall_mem_cons.mpr ⟨⟨a, d, hrole⟩, hdata⟩

/-- Whatever list a program can get hold of, its elements may be evaluated in order in any
environment. -/
theorem Ready.evaluatesAll (h : L.Ready s) (hv : L.Matter v) {env : Value} (henv : L.Env env) :
    ∃ places elements tail, s.Links v places elements tail ∧ ∀ depth noted,
      Action.EvaluatesAll depth env elements ⟨s, noted⟩
        ((ConsLisp.evaluateAll (depth + 1) v env : Action Value) ⟨s, noted⟩) := by
  obtain ⟨places, elements, tail, hlinks, hdata, htail⟩ := hv.links h.kept
  refine ⟨places, elements, tail, hlinks, fun depth noted => ?_⟩
  rw [Action.evaluateAll_succ]
  have hlength : elements.length ≤ s.size := hlinks.length_eq ▸ hlinks.length_le_size
  have hsame : ∀ place ∈ places, L.outline.part place = none ∧
      s.cell? (.pair place) = s.cell? (.pair place) :=
    fun place hmem => ⟨(hdata place hmem).part_outline, rfl⟩
  exact (h.kept.outline.collects ((Outline.Answers.evaluation depth).evaluate · env)
    (henv.lists h.kept) (.nil ..) hlinks hsame (fun _ => cell?_of_isPlace htail)
    (Nat.le_add_right_of_le hlength) noted).evaluatesAll

end ConsLisp.Layout
