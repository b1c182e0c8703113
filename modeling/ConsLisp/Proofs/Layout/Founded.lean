import ConsLisp.Proofs.Layout.Kept

/-!
# Kept stores have no cycles

A cell of each role shows only cells that were there before it, in a sense that the layout makes
plain: data are finite trees, frames and environments are finite lists, a binding stands above its
name and its value, and behind a draft a chain of drafts ends.  The environment of a closure is
not shown, and it alone may lead back to the binding of the closure.

Main statement: a store that keeps to a layout is founded (`Kept.founded`).
-/

namespace ConsLisp.Layout

variable {L : Layout} {s : Store}

theorem ending_of_token {v : Value} (h : v.IsToken) : s.Ending v := by
  rintro place hshows
  cases hshows with
  | pair | params | body => exact h.elim

theorem ending_error {v : Value} (h : v.isError = true) : s.Ending v := by
  rintro place hshows
  cases hshows with
  | pair | params | body => simp [Value.isError] at h

theorem Tree.ending (h : L.Kept s) {atom : Value → Prop}
    (hatom : ∀ v, v.isPlace = false → atom v → s.Ending v) {v : Value} (hv : L.Tree atom v) :
    s.Ending v := by
  induction hv with
  | atom hplace ha => exact hatom _ hplace ha
  | pair hrole _ _ ihcar ihcdr => exact Store.ending_pair (h.cell_data hrole) ihcar ihcdr

theorem Code.ending (h : L.Kept s) {v : Value} (hv : L.Code v) : s.Ending v :=
  Tree.ending h (fun _ _ hword => ending_of_token (L.vocabulary.token hword)) hv.1

/-- A closure shows program text only. -/
theorem DataAtom.ending (h : L.Kept s) {v : Value} (hplace : v.isPlace = false)
    (hv : L.DataAtom v) : s.Ending v := by
  intro place hshows
  cases hshows with
  | pair => simp [Value.isPlace] at hplace
  | params hparams => exact hv.1.ending h place hparams
  | body hbody => exact hv.2.1.ending h place hbody

theorem Matter.ending (h : L.Kept s) {v : Value} (hv : L.Matter v) : s.Ending v :=
  Tree.ending h (fun _ hplace ha => ha.elim (·.ending h hplace) ending_error) hv

theorem IsBinding.ending (h : L.Kept s) {v : Value} (hv : L.IsBinding v) : s.Ending v := by
  obtain ⟨place, name, rfl, hrole⟩ := hv
  obtain ⟨value, hcell, hname, hvalue⟩ := h.cell_binding hrole
  exact Store.ending_pair hcell (hname.matter.ending h) (hvalue.matter.ending h)

theorem ending_nil : s.Ending .nil :=
  ending_of_token (v := .nil) trivial

theorem Frame.ending (h : L.Kept s) {v : Value} {bindings : List Nat} (hv : L.Frame v bindings) :
    s.Ending v := by
  induction hv with
  | nil => exact ending_nil
  | cons hrole hbinding _ ih =>
    exact Store.ending_pair (h.cell_frame hrole) (IsBinding.ending h ⟨_, _, rfl, hbinding⟩) ih

theorem ending_home (h : L.Kept s) : s.Ending (.pair L.home) := by
  obtain ⟨frame, bindings, hcell, hframe⟩ := h.cell_home
  exact Store.ending_pair hcell (hframe.ending h) ending_nil

theorem Scope.ending (h : L.Kept s) {v : Value} {frames : List (List Nat)}
    (hv : L.Scope v frames) : s.Ending v := by
  induction hv with
  | globals => exact ending_home h
  | cons hrole hframe _ ih => exact Store.ending_pair (h.cell_scope hrole) (hframe.ending h) ih

/-- A cell of any role but a draft ends. -/
theorem Kept.ending (h : L.Kept s) {place : Nat} {role : Role} (hrole : L.role place = some role)
    (hdraft : role.isDraft = false) : s.Ending (.pair place) := by
  obtain ⟨c, hcell, hfits⟩ := h.cell hrole
  cases role with
  | data a d =>
    obtain ⟨rfl, ha, hd⟩ := hfits
    exact Store.ending_pair hcell (ha.ending h) (hd.ending h)
  | draft => simp [Role.isDraft] at hdraft
  | binding name => exact IsBinding.ending h ⟨place, name, rfl, hrole⟩
  | frame binding rest =>
    obtain ⟨rfl, hbinding, bindings, hrest⟩ := hfits
    exact Store.ending_pair hcell (hbinding.ending h) (hrest.ending h)
  | scope frame outer =>
    obtain ⟨rfl, ⟨bindings, hframe⟩, frames, houter⟩ := hfits
    exact Store.ending_pair hcell (hframe.ending h) (houter.ending h)
  | globals => exact h.only_home hrole ▸ ending_home h

/-- The drafts of a chain end with the chain. -/
theorem Ends.ending (h : L.Kept s) {v : Value} (hv : L.Ends v) : s.Ending v := by
  induction hv with
  | nil => exact ending_nil
  | other hrole hdraft => exact h.ending hrole hdraft
  | draft hrole _ ih =>
    obtain ⟨c, hcell, rfl, ha, -⟩ := h.cell hrole
    exact Store.ending_pair hcell (ha.elim (·.ending h) (·.ending h)) ih

/-- In a kept store no way down goes on for ever. -/
theorem Kept.founded (h : L.Kept s) : s.Founded := by
  refine ⟨fun place => ?_⟩
  cases hcell : s.cell? (.pair place) with
  | none =>
    refine Acc.intro _ fun inner hbelow => ?_
    obtain ⟨c, hcell', -⟩ := hbelow
    simp [hcell] at hcell'
  | some c =>
    obtain ⟨role, hrole, hfits⟩ := h.fits hcell
    cases hdraft : role.isDraft with
    | false => exact h.ending hrole hdraft place (.pair place)
    | true =>
      cases role with
      | draft a d =>
        obtain ⟨-, -, hends⟩ := hfits
        exact (Ends.draft hrole hends).ending h place (.pair place)
      | _ => simp [Role.isDraft] at hdraft

end ConsLisp.Layout
