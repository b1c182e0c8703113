import ConsLisp.Proofs.Store.Lookup
import ConsLisp.Proofs.Store.Reverse

/-!
# What an environment sees

An environment sees the bindings of its local frames, innermost first, and behind them those of the
global frame.  A lookup finds the first of these that binds the name.  A definition puts one binding
in front of the global frame, where every environment sees it behind its local frames.

Main statements: the result of a lookup (`Sees.binding?_eq`, `Sees.lookup`), and what a definition
makes of it (`Pushes.found`, `Pushes.unchanged`).
-/

namespace ConsLisp

namespace Store

variable {s s' : Store} {globals env name value : Value} {locals shared : List Value}

/-- The first of these bindings that binds a name. -/
def firstOf (s : Store) (name : Value) (bindings : List Value) : Option Value :=
  bindings.find? fun binding => s.car binding = name

theorem firstOf_append (s : Store) (name : Value) (front back : List Value) :
    s.firstOf name (front ++ back) = (s.firstOf name front).or (s.firstOf name back) :=
  List.find?_append

theorem mem_of_firstOf {bindings : List Value} {binding : Value}
    (h : s.firstOf name bindings = some binding) : binding ∈ bindings :=
  List.mem_of_find?_eq_some h

/-- In front of the first binding of a name stands none of that name. -/
theorem firstOf_eq_some {bindings : List Value} {binding : Value}
    (h : s.firstOf name bindings = some binding) :
    s.car binding = name ∧ ∃ before behind, bindings = before ++ binding :: behind ∧
      ∀ other ∈ before, s.car other ≠ name := by
  obtain ⟨hname, before, behind, hsplit, hbefore⟩ := List.find?_eq_some_iff_append.mp h
  refine ⟨by simpa using hname, before, behind, hsplit, fun other hmem => ?_⟩
  simpa using hbefore other hmem

/-- Bindings that keep their names are found alike. -/
theorem firstOf_congr {bindings : List Value}
    (h : ∀ binding ∈ bindings, s'.car binding = s.car binding) (name : Value) :
    s'.firstOf name bindings = s.firstOf name bindings := by
  induction bindings with
  | nil => rfl
  | cons binding bindings ih =>
    have hrest := ih fun other hmem => h other (List.mem_cons_of_mem _ hmem)
    unfold firstOf at hrest ⊢
    rw [List.find?_cons, List.find?_cons, hrest, h binding List.mem_cons_self]

/-- Among pairs, the first binding of a name is what a walk along them answers. -/
theorem findSome?_eq_firstOf {bindings : List Value}
    (hpairs : ∀ binding ∈ bindings, s.isPair binding = true) (name : Value) :
    bindings.findSome? (s.bindingAt name) = s.firstOf name bindings := by
  induction bindings with
  | nil => rfl
  | cons binding bindings ih =>
    have hrest := ih fun other hmem => hpairs other (List.mem_cons_of_mem _ hmem)
    obtain ⟨c, hcell⟩ := Option.isSome_iff_exists.mp (hpairs binding List.mem_cons_self)
    unfold firstOf at hrest ⊢
    rw [List.findSome?_cons, List.find?_cons, hrest]
    by_cases hname : c.car = name
    · simp [bindingAt, car, hcell, hname]
    · simp [bindingAt, car, hcell, hname]

/-! ## Lookups -/

/-- The bindings that an environment sees: those of its local frames, one frame after the other, and
those of the frame that the global cell holds.  All are pairs, and none is the global cell. -/
structure Sees (s : Store) (globals env : Value) (locals shared : List Value) : Prop where
  frames : ∃ places last frames frame lists, globals = .pair last ∧
    s.Links env (places ++ [last]) (frames ++ [frame]) .nil ∧
    List.Forall₂ s.IsList frames lists ∧ lists.flatten = locals ∧ s.IsList frame shared
  isPair : ∀ binding ∈ locals ++ shared, s.isPair binding = true
  apart : globals ∉ locals ++ shared

/-- A lookup finds the first binding of the name that the environment sees. -/
theorem Sees.binding?_eq (h : s.Sees globals env locals shared) (name : Value) :
    s.binding? name env = .ok (s.firstOf name (locals ++ shared)) := by
  obtain ⟨places, last, frames, frame, lists, -, hlinks, hframes, rfl, hshared⟩ := h.frames
  have hall : List.Forall₂ s.Lists (frames ++ [frame]) (lists ++ [shared]) :=
    (List.rel_append hframes (.cons hshared .nil)).imp fun _ _ hlist => hlist.lists
  rw [binding?_of_links hlinks hall, List.flatten_append, List.flatten_singleton,
    findSome?_eq_firstOf h.isPair]

/-- A pair that is made next is none that an environment sees. -/
theorem Sees.fresh (h : s.Sees globals env locals shared) : .pair s.size ∉ locals ++ shared := by
  intro hmem
  obtain ⟨c, hcell⟩ := Option.isSome_iff_exists.mp (h.isPair _ hmem)
  exact absurd (lt_size_of_cell? hcell) (Nat.lt_irrefl _)

/-- From the last pair on, a chain has one element. -/
theorem Links.last {places : List Nat} {elements : List Value} {v element tail : Value}
    {last : Nat} (h : s.Links v (places ++ [last]) (elements ++ [element]) tail) :
    s.Links (.pair last) [last] [element] tail := by
  induction places generalizing v elements with
  | nil =>
    have hlength := h.length_eq
    obtain rfl : elements = [] := by simpa using hlength
    cases h with
    | next hcell hrest => exact .next hcell hrest
  | cons place places ih =>
    have hlength := h.length_eq
    cases elements with
    | nil => simp at hlength
    | cons first elements =>
      cases h with
      | next _ hrest => exact ih hrest

/-- The global cell alone is an environment, which sees the global frame only. -/
theorem Sees.outermost (h : s.Sees globals env locals shared) :
    s.Sees globals globals [] shared := by
  obtain ⟨places, last, frames, frame, lists, rfl, hlinks, -, -, hshared⟩ := h.frames
  refine ⟨⟨[], last, [], frame, [], rfl, hlinks.last, .nil, rfl, hshared⟩, ?_, ?_⟩
  · exact fun binding hmem => h.isPair binding (List.mem_append_right _ hmem)
  · exact fun hmem => h.apart (List.mem_append_right _ hmem)

/-- An environment sees the same while no pair changes. -/
theorem Sees.keep (h : s.Sees globals env locals shared) (hkeeps : KeepsExcept [] s s') :
    s'.Sees globals env locals shared := by
  obtain ⟨places, last, frames, frame, lists, hlast, hlinks, hframes, hlists, hshared⟩ := h.frames
  refine ⟨⟨places, last, frames, frame, lists, hlast, hlinks.keep hkeeps (by simp) rfl,
    hframes.imp fun _ _ hlist => hlist.keep hkeeps, hlists, hshared.keep hkeeps⟩, ?_, h.apart⟩
  intro binding hmem
  rw [Store.isPair, hkeeps.cell_of_isPair (h.isPair binding hmem)]
  exact h.isPair binding hmem

/-- An environment with one more frame in front sees its bindings first. -/
theorem Sees.extend (h : s.Sees globals env locals shared) {place : Nat} {frame : Value}
    {bindings : List Value} (hcell : s.cell? (.pair place) = some ⟨frame, env⟩)
    (hframe : s.IsList frame bindings) (hpairs : ∀ binding ∈ bindings, s.isPair binding = true)
    (hapart : globals ∉ bindings) : s.Sees globals (.pair place) (bindings ++ locals) shared := by
  obtain ⟨places, last, frames, outer, lists, hlast, hlinks, hframes, rfl, hshared⟩ := h.frames
  refine ⟨⟨place :: places, last, frame :: frames, outer, bindings :: lists, hlast,
    .next hcell hlinks, .cons hframe hframes, rfl, hshared⟩, ?_, ?_⟩
  · intro binding hmem
    rw [List.append_assoc, List.mem_append] at hmem
    rcases hmem with hmem | hmem
    · exact hpairs binding hmem
    · exact h.isPair binding hmem
  · rw [List.append_assoc, List.mem_append, not_or]
    exact ⟨hapart, h.apart⟩

/-- A lookup is the first hit in the local frames, or else the lookup in the global frame. -/
theorem Sees.lookup (h : s.Sees globals env locals shared) (name : Value) :
    s.binding? name env =
      match s.firstOf name locals with
      | some binding => .ok (some binding)
      | none => s.binding? name globals := by
  rw [h.binding?_eq, h.outermost.binding?_eq, firstOf_append]
  cases s.firstOf name locals with
  | some binding => rfl
  | none => rfl

/-- A name that has the same binding has the same value, if the binding has kept its own. -/
theorem value?_congr {other env' : Value}
    (hbinding : s'.binding? name env = s.binding? other env')
    (hcdr : ∀ binding, s.binding? other env' = .ok (some binding) →
      s'.cdr binding = s.cdr binding) :
    s'.value? name env = s.value? other env' := by
  rw [value?, value?, hbinding]
  cases hfound : s.binding? other env' with
  | error abort => rfl
  | ok found =>
    cases found with
    | none => rfl
    | some binding =>
      rw [Except.map, Except.map, Option.map_some, hcdr binding hfound, Option.map_some]

/-! ## Definitions -/

/-- One binding is added in front of the global frame.  Two pairs are new, the binding and the pair
of the frame that holds it; the global cell holds the longer frame; no other pair changes. -/
structure Pushes (s s' : Store) (globals name value : Value) : Prop where
  binding : s'.cell? (.pair s.size) = some ⟨name, value⟩
  frame : s'.cell? (.pair (s.size + 1)) = some ⟨.pair s.size, s.car globals⟩
  cell : s'.cell? globals =
    (s.cell? globals).map fun c => { c with car := .pair (s.size + 1) }
  other {v : Value} (hv : s.isPair v = true) (hne : v ≠ globals) : s'.cell? v = s.cell? v
  size : s'.size = s.size + 2

/-- A definition in the global cell. -/
theorem pushes_define (s : Store) (name value : Value) {place : Nat} (hlt : place < s.size) :
    s.Pushes (s.define name value (.pair place)) (.pair place) name value := by
  -- The two new pairs lie behind all others, so neither is the global cell.
  let s₁ := (s.cons name value).2
  let s₂ := (s₁.cons (.pair s.size) (s₁.car (.pair place))).2
  have hdefine : s.define name value (.pair place) = s₂.setCar (.pair place) (.pair s₁.size) := rfl
  have hsize₁ : s₁.size = s.size + 1 := s.size_cons ..
  have hsize₂ : s₂.size = s₁.size + 1 := s₁.size_cons ..
  have hkeeps₁ : KeepsExcept [] s s₁ := .cons ..
  have hkeeps₂ : KeepsExcept [] s₁ s₂ := .cons ..
  have hold {other : Nat} (hother : other < s.size) :
      s₂.cell? (.pair other) = s.cell? (.pair other) := by
    rw [hkeeps₂.cell (by omega) (by simp), hkeeps₁.cell hother (by simp)]
  have hcar : s₁.car (.pair place) = s.car (.pair place) := by
    rw [car, car, hkeeps₁.cell hlt (by simp)]
  rw [hdefine]
  constructor
  case binding =>
    rw [cell?_setCar, if_neg (by simp; omega), hkeeps₂.cell (by omega) (by simp)]
    exact s.cell?_cons_self ..
  case frame =>
    rw [cell?_setCar, if_neg (by simp; omega), ← hsize₁, ← hcar]
    exact s₁.cell?_cons_self ..
  case cell => rw [cell?_setCar, if_pos rfl, hold hlt, hsize₁]
  case other =>
    intro v hv hne
    obtain ⟨c, hcell⟩ := Option.isSome_iff_exists.mp hv
    obtain ⟨other, rfl, -⟩ := cell?_eq_some_iff.mp hcell
    rw [cell?_setCar, if_neg hne, hold (lt_size_of_cell? hcell)]
  case size =>
    rw [size_setCar]
    omega

namespace Pushes

/-- Only the cells count. -/
theorem of_cells {s'' : Store} (h : s.Pushes s' globals name value)
    (hcells : s''.cells = s'.cells) : s.Pushes s'' globals name value := by
  have hcell (v : Value) : s''.cell? v = s'.cell? v := by
    cases v <;> simp [cell?, hcells]
  constructor
  case binding => rw [hcell, h.binding]
  case frame => rw [hcell, h.frame]
  case cell => rw [hcell, h.cell]
  case other => exact fun hv hne => (hcell _).trans (h.other hv hne)
  case size => rw [← h.size, Store.size, Store.size, hcells]

/-- A pair that an environment sees keeps its fields. -/
theorem cell_of_mem (h : s.Pushes s' globals name value) (hsees : s.Sees globals env locals shared)
    {binding : Value} (hmem : binding ∈ locals ++ shared) :
    s'.cell? binding = s.cell? binding :=
  h.other (hsees.isPair binding hmem) fun heq => hsees.apart (heq ▸ hmem)

variable (h : s.Pushes s' globals name value) (hsees : s.Sees globals env locals shared)
  (hsees' : s'.Sees globals env locals (.pair s.size :: shared))

include h hsees hsees'

/-- The new binding stands behind the local frames and in front of what was global before. -/
theorem binding?_eq (other : Value) :
    s'.binding? other env = .ok ((s.firstOf other locals).or
      (if other = name then some (.pair s.size) else s.firstOf other shared)) := by
  have hcar : ∀ binding ∈ locals ++ shared, s'.car binding = s.car binding := fun binding hmem => by
    rw [car, car, h.cell_of_mem hsees hmem]
  have hlocals := firstOf_congr (fun b hmem => hcar b (List.mem_append_left _ hmem)) other
  have hshared := firstOf_congr (fun b hmem => hcar b (List.mem_append_right _ hmem)) other
  have hnew : s'.car (.pair s.size) = name := by rw [car, h.binding]; rfl
  rw [hsees'.binding?_eq, firstOf_append, hlocals]
  unfold firstOf at hshared ⊢
  rw [List.find?_cons, hnew, hshared]
  by_cases hname : other = name
  · simp [hname]
  · simp [hname, Ne.symm hname]

/-- Where no local frame binds the name, the new binding is found, with the new value. -/
theorem found (hlocals : s.firstOf name locals = none) :
    s'.binding? name env = .ok (some (.pair s.size)) ∧ s'.value? name env = .ok (some value) := by
  have hbinding : s'.binding? name env = .ok (some (.pair s.size)) := by
    rw [h.binding?_eq hsees hsees', hlocals, if_pos rfl, Option.none_or]
  refine ⟨hbinding, ?_⟩
  rw [value?, hbinding, Except.map, Option.map_some, cdr, h.binding]
  rfl

/-- A name under which the new binding is not found has the binding and the value that it had. -/
theorem unchanged {other : Value} (hne : s'.binding? other env ≠ .ok (some (.pair s.size))) :
    s'.binding? other env = s.binding? other env ∧ s'.value? other env = s.value? other env := by
  have hbinding : s'.binding? other env = s.binding? other env := by
    rw [h.binding?_eq hsees hsees'] at hne ⊢
    rw [hsees.binding?_eq, firstOf_append]
    cases hlocals : s.firstOf other locals with
    | some binding => rfl
    | none =>
      rw [hlocals, Option.none_or] at hne
      rw [Option.none_or, Option.none_or, if_neg]
      exact fun heq => hne (by rw [if_pos heq])
  refine ⟨hbinding, value?_congr hbinding fun binding hfound => ?_⟩
  rw [hsees.binding?_eq] at hfound
  rw [cdr, cdr, h.cell_of_mem hsees (mem_of_firstOf (Except.ok.inj hfound))]

end Pushes

end Store

/-! ## The programs -/

namespace Action

variable {s : Store} {log : Log} {name value env : Value}

/-- An assignment overwrites the value of the binding that is found, and that is all it does. -/
theorem assign_eq {found : Option Value} (h : s.binding? name env = .ok found) :
    (assign name value env : Action Bool) ⟨s, log⟩ =
      match found with
      | some binding => .ok true ⟨s.setCdr binding value, log⟩
      | none => .ok false ⟨s, log⟩ := by
  simp only [assign, ask, Bind.bind, EStateM.bind, Machine.look, h]
  cases found with
  | some binding => rfl
  | none => rfl

/-- A definition in any environment is one in its last cell. -/
theorem defineGlobal_eq {cell : Value} (h : s.globalOf env = .ok cell) :
    (defineGlobal name value env : Action Unit) ⟨s, log⟩ =
      .ok () ⟨s.define name value cell, log⟩ := by
  simp only [defineGlobal, ask, Bind.bind, EStateM.bind, Machine.look, h]
  rfl

end Action

end ConsLisp
