import ConsLisp.Environment
import ConsLisp.Proofs.Store.Links
import Mathlib.Data.List.Forall2

/-!
# Looking up a name

In an environment whose list and whose frames end, a name is looked up among the bindings of all
frames, one frame after the other.  In any environment, what is found has been met on the way, so
it is of the sort that all values on the way are of.

Main statements: `binding?_of_links`, `binding?_found`.
-/

namespace ConsLisp.Store

variable {s : Store}

/-- The elements of a frame are looked at from front to back. -/
theorem bindingIn_of_links {frame tail : Value} {places : List Nat} {bindings : List Value}
    (h : s.Links frame places bindings tail) (name : Value) :
    s.bindingIn name frame = .ok (bindings.findSome? (s.bindingAt name)) :=
  h.search_eq (fun _ _ => rfl) h.length_le_size

/-- The value is a list of these bindings. -/
def Lists (s : Store) (frame : Value) (bindings : List Value) : Prop :=
  ∃ places tail, s.Links frame places bindings tail

theorem IsList.lists {frame : Value} {bindings : List Value} (h : s.IsList frame bindings) :
    s.Lists frame bindings := by
  obtain ⟨places, hlinks⟩ := h
  exact ⟨places, .nil, hlinks⟩

theorem findSome?_flatten {frames : List Value} {lists : List (List Value)}
    (hframes : List.Forall₂ s.Lists frames lists) (name : Value) :
    frames.findSome? (fun frame => (s.bindingIn name frame).toOption.join) =
      lists.flatten.findSome? (s.bindingAt name) := by
  induction hframes with
  | nil => rfl
  | cons hframe _ ih =>
    obtain ⟨places, tail, hlinks⟩ := hframe
    rw [List.findSome?_cons, ih, bindingIn_of_links hlinks, List.flatten_cons,
      List.findSome?_append]
    cases List.findSome? (s.bindingAt name) _ <;> rfl

/-- A name is looked up among the bindings of all frames, one frame after the other. -/
theorem binding?_of_links {env tail : Value} {places : List Nat} {frames : List Value}
    {lists : List (List Value)} (h : s.Links env places frames tail)
    (hframes : List.Forall₂ s.Lists frames lists) (name : Value) :
    s.binding? name env = .ok (lists.flatten.findSome? (s.bindingAt name)) := by
  have htest : ∀ frame ∈ frames,
      s.bindingIn name frame = .ok (s.bindingIn name frame).toOption.join := by
    intro frame hmem
    obtain ⟨i, hi, rfl⟩ := List.getElem_of_mem hmem
    obtain ⟨places, tail, hlinks⟩ := hframes.get hi (hframes.length_eq ▸ hi)
    rw [List.get_eq_getElem] at hlinks
    rw [bindingIn_of_links hlinks]
    rfl
  rw [binding?, h.search_eq htest h.length_le_size, findSome?_flatten hframes]

/-! ## What is met on the way -/

/-- A search finds what its test makes of an element on the way. -/
theorem search_found {α : Type} {Along Element : Value → Prop} {P : α → Prop}
    (hcell : ∀ v c, Along v → s.cell? v = some c → Element c.car ∧ Along c.cdr)
    {test : Value → Except Abort (Option α)}
    (htest : ∀ element answer, Element element → test element = .ok (some answer) → P answer)
    {fuel : Nat} {v : Value} (hv : Along v) {answer : α}
    (hrun : s.search test fuel v = .ok (some answer)) : P answer := by
  induction fuel generalizing v with
  | zero =>
    unfold search at hrun
    cases hc : s.cell? v <;> simp [hc] at hrun
  | succ fuel ih =>
    unfold search at hrun
    cases hc : s.cell? v with
    | none => simp [hc] at hrun
    | some c =>
      obtain ⟨helement, hrest⟩ := hcell v c hv hc
      simp only [hc] at hrun
      split at hrun
      · cases hrun
      · next found hfound =>
        cases hrun
        exact htest c.car answer helement hfound
      · exact ih hrest hrun

/-- The binding that is found is an element of a frame. -/
theorem binding?_found {Scope Frame Element : Value → Prop}
    (hscope : ∀ v c, Scope v → s.cell? v = some c → Frame c.car ∧ Scope c.cdr)
    (hframe : ∀ v c, Frame v → s.cell? v = some c → Element c.car ∧ Frame c.cdr)
    {name env binding : Value} (henv : Scope env)
    (hrun : s.binding? name env = .ok (some binding)) : Element binding := by
  refine search_found hscope (fun frame binding hfirst hfound => ?_) henv hrun
  refine search_found hframe (fun element binding helement hfound => ?_) hfirst hfound
  rw [Except.ok.injEq, bindingAt] at hfound
  split at hfound
  · split at hfound
    · cases hfound
      exact helement
    · cases hfound
  · cases hfound

/-- The last pair is one on the way. -/
theorem last_found {Along : Value → Prop}
    (hcell : ∀ v c, Along v → s.cell? v = some c → Along c.cdr) {v last : Value} (hv : Along v)
    (hrun : s.last v = .ok last) : Along last := by
  rw [Store.last] at hrun
  generalize s.size = fuel at hrun
  induction fuel generalizing v with
  | zero =>
    unfold lastOf at hrun
    split at hrun
    · cases hrun
    · cases hrun
      exact hv
  | succ fuel ih =>
    unfold lastOf at hrun
    split at hrun
    · next hpair =>
      cases hc : s.cell? v with
      | none =>
        -- An atom has nothing behind it.
        have hnil : s.cdr v = .nil := by simp [cdr, hc]
        simp [hnil, isPair, cell?] at hpair
      | some c =>
        rw [cdr_of_cell? hc] at hrun
        exact ih (hcell v c hv hc) hrun
    · cases hrun
      exact hv

end ConsLisp.Store
