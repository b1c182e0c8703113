import ConsLisp.Abort
import ConsLisp.Store

/-!
# Chains

The chain of a value is the sequence of cells met by following second fields, up to
the first atom.  The functions here walk a chain without changing the store.  Each
walk is bounded by the number of cells: a chain that is longer visits a cell twice
and has no end, and the walk aborts.  By then it has met every cell of the chain, so
whatever ends the walk at an element has ended it before.

Main statement: a fold along a chain that ends is the fold over its elements
(`fold_of_chain`).
-/

namespace ConsLisp.Store

/-- Goes along a chain from front to back with a step for each element, for at most
`fuel` pairs; the result comes with the atom that ends the chain. -/
def foldWithin {α : Type} (s : Store) (step : α → Value → Except Abort α) :
    Nat → α → Value → Except Abort (α × Value)
  | fuel, a, v =>
    match s.cell? v with
    | none => .ok (a, v)
    | some c =>
      match fuel with
      -- One pair more than there are cells: some cell has been met twice.
      | 0 => .error .endless
      | fuel + 1 =>
        match step a c.car with
        | .error abort => .error abort
        | .ok a => s.foldWithin step fuel a c.cdr

/-- Goes along a chain from front to back with a step for each element; the result
comes with the atom that ends the chain. -/
def fold {α : Type} (s : Store) (step : α → Value → Except Abort α) (a : α) (v : Value) :
    Except Abort (α × Value) :=
  s.foldWithin step s.size a v

/-- The elements along a chain and the atom that ends it. -/
def chain (s : Store) (v : Value) : Except Abort (List Value × Value) :=
  (s.fold (fun seen element => .ok (element :: seen)) [] v).map fun (seen, tail) =>
    (seen.reverse, tail)

/-- The elements along a chain. -/
def elements (s : Store) (v : Value) : Except Abort (List Value) :=
  (s.chain v).map Prod.fst

/-- The first answer that a test gives on the elements along a chain. -/
def search {α : Type} (s : Store) (test : Value → Except Abort (Option α)) :
    Nat → Value → Except Abort (Option α)
  | fuel, v =>
    match s.cell? v with
    | none => .ok none
    | some c =>
      match fuel with
      | 0 => .error .endless
      | fuel + 1 =>
        match test c.car with
        | .error abort => .error abort
        | .ok (some answer) => .ok (some answer)
        | .ok none => s.search test fuel c.cdr

/-- Is there an element of this sort along a chain? -/
def hasElement (s : Store) (sort : Value → Bool) (v : Value) : Except Abort Bool :=
  (s.search (fun element => .ok (if sort element then some () else none)) s.size v).map
    Option.isSome

/-- The last pair of a chain; an atom is its own last. -/
def lastOf (s : Store) : Nat → Value → Except Abort Value
  | fuel, v =>
    if s.isPair (s.cdr v) then
      match fuel with
      | 0 => .error .endless
      | fuel + 1 => s.lastOf fuel (s.cdr v)
    else .ok v

/-- The last pair of a chain. -/
def last (s : Store) (v : Value) : Except Abort Value :=
  s.lastOf s.size v

/-- A walk that only collects decides how every other walk goes. -/
theorem foldWithin_of_collected {α : Type} {s : Store} (step : α → Value → Except Abort α)
    {fuel : Nat} {seen collected : List Value} {v tail : Value} (a : α)
    (h : s.foldWithin (fun seen element => .ok (element :: seen)) fuel seen v =
      .ok (collected, tail)) :
    ∃ elements : List Value, collected = elements.reverse ++ seen ∧
      s.foldWithin step fuel a v = (elements.foldlM step a).map (·, tail) := by
  induction fuel generalizing seen v a with
  | zero =>
    unfold foldWithin at h ⊢
    cases hv : s.cell? v with
    | none =>
      simp only [hv, Except.ok.injEq, Prod.mk.injEq] at h
      exact ⟨[], by simp [h.1], by simp [h.2, pure, Except.pure, Except.map]⟩
    | some c => simp [hv] at h
  | succ fuel ih =>
    unfold foldWithin at h ⊢
    cases hv : s.cell? v with
    | none =>
      simp only [hv, Except.ok.injEq, Prod.mk.injEq] at h
      exact ⟨[], by simp [h.1], by simp [h.2, pure, Except.pure, Except.map]⟩
    | some c =>
      simp only [hv] at h
      cases hstep : step a c.car with
      | error abort =>
        obtain ⟨elements, hcollected, -⟩ := ih a h
        exact ⟨c.car :: elements, by simp [hcollected],
          by simp [hstep, bind, Except.bind, Except.map]⟩
      | ok b =>
        obtain ⟨elements, hcollected, hfold⟩ := ih b h
        exact ⟨c.car :: elements, by simp [hcollected],
          by simp [hstep, hfold, bind, Except.bind]⟩

/-- A fold along a chain that ends is the fold over its elements. -/
theorem fold_of_chain {α : Type} {s : Store} {v tail : Value} {elements : List Value}
    (h : s.chain v = .ok (elements, tail)) (step : α → Value → Except Abort α) (a : α) :
    s.fold step a v = (elements.foldlM step a).map (·, tail) := by
  unfold chain at h
  cases hfold : s.fold (fun seen element => .ok (element :: seen)) [] v with
  | error abort => simp [hfold, Except.map] at h
  | ok result =>
    obtain ⟨seen, last⟩ := result
    simp only [hfold, Except.map, Except.ok.injEq, Prod.mk.injEq] at h
    obtain ⟨rfl, rfl⟩ := h
    obtain ⟨collected, hseen, hstep⟩ := foldWithin_of_collected step a hfold
    simpa [hseen, fold] using hstep

end ConsLisp.Store
