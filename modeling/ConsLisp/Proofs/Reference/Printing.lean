import ConsLisp.Proofs.Reference.Bridge
import ConsLisp.Proofs.Store.Printing

/-!
# Trees in a store

In a store a value depicts a tree: its pairs are followed down to the atoms, and a closure depicts
its parameters and its body.  What is printed depends on nothing else, so at every depth a value
prints as the tree that it depicts.  A value shows a tree if the serial numbers are the same as
well.

Main statements: equal printed forms (`Depicts.print_eq`), and that values which are the same under
a bridge depict each other (`Bridge.Same.depicts`), or show each other if the bridge is alone
(`Bridge.Same.shows`).
-/

namespace ConsLisp

namespace Store

/-- In the store the value shows this tree.  Identities and captured frames are left out. -/
inductive Shows (s : Store) : Value → Datum → Prop
  | nil : Shows s .nil .nil
  | num (n : Int) (serial : Option Nat) : Shows s (.num n serial) (.num n serial)
  | sym (name : String) : Shows s (.sym name) (.sym name)
  | error (n : Nat) (fault : Fault) : Shows s (.error n fault) (.error n fault)
  | primitive (n : Nat) (p : Primitive) (name : String) :
      Shows s (.primitive n p name) (.primitive n p name)
  | pair {place n : Nat} {a d : Value} {x y : Datum}
      (hcell : s.cell? (.pair place) = some ⟨a, d⟩) (hcar : Shows s a x) (hcdr : Shows s d y) :
      Shows s (.pair place) (.pair n x y)
  | closure {n : Nat} {params body env : Value} {x y : Datum} {frames : List (List Nat)}
      (hparams : Shows s params x) (hbody : Shows s body y) :
      Shows s (.closure n params body env) (.closure n x y frames)

/-- In the store the value depicts this tree.  Serial numbers are left out as well. -/
inductive Depicts (s : Store) : Value → Datum → Prop
  | nil : Depicts s .nil .nil
  | num (n : Int) (serial serial' : Option Nat) : Depicts s (.num n serial) (.num n serial')
  | sym (name : String) : Depicts s (.sym name) (.sym name)
  | error (n m : Nat) (fault : Fault) : Depicts s (.error n fault) (.error m fault)
  | primitive (n m : Nat) (p : Primitive) (name : String) :
      Depicts s (.primitive n p name) (.primitive m p name)
  | pair {place n : Nat} {a d : Value} {x y : Datum}
      (hcell : s.cell? (.pair place) = some ⟨a, d⟩) (hcar : Depicts s a x)
      (hcdr : Depicts s d y) : Depicts s (.pair place) (.pair n x y)
  | closure {n m : Nat} {params body env : Value} {x y : Datum} {frames : List (List Nat)}
      (hparams : Depicts s params x) (hbody : Depicts s body y) :
      Depicts s (.closure n params body env) (.closure m x y frames)

variable {s : Store} {v : Value} {x : Datum}

/-- The chain of a value holds the elements of the list, and ends at the same atom. -/
theorem Depicts.links (h : s.Depicts v x) :
    ∃ places elements tail, s.Links v places elements tail ∧
      List.Forall₂ s.Depicts elements x.chain.1 ∧ s.Depicts tail x.chain.2 := by
  induction h with
  | pair hcell hcar _ _ ih =>
    obtain ⟨places, elements, tail, hlinks, helements, htail⟩ := ih
    exact ⟨_, _, tail, .next hcell hlinks, .cons hcar helements, htail⟩
  | nil => exact ⟨[], [], _, .done rfl, .nil, .nil⟩
  | num => exact ⟨[], [], _, .done rfl, .nil, .num ..⟩
  | sym name => exact ⟨[], [], _, .done rfl, .nil, .sym name⟩
  | error n m fault => exact ⟨[], [], _, .done rfl, .nil, .error n m fault⟩
  | primitive n m p name => exact ⟨[], [], _, .done rfl, .nil, .primitive n m p name⟩
  | closure hparams hbody _ _ => exact ⟨[], [], _, .done rfl, .nil, .closure hparams hbody⟩

/-- A list has no more elements than the store has cells. -/
theorem Depicts.length_chain_le (h : s.Depicts v x) : x.chain.1.length ≤ s.size := by
  obtain ⟨places, elements, tail, hlinks, helements, -⟩ := h.links
  rw [← helements.length_eq, hlinks.length_eq]
  exact hlinks.length_le_size

theorem mapM_eq_of_forall₂ {elements : List Value} {items : List Datum}
    {f : Value → Except Abort String} {g : Datum → Except Abort String}
    (h : List.Forall₂ s.Depicts elements items) (hfg : ∀ v x, s.Depicts v x → f v = g x) :
    elements.mapM f = items.mapM g := by
  induction h with
  | nil => rfl
  | cons hfirst _ ih => rw [List.mapM_cons, List.mapM_cons, hfg _ _ hfirst, ih]

theorem Depicts.print_printList (depth : Nat) :
    (∀ v x, s.Depicts v x → s.print depth v = x.print depth) ∧
      ∀ v x, s.Depicts v x → s.printList depth v = x.printList depth := by
  induction depth with
  | zero =>
    constructor
    · intro v x _
      rw [Store.print, Datum.print]
    · intro v x _
      rw [Store.printList, Datum.printList]
  | succ depth ih =>
    constructor
    · intro v x h
      cases h with
      | pair hcell hcar hcdr =>
        rw [Store.print, Datum.print]
        exact ih.2 _ _ (.pair hcell hcar hcdr)
      | _ => rw [Store.print, Datum.print]
    · intro v x h
      -- The elements print alike by the induction, and so does the atom behind them.
      obtain ⟨places, elements, tail, hlinks, helements, htail⟩ := h.links
      rw [Store.printList, Datum.printList, hlinks.fold_eq, foldlM_collect,
        mapM_eq_of_forall₂ helements ih.1]
      cases x.chain.1.mapM (Datum.print depth) with
      | error abort => rfl
      | ok texts =>
        have hprint := ih.1 _ _ htail
        revert hprint
        generalize x.chain.2 = last at htail
        cases htail with
        | nil => simp [bind, Except.bind, pure, Except.pure, Except.map]
        | _ =>
          intro hprint
          simp [bind, Except.bind, pure, Except.pure, Except.map, hprint]

/-- A value prints as the tree that it depicts. -/
theorem Depicts.print_eq (h : s.Depicts v x) (depth : Nat) : s.print depth v = x.print depth :=
  (print_printList depth).1 v x h

end Store

namespace Bridge

variable {B : Bridge} {state : State} {r : Reference.State} {v : Value} {x : Datum}

/-- Values that are the same depict each other. -/
theorem Same.depicts (h : B.Agrees state r) (hv : B.Same v x) : state.store.Depicts v x := by
  induction hv with
  | nil => exact .nil
  | num | number => exact .num ..
  | sym name => exact .sym name
  | error => exact .error ..
  | primitive => exact .primitive ..
  | pair huse _ _ ihcar ihcdr => exact .pair (h.cell_data huse) ihcar ihcdr
  | closure _ _ _ _ _ ihparams ihbody => exact .closure ihparams ihbody

/-- Values that are the same show each other, if nobody else makes objects in the store. -/
theorem Same.shows (h : B.Agrees state r) (halone : B.alone) (hv : B.Same v x) :
    state.store.Shows v x := by
  induction hv with
  | nil => exact .nil
  | num n => exact .num n none
  | number hobject =>
    obtain rfl := (h.object hobject).2.2 halone
    exact .num ..
  | sym name => exact .sym name
  | error hobject =>
    obtain rfl := (h.object hobject).2.2 halone
    exact .error ..
  | primitive hobject =>
    obtain rfl := (h.object hobject).2.2 halone
    exact .primitive ..
  | pair huse _ _ ihcar ihcdr => exact .pair (h.cell_data huse) ihcar ihcdr
  | closure hobject _ _ _ _ ihparams ihbody =>
    obtain rfl := (h.object hobject).2.2 halone
    exact .closure ihparams ihbody

end Bridge

end ConsLisp
