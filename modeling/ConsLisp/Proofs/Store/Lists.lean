import ConsLisp.Proofs.Store.Reverse

/-!
# New lists

A list of given elements is built backwards and reversed in place.  If something is to come behind
it, then the walk to its last pair is a walk along the new list, and the field that is overwritten
is one of a new pair.

Main statement: the list in front of any value (`Action.listBefore_of_elements`).
-/

namespace ConsLisp

namespace Store

/-- Pairs that the first store does not have hold these elements, in order, and behind them stands
`tail`.  No pair of the first store has changed. -/
structure NewList (first s : Store) (list : Value) (places : List Nat) (elements : List Value)
    (tail : Value) : Prop where
  keeps : KeepsExcept [] first s
  stretch : s.Stretch list places elements tail
  fresh : ∀ place ∈ places, first.size ≤ place
  nodup : places.Nodup

variable {first s : Store} {list tail : Value} {places : List Nat} {elements : List Value}

/-- Something else is put behind the last pair of a list. -/
theorem Links.attach {v : Value} {place : Nat} (h : s.Links v (place :: places) elements .nil)
    (tail : Value) :
    (s.setCdr (.pair ((place :: places).getLast (List.cons_ne_nil place places))) tail).Stretch v
      (place :: places) elements tail := by
  induction places generalizing v place elements with
  | nil =>
    cases h with
    | next hcell hrest =>
      cases hrest with
      | done =>
        refine .next (d := tail) ?_ (.refl tail)
        rw [List.getLast_singleton, cell?_setCdr_pair hcell, if_pos rfl]
  | cons next places ih =>
    have hnodup := h.nodup
    cases h with
    | next hcell hrest =>
      -- The pair in front is not the last one.
      have hne : (.pair place : Value) ≠ .pair ((next :: places).getLast (by simp)) := by
        intro heq
        have hmem := List.getLast_mem (List.cons_ne_nil next places)
        exact (List.nodup_cons.mp hnodup).1 (Value.pair.inj heq ▸ hmem)
      rw [List.getLast_cons (List.cons_ne_nil next places)]
      refine .next ?_ (ih hrest)
      rw [cell?_setCdr, if_neg hne, hcell]

namespace NewList

theorem nil (s : Store) : s.NewList s .nil [] [] .nil :=
  ⟨.refl [] s, .refl _, by simp, List.nodup_nil⟩

theorem links (h : first.NewList s list places elements .nil) :
    s.Links list places elements .nil :=
  h.stretch.links rfl

/-- One more element is put in front. -/
theorem push (h : first.NewList s list places elements .nil) (a : Value) :
    first.NewList (s.cons a list).2 (.pair s.size) (s.size :: places) (a :: elements) .nil := by
  have hkeeps : KeepsExcept [] s (s.cons a list).2 := .cons ..
  have hlinks : (s.cons a list).2.Links (.pair s.size) (s.size :: places) (a :: elements) .nil :=
    .next (cell?_cons_self ..) (h.links.keep hkeeps (by simp) rfl)
  refine ⟨h.keeps.trans hkeeps (by simp), hlinks.stretch, ?_, hlinks.nodup⟩
  exact List.forall_mem_cons.mpr ⟨h.keeps.size, h.fresh⟩

/-- New pairs may be overwritten. -/
theorem keeps_changed {s' : Store} (h : first.NewList s list places elements tail)
    (hkeeps : KeepsExcept places s s') : KeepsExcept [] first s' := by
  refine h.keeps.trans hkeeps fun place hlt hmem => ?_
  exact absurd hlt (Nat.not_lt.mpr (h.fresh place hmem))

/-- Something else is put behind the list. -/
theorem attach {place : Nat} (h : first.NewList s list (place :: places) elements .nil)
    (tail : Value) :
    first.NewList (s.setCdr (.pair ((place :: places).getLast (List.cons_ne_nil _ _))) tail) list
      (place :: places) elements tail := by
  refine ⟨h.keeps.trans (.setCdr ..) fun other hlt hmem => ?_, h.links.attach tail, h.fresh,
    h.nodup⟩
  have hlast := List.getLast_mem (List.cons_ne_nil place places)
  rw [← List.mem_singleton.mp hmem] at hlast
  exact absurd hlt (Nat.not_lt.mpr (h.fresh other hlast))

end NewList

end Store

namespace Action

open Store

variable {first s : Store} {done : Value} {places : List Nat}

theorem reverse_newList {elements : List Value} (h : first.NewList s done places elements .nil)
    (log : Log) :
    ∃ list s', (reverse done : Action Value) ⟨s, log⟩ = .ok list ⟨s', log⟩ ∧
      first.NewList s' list places.reverse elements.reverse .nil := by
  have hdone : (⟨s, log⟩ : State).store.Links done places elements .nil := h.links
  obtain ⟨list, s', hrun, hlinks, hkeeps, -⟩ := reverse_of_links hdone
  refine ⟨list, s', hrun, h.keeps_changed hkeeps, hlinks.stretch, fun place hmem => ?_,
    hlinks.nodup⟩
  exact h.fresh place (List.mem_reverse.mp hmem)

theorem foldlM_cons {front : List Value} (h : first.NewList s done places front .nil)
    (elements : List Value) (log : Log) :
    ∃ done' s' places', (elements.foldlM (fun done element => cons element done) done :
        Action Value) ⟨s, log⟩ = .ok done' ⟨s', log⟩ ∧
      first.NewList s' done' places' (elements.reverse ++ front) .nil := by
  induction elements generalizing s done places front with
  | nil => exact ⟨done, s, places, rfl, h⟩
  | cons element elements ih =>
    obtain ⟨done', s', places', hrun, hlist⟩ := ih (h.push element)
    refine ⟨done', s', places', ?_, by simpa using hlist⟩
    rw [List.foldlM_cons]
    exact hrun

/-- The list of any elements. -/
theorem listOf_of_elements (elements : List Value) (s : Store) (log : Log) :
    ∃ list s' places, (listOf elements : Action Value) ⟨s, log⟩ = .ok list ⟨s', log⟩ ∧
      s.NewList s' list places elements .nil := by
  obtain ⟨done, s₁, places, hfold, hdone⟩ := foldlM_cons (.nil s) elements log
  obtain ⟨list, s', hreverse, hlist⟩ := reverse_newList hdone log
  refine ⟨list, s', places.reverse, ?_, by simpa using hlist⟩
  unfold listOf
  simp only [Bind.bind, EStateM.bind, hfold, hreverse]

/-- The list of any elements in front of any value. -/
theorem listBefore_of_elements (elements : List Value) (tail : Value) (s : Store) (log : Log) :
    ∃ list s' places, (listBefore elements tail : Action Value) ⟨s, log⟩ = .ok list ⟨s', log⟩ ∧
      s.NewList s' list places elements tail := by
  obtain ⟨head, s₁, places, hrun, hhead⟩ := listOf_of_elements elements s log
  unfold listBefore
  simp only [Bind.bind, EStateM.bind, hrun]
  by_cases htail : tail = .nil
  · subst htail
    exact ⟨head, s₁, places, by rw [if_pos rfl]; rfl, hhead⟩
  · rw [if_neg htail]
    cases places with
    | nil =>
      -- Without elements there is nothing in front of the tail.
      have hkeeps := hhead.keeps
      cases hhead.stretch with
      | refl => exact ⟨tail, s₁, [], rfl, hkeeps, .refl tail, by simp, List.nodup_nil⟩
    | cons place places =>
      have hne : head ≠ .nil := by
        rintro rfl
        cases hhead.stretch
      rw [if_neg hne]
      refine ⟨head, _, place :: places, ?_, hhead.attach tail⟩
      unfold ask
      simp only [Bind.bind, EStateM.bind, Machine.look, hhead.links.last_eq]
      rfl

end Action

end ConsLisp
