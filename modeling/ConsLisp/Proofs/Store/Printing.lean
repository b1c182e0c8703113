import ConsLisp.Proofs.Store.Acyclic
import ConsLisp.Value.Printing
import Mathlib.Data.List.Forall2

/-!
# Printed forms

The elements of a list are printed one by one, and a fold collects their texts.  So a list whose
elements all have printed forms has one itself, given two nested calls more than they need.  And
where every chain ends, a value without a printed form has a part that is to blame: a number with
too many digits, a host object, or one that is nested too deep.

Main statements: the printed form of a proper list (`PrintsAs.list`), and why a value has none
(`Founded.unprintable`).
-/

namespace ConsLisp.Store

variable {s : Store}

/-- A fold that collects the results of a step has them in the other order. -/
theorem foldlM_collect (f : Value → Except Abort String) (elements : List Value)
    (seen : List String) :
    elements.foldlM (fun seen element => do return (← f element) :: seen) seen =
      (elements.mapM f).map (·.reverse ++ seen) := by
  induction elements generalizing seen with
  | nil => rfl
  | cons a elements ih =>
    rw [List.foldlM_cons, List.mapM_cons]
    cases f a with
    | error abort => rfl
    | ok text =>
      refine (ih (text :: seen)).trans ?_
      cases elements.mapM f with
      | error abort => rfl
      | ok texts =>
        simp [bind, Except.bind, pure, Except.pure, Except.map]

/-- With nested calls enough, the text is the printed form of the value. -/
def PrintsAs (s : Store) (v : Value) (text : String) : Prop :=
  ∃ enough, ∀ depth, enough ≤ depth → s.print depth v = .ok text

/-- What a step makes of the elements of a list, one by one. -/
theorem mapM_eq_ok_iff {f : Value → Except Abort String} {elements : List Value}
    {texts : List String} :
    elements.mapM f = .ok texts ↔ List.Forall₂ (fun v text => f v = .ok text) elements texts := by
  induction elements generalizing texts with
  | nil => cases texts <;> simp [pure, Except.pure]
  | cons element elements ih =>
    rw [List.mapM_cons]
    cases hfirst : f element with
    | error abort =>
      refine iff_of_false nofun fun h => ?_
      cases h with
      | cons hok _ => simp [hfirst] at hok
    | ok text =>
      cases hrest : elements.mapM f with
      | error abort =>
        refine iff_of_false nofun fun h => ?_
        cases h with
        | cons _ hok => simp [ih.mpr hok] at hrest
      | ok rest =>
        cases texts with
        | nil => exact iff_of_false nofun nofun
        | cons text' texts =>
          rw [List.forall₂_cons, ← ih, hfirst, hrest]
          simp [bind, Except.bind, pure, Except.pure]

/-- There are nested calls enough for all elements of a list. -/
theorem exists_enough {elements : List Value} {texts : List String}
    (h : List.Forall₂ s.PrintsAs elements texts) :
    ∃ enough, ∀ depth, enough ≤ depth →
      List.Forall₂ (fun v text => s.print depth v = .ok text) elements texts := by
  induction h with
  | nil => exact ⟨0, fun _ _ => .nil⟩
  | cons hfirst _ ih =>
    obtain ⟨m, hfirst⟩ := hfirst
    obtain ⟨n, hrest⟩ := ih
    exact ⟨max m n, fun depth hdepth => .cons (hfirst depth (by omega)) (hrest depth (by omega))⟩

/-- A list is printed as the printed forms of its elements, with blanks between.  One nested call is
for the pair as a value, one more for its list. -/
theorem print_list {place depth : Nat} {places : List Nat} {elements : List Value}
    {texts : List String} (h : s.Links (.pair place) places elements .nil)
    (htexts : List.Forall₂ (fun v text => s.print depth v = .ok text) elements texts) :
    s.print (depth + 2) (.pair place) = .ok ("(" ++ " ".intercalate texts ++ ")") := by
  rw [print]
  rw [printList, h.fold_eq, foldlM_collect, mapM_eq_ok_iff.mpr htexts]
  simp [bind, Except.bind, pure, Except.pure, Except.map]

/-- So a list has a printed form, if its elements have. -/
theorem PrintsAs.list {place : Nat} {places : List Nat} {elements : List Value}
    {texts : List String} (h : s.Links (.pair place) places elements .nil)
    (htexts : List.Forall₂ s.PrintsAs elements texts) :
    s.PrintsAs (.pair place) ("(" ++ " ".intercalate texts ++ ")") := by
  obtain ⟨enough, helements⟩ := exists_enough htexts
  refine ⟨enough + 2, fun depth hdepth => ?_⟩
  obtain ⟨depth, rfl⟩ : ∃ d, depth = d + 2 := ⟨depth - 2, by omega⟩
  exact print_list h (helements depth (by omega))

/-- A pair that the store does not have is not printed. -/
theorem print_of_cell_none {place : Nat} (h : s.cell? (.pair place) = none) (depth : Nat) :
    s.print depth (.pair place) = .error .tooDeep := by
  -- It stands at the end of its own chain, so printing it is printing it again.
  induction depth using Nat.strong_induction_on with
  | _ depth ih =>
    match depth with
    | 0 => rfl
    | 1 => rfl
    | depth + 2 =>
      rw [print]
      rw [printList, (Links.done h).fold_eq, List.foldlM_nil]
      simp [bind, Except.bind, pure, Except.pure, Except.map, ih depth (by omega)]

/-- The printed form of a pair is made of those of the elements, and of that of the end of the list
behind a dot, unless `nil` stands there. -/
theorem exists_of_printList_ok {depth : Nat} {v : Value} {text : String}
    (h : s.printList (depth + 1) v = .ok text) :
    ∃ texts tail ending,
      s.fold (fun texts element => do return (← s.print depth element) :: texts) [] v =
        .ok (texts, tail) ∧
      text = "(" ++ " ".intercalate texts.reverse ++ ending ++ ")" ∧
      (tail = .nil ∧ ending = "" ∨
        ∃ last, tail ≠ .nil ∧ s.print depth tail = .ok last ∧ ending = " . " ++ last) := by
  rw [printList] at h
  cases hfold : s.fold (fun texts element => do return (← s.print depth element) :: texts)
      ([] : List String) v with
  | error abort =>
    rw [hfold] at h
    cases h
  | ok folded =>
    obtain ⟨texts, tail⟩ := folded
    rw [hfold] at h
    by_cases hnil : tail = .nil
    · simp only [bind, Except.bind, pure, Except.pure, hnil, if_true, Except.ok.injEq] at h
      exact ⟨texts, tail, "", rfl, h.symm, .inl ⟨hnil, rfl⟩⟩
    · cases hlast : s.print depth tail with
      | error abort => simp [hnil, hlast, bind, Except.bind] at h
      | ok last =>
        simp only [bind, Except.bind, pure, Except.pure, hnil, if_false, hlast,
          Except.ok.injEq] at h
        exact ⟨texts, tail, _, rfl, h.symm, .inr ⟨last, hnil, hlast, rfl⟩⟩

/-- The printed form of a pair from which a chain goes on, in parts. -/
theorem exists_of_print_ok {place depth : Nat} {places : List Nat} {elements : List Value}
    {tail : Value} {text : String} (hlinks : s.Links (.pair place) places elements tail)
    (h : s.print (depth + 2) (.pair place) = .ok text) :
    ∃ texts ending, List.Forall₂ (fun v text => s.print depth v = .ok text) elements texts ∧
      text = "(" ++ " ".intercalate texts ++ ending ++ ")" ∧
      (tail = .nil ∧ ending = "" ∨
        ∃ last, tail ≠ .nil ∧ s.print depth tail = .ok last ∧ ending = " . " ++ last) := by
  rw [print] at h
  obtain ⟨seen, tail', ending, hfold, htext, hending⟩ := exists_of_printList_ok h
  rw [hlinks.fold_eq, foldlM_collect] at hfold
  cases hmap : elements.mapM (s.print depth) with
  | error abort =>
    rw [hmap] at hfold
    cases hfold
  | ok texts =>
    simp only [hmap, Except.map, List.append_nil, Except.ok.injEq, Prod.mk.injEq] at hfold
    obtain ⟨rfl, rfl⟩ := hfold
    rw [List.reverse_reverse] at htext
    exact ⟨texts, ending, mapM_eq_ok_iff.mp hmap, htext, hending⟩

/-! ## Values without a printed form -/

/-- Printing the value makes this many nested calls inside each other and needs one more. -/
inductive Nests (s : Store) : Nat → Value → Prop
  | value (v : Value) : Nests s 0 v
  | list (place : Nat) : Nests s 1 (.pair place)
  | item {place depth : Nat} {places : List Nat} {elements : List Value} {tail item : Value}
      (hlinks : s.Links (.pair place) places elements tail) (hitem : item ∈ elements ∨ item = tail)
      (h : Nests s depth item) : Nests s (depth + 2) (.pair place)

/-- Why a value has no printed form with this many nested calls. -/
inductive Unprintable (s : Store) (depth : Nat) (v : Value) : Abort → Prop
  | tooDeep (h : s.Nests depth v) : Unprintable s depth v .tooDeep
  | number {n : Int} {serial : Option Nat} (hpart : s.Part v (.num n serial))
      (hlong : Decimal.bound ≤ n.natAbs) : Unprintable s depth v .numberTooLong
  | foreign {object : Foreign} (hpart : s.Part v (.foreign object)) :
      Unprintable s depth v (.foreign object.describe)

/-- An element or the end of a list is to blame, and so the list is. -/
theorem Unprintable.list {place depth : Nat} {places : List Nat} {elements : List Value}
    {tail item : Value} {abort : Abort} (hlinks : s.Links (.pair place) places elements tail)
    (hitem : item ∈ elements ∨ item = tail) (h : s.Unprintable depth item abort) :
    s.Unprintable (depth + 2) (.pair place) abort := by
  have hpart : s.Part (.pair place) item := by
    rcases hitem with hmem | rfl
    · exact hlinks.part.1 item hmem
    · exact hlinks.part.2
  cases h with
  | tooDeep h => exact .tooDeep (.item hlinks hitem h)
  | number hn hlong => exact .number (hpart.trans hn) hlong
  | foreign hobject => exact .foreign (hpart.trans hobject)

/-- A list that is not printed has an element that is not. -/
theorem exists_of_mapM_error {elements : List Value} {f : Value → Except Abort String}
    {abort : Abort} (h : elements.mapM f = .error abort) :
    ∃ element ∈ elements, f element = .error abort := by
  induction elements with
  | nil => simp [pure, Except.pure] at h
  | cons element elements ih =>
    rw [List.mapM_cons] at h
    cases hfirst : f element with
    | error abort' =>
      obtain rfl : abort' = abort := by simpa [hfirst, bind, Except.bind] using h
      exact ⟨element, List.mem_cons_self, hfirst⟩
    | ok text =>
      cases hrest : elements.mapM f with
      | error abort' =>
        obtain rfl : abort' = abort := by simpa [hfirst, hrest, bind, Except.bind] using h
        obtain ⟨other, hmem, hother⟩ := ih hrest
        exact ⟨other, List.mem_cons_of_mem _ hmem, hother⟩
      | ok texts => simp [hfirst, hrest, bind, Except.bind, pure, Except.pure] at h

/-- A list of which every chain ends is not printed because of an element or its end. -/
theorem exists_of_printList_error {depth place : Nat} {places : List Nat} {elements : List Value}
    {tail : Value} {abort : Abort} (hlinks : s.Links (.pair place) places elements tail)
    (h : s.printList (depth + 1) (.pair place) = .error abort) :
    ∃ item, (item ∈ elements ∨ item = tail) ∧ s.print depth item = .error abort := by
  rw [printList, hlinks.fold_eq, foldlM_collect] at h
  cases hitems : elements.mapM (s.print depth) with
  | error abort' =>
    obtain rfl : abort' = abort := by simpa [hitems, Except.map, bind, Except.bind] using h
    obtain ⟨item, hmem, hitem⟩ := exists_of_mapM_error hitems
    exact ⟨item, .inl hmem, hitem⟩
  | ok texts =>
    by_cases hnil : tail = .nil
    · simp [hitems, hnil, Except.map, bind, Except.bind, pure, Except.pure] at h
    · refine ⟨tail, .inr rfl, ?_⟩
      cases htext : s.print depth tail with
      | error abort' => simpa [hitems, hnil, htext, Except.map, bind, Except.bind] using h
      | ok text =>
        simp [hitems, hnil, htext, Except.map, bind, Except.bind, pure, Except.pure] at h

theorem unprintable_of_write {depth : Nat} {n : Int} {abort : Abort}
    (h : Decimal.write n = .error abort) (serial : Option Nat) :
    s.Unprintable depth (.num n serial) abort := by
  unfold Decimal.write at h
  split at h
  · simp at h
  · next hlong =>
    obtain rfl := Except.error.inj h
    exact .number .refl (Nat.not_lt.mp hlong)

/-- Where every chain ends, a part is to blame for a value that has no printed form. -/
theorem Founded.unprintable (hs : s.Founded) {depth : Nat} {v : Value} {abort : Abort}
    (h : s.print depth v = .error abort) : s.Unprintable depth v abort := by
  -- A pair takes two nested calls, so its items have two less.
  induction depth using Nat.strong_induction_on generalizing v with
  | _ depth ih =>
    match depth with
    | 0 =>
      obtain rfl := Except.error.inj h
      exact .tooDeep (.value v)
    | depth + 1 =>
      unfold print at h
      cases v with
      | num n serial => exact unprintable_of_write h serial
      | foreign object =>
        obtain rfl := Except.error.inj h
        exact .foreign .refl
      | pair place =>
        match depth with
        | 0 =>
          obtain rfl := Except.error.inj h
          exact .tooDeep (.list place)
        | depth + 1 =>
          obtain ⟨places, elements, tail, hlinks⟩ := hs.links (.pair place)
          obtain ⟨item, hitem, hprint⟩ := exists_of_printList_error hlinks h
          exact .list hlinks hitem (ih depth (by omega) hprint)
      | nil | sym | error | primitive | closure => simp at h

end ConsLisp.Store
