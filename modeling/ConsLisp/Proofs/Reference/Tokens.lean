import ConsLisp.Proofs.Reference.Session

/-!
# Names that occur in a text

The atoms of a text are the runs between its delimiters.  A name occurs in the text if one of them
denotes the symbol of that name.  Reading takes atoms off the front and never cuts one in two, so
the symbols of a form occur in the text that it is read from; `quote` alone may come from an
apostrophe, and then it is the head of a special form.

Main statement: no form that is read from a text asks for a name that does not occur in it
(`Reference.avoids_of_lacks`).
-/

namespace ConsLisp

namespace Atom

/-- An atom of the text denotes the symbol of this name. -/
def Occurs (name : String) (text : List Char) : Prop :=
  ∃ token ∈ text.splitOnP isDelimiter, token ≠ [] ∧ denote token = .sym name

instance (name : String) (text : List Char) : Decidable (Occurs name text) :=
  inferInstanceAs (Decidable (∃ token ∈ _, _))

/-- None of these names occurs in the text. -/
def Lacks (names : Set String) (text : List Char) : Prop :=
  ∀ name ∈ names, ¬Occurs name text

variable {names : Set String} {text rest : List Char} {c : Char}

/-- What stands after a delimiter, stood there before. -/
theorem Lacks.tail (h : Lacks names (c :: rest)) (hc : isDelimiter c = true) :
    Lacks names rest := by
  rintro name hname ⟨token, hmem, hne, hdenote⟩
  refine h name hname ⟨token, ?_, hne, hdenote⟩
  rw [List.splitOnP_cons_eq_if_modifyHead, if_pos hc]
  exact List.mem_cons_of_mem [] hmem

theorem isDelimiter_of_isBlank (hc : Text.isBlank c = true) : isDelimiter c = true := by
  simp [isDelimiter, hc]

theorem Lacks.skipBlanks (h : Lacks names text) : Lacks names (Text.skipBlanks text) := by
  induction text with
  | nil => exact h
  | cons c text ih =>
    unfold Text.skipBlanks
    rw [List.dropWhile_cons]
    split
    · next hblank => exact ih (h.tail (isDelimiter_of_isBlank hblank))
    · exact h

/-- The runs of a text are the first one and, if that is not all, those behind the delimiter that
ends it. -/
theorem splitOnP_split (text : List Char) :
    (split text).2 = [] ∧ text.splitOnP isDelimiter = [(split text).1] ∨
      ∃ c rest, (split text).2 = c :: rest ∧ isDelimiter c = true ∧
        text.splitOnP isDelimiter = (split text).1 :: rest.splitOnP isDelimiter := by
  have hrun : ∀ c ∈ (split text).1, isDelimiter c = false := fun c hmem => by
    simpa using List.mem_takeWhile_imp hmem
  have htext := split_append text
  cases hrest : (split text).2 with
  | nil =>
    rw [hrest, List.append_nil] at htext
    exact .inl ⟨rfl, by rw [← List.splitOnP_eq_singleton hrun, htext]⟩
  | cons c rest =>
    have hc : isDelimiter c = true := by
      have hhead := List.head?_dropWhile_not (!isDelimiter ·) text
      rw [show text.dropWhile (!isDelimiter ·) = c :: rest from hrest] at hhead
      simpa using hhead
    rw [hrest] at htext
    exact .inr ⟨c, rest, rfl, hc, by
      rw [← List.splitOnP_append_cons_of_forall_mem hrun c hc, htext]⟩

/-- The atom at the front is one of the text. -/
theorem Lacks.denote_ne (h : Lacks names text) (hne : (Atom.split text).1 ≠ []) {name : String}
    (hname : name ∈ names) : denote (Atom.split text).1 ≠ .sym name := by
  intro hdenote
  refine h name hname ⟨_, ?_, hne, hdenote⟩
  rcases splitOnP_split text with ⟨-, heq⟩ | ⟨c, rest, -, -, heq⟩
  · exact heq ▸ List.mem_cons_self
  · exact heq ▸ List.mem_cons_self

/-- Behind the atom at the front stand only atoms of the text. -/
theorem Lacks.split (h : Lacks names text) : Lacks names (Atom.split text).2 := by
  rintro name hname ⟨token, hmem, hne, hdenote⟩
  rcases splitOnP_split text with ⟨hrest, -⟩ | ⟨c, rest, hrest, hc, heq⟩
  · rw [hrest, List.splitOnP_nil] at hmem
    exact hne (List.mem_singleton.mp hmem)
  · rw [hrest, List.splitOnP_cons_eq_if_modifyHead, if_pos hc] at hmem
    have hmem' := (List.mem_cons.mp hmem).resolve_left hne
    exact h name hname ⟨token, heq ▸ List.mem_cons_of_mem _ hmem', hne, hdenote⟩

end Atom

namespace Reference

variable {α β : Type} {P : α → Prop} {Q : β → Prop}

/-- Whatever the step answers has the property. -/
def Ensures (step : Step α) (P : α → Prop) : Prop :=
  ∀ r a r', step r = .ok a r' → P a

namespace Ensures

theorem pure {a : α} (h : P a) : Ensures (pure a) P := by
  intro r b r' hrun
  cases hrun
  exact h

theorem throw (abort : Abort) : Ensures (throw abort) P := by
  intro r a r' hrun
  cases hrun

theorem bind {step : Step α} {next : α → Step β} (h : Ensures step P)
    (hnext : ∀ a, P a → Ensures (next a) Q) : Ensures (step >>= next) Q := by
  intro r b r' hrun
  simp only [Bind.bind, EStateM.bind] at hrun
  split at hrun
  · next a r₁ hstep => exact hnext a (h r a r₁ hstep) r₁ b r' hrun
  · cases hrun

end Ensures

variable {names : Set String} {text : List Char}

/-- The form asks for none of the names, and none occurs in the rest. -/
def Shuns (names : Set String) (x : Datum × List Char) : Prop :=
  x.1.Avoids names ∧ Atom.Lacks names x.2

/-- No item asks for one of the names; nor does an error. -/
def ItemsShun (names : Set String) : Except Datum (List Datum) → Prop
  | .ok items => ∀ item ∈ items, item.Avoids names
  | .error error => error.Avoids names

theorem lacks_nil : Atom.Lacks names [] := by
  rintro name - ⟨token, hmem, hne, -⟩
  exact hne (by simpa using hmem)

theorem ensures_cons {a d : Datum} (ha : a.Avoids names) (hd : d.AllAvoid names) :
    Ensures (cons a d) fun v => v.Avoids names ∧ v.AllAvoid names := by
  intro r v r' hrun
  cases hrun
  exact ⟨⟨.inr ha, hd⟩, ha, hd⟩

theorem ensures_listOf {items : List Datum} (h : ∀ item ∈ items, item.Avoids names) :
    Ensures (listOf items) fun v => v.Avoids names ∧ v.AllAvoid names := by
  induction items with
  | nil => exact .pure ⟨trivial, trivial⟩
  | cons item items ih =>
    obtain ⟨hitem, hitems⟩ := List.forall_mem_cons.mp h
    exact (ih hitems).bind fun rest hrest => ensures_cons hitem hrest.2

theorem ensures_finish {items : Except Datum (List Datum)} (h : ItemsShun names items) :
    Ensures (finish items) (·.Avoids names) := by
  cases items with
  | error error => exact .pure h
  | ok items => exact fun r v r' hrun => (ensures_listOf h r v r' hrun).1

theorem ensures_refuse (fault : Fault) : Ensures (refuse fault) (Shuns names) := by
  intro r x r' hrun
  cases hrun
  exact ⟨trivial, lacks_nil⟩

theorem ofToken_avoids (htext : Atom.Lacks names text) (hne : (Atom.split text).1 ≠ []) :
    (Datum.ofToken (Atom.split text).1).Avoids names := by
  have hdenote := fun name (hname : name ∈ names) => htext.denote_ne hne hname
  unfold Datum.ofToken
  unfold Atom.denote Value.ofName at hdenote
  split
  · trivial
  · next hnumber =>
    simp only [hnumber] at hdenote
    split
    · trivial
    · next hnil =>
      intro hmem
      exact hdenote _ hmem (if_neg hnil)

theorem ensures_objectOf {atom : Datum} (h : atom.Avoids names) :
    Ensures (objectOf atom) (·.Avoids names) := by
  unfold objectOf
  split
  · split
    · exact .pure trivial
    · intro r v r' hrun
      cases hrun
      exact trivial
  · exact .pure h

/-- Where neither a list nor a quote nor the end is read, there is an atom. -/
theorem split_ne_nil (hempty : Text.skipBlanks text = [] → False)
    (hclose : ∀ rest, Text.skipBlanks text = ')' :: rest → False)
    (hopen : ∀ rest, Text.skipBlanks text = '(' :: rest → False)
    (hquote : ∀ rest, Text.skipBlanks text = '\'' :: rest → False) :
    (Atom.split (Text.skipBlanks text)).1 ≠ [] := by
  cases hskip : Text.skipBlanks text with
  | nil => exact (hempty hskip).elim
  | cons c rest =>
    have hblank := Text.isBlank_of_skipBlanks_eq_cons hskip
    have hc : Atom.isDelimiter c = false := by
      simp only [Atom.isDelimiter, hblank, Bool.or_false, Bool.or_eq_false_iff, beq_eq_false_iff_ne]
      refine ⟨⟨?_, ?_⟩, ?_⟩
      · rintro rfl
        exact hopen rest hskip
      · rintro rfl
        exact hclose rest hskip
      · rintro rfl
        exact hquote rest hskip
    simp [Atom.split, hc]

/-- The items of a list ask for no name that does not occur in the text. -/
theorem ensures_readItems {readOne : List Char → Step (Datum × List Char)}
    (hread : ∀ text, Atom.Lacks names text → Ensures (readOne text) (Shuns names)) (fuel : Nat)
    (htext : Atom.Lacks names text) :
    Ensures (readItems readOne fuel text)
      fun x => ItemsShun names x.1 ∧ Atom.Lacks names x.2 := by
  induction fuel generalizing text with
  | zero =>
    unfold readItems
    split
    · exact (ensures_refuse _).bind fun x hx => .pure hx
    · next rest hskip => exact .pure ⟨nofun, (hskip ▸ htext.skipBlanks).tail (by decide)⟩
    · exact .throw _
  | succ fuel ih =>
    unfold readItems
    split
    · exact (ensures_refuse _).bind fun x hx => .pure hx
    · next rest hskip => exact .pure ⟨nofun, (hskip ▸ htext.skipBlanks).tail (by decide)⟩
    · refine (hread _ htext.skipBlanks).bind ?_
      rintro ⟨form, rest⟩ ⟨hform, hrest⟩
      dsimp only
      split
      · exact .pure ⟨hform, hrest⟩
      · refine (ih hrest).bind ?_
        rintro ⟨items, rest⟩ ⟨hitems, hrest⟩
        refine .pure ⟨?_, hrest⟩
        cases items with
        | error error => exact hitems
        | ok items => exact List.forall_mem_cons.mpr ⟨hform, hitems⟩

/-- A form asks for no name that does not occur in the text. -/
theorem ensures_read (names : Set String) (depth : Nat) :
    (∀ text, Atom.Lacks names text → Ensures (read depth text) (Shuns names)) ∧
      ∀ text, Atom.Lacks names text → Ensures (readUntilClose depth text) (Shuns names) := by
  induction depth with
  | zero => exact ⟨fun _ _ => .throw _, fun _ _ => .throw _⟩
  | succ depth ih =>
    constructor
    · intro text htext
      have hskipped := htext.skipBlanks
      rw [read]
      split
      · exact ensures_refuse _
      · exact ensures_refuse _
      · next rest hskip => exact ih.2 rest ((hskip ▸ hskipped).tail (by decide))
      · next rest hskip =>
        refine (ih.1 rest ((hskip ▸ hskipped).tail (by decide))).bind ?_
        rintro ⟨form, rest⟩ ⟨hform, hrest⟩
        -- The apostrophe stands for the head of a special form, which is not asked for.
        refine (ensures_cons (d := .nil) hform trivial).bind fun inner hinner => ?_
        intro r x r' hrun
        cases hrun
        exact ⟨⟨.inl rfl, hinner.2⟩, hrest⟩
      · next hempty hclose hopen hquote =>
        have hatom := ofToken_avoids hskipped (split_ne_nil hempty hclose hopen hquote)
        exact (ensures_objectOf hatom).bind fun object hobject => .pure ⟨hobject, hskipped.split⟩
    · intro text htext
      rw [readUntilClose]
      refine (ensures_readItems ih.1 text.length htext).bind ?_
      rintro ⟨items, rest⟩ ⟨hitems, hrest⟩
      exact (ensures_finish hitems).bind fun form hform => .pure ⟨hform, hrest⟩

/-- No form that is read from a text asks for a name that does not occur in it. -/
theorem avoids_of_lacks (h : Atom.Lacks names text) : Avoids names text :=
  fun depth r form rest r' hrun => ((ensures_read names depth).1 text h r (form, rest) r' hrun).1

end Reference

end ConsLisp
