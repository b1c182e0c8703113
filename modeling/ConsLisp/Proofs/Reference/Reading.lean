import ConsLisp.Proofs.Reading
import ConsLisp.Proofs.Reference.Evaluation

/-!
# The readers match

The reader on cells puts the items of a list in front of each other and reverses the list at the
closing parenthesis.  The other one keeps them and makes the list there.

Main statement: `Matches.reading`.
-/

namespace ConsLisp

namespace Reference

/-- The list of the items read before and of those read now, or the error. -/
def complete (items : List Datum) (result : Except Datum (List Datum) × List Char) :
    Step (Datum × List Char) := do
  return (← finish (result.1.map (items.reverse ++ ·)), result.2)

variable {readOne : List Char → Step (Datum × List Char)} {fuel : Nat} {text rest : List Char}

theorem readItems_nil (hskip : Text.skipBlanks text = []) (items : List Datum) :
    readItems readOne fuel text >>= complete items = refuse .unfinishedParenthesis := by
  unfold readItems
  rw [hskip, bind_assoc]
  exact bind_pure _

theorem readItems_close (hskip : Text.skipBlanks text = ')' :: rest) (items : List Datum) :
    readItems readOne fuel text >>= complete items =
      (do return (← listOf items.reverse, rest)) := by
  unfold readItems
  rw [hskip]
  simp only [pure_bind, complete, Except.map, List.append_nil]
  rfl

theorem readItems_endless {c : Char} (hskip : Text.skipBlanks text = c :: rest) (hclose : c ≠ ')')
    (items : List Datum) :
    readItems readOne 0 text >>= complete items = throw .endless := by
  unfold readItems
  rw [hskip]
  split
  · next heq => simp at heq
  · next heq => exact absurd (List.cons.inj heq).1 hclose
  · rfl

/-- One item of a list is read, if neither the text nor the list ends here. -/
theorem readItems_item {c : Char} (hskip : Text.skipBlanks text = c :: rest) (hclose : c ≠ ')')
    (items : List Datum) :
    readItems readOne (fuel + 1) text >>= complete items = (do
      let (form, rest) ← readOne (c :: rest)
      if form.isError then
        return (form, rest)
      else
        readItems readOne fuel rest >>= complete (form :: items)) := by
  conv => lhs; unfold readItems
  rw [hskip]
  split
  · next heq => simp at heq
  · next heq => exact absurd (List.cons.inj heq).1 hclose
  · rw [bind_assoc]
    refine congrArg (readOne (c :: rest) >>= ·) (funext fun (form, rest) => ?_)
    dsimp only
    split
    · rfl
    · rw [bind_assoc]
      refine congrArg (readItems readOne fuel rest >>= ·) (funext fun (result, rest) => ?_)
      cases result <;> simp [complete, Except.map]

/-- What is no list and no quote is an atom. -/
theorem read_atom {depth : Nat} (hempty : Text.skipBlanks text = [] → False)
    (hclose : ∀ rest, Text.skipBlanks text = ')' :: rest → False)
    (hopen : ∀ rest, Text.skipBlanks text = '(' :: rest → False)
    (hquote : ∀ rest, Text.skipBlanks text = '\'' :: rest → False) :
    read (depth + 1) text =
      return (← objectOf (.ofToken (Atom.split (Text.skipBlanks text)).1),
        (Atom.split (Text.skipBlanks text)).2) := by
  rw [read]
  split
  · next hskip => exact (hempty hskip).elim
  · next hskip => exact (hclose _ hskip).elim
  · next hskip => exact (hopen _ hskip).elim
  · next hskip => exact (hquote _ hskip).elim
  · rfl

theorem readUntilClose_succ (depth : Nat) (text : List Char) :
    readUntilClose (depth + 1) text =
      readItems (fun text => read depth text) text.length text >>= complete [] := by
  rw [readUntilClose]
  refine congrArg (readItems _ _ _ >>= ·) (funext fun (result, rest) => ?_)
  cases result <;> rfl

end Reference

namespace Bridge

variable {places : List Nat} {B B' : Bridge} {state : State} {r : Reference.State}

/-- Both readers have read the same, and leave the same rest. -/
def Reads (B : Bridge) (x : Value × List Char) (y : Datum × List Char) : Prop :=
  B.Same x.1 y.1 ∧ x.2 = y.2

namespace Matches

/-- Both readers make the object of an atom. -/
theorem objectOf (h : B.Agrees state r) (token : List Char) :
    Matches [] B (Form.objectOf (Atom.denote token)) (Reference.objectOf (.ofToken token)) Same
      state r := by
  unfold Atom.denote Datum.ofToken
  cases Decimal.read? token with
  | some n =>
    by_cases hshared : -5 ≤ n ∧ n ≤ 256
    · have hnone : (Value.num n).unshared? = none := by simp [Value.unshared?]; omega
      simp only [Form.objectOf, hnone, Reference.objectOf, if_pos hshared]
      exact pure h (.num n)
    · have hsome : (Value.num n).unshared? = some n :=
        Value.unshared?_eq_some_iff.mpr ⟨rfl, by omega⟩
      simp only [Form.objectOf, hsome, Reference.objectOf, if_neg hshared]
      exact newNumber h n
  | none =>
    by_cases hname : String.ofList token = "nil"
    · simp only [Value.ofName, hname, if_true]
      exact pure h .nil
    · simp only [Value.ofName, hname, if_false]
      exact pure h (.sym _)

theorem refuse (h : B.Agrees state r) (fault : Fault) :
    Matches places B (Form.refuse fault) (Reference.refuse fault) Reads state r := by
  unfold Form.refuse Reference.refuse
  apply bind (note h _)
  intro B₁ state₁ r₁ _ _ hevolves₁ h₁ _
  apply bind (fail h₁ fault)
  intro B₂ state₂ r₂ error error' hevolves₂ h₂ hsame
  exact pure h₂ ⟨hsame, rfl⟩

/-- Where the text or the list ends, nothing more is read. -/
theorem readEach_end {readOne : List Char → Action (Value × List Char)}
    {readOne' : List Char → Reference.Step (Datum × List Char)} (h : B.Agrees state r)
    {done : Value} {elements : List Value} {items : List Datum}
    (hdraft : B.Draft state.store done places elements)
    (hitems : List.Forall₂ B.Same elements items) (fuel : Nat) {text : List Char}
    (hend : ∀ c rest, Text.skipBlanks text = c :: rest → c = ')') :
    Matches places B (Form.readEach readOne fuel done text)
      (Reference.readItems readOne' fuel text >>= Reference.complete items) Reads state r := by
  unfold Form.readEach
  cases hskip : Text.skipBlanks text with
  | nil =>
    rw [Reference.readItems_nil hskip]
    exact refuse h _
  | cons c rest =>
    obtain rfl := hend c rest hskip
    rw [Reference.readItems_close hskip]
    exact map (reverse h hdraft hitems) fun _ _ hsame => ⟨hsame, rfl⟩

/-- The items of a list, in front of which stand those that have been read. -/
theorem readEach {readOne : List Char → Action (Value × List Char)}
    {readOne' : List Char → Reference.Step (Datum × List Char)}
    (hread : ∀ {B' state r} text, B'.Agrees state r →
      Matches [] B' (readOne text) (readOne' text) Reads state r)
    (h : B.Agrees state r) {done : Value} {elements : List Value} {items : List Datum}
    (hdraft : B.Draft state.store done places elements)
    (hitems : List.Forall₂ B.Same elements items) (fuel : Nat) (text : List Char) :
    Matches places B (Form.readEach readOne fuel done text)
      (Reference.readItems readOne' fuel text >>= Reference.complete items) Reads state r := by
  induction fuel generalizing B state r done places elements items text with
  | zero =>
    by_cases hend : ∀ c rest, Text.skipBlanks text = c :: rest → c = ')'
    · exact readEach_end h hdraft hitems 0 hend
    · push Not at hend
      obtain ⟨c, rest, hskip, hclose⟩ := hend
      rw [Reference.readItems_endless hskip hclose, Form.readEach_endless hskip hclose]
      exact throw h _
  | succ fuel ih =>
    by_cases hend : ∀ c rest, Text.skipBlanks text = c :: rest → c = ')'
    · exact readEach_end h hdraft hitems (fuel + 1) hend
    · push Not at hend
      obtain ⟨c, rest, hskip, hclose⟩ := hend
      rw [Reference.readItems_item hskip hclose, Form.readEach_item hskip hclose]
      apply bind (hread (c :: rest) h)
      rintro B₁ state₁ r₁ ⟨form, rest₁⟩ ⟨form', rest₁'⟩ hevolves hagrees ⟨hsame, heq⟩
      dsimp only at hsame heq ⊢
      subst heq
      rw [hsame.isError_eq]
      split
      · exact pure hagrees ⟨hsame, rfl⟩
      · -- The form goes into a pair without a use, in front of those that have been read.
        have hdraft₁ := hdraft.evolve hevolves
        refine scratch (state₁.store.size :: places) hagrees (fun hagrees₂ => ?_) ?_
        · refine ih hagrees₂ (hdraft₁.push hagrees form) (.cons hsame ?_) rest₁
          exact hitems.imp fun _ _ hitem => hitem.mono hevolves.le
        · intro other hlt hmem _
          have hne : other ≠ state₁.store.size := Nat.ne_of_lt hlt
          simpa [hne] using hmem

/-- The readers match, however many nested calls are left. -/
theorem reading (depth : Nat) :
    (∀ {B : Bridge} {state : State} {r : Reference.State} text, B.Agrees state r →
      Matches [] B (Form.read depth text) (Reference.read depth text) Reads state r) ∧
    ∀ {B : Bridge} {state : State} {r : Reference.State} text, B.Agrees state r →
      Matches [] B (Form.readUntilClose depth text) (Reference.readUntilClose depth text) Reads
        state r := by
  induction depth with
  | zero => exact ⟨fun _ h => throw h _, fun _ h => throw h _⟩
  | succ depth ih =>
    constructor
    · intro B state r text h
      rw [Form.read_succ]
      split
      · next hskip =>
        rw [Reference.read, hskip]
        exact refuse h _
      · next rest hskip =>
        rw [Reference.read, hskip]
        exact refuse h _
      · next rest hskip =>
        rw [Reference.read, hskip]
        exact ih.2 rest h
      · next rest hskip =>
        rw [Reference.read, hskip]
        apply bind (ih.1 rest h)
        rintro B₁ state₁ r₁ ⟨form, rest₁⟩ ⟨form', rest₁'⟩ hevolves₁ h₁ ⟨hsame, heq⟩
        dsimp only at hsame heq ⊢
        subst heq
        apply bind (cons h₁ hsame .nil)
        intro B₂ state₂ r₂ inner inner' hevolves₂ h₂ hinner
        apply bind (cons h₂ (.sym "quote") hinner)
        intro B₃ state₃ r₃ quoted quoted' hevolves₃ h₃ hquoted
        exact pure h₃ ⟨hquoted, rfl⟩
      · next hempty hclose hopen hquote =>
        rw [Reference.read_atom hempty hclose hopen hquote]
        exact map (objectOf h _) fun _ _ hsame => ⟨hsame, rfl⟩
    · intro B state r text h
      rw [Form.readUntilClose_succ, Reference.readUntilClose_succ]
      exact readEach ih.1 h (.nil B state.store) .nil text.length text

end Matches

end Bridge

end ConsLisp
