import ConsLisp.Proofs.Grammar
import Mathlib.Data.List.Forall2
import Mathlib.Data.List.TakeWhile

/-!
# The reader and its grammar

With nested calls enough, which are two for each character and one more, the reader accepts the
texts that begin with an expression, and no others.  It makes the value that the expression
denotes, of new pairs, and leaves the text after it.  Of any other text it leaves nothing, and
the value says why: the empty text, a closing parenthesis and a list without an end are errors,
and a quote encloses what reading the text after it gives.

Main statement: all of this for every text and every state (`read_grammar`).
-/

namespace ConsLisp

namespace Grammar

/-! ## Blanks -/

theorem skipBlanks_append {w text : List Char} (hw : Blanks w) :
    Text.skipBlanks (w ++ text) = Text.skipBlanks text := by
  induction w with
  | nil => rfl
  | cons c w ih =>
    have hc : Text.isBlank c = true := hw c List.mem_cons_self
    have hrest := ih fun c' hmem => hw c' (List.mem_cons_of_mem c hmem)
    rw [List.cons_append, Text.skipBlanks, List.dropWhile_cons, if_pos hc]
    exact hrest

theorem skipBlanks_cons {c : Char} {text : List Char} (hc : Text.isBlank c = false) :
    Text.skipBlanks (c :: text) = c :: text := by
  rw [Text.skipBlanks, List.dropWhile_cons, if_neg (by simp [hc])]

/-- A text is its leading blanks and what is left after them. -/
theorem exists_blanks (text : List Char) : ∃ w, Blanks w ∧ text = w ++ Text.skipBlanks text := by
  refine ⟨text.takeWhile Text.isBlank, fun c hmem => ?_, ?_⟩
  · exact List.mem_takeWhile_imp hmem
  · exact List.takeWhile_append_dropWhile.symm

/-- An expression starts with a character that is no blank and no closing parenthesis. -/
theorem Derives.head {text next : List Char} {e : Expression} (h : Derives text (.one e) next) :
    ∃ c rest, text = c :: rest ∧ Text.isBlank c = false ∧ c ≠ ')' := by
  cases h with
  | atom hne hchars _ =>
    cases text with
    | nil => exact absurd rfl hne
    | cons c rest =>
      have hc := hchars c List.mem_cons_self
      simp only [Atom.isDelimiter, Bool.or_eq_false_iff, beq_eq_false_iff_ne] at hc
      exact ⟨c, rest, rfl, hc.2, hc.1.1.2⟩
  | list _ => exact ⟨'(', _, rfl, by decide, by decide⟩
  | quote _ _ => exact ⟨'\'', _, rfl, by decide, by decide⟩

theorem Denotes.isError {s : Store} {own : Nat → Prop} {phrase : Phrase} {v : Value}
    (h : Denotes s own phrase v) : v.isError = false := by
  induction h with
  | atom h => cases h <;> rfl
  | list _ ih => exact ih
  | quote _ ih => exact ih
  | nil => rfl
  | cons => rfl

/-- The items of a chain are a list. -/
theorem Denotes.of_links {s : Store} {own : Nat → Prop} {v : Value} {places : List Nat}
    {values : List Value} {items : List Expression} (h : s.Links v places values .nil)
    (hown : ∀ place ∈ places, own place)
    (hitems : List.Forall₂ (fun e value => Denotes s own (.one e) value) items values) :
    Denotes s own (.many items) v := by
  induction places generalizing v values items with
  | nil =>
    cases h with
    | done =>
      cases hitems
      exact .nil
  | cons place places ih =>
    cases h with
    | next hcell hrest =>
      cases hitems with
      | cons hitem hitems =>
        refine .cons (hown place List.mem_cons_self) hcell hitem (ih hrest ?_ hitems)
        exact fun other hmem => hown other (List.mem_cons_of_mem place hmem)

end Grammar

/-! ## Runs of the reader -/

namespace Store

/-- The store in which `quote` has been put before a value, in a list of two new pairs. -/
def quoted (s : Store) (v : Value) : Store :=
  ((s.cons v .nil).2.cons (.sym "quote") (.pair s.size)).2

theorem keeps_quoted (s : Store) (v : Value) : KeepsExcept [] s (s.quoted v) :=
  (KeepsExcept.cons s v .nil).trans (.cons ..) (by simp)

/-- The second of the new pairs is the list. -/
theorem cell?_quoted (s : Store) (v : Value) :
    (s.quoted v).cell? (.pair (s.size + 1)) = some ⟨.sym "quote", .pair s.size⟩ := by
  rw [← size_cons s v .nil]
  exact cell?_cons_self ..

/-- The first of the new pairs holds the value. -/
theorem cell?_quoted_rest (s : Store) (v : Value) :
    (s.quoted v).cell? (.pair s.size) = some ⟨v, .nil⟩ := by
  have hkeeps := KeepsExcept.cons (s.cons v .nil).2 (.sym "quote") (.pair s.size)
  have hlt : s.size < (s.cons v .nil).2.size := by
    rw [size_cons]
    exact Nat.lt_succ_self _
  rw [quoted, hkeeps.cell hlt (by simp), cell?_cons_self]

/-- The object of an atom is no pair. -/
theorem keeps_objectOf (s : Store) (atom : Value) : KeepsExcept [] s (s.objectOf atom).2 := by
  unfold objectOf
  split
  · exact ⟨Nat.le_refl _, fun _ _ => rfl⟩
  · exact .refl [] s

end Store

namespace Form

theorem objectOf_eq (atom : Value) (state : State) :
    (objectOf atom : Action Value) state =
      .ok (state.store.objectOf atom).1 ⟨(state.store.objectOf atom).2, state.log⟩ := by
  unfold objectOf Store.objectOf
  cases atom.unshared? with
  | some n => rfl
  | none => rfl

/-- One item of a list is read, if neither the text nor the list ends here. -/
theorem readEach_item {readOne : List Char → Action (Value × List Char)} {fuel : Nat} {done : Value}
    {text rest : List Char} {c : Char} (hskip : Text.skipBlanks text = c :: rest)
    (hclose : c ≠ ')') :
    readEach readOne (fuel + 1) done text = (do
      let (form, rest) ← readOne (c :: rest)
      if form.isError then
        return (form, rest)
      else
        let done ← Action.cons form done
        readEach readOne fuel done rest) := by
  conv => lhs; unfold readEach
  rw [hskip]
  split
  · next heq => simp at heq
  · next heq => exact absurd (List.cons.inj heq).1 hclose
  · rfl

/-- With no more items allowed, an item ends the reading. -/
theorem readEach_endless {readOne : List Char → Action (Value × List Char)} {done : Value}
    {text rest : List Char} {c : Char} (hskip : Text.skipBlanks text = c :: rest)
    (hclose : c ≠ ')') :
    readEach readOne 0 done text = throw .endless := by
  unfold readEach
  rw [hskip]
  split
  · next heq => simp at heq
  · next heq => exact absurd (List.cons.inj heq).1 hclose
  · rfl

/-- Reading a form costs one nested call. -/
theorem read_succ (depth : Nat) (text : List Char) :
    read (depth + 1) text =
      match Text.skipBlanks text with
      | [] => refuse .emptyInput
      | ')' :: rest => refuse (.strayClose (String.ofList (')' :: rest)))
      | '(' :: rest => readUntilClose depth rest
      | '\'' :: rest => do
        let (form, rest) ← read depth rest
        let quoted ← Action.cons (.sym "quote") (← Action.cons form .nil)
        return (quoted, rest)
      | text => return (← objectOf (atomAt text).1, (atomAt text).2) := by
  rw [read, readForm]
  rfl

/-- A quote costs one nested call and two pairs. -/
theorem read_quote {depth : Nat} {text rest next : List Char} {state : State} {v : Value}
    {s : Store} {log : Log} (hskip : Text.skipBlanks text = '\'' :: rest)
    (hrun : read depth rest state = .ok (v, next) ⟨s, log⟩) :
    read (depth + 1) text state = .ok (.pair (s.size + 1), next) ⟨s.quoted v, log⟩ := by
  rw [read_succ, hskip]
  simp only [bind, EStateM.bind, hrun]
  rw [← Store.size_cons s v .nil]
  rfl

theorem readUntilClose_succ (depth : Nat) (text : List Char) :
    (readUntilClose (depth + 1) text : Action (Value × List Char)) =
      readEach (read depth) text.length .nil text := by
  rw [readUntilClose]
  rfl

end Form

namespace Grammar

open Store

/-- What a run of the reader does with a phrase in front of a text.  An expression is read with
blanks before it; the items of a list are put behind the elements that are there already. -/
def Runs (text : List Char) : Phrase → List Char → Prop
  | .one e, next => ∀ w, Blanks w → ∀ state : State, ∃ v state',
      (∀ depth, 2 * text.length < depth →
        Form.read depth (w ++ (text ++ next)) state = .ok (v, next) state') ∧
      Denotes state'.store (state.store.size ≤ ·) (.one e) v ∧
      KeepsExcept [] state.store state'.store
  | .many items, next => ∀ (state : State) done places elements,
      state.store.Links done places elements .nil → ∃ v state' newPlaces values,
      (∀ depth fuel, 2 * text.length < depth → text.length ≤ fuel →
        Form.readEach (Form.read depth) fuel done (text ++ next) state = .ok (v, next) state') ∧
      state'.store.Links v (places.reverse ++ newPlaces) (elements.reverse ++ values) .nil ∧
      (∀ place ∈ newPlaces, state.store.size ≤ place) ∧
      List.Forall₂ (fun e value => Denotes state'.store (state.store.size ≤ ·) (.one e) value)
        items values ∧
      KeepsExcept places state.store state'.store

theorem runs_close {w next : List Char} (hw : Blanks w) : Runs (w ++ [')']) (.many []) next := by
  intro state done places elements hlinks
  obtain ⟨v, s', hrun, hreversed, hkeeps, -⟩ := Action.reverse_of_links hlinks
  refine ⟨v, ⟨s', state.log⟩, [], [], fun depth fuel _ _ => ?_, ?_, by simp, .nil, hkeeps⟩
  · have hskip : Text.skipBlanks (w ++ [')'] ++ next) = ')' :: next := by
      rw [List.append_assoc, skipBlanks_append hw]
      exact skipBlanks_cons (by decide)
    unfold Form.readEach
    rw [hskip]
    simp only [bind, EStateM.bind, hrun]
    rfl
  · rw [List.append_nil, List.append_nil]
    exact hreversed

theorem split_append {token next : List Char}
    (hchars : ∀ c ∈ token, Atom.isDelimiter c = false) (hnext : EndsAtom next) :
    Atom.split (token ++ next) = (token, next) := by
  have hall : ∀ c ∈ token, (!Atom.isDelimiter c) = true := fun c hmem => by simp [hchars c hmem]
  have hstop : next.takeWhile (!Atom.isDelimiter ·) = [] := by
    cases next with
    | nil => rfl
    | cons c rest => simp [hnext c rfl]
  have hdrop : next.dropWhile (!Atom.isDelimiter ·) = next := by
    cases next with
    | nil => rfl
    | cons c rest => simp [hnext c rfl]
  rw [Atom.split, List.takeWhile_append_of_pos hall, List.dropWhile_append_of_pos hall, hstop,
    hdrop, List.append_nil]

/-- Reading an atom takes one nested call and makes its object. -/
theorem read_token {w token next : List Char} (hw : Blanks w) (hne : token ≠ [])
    (hchars : ∀ c ∈ token, Atom.isDelimiter c = false) (hnext : EndsAtom next) (depth : Nat)
    (state : State) :
    Form.read (depth + 1) (w ++ (token ++ next)) state =
      .ok ((state.store.objectOf (Atom.denote token)).1, next)
        ⟨(state.store.objectOf (Atom.denote token)).2, state.log⟩ := by
  cases token with
  | nil => exact absurd rfl hne
  | cons c token =>
    have hc := hchars c List.mem_cons_self
    simp only [Atom.isDelimiter, Bool.or_eq_false_iff, beq_eq_false_iff_ne] at hc
    obtain ⟨⟨⟨hopen, hclose⟩, hquote⟩, hblank⟩ := hc
    have hskip : Text.skipBlanks (w ++ (c :: token ++ next)) = c :: token ++ next := by
      rw [skipBlanks_append hw, List.cons_append, skipBlanks_cons hblank]
    rw [Form.read_succ, hskip, List.cons_append]
    split
    · next heq => simp at heq
    · next heq => exact absurd (List.cons.inj heq).1 hclose
    · next heq => exact absurd (List.cons.inj heq).1 hopen
    · next heq => exact absurd (List.cons.inj heq).1 hquote
    · rw [← List.cons_append, Form.atomAt, split_append hchars hnext]
      simp only [bind, EStateM.bind, Form.objectOf_eq]
      rfl

theorem runs_atom {token next : List Char} (hne : token ≠ [])
    (hchars : ∀ c ∈ token, Atom.isDelimiter c = false) (hnext : EndsAtom next) :
    Runs token (.one (.atom token)) next := by
  intro w hw state
  have hdenotes := (AtomDenotes.denote token).objectOf state.store
  have hkeeps := state.store.keeps_objectOf (Atom.denote token)
  refine ⟨_, ⟨_, state.log⟩, fun depth hdepth => ?_, .atom hdenotes, hkeeps⟩
  obtain ⟨depth, rfl⟩ := Nat.exists_eq_succ_of_ne_zero (Nat.ne_zero_of_lt hdepth)
  exact read_token hw hne hchars hnext depth state

theorem runs_list {text next : List Char} {items : List Expression}
    (h : Runs text (.many items) next) : Runs ('(' :: text) (.one (.list items)) next := by
  intro w hw state
  obtain ⟨v, state', newPlaces, values, hrun, hlinks, hnew, hitems, hkeeps⟩ :=
    h state .nil [] [] (.done rfl)
  refine ⟨v, state', fun depth hdepth => ?_, .list (.of_links hlinks hnew hitems), hkeeps⟩
  rw [List.length_cons] at hdepth
  -- One nested call is for the list as a form, the other for its items.
  obtain ⟨depth, rfl⟩ : ∃ d, depth = d + 1 + 1 := ⟨depth - 2, by omega⟩
  have hskip : Text.skipBlanks (w ++ ('(' :: text ++ next)) = '(' :: (text ++ next) := by
    rw [skipBlanks_append hw, List.cons_append, skipBlanks_cons (by decide)]
  rw [Form.read_succ, hskip]
  change (Form.readUntilClose (depth + 1) (text ++ next) : Action (Value × List Char)) state = _
  rw [Form.readUntilClose_succ]
  refine hrun depth _ (by omega) ?_
  rw [List.length_append]
  omega

/-- The pairs that were there stay, and so do the denotations by them. -/
theorem Denotes.keep {s s' : Store} {n m : Nat} {changed : List Nat} {phrase : Phrase} {v : Value}
    (h : Denotes s (n ≤ ·) phrase v) (hkeeps : KeepsExcept changed s s') (hle : m ≤ n)
    (hchanged : ∀ place ∈ changed, place < n ∨ s.size ≤ place) : Denotes s' (m ≤ ·) phrase v := by
  refine h.mono fun place c hown hcell => ⟨Nat.le_trans hle hown, ?_⟩
  have hlt := lt_size_of_cell? hcell
  rw [hkeeps.cell hlt fun hmem => ?_, hcell]
  rcases hchanged place hmem with hless | hmore
  · omega
  · omega

theorem runs_quote {w text next : List Char} {e : Expression} (hw : Blanks w)
    (h : Runs text (.one e) next) : Runs ('\'' :: (w ++ text)) (.one (.quote e)) next := by
  intro w' hw' state
  obtain ⟨v, state', hrun, hdenotes, hkeeps⟩ := h w hw state
  obtain ⟨s, log⟩ := state'
  have hquoted := s.keeps_quoted v
  refine ⟨.pair (s.size + 1), ⟨s.quoted v, log⟩, fun depth hdepth => ?_, ?_,
    hkeeps.trans hquoted (by simp)⟩
  · cases depth with
    | zero => simp at hdepth
    | succ depth =>
      have hskip : Text.skipBlanks (w' ++ ('\'' :: (w ++ text) ++ next)) =
          '\'' :: (w ++ (text ++ next)) := by
        rw [skipBlanks_append hw', List.cons_append, skipBlanks_cons (by decide), List.append_assoc]
      have hinner : 2 * text.length < depth := by
        rw [List.length_cons, List.length_append] at hdepth
        omega
      exact Form.read_quote hskip (hrun depth hinner)
  · have hle : state.store.size ≤ s.size := hkeeps.size
    have hword : AtomDenotes ['q', 'u', 'o', 't', 'e'] (.sym "quote") := .denote _
    refine .quote (.cons (Nat.le_succ_of_le hle) (s.cell?_quoted v) (.atom hword) ?_)
    exact .cons hle (s.cell?_quoted_rest v) (hdenotes.keep hquoted (Nat.le_refl _) (by simp)) .nil

theorem runs_item {w text more next : List Char} {e : Expression} {items : List Expression}
    (hw : Blanks w) (hitem : Derives text (.one e) (more ++ next))
    (hrunItem : Runs text (.one e) (more ++ next)) (hrunMore : Runs more (.many items) next) :
    Runs (w ++ (text ++ more)) (.many (e :: items)) next := by
  intro state done places elements hlinks
  obtain ⟨v, state', hrun, hdenotes, hkeeps⟩ := hrunItem [] (by simp [Blanks]) state
  obtain ⟨s, log⟩ := state'
  -- The pair of the item comes in front of those before it, all of which the rest turns around.
  have hkeeps₁ := KeepsExcept.cons s v done
  have hlinks₁ : (s.cons v done).2.Links (.pair s.size) (s.size :: places) (v :: elements) .nil :=
    .next (cell?_cons_self ..) (hlinks.keep (hkeeps.trans hkeeps₁ (by simp)) (by simp) rfl)
  obtain ⟨v', state'', newPlaces, values, hrun', hlinks', hnew, hitems, hkeeps'⟩ :=
    hrunMore ⟨(s.cons v done).2, log⟩ (.pair s.size) (s.size :: places) (v :: elements) hlinks₁
  have hle : state.store.size ≤ s.size := hkeeps.size
  have hle₁ : s.size ≤ (s.cons v done).2.size := hkeeps₁.size
  have hold : ∀ place ∈ places, place < state.store.size := fun place hmem => hlinks.lt_size hmem
  refine ⟨v', state'', s.size :: newPlaces, v :: values, fun depth fuel hdepth hfuel => ?_, ?_, ?_,
    .cons ?_ ?_, ?_⟩
  · obtain ⟨c, rest, rfl, hblank, hclose⟩ := hitem.head
    rw [List.length_append, List.length_append] at hdepth hfuel
    have hskip : Text.skipBlanks (w ++ (c :: rest ++ more) ++ next) =
        c :: (rest ++ (more ++ next)) := by
      rw [List.append_assoc, skipBlanks_append hw, List.append_assoc, List.cons_append,
        skipBlanks_cons hblank]
    have hone := hrun depth (by omega)
    rw [List.nil_append, List.cons_append] at hone
    obtain ⟨fuel, rfl⟩ : ∃ f, fuel = f + 1 := by
      rw [List.length_cons] at hfuel
      exact ⟨fuel - 1, by omega⟩
    rw [List.length_cons] at hfuel
    rw [Form.readEach_item hskip hclose]
    simp only [bind, EStateM.bind, hone, hdenotes.isError]
    exact hrun' depth fuel (by omega) (by omega)
  · simpa using hlinks'
  · intro place hmem
    rcases List.mem_cons.mp hmem with rfl | hmem
    · exact hle
    · have hmore := hnew place hmem
      dsimp only at hmore
      omega
  · -- What the item denotes lies between the pairs that were there and the pair in front.
    have hkept := (hkeeps₁.weaken (s.size :: places)).trans hkeeps'
      fun _ _ hmem => hmem
    refine hdenotes.keep hkept (Nat.le_refl _) fun place hmem => ?_
    rcases List.mem_cons.mp hmem with rfl | hmem
    · exact .inr (Nat.le_refl _)
    · exact .inl (hold place hmem)
  · refine hitems.imp fun e value hvalue => ?_
    exact hvalue.keep (.refl [] _) (Nat.le_trans hle hle₁) (by simp)
  · refine ((hkeeps.trans hkeeps₁ (by simp)).weaken places).trans hkeeps' fun place hlt hmem => ?_
    rcases List.mem_cons.mp hmem with rfl | hmem
    · omega
    · exact hmem

/-- What the grammar derives is read. -/
theorem Derives.runs {text next : List Char} {phrase : Phrase} (h : Derives text phrase next) :
    Runs text phrase next := by
  induction h with
  | atom hne hchars hnext => exact runs_atom hne hchars hnext
  | list _ ih => exact runs_list ih
  | quote hw _ ih => exact runs_quote hw ih
  | close hw => exact runs_close hw
  | item hw hitem _ ihItem ihMore => exact runs_item hw hitem ihItem ihMore

/-! ## Texts that are refused -/

/-- The value is an error with this message. -/
def IsFailure (v : Value) (message : String) : Prop :=
  ∃ serial fault, v = .error serial fault ∧ fault.message = message

/-- In this state the text is read as this value with this rest, given nested calls enough. -/
def Reads (text : List Char) (state : State) (v : Value) (rest : List Char) (state' : State) :
    Prop :=
  ∀ depth, 2 * text.length < depth → Form.read depth text state = .ok (v, rest) state'

/-- An expression stands in front of the text, after blanks. -/
def Accepts (text : List Char) : Prop :=
  ∃ w e front next, Blanks w ∧ text = w ++ (front ++ next) ∧ Derives front (.one e) next

/-- The value says why no expression stands in front of the text. -/
def Explains (text : List Char) (state : State) (v : Value) (state' : State) : Prop :=
  match Text.skipBlanks text with
  | [] => IsFailure v "empty input"
  | ')' :: rest => IsFailure v ("invalid syntax: " ++ String.ofList (')' :: rest))
  | '(' :: _ => IsFailure v "unfinished parenthesis"
  | '\'' :: after => ∃ x inner state₁, Reads after state x [] state₁ ∧
      state'.store.cell? v = some ⟨.sym "quote", inner⟩ ∧
      state'.store.cell? inner = some ⟨x, .nil⟩
  | _ => False

/-- No value is made of the text but one that says why. -/
def Refused (text : List Char) : Prop :=
  ∀ state, ∃ v state', Reads text state v [] state' ∧ Explains text state v state'

/-- The rest of a list stands in front of the text. -/
def Closes (text : List Char) : Prop :=
  ∃ items front next, text = front ++ next ∧ Derives front (.many items) next

/-- Every run that reads the rest of a list ends in an error. -/
def Unfinished (text : List Char) : Prop :=
  ∀ (state : State) done, ∃ v state', IsFailure v "unfinished parenthesis" ∧
    ∀ depth fuel, 2 * text.length < depth → text.length ≤ fuel →
      Form.readEach (Form.read depth) fuel done text state = .ok (v, []) state'

variable {text rest : List Char}

/-- A text that is refused at once. -/
theorem reads_of_refuse {fault : Fault}
    (hrefuse : ∀ depth, Form.read (depth + 1) text = Form.refuse fault) (state : State) :
    ∃ state', Reads text state (.error state.store.serial fault) [] state' := by
  refine ⟨⟨(state.store.error fault).2, state.log.note (.readFailed fault)⟩, fun depth hdepth => ?_⟩
  cases depth with
  | zero => simp at hdepth
  | succ depth =>
    rw [hrefuse]
    rfl

theorem refused_nil (hskip : Text.skipBlanks text = []) : Refused text := by
  intro state
  have hrefuse (depth : Nat) : Form.read (depth + 1) text = Form.refuse .emptyInput := by
    rw [Form.read_succ, hskip]
  obtain ⟨state', hreads⟩ := reads_of_refuse hrefuse state
  refine ⟨_, state', hreads, ?_⟩
  simp only [Explains, hskip]
  exact ⟨_, _, rfl, rfl⟩

theorem refused_close (hskip : Text.skipBlanks text = ')' :: rest) : Refused text := by
  intro state
  have hrefuse (depth : Nat) :
      Form.read (depth + 1) text = Form.refuse (.strayClose (String.ofList (')' :: rest))) := by
    rw [Form.read_succ, hskip]
    rfl
  obtain ⟨state', hreads⟩ := reads_of_refuse hrefuse state
  refine ⟨_, state', hreads, ?_⟩
  simp only [Explains, hskip]
  exact ⟨_, _, rfl, rfl⟩

theorem length_rest_lt {c : Char} (hskip : Text.skipBlanks text = c :: rest) :
    rest.length < text.length := by
  have hle := Text.length_skipBlanks_le text
  rw [hskip, List.length_cons] at hle
  exact hle

theorem refused_open (hskip : Text.skipBlanks text = '(' :: rest) (h : Unfinished rest) :
    Refused text := by
  intro state
  obtain ⟨v, state', hfailure, hrun⟩ := h state .nil
  refine ⟨v, state', fun depth hdepth => ?_, ?_⟩
  · have hlength := length_rest_lt hskip
    obtain ⟨depth, rfl⟩ : ∃ d, depth = d + 1 + 1 := ⟨depth - 2, by omega⟩
    rw [Form.read_succ, hskip]
    change (Form.readUntilClose (depth + 1) rest : Action (Value × List Char)) state = _
    rw [Form.readUntilClose_succ]
    exact hrun depth rest.length (by omega) (Nat.le_refl _)
  · simp only [Explains, hskip]
    exact hfailure

theorem refused_quote (hskip : Text.skipBlanks text = '\'' :: rest) (h : Refused rest) :
    Refused text := by
  intro state
  obtain ⟨x, state₁, hreads, -⟩ := h state
  obtain ⟨s, log⟩ := state₁
  refine ⟨.pair (s.size + 1), ⟨s.quoted x, log⟩, fun depth hdepth => ?_, ?_⟩
  · cases depth with
    | zero => simp at hdepth
    | succ depth =>
      have hlength := length_rest_lt hskip
      exact Form.read_quote hskip (hreads depth (by omega))
  · simp only [Explains, hskip]
    exact ⟨x, .pair s.size, ⟨s, log⟩, hreads, s.cell?_quoted x, s.cell?_quoted_rest x⟩

/-- A character that is no delimiter begins an atom. -/
theorem accepts_atom {c : Char} (hskip : Text.skipBlanks text = c :: rest)
    (hc : Atom.isDelimiter c = false) : Accepts text := by
  obtain ⟨w, hw, htext⟩ := exists_blanks text
  rw [hskip] at htext
  refine ⟨w, _, (Atom.split (c :: rest)).1, (Atom.split (c :: rest)).2, hw, ?_, .atom ?_ ?_ ?_⟩
  · rw [Atom.split_append]
    exact htext
  · simp [Atom.split, hc]
  · intro c' hmem
    simpa using List.mem_takeWhile_imp hmem
  · -- The rest starts with the first character that does not belong to the atom.
    intro c' hmem
    have hstop := List.head?_dropWhile_not (!Atom.isDelimiter ·) (c :: rest)
    rw [Option.mem_def] at hmem
    simp only [Atom.split] at hmem
    rw [hmem] at hstop
    simpa using hstop

theorem accepts_open (hskip : Text.skipBlanks text = '(' :: rest) (h : Closes rest) :
    Accepts text := by
  obtain ⟨w, hw, htext⟩ := exists_blanks text
  obtain ⟨items, front, next, rfl, hderives⟩ := h
  rw [hskip] at htext
  exact ⟨w, _, '(' :: front, next, hw, htext, .list hderives⟩

theorem accepts_quote (hskip : Text.skipBlanks text = '\'' :: rest) (h : Accepts rest) :
    Accepts text := by
  obtain ⟨w, hw, htext⟩ := exists_blanks text
  obtain ⟨w', e, front, next, hw', rfl, hderives⟩ := h
  rw [hskip] at htext
  refine ⟨w, _, '\'' :: (w' ++ front), next, hw, ?_, .quote hw' hderives⟩
  rw [htext, List.cons_append, List.append_assoc]

/-- An expression stands in front of a text or the text is refused, if this is so of shorter
texts and of the lists in them. -/
theorem accepts_or_refused_of_shorter
    (hone : ∀ t : List Char, t.length < text.length → Accepts t ∨ Refused t)
    (hmany : ∀ t : List Char, t.length < text.length → Closes t ∨ Unfinished t) :
    Accepts text ∨ Refused text := by
  cases hskip : Text.skipBlanks text with
  | nil => exact .inr (refused_nil hskip)
  | cons c rest =>
    have hlength := length_rest_lt hskip
    by_cases hclose : c = ')'
    · exact .inr (refused_close (hclose ▸ hskip))
    by_cases hopen : c = '('
    · subst hopen
      exact (hmany rest hlength).imp (accepts_open hskip) (refused_open hskip)
    by_cases hquote : c = '\''
    · subst hquote
      exact (hone rest hlength).imp (accepts_quote hskip) (refused_quote hskip)
    · have hblank := Text.isBlank_of_skipBlanks_eq_cons hskip
      refine .inl (accepts_atom hskip ?_)
      simp [Atom.isDelimiter, hblank, hopen, hclose, hquote]

/-! ## Lists that do not end -/

theorem unfinished_nil (hskip : Text.skipBlanks text = []) : Unfinished text := by
  intro state done
  refine ⟨.error state.store.serial .unfinishedParenthesis,
    ⟨(state.store.error .unfinishedParenthesis).2,
      state.log.note (.readFailed .unfinishedParenthesis)⟩, ⟨_, _, rfl, rfl⟩,
    fun depth fuel _ _ => ?_⟩
  unfold Form.readEach
  rw [hskip]
  rfl

theorem closes_close (hskip : Text.skipBlanks text = ')' :: rest) : Closes text := by
  obtain ⟨w, hw, htext⟩ := exists_blanks text
  rw [hskip] at htext
  refine ⟨[], w ++ [')'], rest, ?_, .close hw⟩
  rw [htext, List.append_assoc]
  rfl

/-- After an item that is read, the list goes on in what is left. -/
theorem unfinished_item {c : Char} {w front next : List Char} {e : Expression}
    (hskip : Text.skipBlanks text = c :: rest) (hclose : c ≠ ')') (hw : Blanks w)
    (hrest : c :: rest = w ++ (front ++ next)) (hitem : Derives front (.one e) next)
    (h : Unfinished next) : Unfinished text := by
  intro state done
  obtain ⟨value, ⟨s, log⟩, hrun, hdenotes, -⟩ := hitem.runs w hw state
  obtain ⟨v, state', hfailure, hmore⟩ := h ⟨(s.cons value done).2, log⟩ (.pair s.size)
  refine ⟨v, state', hfailure, fun depth fuel hdepth hfuel => ?_⟩
  have hlength := length_rest_lt hskip
  have hparts := congrArg List.length hrest
  rw [List.length_cons, List.length_append, List.length_append] at hparts
  obtain ⟨first, others, rfl, -, -⟩ := hitem.head
  rw [List.length_cons] at hparts
  obtain ⟨fuel, rfl⟩ : ∃ f, fuel = f + 1 := ⟨fuel - 1, by omega⟩
  have hone := hrun depth (by rw [List.length_cons]; omega)
  rw [← hrest] at hone
  rw [Form.readEach_item hskip hclose]
  simp only [bind, EStateM.bind, hone, hdenotes.isError]
  exact hmore depth fuel (by omega) (by omega)

/-- After an item that is refused, nothing is left to end the list. -/
theorem unfinished_refused {c : Char} (hskip : Text.skipBlanks text = c :: rest) (hclose : c ≠ ')')
    (h : Refused (c :: rest)) : Unfinished text := by
  intro state done
  obtain ⟨value, ⟨s, log⟩, hreads, hexplains⟩ := h state
  have hlength := length_rest_lt hskip
  have hagain : Text.skipBlanks (c :: rest) = c :: rest :=
    skipBlanks_cons (Text.isBlank_of_skipBlanks_eq_cons hskip)
  simp only [Explains, hagain] at hexplains
  split at hexplains
  · next heq => simp at heq
  · next heq => exact absurd (List.cons.inj heq).1 hclose
  · -- The item is a list without an end itself, and its error is passed on.
    obtain ⟨serial, fault, rfl, hmessage⟩ := hexplains
    refine ⟨.error serial fault, ⟨s, log⟩, ⟨serial, fault, rfl, hmessage⟩,
      fun depth fuel hdepth hfuel => ?_⟩
    obtain ⟨fuel, rfl⟩ : ∃ f, fuel = f + 1 := ⟨fuel - 1, by omega⟩
    rw [Form.readEach_item hskip hclose]
    simp only [bind, EStateM.bind, hreads depth (by rw [List.length_cons]; omega)]
    rfl
  · -- The item is quoted, which hides its error, and the text is at its end.
    obtain ⟨x, inner, -, -, hcell, -⟩ := hexplains
    have hend : Text.skipBlanks [] = [] := rfl
    obtain ⟨v, state', hfailure, hmore⟩ :=
      unfinished_nil hend ⟨(s.cons value done).2, log⟩ (.pair s.size)
    have herror : value.isError = false := by
      obtain ⟨place, rfl, -⟩ := cell?_eq_some_iff.mp hcell
      rfl
    refine ⟨v, state', hfailure, fun depth fuel hdepth hfuel => ?_⟩
    obtain ⟨fuel, rfl⟩ : ∃ f, fuel = f + 1 := ⟨fuel - 1, by omega⟩
    rw [Form.readEach_item hskip hclose]
    simp only [bind, EStateM.bind, hreads depth (by rw [List.length_cons]; omega), herror]
    exact hmore depth fuel (by rw [List.length_nil]; omega) (Nat.zero_le _)
  · exact hexplains.elim

/-- A list ends in a text or every run is an error, if this is so of shorter texts and of the
items. -/
theorem closes_or_unfinished_of_shorter
    (hone : ∀ t : List Char, t.length ≤ text.length → Accepts t ∨ Refused t)
    (hmany : ∀ t : List Char, t.length < text.length → Closes t ∨ Unfinished t) :
    Closes text ∨ Unfinished text := by
  cases hskip : Text.skipBlanks text with
  | nil => exact .inr (unfinished_nil hskip)
  | cons c rest =>
    by_cases hclose : c = ')'
    · exact .inl (closes_close (hclose ▸ hskip))
    have hlength := length_rest_lt hskip
    rcases hone (c :: rest) hlength with ⟨w, e, front, next, hw, hrest, hitem⟩ | hrefused
    · have hparts := congrArg List.length hrest
      rw [List.length_cons, List.length_append, List.length_append] at hparts
      obtain ⟨first, others, hfront, -, -⟩ := hitem.head
      rw [hfront, List.length_cons] at hparts
      rcases hmany next (by omega) with ⟨items, more, last, rfl, hmore⟩ | hunfinished
      · obtain ⟨w', hw', htext⟩ := exists_blanks text
        rw [hskip, hrest] at htext
        have hblanks : Blanks (w' ++ w) := fun c' hmem =>
          (List.mem_append.mp hmem).elim (hw' c') (hw c')
        refine .inl ⟨e :: items, w' ++ w ++ (front ++ more), last, ?_, .item hblanks hitem hmore⟩
        rw [htext]
        simp only [List.append_assoc]
      · exact .inr (unfinished_item hskip hclose hw hrest hitem hunfinished)
    · exact .inr (unfinished_refused hskip hclose hrefused)

/-- Every text is accepted or refused, and every list in it ends or does not. -/
theorem decided (text : List Char) :
    (Accepts text ∨ Refused text) ∧ (Closes text ∨ Unfinished text) := by
  -- By induction on the length: what stands behind a quote or a parenthesis is shorter, and so is
  -- what comes after an item.
  induction hlength : text.length using Nat.strong_induction_on generalizing text with
  | _ n ih =>
    subst hlength
    -- The items of a list may be as long as the text, so forms come first.
    have hone : ∀ t : List Char, t.length ≤ text.length → Accepts t ∨ Refused t := by
      intro t hle
      refine accepts_or_refused_of_shorter (fun u hlt => ?_) fun u hlt => ?_
      · exact (ih u.length (Nat.lt_of_lt_of_le hlt hle) u rfl).1
      · exact (ih u.length (Nat.lt_of_lt_of_le hlt hle) u rfl).2
    have hmany : ∀ t : List Char, t.length < text.length → Closes t ∨ Unfinished t :=
      fun t hlt => (ih t.length hlt t rfl).2
    exact ⟨hone text (Nat.le_refl _), closes_or_unfinished_of_shorter hone hmany⟩

/-! ## The reader -/

/-- An expression is read in any state, with blanks before it. -/
theorem Derives.reads {w text next : List Char} {e : Expression} (hw : Blanks w)
    (h : Derives text (.one e) next) (state : State) :
    ∃ v state', Reads (w ++ (text ++ next)) state v next state' ∧
      Denotes state'.store (state.store.size ≤ ·) (.one e) v ∧
      KeepsExcept [] state.store state'.store := by
  obtain ⟨v, state', hrun, hdenotes, hkeeps⟩ := h.runs w hw state
  refine ⟨v, state', fun depth hdepth => hrun depth ?_, hdenotes, hkeeps⟩
  rw [List.length_append, List.length_append] at hdepth
  omega

theorem refused_of_not_accepts (h : ¬Accepts text) : Refused text :=
  (decided text).1.resolve_left h

/-- A text that begins with an expression is read as what the expression denotes, by new pairs,
and leaves the text after it, which is shorter.  Of every other text nothing is left, and the
value says why. -/
theorem read_grammar (text : List Char) (state : State) :
    (∀ w e front next, Blanks w → text = w ++ (front ++ next) → Derives front (.one e) next →
      ∃ v state', Reads text state v next state' ∧
        Denotes state'.store (state.store.size ≤ ·) (.one e) v ∧
        next <:+ text ∧ next.length < text.length) ∧
    (¬Accepts text → ∃ v state', Reads text state v [] state' ∧ Explains text state v state') := by
  constructor
  · rintro w e front next hw rfl hderives
    obtain ⟨v, state', hreads, hdenotes, -⟩ := hderives.reads hw state
    refine ⟨v, state', hreads, hdenotes, ?_, ?_⟩
    · rw [← List.append_assoc]
      exact List.suffix_append _ _
    · obtain ⟨c, rest, rfl, -, -⟩ := hderives.head
      rw [List.length_append, List.length_append, List.length_cons]
      omega
  · intro hnot
    exact refused_of_not_accepts hnot state

end Grammar

end ConsLisp
