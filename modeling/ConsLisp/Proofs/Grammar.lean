import ConsLisp.Form.Reading
import ConsLisp.Proofs.Store.Reverse

/-!
# The grammar of forms

An expression is an atom, a list of expressions in parentheses, or a quoted expression.  Blanks
may stand in front of every expression and of a closing parenthesis.  An atom is a longest run:
what comes after it is the end of the text or starts with a delimiter, so the grammar says of
each text what comes after it.

Main statement: the value that the reader makes of an atom is the one that it denotes
(`AtomDenotes.denote`).
-/

namespace ConsLisp

/-- The object of an atom that is read, and the store in which it has been made. -/
def Store.objectOf (s : Store) (atom : Value) : Value × Store :=
  match atom.unshared? with
  | some n => s.number n
  | none => (atom, s)

namespace Grammar

/-- What a text says. -/
inductive Expression where
  | atom (token : List Char)
  | list (items : List Expression)
  | quote (e : Expression)

/-- What a text may be: an expression, or the rest of a list up to its closing parenthesis. -/
inductive Phrase where
  | one (e : Expression)
  | many (items : List Expression)

/-- A run of blanks. -/
def Blanks (w : List Char) : Prop :=
  ∀ c ∈ w, Text.isBlank c = true

/-- An atom ends before this text: it is empty or starts with a delimiter. -/
def EndsAtom (next : List Char) : Prop :=
  ∀ c ∈ next.head?, Atom.isDelimiter c = true

/-- The text, with `next` after it, is a phrase. -/
inductive Derives : List Char → Phrase → List Char → Prop
  | atom {token next : List Char} (hne : token ≠ [])
      (hchars : ∀ c ∈ token, Atom.isDelimiter c = false) (hnext : EndsAtom next) :
      Derives token (.one (.atom token)) next
  | list {text next : List Char} {items : List Expression} (h : Derives text (.many items) next) :
      Derives ('(' :: text) (.one (.list items)) next
  | quote {w text next : List Char} {e : Expression} (hw : Blanks w)
      (h : Derives text (.one e) next) : Derives ('\'' :: (w ++ text)) (.one (.quote e)) next
  | close {w next : List Char} (hw : Blanks w) : Derives (w ++ [')']) (.many []) next
  | item {w text more next : List Char} {e : Expression} {items : List Expression}
      (hw : Blanks w) (hitem : Derives text (.one e) (more ++ next))
      (hmore : Derives more (.many items) next) :
      Derives (w ++ (text ++ more)) (.many (e :: items)) next

/-- A numeral: an optional sign and at least one decimal digit, at most 4300 of them. -/
structure IsNumeral (sign digits : List Char) : Prop where
  signed : sign = [] ∨ sign = ['+'] ∨ sign = ['-']
  nonempty : digits ≠ []
  decimal : ∀ c ∈ digits, c.isDigit = true
  bounded : digits.length ≤ 4300

/-- What an atom denotes.  A number is denoted by its numeral whatever object it is. -/
inductive AtomDenotes : List Char → Value → Prop
  | nil : AtomDenotes ['n', 'i', 'l'] .nil
  | number {sign digits : List Char} {serial : Option Nat} (h : IsNumeral sign digits) :
      AtomDenotes (sign ++ digits) (.num (if sign = ['-'] then -(Nat.ofDigitChars 10 digits 0 : Int)
        else (Nat.ofDigitChars 10 digits 0 : Int)) serial)
  | symbol {token : List Char} (hnil : token ≠ ['n', 'i', 'l'])
      (hnumber : ∀ sign digits, IsNumeral sign digits → token ≠ sign ++ digits) :
      AtomDenotes token (.sym (String.ofList token))

/-- What a phrase denotes in a store, by pairs of a sort.  The items of a list stand in order,
and a quoted expression is the list of `quote` and that expression. -/
inductive Denotes (s : Store) (own : Nat → Prop) : Phrase → Value → Prop
  | atom {token : List Char} {v : Value} (h : AtomDenotes token v) :
      Denotes s own (.one (.atom token)) v
  | list {items : List Expression} {v : Value} (h : Denotes s own (.many items) v) :
      Denotes s own (.one (.list items)) v
  | quote {e : Expression} {v : Value}
      (h : Denotes s own (.many [.atom ['q', 'u', 'o', 't', 'e'], e]) v) :
      Denotes s own (.one (.quote e)) v
  | nil : Denotes s own (.many []) .nil
  | cons {place : Nat} {a d : Value} {e : Expression} {items : List Expression}
      (hown : own place) (hcell : s.cell? (.pair place) = some ⟨a, d⟩)
      (hcar : Denotes s own (.one e) a) (hcdr : Denotes s own (.many items) d) :
      Denotes s own (.many (e :: items)) (.pair place)

/-! ## Atoms -/

/-- A sign and the digits after it are found again, however many there are. -/
theorem splitSign_of_decimal {sign digits : List Char}
    (hsigned : sign = [] ∨ sign = ['+'] ∨ sign = ['-']) (hne : digits ≠ [])
    (hdecimal : ∀ c ∈ digits, c.isDigit = true) :
    Decimal.splitSign (sign ++ digits) = (decide (sign = ['-']), digits) := by
  rcases hsigned with rfl | rfl | rfl
  · -- Without a sign, the first digit must not be taken for one.
    cases hdigits : digits with
    | nil => exact absurd hdigits hne
    | cons c rest =>
      have hc : c.isDigit = true := hdecimal c (by simp [hdigits])
      have hminus : c ≠ '-' := by
        rintro rfl
        exact absurd hc (by decide)
      have hplus : c ≠ '+' := by
        rintro rfl
        exact absurd hc (by decide)
      simp [Decimal.splitSign, hminus, hplus]
  · rfl
  · rfl

/-- The sign and the digits of a numeral are found again. -/
theorem splitSign_append {sign digits : List Char} (h : IsNumeral sign digits) :
    Decimal.splitSign (sign ++ digits) = (decide (sign = ['-']), digits) :=
  splitSign_of_decimal h.signed h.nonempty h.decimal

/-- A text is its sign and what comes after it. -/
theorem splitSign_eq (token : List Char) :
    ∃ sign, token = sign ++ (Decimal.splitSign token).2 ∧
      (sign = [] ∨ sign = ['+'] ∨ sign = ['-']) ∧
      (Decimal.splitSign token).1 = decide (sign = ['-']) := by
  unfold Decimal.splitSign
  split
  · exact ⟨['-'], rfl, by simp, rfl⟩
  · exact ⟨['+'], rfl, by simp, rfl⟩
  · exact ⟨[], rfl, by simp, rfl⟩

/-- A text that is read as a number is a numeral of that value. -/
theorem exists_numeral {token : List Char} {n : Int} (hread : Decimal.read? token = some n) :
    ∃ sign digits, IsNumeral sign digits ∧ token = sign ++ digits ∧
      n = if sign = ['-'] then -(Nat.ofDigitChars 10 digits 0 : Int)
        else (Nat.ofDigitChars 10 digits 0 : Int) := by
  obtain ⟨sign, htoken, hsigned, hminus⟩ := splitSign_eq token
  unfold Decimal.read? at hread
  split at hread
  · next hboth =>
    simp only [Decimal.isNumeral, Bool.and_eq_true, decide_eq_true_eq, List.all_eq_true,
      Bool.not_eq_true', List.isEmpty_eq_false_iff] at hboth
    obtain ⟨⟨hne, hall⟩, hlength⟩ := hboth
    obtain rfl := Option.some.inj hread
    refine ⟨sign, _, ⟨hsigned, hne, hall, hlength⟩, htoken, ?_⟩
    simp only [Decimal.value, hminus, decide_eq_true_eq]
  · simp at hread

/-- The numerals are the texts that are read as numbers. -/
theorem read?_eq_none_iff (token : List Char) :
    Decimal.read? token = none ↔ ∀ sign digits, IsNumeral sign digits → token ≠ sign ++ digits := by
  constructor
  · rintro hread sign digits hnumeral rfl
    have hall : digits.all Char.isDigit = true := List.all_eq_true.mpr hnumeral.decimal
    have hlength : digits.length ≤ Decimal.maxDigits := hnumeral.bounded
    simp [Decimal.read?, Decimal.isNumeral, splitSign_append hnumeral, hall, hlength,
      hnumeral.nonempty] at hread
  · intro hnone
    cases hread : Decimal.read? token with
    | none => rfl
    | some n =>
      obtain ⟨sign, digits, hnumeral, htoken, -⟩ := exists_numeral hread
      exact absurd htoken (hnone sign digits hnumeral)

/-- The reader makes of an atom what the atom denotes. -/
theorem AtomDenotes.denote (token : List Char) : AtomDenotes token (Atom.denote token) := by
  unfold Atom.denote
  cases hread : Decimal.read? token with
  | some n =>
    obtain ⟨sign, digits, hnumeral, rfl, rfl⟩ := exists_numeral hread
    exact .number hnumeral
  | none =>
    have hnumber := (read?_eq_none_iff token).mp hread
    by_cases hnil : token = ['n', 'i', 'l']
    · subst hnil
      exact .nil
    · have hname : String.ofList token ≠ "nil" := by
        intro heq
        exact hnil (by simpa using congrArg String.toList heq)
      simp only [Value.ofName, if_neg hname]
      exact .symbol hnil hnumber

/-- So it does of the object that the reader makes for a number. -/
theorem AtomDenotes.objectOf {token : List Char} {atom : Value} (h : AtomDenotes token atom)
    (s : Store) : AtomDenotes token (s.objectOf atom).1 := by
  unfold Store.objectOf
  split
  · next n hn =>
    obtain ⟨serial, rfl⟩ := Value.num?_eq_some_iff.mp (Value.unshared?_eq_some_iff.mp hn).1
    cases h with
    | number h => exact .number h
  · exact h

/-! ## Expressions -/

/-- The pairs of a denotation may be said to be of another sort, in a store where they are the
same. -/
theorem Denotes.mono {s s' : Store} {own own' : Nat → Prop} {phrase : Phrase} {v : Value}
    (h : Denotes s own phrase v)
    (hsame : ∀ place c, own place → s.cell? (.pair place) = some c →
      own' place ∧ s'.cell? (.pair place) = some c) :
    Denotes s' own' phrase v := by
  induction h with
  | atom h => exact .atom h
  | list _ ih => exact .list ih
  | quote _ ih => exact .quote ih
  | nil => exact .nil
  | cons hown hcell _ _ ihcar ihcdr =>
    obtain ⟨hown', hcell'⟩ := hsame _ _ hown hcell
    exact .cons hown' hcell' ihcar ihcdr

end Grammar

end ConsLisp
