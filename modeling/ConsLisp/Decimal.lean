import ConsLisp.Abort

/-!
# Decimal numbers

Numbers of programs are written in plain decimal digits, with a minus sign in
front of negative ones.  On reading, a plus sign and zeros in front are allowed as
well.  Neither side handles more than `maxDigits` digits: a longer numeral is not
read as a number, and writing a longer number aborts.

Main statement: what is written is read back (`read?_of_write`).
-/

namespace ConsLisp.Decimal

/-- The largest number of digits that is read or written. -/
def maxDigits : Nat := 4300

/-- The smallest number with more than `maxDigits` digits. -/
def bound : Nat := Nat.pow 10 maxDigits

/-- The sign of a numeral, `true` for minus, and the text after it. -/
def splitSign : List Char → Bool × List Char
  | '-' :: digits => (true, digits)
  | '+' :: digits => (false, digits)
  | digits => (false, digits)

/-- Is the text an optional sign and one or more digits? -/
def isNumeral (text : List Char) : Bool :=
  let digits := (splitSign text).2
  !digits.isEmpty && digits.all Char.isDigit

/-- The value of a numeral. -/
def value (text : List Char) : Int :=
  let (negative, digits) := splitSign text
  if negative then -(Nat.ofDigitChars 10 digits 0 : Int) else Nat.ofDigitChars 10 digits 0

/-- The number that a text is, if it is a numeral of at most `maxDigits` digits. -/
def read? (text : List Char) : Option Int :=
  if isNumeral text && (splitSign text).2.length ≤ maxDigits then some (value text) else none

/-- The digits of a number, after a minus sign if it is negative. -/
def digits (n : Int) : List Char :=
  if n < 0 then '-' :: Nat.toDigits 10 n.natAbs else Nat.toDigits 10 n.natAbs

/-- Writes a number of at most `maxDigits` digits. -/
def write (n : Int) : Except Abort String :=
  if n.natAbs < bound then .ok (String.ofList (digits n)) else .error .numberTooLong

theorem write_eq_ok_iff {n : Int} {text : String} :
    write n = .ok text ↔ n.natAbs < bound ∧ text = String.ofList (digits n) := by
  unfold write
  split
  · simp_all [eq_comm]
  · simp_all [Nat.not_lt.mpr]

/-- The digits of a number start with no plus sign and no minus sign. -/
theorem splitSign_toDigits (k : Nat) :
    splitSign (Nat.toDigits 10 k) = (false, Nat.toDigits 10 k) := by
  have h : ∀ c ∈ Nat.toDigits 10 k, c.isDigit = true := fun c hc =>
    Nat.isDigit_of_mem_toDigits (by decide) (by decide) hc
  generalize Nat.toDigits 10 k = ds at h
  cases ds with
  | nil => rfl
  | cons c ds =>
    have hc := h c (by simp)
    unfold splitSign
    split
    · simp_all [Char.isDigit]
    · simp_all [Char.isDigit]
    · rfl

theorem splitSign_digits (n : Int) :
    splitSign (digits n) = (decide (n < 0), Nat.toDigits 10 n.natAbs) := by
  unfold digits
  split
  · simp_all [splitSign]
  · simp_all [splitSign_toDigits]

theorem isNumeral_digits (n : Int) : isNumeral (digits n) = true := by
  have h : ∀ c ∈ Nat.toDigits 10 n.natAbs, c.isDigit = true := fun c hc =>
    Nat.isDigit_of_mem_toDigits (by decide) (by decide) hc
  have hne := Nat.toDigits_ne_nil (n := n.natAbs) (b := 10)
  simpa [isNumeral, splitSign_digits, hne] using h

theorem value_digits (n : Int) : value (digits n) = n := by
  simp only [value, splitSign_digits, Nat.ofDigitChars_ten_toDigits]
  by_cases h : n < 0
  · rw [decide_eq_true h, if_pos rfl, Int.ofNat_natAbs_of_nonpos (Int.le_of_lt h), Int.neg_neg]
  · rw [decide_eq_false h, if_neg Bool.false_ne_true, Int.natAbs_of_nonneg (Int.not_lt.mp h)]

/-- What is written is read back. -/
theorem read?_of_write {n : Int} {text : String} (h : write n = .ok text) :
    read? text.toList = some n := by
  obtain ⟨hn, rfl⟩ := write_eq_ok_iff.mp h
  have hlen : (Nat.toDigits 10 n.natAbs).length ≤ maxDigits :=
    (Nat.length_toDigits_le_iff (by decide) (by decide)).mpr hn
  simp [read?, isNumeral_digits, splitSign_digits, hlen, value_digits]

end ConsLisp.Decimal
