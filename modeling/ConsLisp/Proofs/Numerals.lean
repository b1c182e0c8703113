import ConsLisp.Proofs.RoundTrip

/-!
# Numbers and their texts

A number is written in decimal digits, and read back from what is written.  A token is a number
exactly if it is a numeral; its value is then the decimal one, whatever zeros stand in front.  All
of this up to `Decimal.maxDigits` digits: a numeral with more of them denotes a symbol.

Main statements: numbers and their texts (`write_and_read`), and a numeral with one digit too many
(`denote_long_numeral`).
-/

namespace ConsLisp

namespace Decimal

/-- The digits of a number are its decimal text. -/
theorem ofList_digits (n : Int) : String.ofList (digits n) = toString n := by
  unfold digits
  cases n with
  | ofNat m =>
    have hsign : ¬Int.ofNat m < 0 := Int.not_lt.mpr (Int.natCast_nonneg m)
    rw [if_neg hsign]
    rfl
  | negSucc m =>
    rw [if_pos (Int.negSucc_lt_zero m)]
    have hdigits : String.ofList (['-'] ++ Nat.toDigits 10 (m + 1)) =
        "-" ++ String.ofList (Nat.toDigits 10 (m + 1)) := String.ofList_append
    exact hdigits

end Decimal

namespace Grammar

/-- The decimal value of digits after a sign. -/
def signedValue (sign digits : List Char) : Int :=
  if sign = ['-'] then -(Nat.ofDigitChars 10 digits 0 : Int)
  else (Nat.ofDigitChars 10 digits 0 : Int)

/-- A token is a number exactly if it is a numeral. -/
theorem num?_denote_eq_some_iff (token : List Char) (n : Int) :
    (Atom.denote token).num? = some n ↔ ∃ sign digits, IsNumeral sign digits ∧
      token = sign ++ digits ∧ n = signedValue sign digits := by
  constructor
  · intro hnumber
    obtain ⟨serial, hdenote⟩ := Value.num?_eq_some_iff.mp hnumber
    have hdenotes := AtomDenotes.denote token
    rw [hdenote] at hdenotes
    cases hdenotes with
    | number h => exact ⟨_, _, h, rfl, rfl⟩
  · rintro ⟨sign, digits, h, rfl, rfl⟩
    rw [← (@AtomDenotes.number sign digits none h).plain_eq]
    rfl

/-- A numeral of more digits is the symbol of that name. -/
theorem denote_of_long {sign digits : List Char} (hsigned : sign = [] ∨ sign = ['+'] ∨ sign = ['-'])
    (hne : digits ≠ []) (hdecimal : ∀ c ∈ digits, c.isDigit = true) (hlong : 4300 < digits.length) :
    Atom.denote (sign ++ digits) = .sym (String.ofList (sign ++ digits)) := by
  have hread : Decimal.read? (sign ++ digits) = none := by
    simp [Decimal.read?, splitSign_of_decimal hsigned hne hdecimal, Decimal.maxDigits, hlong]
  have hnil : sign ++ digits ≠ ['n', 'i', 'l'] := by
    intro heq
    have hlength := congrArg List.length heq
    rw [List.length_append] at hlength
    simp only [List.length_cons, List.length_nil] at hlength
    omega
  have hname : String.ofList (sign ++ digits) ≠ "nil" := fun heq =>
    hnil (by simpa using congrArg String.toList heq)
  rw [Atom.denote, hread]
  exact if_neg hname

/-- The object that is made for a number is this number, and no pair changes. -/
theorem exists_objectOf (s : Store) (n : Int) : ∃ serial,
    (s.objectOf (.num n)).1 = .num n serial ∧ (s.objectOf (.num n)).2.cells = s.cells := by
  unfold Store.objectOf
  split
  · next m hm =>
    obtain rfl : n = m := by simpa using (Value.unshared?_eq_some_iff.mp hm).1
    exact ⟨_, rfl, rfl⟩
  · exact ⟨_, rfl, rfl⟩

/-- Every number of at most 4300 digits is written as its decimal text, whatever object it is, and
that text is read back as the number, with nothing left.  Every token is a number exactly if it is
a numeral of at most 4300 digits, and then it is the number of that decimal value.  A numeral of
more digits is the symbol of that name. -/
theorem write_and_read :
    (∀ n : Int, (Nat.toDigits 10 n.natAbs).length ≤ 4300 →
      (∀ (s : Store) (depth : Nat) (serial : Option Nat),
        s.print (depth + 1) (.num n serial) = .ok (toString n)) ∧
      ∀ (depth : Nat) (state : State), ∃ serial after,
        Form.read (depth + 1) (toString n).toList state = .ok (.num n serial, []) after ∧
          after.store.cells = state.store.cells) ∧
    (∀ (token : List Char) (n : Int), (Atom.denote token).num? = some n ↔
      ∃ sign digits, IsNumeral sign digits ∧ token = sign ++ digits ∧
        n = signedValue sign digits) ∧
    ∀ sign digits : List Char, sign = [] ∨ sign = ['+'] ∨ sign = ['-'] → digits ≠ [] →
      (∀ c ∈ digits, c.isDigit = true) → 4300 < digits.length →
      Atom.denote (sign ++ digits) = .sym (String.ofList (sign ++ digits)) := by
  refine ⟨fun n hdigits => ?_, num?_denote_eq_some_iff, fun sign digits => denote_of_long⟩
  have hwrite := write_of_length_le hdigits
  rw [Decimal.ofList_digits] at hwrite
  have hdenote : Atom.denote (toString n).toList = .num n := by
    rw [Atom.denote, Decimal.read?_of_write hwrite]
  refine ⟨fun s depth serial => by rw [Store.print, hwrite], fun depth state => ?_⟩
  rw [← Decimal.ofList_digits, String.toList_ofList] at hdenote ⊢
  have hempty : Blanks [] := by simp [Blanks]
  have hends : EndsAtom [] := by simp [EndsAtom]
  have hread := read_token hempty (digits_ne_nil n) (fun c => isDelimiter_of_mem_digits) hends
    depth state
  obtain ⟨serial, hobject, hcells⟩ := exists_objectOf state.store n
  rw [List.nil_append, List.append_nil, hdenote, hobject] at hread
  exact ⟨serial, _, hread, hcells⟩

/-- A negative number of twenty digits is written and read back, and one of 4301 digits is a
symbol. -/
theorem write_and_read_negative :
    (Nat.toDigits 10 (-18446744073709551616 : Int).natAbs).length ≤ 4300 ∧
      ({} : Store).print 1 (.num (-18446744073709551616)) = .ok "-18446744073709551616" ∧
      (∃ serial after, Form.read 1 "-18446744073709551616".toList {} =
        .ok (.num (-18446744073709551616) serial, []) after ∧ after.store.cells = #[]) ∧
      Atom.denote ('-' :: List.replicate 4301 '1') =
        .sym (String.ofList ('-' :: List.replicate 4301 '1')) := by
  have hdigits : (Nat.toDigits 10 (-18446744073709551616 : Int).natAbs).length ≤ 4300 := by
    decide +kernel
  have htext : toString (-18446744073709551616 : Int) = "-18446744073709551616" := by
    decide +kernel
  obtain ⟨hnumber, -, hlong⟩ := write_and_read
  obtain ⟨hprint, hread⟩ := hnumber (-18446744073709551616) hdigits
  rw [htext] at hread
  refine ⟨hdigits, htext ▸ hprint {} 0 none, hread 0 {}, ?_⟩
  have hne : List.replicate 4301 '1' ≠ [] := List.cons_ne_nil _ _
  refine hlong ['-'] (List.replicate 4301 '1') (.inr (.inr rfl)) hne (fun c hmem => ?_) ?_
  · rw [List.eq_of_mem_replicate hmem]
    decide
  · rw [List.length_replicate]
    exact Nat.lt_succ_self 4300

/-- Beyond 4300 digits, a numeral is a symbol, and a number is not written. -/
theorem denote_long_numeral :
    let token := '1' :: List.replicate 4300 '0'
    (∀ c ∈ token, c.isDigit = true) ∧ Atom.denote token = .sym (String.ofList token) ∧
      ∀ depth, ({} : Store).print (depth + 1) (.num Decimal.bound) = .error .numberTooLong := by
  intro token
  have hdecimal : ∀ c ∈ token, c.isDigit = true := by
    intro c hmem
    rcases List.mem_cons.mp hmem with rfl | hmem
    · decide
    · rw [List.eq_of_mem_replicate hmem]
      decide
  have hlong : 4300 < token.length := by
    rw [List.length_cons, List.length_replicate]
    exact Nat.lt_succ_self 4300
  refine ⟨hdecimal, @denote_of_long [] token (.inl rfl) (List.cons_ne_nil _ _) hdecimal hlong, ?_⟩
  intro depth
  rw [Store.print, Decimal.write, Int.natAbs_natCast, if_neg (Nat.lt_irrefl _)]

end Grammar

end ConsLisp
