import ConsLisp.Decimal
import ConsLisp.Text.Blank
import ConsLisp.Text.Digit

/-!
# Numbers in settings

A number in a setting may be surrounded by white space, its digits may be those of
any script, and single underscores may stand between digits.  The four separators
that precede the plain blank are no white space here.  As elsewhere, at most
`Decimal.maxDigits` digits are read.
-/

namespace ConsLisp.Decimal

/-- White space that may surround a number. -/
def isSurrounding (c : Char) : Bool :=
  Text.isSpace c && !(0x1c ≤ c.toNat && c.toNat ≤ 0x1f)

/-- The values of digits with single underscores between them.  `needed` says that
a digit has to come next. -/
def groupedDigits? (needed : Bool) : List Char → Option (List Nat)
  | [] => if needed then none else some []
  | '_' :: rest => if needed then none else groupedDigits? true rest
  | c :: rest => do
    let d ← Text.digitValue? c
    let ds ← groupedDigits? false rest
    return d :: ds

/-- The number that a setting is, if it is one. -/
def readLiberal? (text : List Char) : Option Int := do
  let (negative, digits) := splitSign (Text.trim isSurrounding text)
  let ds ← groupedDigits? true digits
  if ds.length ≤ maxDigits then
    let n : Nat := ds.foldl (fun n d => 10 * n + d) 0
    return if negative then -(n : Int) else n
  else none

example : readLiberal? " +1_000 ".toList = some 1000 := by decide

example : readLiberal? "٣５".toList = some 35 := by decide

example : readLiberal? "1__0".toList = none ∧ readLiberal? "_1".toList = none := by decide

example : readLiberal? "- 1".toList = none ∧ readLiberal? "".toList = none := by decide

end ConsLisp.Decimal
