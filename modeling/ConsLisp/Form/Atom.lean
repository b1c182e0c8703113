import ConsLisp.Decimal
import ConsLisp.Text.Blank
import ConsLisp.Value

/-!
# Atoms

An atom is a longest run of characters that are no delimiters.  It is a number if it
is a numeral, the empty list if it is `nil`, and otherwise the symbol of that name.
A numeral with too many digits is a symbol like any other.
-/

namespace ConsLisp.Atom

/-- A character that ends an atom. -/
def isDelimiter (c : Char) : Bool :=
  c == '(' || c == ')' || c == '\'' || Text.isBlank c

/-- The longest atom at the front of a text, and the rest. -/
def split (text : List Char) : List Char × List Char :=
  (text.takeWhile (!isDelimiter ·), text.dropWhile (!isDelimiter ·))

/-- The value that an atom denotes. -/
def denote (token : List Char) : Value :=
  match Decimal.read? token with
  | some n => .num n
  | none => .ofName (String.ofList token)

/-- Splitting loses no character. -/
theorem split_append (text : List Char) : (split text).1 ++ (split text).2 = text :=
  List.takeWhile_append_dropWhile

/-- The rest is no longer than the text. -/
theorem length_split_le (text : List Char) : (split text).2.length ≤ text.length :=
  (List.dropWhile_sublist _).length_le

example : denote "+07".toList = .num 7 ∧ denote "nil".toList = .nil := by decide

example : denote "1+".toList = .sym "1+" ∧ denote "-".toList = .sym "-" := by decide

end ConsLisp.Atom
