/-!
# Capital letters

Names of settings are compared in capitals.  Only characters whose capital form is
written in ASCII letters can become part of such a name: the small letters, the
dotless i, the long s, the sharp s and the Latin ligatures.  All others are left
as they are, which keeps them outside every name.
-/

namespace ConsLisp.Text

/-- The capital form of a character, where that form is ASCII. -/
def capital (c : Char) : List Char :=
  match c with
  | 'ı' => ['I']
  | 'ſ' => ['S']
  | 'ß' => ['S', 'S']
  | 'ﬀ' => ['F', 'F']
  | 'ﬁ' => ['F', 'I']
  | 'ﬂ' => ['F', 'L']
  | 'ﬃ' => ['F', 'F', 'I']
  | 'ﬄ' => ['F', 'F', 'L']
  | 'ﬅ' => ['S', 'T']
  | 'ﬆ' => ['S', 'T']
  | c => [c.toUpper]

/-- A text in capitals. -/
def capitals (text : List Char) : List Char :=
  text.flatMap capital

example : capitals "ınfo".toList = "INFO".toList := by decide

end ConsLisp.Text
