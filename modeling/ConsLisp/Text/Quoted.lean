import ConsLisp.Text.Printable

/-!
# Quoted text

Text between quotes, for messages that show a raw setting, a line of input or a
name.  The single quote encloses it unless the text holds a single quote and no
double quote.  Backslashes and the enclosing quote are escaped by a backslash, and
unprintable characters are written by their code in the shortest of three widths.
-/

namespace ConsLisp.Text

/-- The quote that encloses a text. -/
def enclosingQuote (text : List Char) : Char :=
  if text.contains '\'' && !text.contains '"' then '"' else '\''

/-- A number in lower-case hexadecimal digits, with zeros in front up to a width. -/
def hex (width n : Nat) : List Char :=
  let digits := Nat.toDigits 16 n
  List.replicate (width - digits.length) '0' ++ digits

/-- A character by its code. -/
def escapeCode (c : Char) : List Char :=
  if c.toNat ≤ 0xff then '\\' :: 'x' :: hex 2 c.toNat
  else if c.toNat ≤ 0xffff then '\\' :: 'u' :: hex 4 c.toNat
  else '\\' :: 'U' :: hex 8 c.toNat

/-- A character as it stands between quotes. -/
def escape (quote c : Char) : List Char :=
  if c = quote ∨ c = '\\' then ['\\', c]
  else if c = '\n' then ['\\', 'n']
  else if c = '\r' then ['\\', 'r']
  else if c = '\t' then ['\\', 't']
  else if isPrintable c then [c]
  else escapeCode c

/-- A text between quotes. -/
def quoted (text : List Char) : List Char :=
  let quote := enclosingQuote text
  quote :: text.flatMap (escape quote) ++ [quote]

/-- A string between quotes. -/
def quotedString (text : String) : String :=
  String.ofList (quoted text.toList)

example : quoted "it's".toList = "\"it's\"".toList := by decide

example : quoted "a\\b\n".toList = "'a\\\\b\\n'".toList := by decide

example : quoted "'\"".toList = "'\\'\"'".toList := by decide

example : quoted "\x07".toList = "'\\x07'".toList := by decide

end ConsLisp.Text
