import ConsLisp.Action
import ConsLisp.Form.Atom

/-!
# Reading forms

A form is a value used as code.  One is read from the front of a text:

* an atom, which ends before the next delimiter;
* `(` forms `)`, a list;
* `'` form, short for the list of `quote` and that form.

Blanks may stand before every form and before a closing parenthesis.  What cannot
be read gives an error value and leaves no text.  A list hands on the error of an
element; a quote encloses it.

The first argument is the number of nested calls that are left.
-/

namespace ConsLisp.Form

variable {m : Type → Type} [Machine m]

open ConsLisp.Action Machine

/-- An error value for a text that cannot be read, and no rest. -/
@[specialize] def refuse (fault : Fault) : m (Value × List Char) := do
  Machine.note (.readFailed fault)
  let error ← fail fault
  return (error, [])

/-- The atom at the front of a text, and the rest. -/
def atomAt (text : List Char) : Value × List Char :=
  let (token, rest) := Atom.split text
  (Atom.denote token, rest)

/-- The object for an atom that has been read: a new one for a number that is not
shared. -/
@[specialize] def objectOf (atom : Value) : m Value :=
  match atom.unshared? with
  | some n => Machine.change (.number n)
  | none => return atom

/-- Reads forms up to the closing parenthesis and puts them in front of `done`, which
is then reversed.  At most `fuel` forms are read. -/
@[specialize] def readEach (readOne : List Char → m (Value × List Char)) :
    Nat → Value → List Char → m (Value × List Char)
  | fuel, done, text =>
    match Text.skipBlanks text with
    | [] => refuse .unfinishedParenthesis
    | ')' :: rest => do
      return (← reverse done, rest)
    | text =>
      match fuel with
      | 0 => throw .endless
      | fuel + 1 => do
        let (form, rest) ← readOne text
        if form.isError then
          return (form, rest)
        else
          let done ← cons form done
          readEach readOne fuel done rest

mutual

/-- Reads one form from the front of a text. -/
@[specialize] def readForm : Nat → List Char → m (Value × List Char)
  | 0, _ => throw .tooDeep
  | depth + 1, text => nested (.read text) Prod.fst do
    match Text.skipBlanks text with
    | [] => refuse .emptyInput
    | ')' :: rest => refuse (.strayClose (String.ofList (')' :: rest)))
    | '(' :: rest => readUntilClose depth rest
    | '\'' :: rest => do
      let (form, rest) ← readForm depth rest
      let quoted ← cons (.sym "quote") (← cons form .nil)
      return (quoted, rest)
    | text => return (← objectOf (atomAt text).1, (atomAt text).2)

/-- Reads the forms of a list whose opening parenthesis has been read.  Each form takes
at least one character, so the length of the text bounds their number. -/
@[specialize] def readUntilClose : Nat → List Char → m (Value × List Char)
  | 0, _ => throw .tooDeep
  | depth + 1, text => nested (.readUntilClose text) Prod.fst do
    readEach (fun text => readForm depth text) text.length .nil text

end

/-- Reads one form in a session. -/
def read (depth : Nat) (text : List Char) : Action (Value × List Char) :=
  readForm depth text

end ConsLisp.Form
