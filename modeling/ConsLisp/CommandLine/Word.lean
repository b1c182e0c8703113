import ConsLisp.Text.Digit

/-!
# The words of a command line

What a word is by itself, whatever stands beside it: an option, with its value or
without, a word that can be the value of an option, the separator, or none of these.
A long name may be cut short as long as one option alone begins so, and the letter
`h` may stand directly before more letters.

No name begins another one, so that a full name is never ambiguous.
-/

namespace ConsLisp.CommandLine

/-- An option with a value. -/
inductive Setting where
  | prompt | logLevel | recursionLimit
  deriving DecidableEq, Repr

/-- The option as it is written. -/
def Setting.name : Setting → String
  | prompt => "--prompt"
  | logLevel => "--log-level"
  | recursionLimit => "--recursion-limit"

/-- An option: a setting, or a question that ends the reading of the command line. -/
inductive Switch where
  | help
  | setting (s : Setting)
  | version
  deriving DecidableEq, Repr

/-- All options, in the order in which they are listed. -/
def Switch.all : List Switch :=
  [help, setting .prompt, setting .logLevel, setting .recursionLimit, version]

/-- The option as it is written in full. -/
def Switch.name : Switch → String
  | help => "--help"
  | setting s => s.name
  | version => "--version"

/-- The option as messages call it, with all its spellings. -/
def Switch.title : Switch → String
  | help => "-h/--help"
  | s => s.name

/-- The options whose name begins so. -/
def Switch.startingWith (start : List Char) : List Switch :=
  all.filter fun s => start.isPrefixOf s.name.toList

theorem Switch.startingWith_name (s : Switch) : startingWith s.name.toList = [s] := by
  match s with
  | help | version | setting .prompt | setting .logLevel | setting .recursionLimit =>
    decide +kernel

/-- Does the word look like a negative number? -/
def isNegativeNumber (word : List Char) : Bool :=
  let isDigit (c : Char) := (Text.digitValue? c).isSome
  match word with
  | '-' :: rest =>
    -- One line feed at the very end is overlooked.
    let rest := if rest.getLast? = some '\n' then rest.dropLast else rest
    let (whole, fraction) := rest.span isDigit
    match fraction with
    | [] => !whole.isEmpty
    | '.' :: digits => !digits.isEmpty && digits.all isDigit
    | _ => false
  | _ => false

/-- The word after which no word is an option. -/
def separatorText : String := "--"

/-- What a word is by itself. -/
inductive Word where
  /-- An option and nothing else. -/
  | option (s : Switch)
  /-- An option together with a value. -/
  | optionTo (s : Switch) (value : String)
  /-- From here on no word is an option. -/
  | separator
  /-- A word that can be the value of an option. -/
  | plain
  /-- A word that looks like an option but is none. -/
  | unknown
  /-- The beginning of several options. -/
  | ambiguous (candidates : List Switch)
  deriving DecidableEq, Repr

/-- A word without a long name: one that looks like an option is none, unless it is a
number or has a blank in it. -/
def Word.nameless (word : List Char) : Word :=
  if isNegativeNumber word || word.contains ' ' then plain else unknown

/-- A word with a long name, or the beginning of one, and perhaps an equals sign and a
value after it. -/
def Word.ofLong (word : List Char) : Word :=
  let (name, rest) := word.span (· != '=')
  match Switch.startingWith name with
  | [] => nameless word
  | [s] =>
    match rest with
    | [] => option s
    | _ :: value => optionTo s (String.ofList value)
  | candidates => ambiguous candidates

/-- The request for help by its letter, with the text directly after the letter: it may
be repeated, and what remains then is a value. -/
def Word.ofHelpLetter (value : List Char) : Word :=
  match value, value.dropWhile (· == 'h') with
  | _ :: _, [] => option .help
  | _, rest => optionTo .help (String.ofList rest)

/-- What a word is by itself. -/
def Word.ofString (word : String) : Word :=
  if word = separatorText then separator
  else
    match word.toList with
    | '-' :: '-' :: name => ofLong ('-' :: '-' :: name)
    | ['-', 'h'] => option .help
    | '-' :: 'h' :: '=' :: value => ofHelpLetter value
    | '-' :: 'h' :: value => ofHelpLetter value
    | '-' :: c :: rest => nameless ('-' :: c :: rest)
    | _ => plain

/-- An option written in full is that option. -/
theorem Word.ofString_name (s : Switch) : ofString s.name = option s := by
  match s with
  | .help | .version | .setting .prompt | .setting .logLevel | .setting .recursionLimit =>
    decide +kernel

end ConsLisp.CommandLine
