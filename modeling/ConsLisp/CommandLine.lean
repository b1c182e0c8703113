import ConsLisp.CommandLine.Word
import ConsLisp.Dialogue
import ConsLisp.Settings

/-!
# The command line

The words after the program's name are options with a value, as `--name value` or
`--name=value`, and the questions `--help` and `--version`.  The last value of an
option counts.  Words that are none of these are refused at the end, unless an option
without its value or a question comes first; a word that could be several options is
refused before all else.  The word `--` separates the options from other words and is
never a value: `--name=--` gives an option without a value.

What a word is by itself is said in `ConsLisp.CommandLine.Word`.
-/

namespace ConsLisp.CommandLine

/-- Gives an option, with a value or without. -/
def Setting.put (setting : Setting) (value : Option String) (given : Options) : Options :=
  match setting with
  | prompt => { given with prompt := some value }
  | logLevel => { given with logLevel := some value }
  | recursionLimit => { given with recursionLimit := some value }

/-- Why a command line is refused. -/
inductive UsageError where
  | expectedArgument (setting : Setting)
  | ignoredArgument (question : Switch) (value : String)
  | ambiguous (word : String) (candidates : List Switch)
  | unrecognized (words : List String)
  deriving DecidableEq, Repr

/-- The message a refused command line is reported with. -/
def UsageError.message : UsageError → String
  | expectedArgument setting => "argument " ++ setting.name ++ ": expected one argument"
  | ignoredArgument question value =>
    "argument " ++ question.title ++ ": ignored explicit argument " ++ Text.quotedString value
  | ambiguous word candidates =>
    "ambiguous option: " ++ word ++ " could match " ++
      ", ".intercalate (candidates.map (·.name))
  | unrecognized words => "unrecognized arguments: " ++ " ".intercalate words

/-- What a command line asks for. -/
inductive Request where
  | showHelp
  | showVersion
  | converse (options : Options)
  deriving DecidableEq, Repr

/-- Goes through the words from left to right, with the options given so far and the
words that are none, last one first. -/
def parseFrom (given : Options) (extra : List String) :
    List String → Except UsageError Request
  | [] =>
    if extra.isEmpty then .ok (.converse given) else .error (.unrecognized extra.reverse)
  | word :: rest =>
    match Word.ofString word with
    | .option .help => .ok .showHelp
    | .option .version => .ok .showVersion
    | .option (.setting s) =>
      match rest with
      | [] => .error (.expectedArgument s)
      | value :: rest =>
        if Word.ofString value = .plain then parseFrom (s.put (some value) given) extra rest
        else .error (.expectedArgument s)
    | .optionTo (.setting s) value =>
      let value? := if value = separatorText then none else some value
      parseFrom (s.put value? given) extra rest
    | .optionTo question value => .error (.ignoredArgument question value)
    -- Words after the separator are no options, and no other words are expected.
    | .separator => .error (.unrecognized (extra.reverse ++ word :: rest))
    | .plain | .unknown => parseFrom given (word :: extra) rest
    | .ambiguous candidates => .error (.ambiguous word candidates)

/-- The error of a word that could be several options. -/
def ambiguity? (word : String) : Option UsageError :=
  match Word.ofString word with
  | .ambiguous candidates => some (.ambiguous word candidates)
  | _ => none

/-- What the words of a command line ask for.  An ambiguous word before the separator is
refused whatever comes before it. -/
def parse (words : List String) : Except UsageError Request :=
  match (words.takeWhile (· ≠ separatorText)).findSome? ambiguity? with
  | some e => .error e
  | none => parseFrom {} [] words

/-- The largest limit of nested calls that can be set. -/
def maxLimit : Nat := 2147483647

/-- What keeps a limit from being put into effect: it can be too large to be counted
to, or too small for the nested calls that the run makes before its first prompt. -/
def obstacle? (start limit : Nat) : Option Abort :=
  if maxLimit < limit then some .limitOutOfRange
  else if limit ≤ start then some .tooDeep
  else none

/-- How a run of the program ends. -/
inductive Ending where
  | exit (code : Nat)
  | escaped (abort : Abort)
  deriving DecidableEq, Repr

/-- What a run of the program shows. -/
structure Outcome where
  ending : Ending
  output : String
  report : List String
  deriving Repr

/-- The name under which the program reports. -/
def programName : String := "minilisp"

/-- The answer to a request for the version. -/
def versionText : String := programName ++ " 0.1.0\n"

/-- The answer to a request for help. -/
def helpText : String :=
  "usage: minilisp [-h] [--prompt PROMPT] [--log-level LOG_LEVEL]\n" ++
  "                [--recursion-limit RECURSION_LIMIT] [--version]\n" ++
  "\n" ++
  "Read one s-expression per line from stdin, print its value.\n" ++
  "\n" ++
  "options:\n" ++
  "  -h, --help            show this help message and exit\n" ++
  "  --prompt PROMPT       prompt string (default: $MINILISP_PROMPT or '> ')\n" ++
  "  --log-level LOG_LEVEL\n" ++
  "                        logging level name (default: $MINILISP_LOG_LEVEL or\n" ++
  "                        WARNING)\n" ++
  "  --recursion-limit RECURSION_LIMIT\n" ++
  "                        host recursion limit for deeply recursive programs\n" ++
  "                        (default: $MINILISP_RECURSION_LIMIT or 10000)\n" ++
  "  --version             show program's version number and exit\n"

/-- A run that is refused with a message.  The usage lines, which are the same for every
message and stand before it, are left out. -/
def refused (message : String) : Outcome :=
  ⟨.exit 2, "", [programName ++ ": error: " ++ message]⟩

/-- The dialogue that settings ask for, after `start` nested calls. -/
def converse (start : Nat) (settings : Settings) (input : List Char) : Outcome :=
  match obstacle? start settings.limit with
  | some abort => ⟨.escaped abort, "", []⟩
  | none =>
    let log := ({ threshold := settings.threshold } : Log).note (.limitSet settings.limit)
    match settings.prompt with
    | none => ⟨.escaped .noPrompt, "", (Dialogue.opening log).state.log.lines⟩
    | some prompt =>
      let transcript := Dialogue.run settings.limit prompt log (Text.unifyLineEnds input)
      let ending := match transcript.escaped with
        | none => .exit 0
        | some abort => .escaped abort
      ⟨ending, transcript.output, transcript.log.lines⟩

/-- A run of the program on its words, the variables and the standard input.  How many
nested calls it makes before its first prompt depends on the way it is started and on the
threshold of the log, since a detail that is kept is written. -/
def runFrom (start : Level → Nat) (words : List String) (vars : GivenSettings)
    (input : List Char) : Outcome :=
  match parse words with
  | .error e => refused e.message
  | .ok .showHelp => ⟨.exit 0, helpText, []⟩
  | .ok .showVersion => ⟨.exit 0, versionText, []⟩
  | .ok (.converse options) =>
    match Settings.resolve options vars with
    | .error e => refused e.message
    | .ok settings => converse (start settings.threshold) settings input

/-- An estimate of the nested calls before the first prompt of a run that is started from
a shell.  How runs begin is proved for any number of them. -/
def startCalls : Nat := 15

/-- A run that is started from a shell. -/
def run (words : List String) (vars : GivenSettings) (input : List Char) : Outcome :=
  runFrom (fun _ => startCalls) words vars input

end ConsLisp.CommandLine
