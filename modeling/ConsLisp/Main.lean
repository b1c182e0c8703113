import ConsLisp.CommandLine

/-!
# The program

Runs a dialogue between standard input and standard output, and writes the log to
standard error.  Each line is answered as soon as it is complete.
-/

namespace ConsLisp

/-- The settings that the environment variables give. -/
def givenByVariables : IO GivenSettings := do
  let prompt ← IO.getEnv "MINILISP_PROMPT"
  let logLevel ← IO.getEnv "MINILISP_LOG_LEVEL"
  let recursionLimit ← IO.getEnv "MINILISP_RECURSION_LIMIT"
  return { prompt, logLevel, recursionLimit }

/-- Writes the events of the log, which is empty afterwards. -/
def flushLog : Interpreter → IO Interpreter
  | ⟨⟨store, log⟩, globals, initial⟩ => do
    for line in log.lines do
      IO.eprintln line
    return ⟨⟨store, { log with events := [] }⟩, globals, initial⟩

/-- Writes text at once. -/
def say (text : String) : IO Unit := do
  IO.print text
  (← IO.getStdout).flush

/-- Ends the program by an abort. -/
def failOnTerminal (abort : Abort) : IO UInt32 := do
  IO.eprintln abort.message
  return 1

/-- Answers the given lines; says whether an abort has escaped. -/
def answerLines (limit : Nat) (prompt : String) :
    List (List Char) → Interpreter → IO (Option Abort × Interpreter)
  | [], i => return (none, i)
  | line :: rest, i => do
    let (result, i) := Dialogue.answer limit (Text.chomp line) i
    let i ← flushLog i
    match result with
    | .error abort => return (some abort, i)
    | .ok text =>
      say (text ++ "\n" ++ prompt)
      answerLines limit prompt rest i

/-- Answers standard input line by line until it ends or an abort escapes. -/
partial def answerInput (limit : Nat) (prompt : String) (i : Interpreter) : IO UInt32 := do
  let chunk ← (← IO.getStdin).getLine
  if chunk.isEmpty then
    let _ ← flushLog (i.note .sessionEnded)
    return 0
  else
    let lines := Text.lines (Text.unifyLineEnds chunk.toList)
    match ← answerLines limit prompt lines i with
    | (some abort, _) => failOnTerminal abort
    | (none, i) => answerInput limit prompt i

/-- Runs a dialogue with the given settings. -/
def converseOnTerminal (settings : Settings) : IO UInt32 := do
  match CommandLine.obstacle? CommandLine.startCalls settings.limit with
  | some abort => failOnTerminal abort
  | none =>
    let log := ({ threshold := settings.threshold } : Log).note (.limitSet settings.limit)
    let i ← flushLog (Dialogue.opening log)
    match settings.prompt with
    | none => failOnTerminal .noPrompt
    | some prompt =>
      say prompt
      answerInput settings.limit prompt i

/-- Refuses a command line or a setting. -/
def refuseOnTerminal (message : String) : IO UInt32 := do
  for line in (CommandLine.refused message).report do
    IO.eprintln line
  return 2

end ConsLisp

open ConsLisp in
/-- The program on its command line. -/
def main (words : List String) : IO UInt32 := do
  match CommandLine.parse words with
  | .error e => refuseOnTerminal e.message
  | .ok .showHelp =>
    say CommandLine.helpText
    return 0
  | .ok .showVersion =>
    say CommandLine.versionText
    return 0
  | .ok (.converse options) =>
    match Settings.resolve options (← givenByVariables) with
    | .error e => refuseOnTerminal e.message
    | .ok settings => converseOnTerminal settings
