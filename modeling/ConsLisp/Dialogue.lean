import ConsLisp.Interpreter
import ConsLisp.Text.Lines

/-!
# Dialogues

A dialogue writes a prompt, then for each line of input the printed result, a line
feed and the prompt again.  A division by zero or too many nested calls become the
result of their line, with a warning in the log.  Any other abort ends the dialogue
at that line.
-/

namespace ConsLisp

/-- The answer to an abort that a dialogue survives, with what the log says of it. -/
def Abort.answer? (line : List Char) (abort : Abort) : Option (String × Event) :=
  let answer := "<error: " ++ abort.message ++ ">"
  match abort with
  | .divisionByZero => some (answer, .divisionFailed (String.ofList line) abort.message)
  | .tooDeep => some (answer, .depthExhausted (String.ofList line))
  | _ => none

/-- Adds an event to the log of an interpreter. -/
def Interpreter.note (event : Event) : Interpreter → Interpreter
  | ⟨⟨store, log⟩, globals, initial⟩ => ⟨⟨store, log.note event⟩, globals, initial⟩

namespace Dialogue

/-- The answer to a line, without its line end. -/
def answer (limit : Nat) (line : List Char) (i : Interpreter) : Except Abort String × Interpreter :=
  match i.evalPrint limit line with
  | (.ok text, i) => (.ok text, i)
  | (.error abort, i) =>
    match abort.answer? line with
    | some (text, event) => (.ok text, i.note event)
    | none => (.error abort, i)

/-- Answers lines in order, each with the prompt after it, up to the first abort that
escapes; `written` is the output before. -/
def answerAll (limit : Nat) (prompt written : String) :
    List (List Char) → Interpreter → Option Abort × String × Interpreter
  | [], i => (none, written, i.note .sessionEnded)
  | line :: rest, i =>
    match answer limit (Text.chomp line) i with
    | (.error abort, i) => (some abort, written, i)
    | (.ok text, i) => answerAll limit prompt (written ++ text ++ "\n" ++ prompt) rest i

/-- How a dialogue ended, what it wrote, and what it reported. -/
structure Transcript where
  escaped : Option Abort
  output : String
  log : Log
  deriving Repr

/-- A new interpreter at the start of a dialogue, before the first prompt. -/
def opening (log : Log) : Interpreter :=
  (Interpreter.new log).note .sessionStarted

/-- A whole dialogue over an input, with a new interpreter. -/
def run (limit : Nat) (prompt : String) (log : Log) (input : List Char) : Transcript :=
  let (escaped, output, i) := answerAll limit prompt prompt (Text.lines input) (opening log)
  ⟨escaped, output, i.state.log⟩

end Dialogue

end ConsLisp
