/-!
# Faults

A fault is the cause of an error value.  Errors are ordinary values that flow
through evaluation; `Fault.message` is the only place where their wording stands.
-/

namespace ConsLisp

/-- Why an expression has no proper value. -/
inductive Fault where
  /-- There is nothing to read. -/
  | emptyInput
  /-- The text starts with a closing parenthesis. -/
  | strayClose (text : String)
  /-- The text ends inside a list. -/
  | unfinishedParenthesis
  /-- A name has no binding. -/
  | unbound (name : String)
  /-- The printed value stands where a function is needed. -/
  | notFunction (printed : String)
  /-- The printed value is no form. -/
  | notEvaluable (printed : String)
  /-- An operand of arithmetic is no number. -/
  | wrongType
  /-- A fault stated by the host. -/
  | stated (message : String)
  deriving DecidableEq, Repr

/-- The message an error value shows. -/
def Fault.message : Fault → String
  | emptyInput => "empty input"
  | strayClose text => "invalid syntax: " ++ text
  | unfinishedParenthesis => "unfinished parenthesis"
  | unbound name => name ++ " has no value"
  | notFunction printed => printed ++ " is not function"
  | notEvaluable printed => printed ++ " is not evaluable"
  | wrongType => "wrong type"
  | stated message => message

end ConsLisp
