/-!
# Aborts

What ends an evaluation from outside the language.  An abort is no value: it
passes every form and every list under construction, and leaves the changes made
so far in place.
-/

namespace ConsLisp

/-- What ends an evaluation from outside the language. -/
inductive Abort where
  /-- Another nested call would pass the nesting limit. -/
  | tooDeep
  /-- A quotient or remainder by zero was asked for. -/
  | divisionByZero
  /-- A number has more digits than may be written. -/
  | numberTooLong
  /-- A host object stands where a value is needed. -/
  | foreign (description : String)
  /-- A chain of cells has no end. -/
  | endless
  /-- A nesting limit is larger than the host can count. -/
  | limitOutOfRange
  /-- A prompt is due, and the settings hold none. -/
  | noPrompt
  deriving DecidableEq, Repr

/-- The message an abort is reported with. -/
def Abort.message : Abort → String
  | tooDeep => "maximum recursion depth exceeded"
  | divisionByZero => "integer division or modulo by zero"
  | numberTooLong =>
    "Exceeds the limit (4300 digits) for integer string conversion; " ++
      "use sys.set_int_max_str_digits() to increase the limit"
  | foreign description => "Not a Lisp value: " ++ description
  | endless => "endless chain"
  | limitOutOfRange => "Python int too large to convert to C int"
  | noPrompt => "string argument expected, got 'list'"

end ConsLisp
