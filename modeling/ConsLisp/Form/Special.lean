/-!
# Special forms

The five names whose lists are evaluated by rules of their own.
-/

namespace ConsLisp

/-- A form with a rule of its own. -/
inductive Special where
  /-- `(quote x)` is `x` itself. -/
  | quote
  /-- `(if c x y)` is `y` if `c` is `nil`, and `x` otherwise. -/
  | choice
  /-- `(lambda params body...)` is a closure over the environment. -/
  | lambda
  /-- `(defun name params body...)` binds a closure in the global frame. -/
  | define
  /-- `(setq name x)` gives a name the value of `x`. -/
  | assign
  deriving DecidableEq, Repr

/-- The special form of a name. -/
def Special.ofName? : String → Option Special
  | "quote" => some quote
  | "if" => some choice
  | "lambda" => some lambda
  | "defun" => some define
  | "setq" => some assign
  | _ => none

end ConsLisp
