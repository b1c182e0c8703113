import ConsLisp.Action
import ConsLisp.Arithmetic

/-!
# Application of primitives

A primitive receives the list of its arguments.  A missing argument is `nil`, and
arguments beyond those it needs are ignored; only sum and product use them all.
-/

namespace ConsLisp

variable {m : Type → Type} [Machine m]

namespace Action

/-- A number, or the error that an operand is none. -/
@[inline] def number : Option Int → m Value
  | some n => return .num n
  | none => fail .wrongType

/-- The result of an operation on all arguments.  The first one that is no number
decides, so that the rest of the list is not looked at. -/
@[specialize] def total (operation : List Value → Option Int) (args : Value) : m Value := do
  if ← ask (·.hasElement (·.num?.isNone) args) then
    fail .wrongType
  else
    number (operation (← ask (·.elements args)))

end Action

open ConsLisp.Action

/-- Applies a primitive to a list of arguments. -/
@[specialize] def Primitive.applyTo (p : Primitive) (args : Value) : m Value := do
  let x ← Action.car args
  let y ← Action.car (← Action.cdr args)
  match p with
  | .car => Action.car x
  | .cdr => Action.cdr x
  | .cons => Action.cons x y
  | .eq => return .ofBool (x.isEq y)
  | .atom => return .ofBool (!(← Machine.look (·.isPair x)))
  | .numberp => return .ofBool x.num?.isSome
  | .symbolp => return .ofBool (x matches .sym _)
  | .add => total Arithmetic.sum? args
  | .mul => total Arithmetic.product? args
  | .sub => number (← ask fun _ => Arithmetic.Operation.difference.onValues x y)
  | .div => number (← ask fun _ => Arithmetic.Operation.quotient.onValues x y)
  | .mod => number (← ask fun _ => Arithmetic.Operation.remainder.onValues x y)

end ConsLisp
