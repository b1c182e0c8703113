import ConsLisp.Abort
import ConsLisp.Value

/-!
# Arithmetic

The operations on numbers, which are integers of any size.  Operands that are no
numbers give no answer.  A quotient is rounded toward zero, and a remainder has the
sign of the dividend.
-/

namespace ConsLisp.Arithmetic

/-- The sum of values that are all numbers. -/
def sum? (values : List Value) : Option Int :=
  (values.mapM Value.num?).map (·.foldl (· + ·) 0)

/-- The product of values that are all numbers. -/
def product? (values : List Value) : Option Int :=
  (values.mapM Value.num?).map (·.foldl (· * ·) 1)

/-- An operation on two numbers. -/
inductive Operation where
  | difference | quotient | remainder
  deriving DecidableEq, Repr

/-- The quotient over a number that is not zero: the quotient of the sizes, with a minus sign if the
signs differ. -/
def quotientOf (x y : Int) : Int :=
  let q : Int := (x.natAbs / y.natAbs : Nat)
  if x < 0 ↔ y < 0 then q else -q

/-- What the quotient leaves of the dividend. -/
def remainderOf (x y : Int) : Int :=
  x - y * quotientOf x y

/-- The result of an operation on two numbers; there is none over zero. -/
def Operation.result (op : Operation) (x y : Int) : Except Abort Int :=
  match op with
  | .difference => .ok (x - y)
  | .quotient => if y = 0 then .error .divisionByZero else .ok (quotientOf x y)
  | .remainder => if y = 0 then .error .divisionByZero else .ok (remainderOf x y)

/-- The result of an operation on two values; `none` if one is no number. -/
def Operation.onValues (op : Operation) (x y : Value) : Except Abort (Option Int) :=
  match x, y with
  | .num x _, .num y _ => (op.result x y).map some
  | _, _ => .ok none

example : Operation.quotient.result (-7) 2 = .ok (-3) := rfl

example : Operation.remainder.result (-7) 2 = .ok (-1) := rfl

example : Operation.quotient.onValues .nil (.num 0) = .ok none := rfl

end ConsLisp.Arithmetic
