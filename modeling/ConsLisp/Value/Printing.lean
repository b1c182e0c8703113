import ConsLisp.Action
import ConsLisp.Decimal
import ConsLisp.Text.Quoted

/-!
# Printed forms

Three ways to write a value as text:

* `print`, the form shown to a reader: lists in parentheses with a dot before an
  improper tail, functions without their insides;
* `describe`, the constructors of a value one by one;
* `outline`, one letter for each atom and parentheses for each pair.

Printing goes down into first fields by nested calls and along second fields by a
loop.  The number is how many nested calls are left; one is taken for a value and
one more for a list.
-/

namespace ConsLisp

namespace Value

/-- The letter of an atom in an outline. -/
def letter : Value → Char
  | nil => 'N'
  | num .. => 'I'
  | sym _ => 'S'
  | error .. => 'E'
  | primitive .. => 'F'
  | closure .. => 'L'
  | pair _ | foreign _ => '?'

end Value

namespace Store

mutual

/-- The printed form of a value. -/
def print (s : Store) : Nat → Value → Except Abort String
  | 0, _ => .error .tooDeep
  | depth + 1, v =>
    match v with
    | .nil => .ok "nil"
    | .num n _ => Decimal.write n
    | .sym name => .ok name
    | .error _ fault => .ok ("<error: " ++ fault.message ++ ">")
    | .pair _ => s.printList depth v
    | .primitive .. => .ok "<subr>"
    | .closure .. => .ok "<expr>"
    | .foreign object => .error (.foreign object.describe)

/-- The printed form of a pair. -/
def printList (s : Store) : Nat → Value → Except Abort String
  | 0, _ => .error .tooDeep
  | depth + 1, v => do
    let (texts, tail) ← s.fold (fun texts element => do
      return (← s.print depth element) :: texts) [] v
    -- A tail other than the empty list stands after a dot.
    let ending ← if tail = .nil then pure "" else do pure (" . " ++ (← s.print depth tail))
    return "(" ++ " ".intercalate texts.reverse ++ ending ++ ")"

end

/-- The constructors of a value, with the parameters and the body of a closure in
their printed form.  Both fields of a pair are described inside it, which takes two
nested calls for each. -/
def describe (s : Store) : Nat → Value → Except Abort String
  | 0, _ | 1, _ => .error .tooDeep
  | depth + 2, v =>
    match v with
    | .nil => .ok "nil"
    | .num n _ => Decimal.write n
    | .sym name => .ok ("Symbol(" ++ Text.quotedString name ++ ")")
    | .error _ fault => .ok ("LispError(" ++ Text.quotedString fault.message ++ ")")
    | .pair _ => do
      let car ← s.describe depth (s.car v)
      let cdr ← s.describe depth (s.cdr v)
      return "Cons(" ++ car ++ ", " ++ cdr ++ ")"
    | .primitive _ _ name => .ok ("Subr(" ++ name ++ ")")
    | .closure _ params body _ => do
      let params ← s.print depth params
      let body ← s.print depth body
      return "Expr(params=" ++ params ++ ", body=" ++ body ++ ")"
    | .foreign object => .ok object.describe

/-- The outline of a value, for at most `fuel` pairs inside each other. -/
def outlineWithin (s : Store) : Nat → Value → Except Abort String
  | fuel, v =>
    match v with
    | .foreign object => .error (.foreign object.describe)
    | .pair _ =>
      match fuel with
      | 0 => .error .endless
      | fuel + 1 => do
        let (texts, tail) ← s.fold (fun texts element => do
          return ("(" ++ (← s.outlineWithin fuel element)) :: texts) [] v
        let ending ← s.outlineWithin fuel tail
        return String.join texts.reverse ++ ending ++ "".pushn ')' texts.length
    | v => .ok (String.singleton v.letter)

/-- The outline of a value. -/
def outline (s : Store) (v : Value) : Except Abort String :=
  s.outlineWithin (s.size + 1) v

end Store

/-- The printed form of a value in the present store. -/
@[specialize] def Action.print {m : Type → Type} [Machine m] (depth : Nat) (v : Value) :
    m String :=
  ask (·.print depth v)

end ConsLisp
