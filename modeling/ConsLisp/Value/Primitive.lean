/-!
# Names of the primitives

The twelve built-in functions.  What they compute is in `ConsLisp.Arithmetic` and
`ConsLisp.Application`; here are only their names.
-/

namespace ConsLisp

/-- A built-in function. -/
inductive Primitive where
  | car | cdr | cons | eq | atom | numberp | symbolp
  | add | mul | sub | div | mod
  deriving DecidableEq, Repr

namespace Primitive

/-- Every primitive, in the order in which a global environment receives them. -/
def all : List Primitive :=
  [car, cdr, cons, eq, atom, numberp, symbolp, add, mul, sub, div, mod]

/-- The name under which programs find a primitive. -/
def name : Primitive → String
  | car => "car"
  | cdr => "cdr"
  | cons => "cons"
  | eq => "eq"
  | atom => "atom"
  | numberp => "numberp"
  | symbolp => "symbolp"
  | add => "+"
  | mul => "*"
  | sub => "-"
  | div => "/"
  | mod => "mod"

/-- The word a primitive is called by when it is given no name. -/
def word : Primitive → String
  | add => "add"
  | mul => "mul"
  | sub => "sub"
  | div => "div"
  | p => p.name

/-- The primitive that programs find under a name. -/
def ofName? (name : String) : Option Primitive :=
  all.find? (·.name == name)

theorem mem_all (p : Primitive) : p ∈ all := by
  cases p <;> decide

theorem all_nodup : all.Nodup := by
  decide

theorem ofName?_name (p : Primitive) : ofName? p.name = some p := by
  cases p <;> decide

end Primitive

end ConsLisp
