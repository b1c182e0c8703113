import ConsLisp.Value.Fault
import ConsLisp.Value.Primitive

/-!
# Values

A value is an atom or a pair.  A pair is only a place in a store of cells
(`ConsLisp.Store`), so two pairs are the same object exactly when they are the
same place.  Errors, primitives and closures carry the serial number under which
they were made, and so do the numbers that are read, except for the small ones:
the host has one object for each of these, as there is one for each symbol.
Equality of values is therefore identity of objects, by which names are compared.

A number that is computed carries no serial number, though the host may make an
object for it.  No name is ever computed, and `eq` compares numbers by what they
are, so nothing tells these objects apart.

Objects of the host may stand where values are expected.  They are no values of
the language: a flag evaluates to itself, and none can be printed.
-/

namespace ConsLisp

/-- An object of the host that is no value of the language. -/
inductive Foreign where
  | flag (truth : Bool)
  | object (serial : Nat) (description : String)
  deriving DecidableEq, Repr

/-- The text under which a host object is reported. -/
def Foreign.describe : Foreign → String
  | .flag true => "True"
  | .flag false => "False"
  | .object _ description => description

/-- A value of the language, used as code and as data. -/
inductive Value where
  | nil
  | num (n : Int) (serial : Option Nat := none)
  | sym (name : String)
  | error (serial : Nat) (fault : Fault)
  | pair (place : Nat)
  | primitive (serial : Nat) (operation : Primitive) (name : String)
  | closure (serial : Nat) (params body env : Value)
  | foreign (object : Foreign)
  deriving DecidableEq, Repr

namespace Value

instance : Inhabited Value := ⟨nil⟩

/-- The kinds of value. -/
inductive Kind where
  | nil | num | sym | error | pair | primitive | closure
  deriving DecidableEq, Repr

/-- The kind of a value; a host object has none. -/
def kind? : Value → Option Kind
  | nil => some .nil
  | num .. => some .num
  | sym _ => some .sym
  | error .. => some .error
  | pair _ => some .pair
  | primitive .. => some .primitive
  | closure .. => some .closure
  | foreign _ => none

/-- The value of a name: `nil` names the empty list. -/
def ofName (name : String) : Value :=
  if name = "nil" then nil else sym name

/-- The true value that predicates answer. -/
def t : Value := sym "t"

/-- The answer of a predicate. -/
def ofBool (b : Bool) : Value :=
  if b then t else nil

/-- Is the value an error? -/
def isError : Value → Bool
  | error .. => true
  | _ => false

/-- The number a value is, if it is one. -/
def num? : Value → Option Int
  | num n _ => some n
  | _ => none

/-- The number that is a new object wherever it is read, if the value is one.  The host
keeps one object for each number from -5 to 256. -/
def unshared? (v : Value) : Option Int :=
  v.num?.filter fun n => n < -5 ∨ 256 < n

/-- Are two values `eq`?  Numbers are compared by what they are, all else by identity. -/
def isEq (x y : Value) : Bool :=
  match x.num?, y.num? with
  | some m, some n => m = n
  | _, _ => x = y

theorem isError_iff {v : Value} :
    v.isError = true ↔ ∃ serial fault, v = error serial fault := by
  cases v <;> simp [isError]

@[simp] theorem num?_num (n : Int) (serial : Option Nat) : (num n serial).num? = some n := rfl

@[simp] theorem num?_eq_some_iff {v : Value} {n : Int} :
    v.num? = some n ↔ ∃ serial, v = num n serial := by
  cases v <;> simp [num?]

theorem unshared?_eq_some_iff {v : Value} {n : Int} :
    v.unshared? = some n ↔ v.num? = some n ∧ (n < -5 ∨ 256 < n) := by
  simp [unshared?, Option.filter_eq_some_iff]

end Value

end ConsLisp
