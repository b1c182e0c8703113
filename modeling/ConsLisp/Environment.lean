import ConsLisp.Action

/-!
# Environments

An environment is a list of frames, innermost first; a frame is a list of bindings,
and a binding is a pair of a name and a value.  The last cell of the list is shared
by all environments made from it: its frame is the global one.

A name is looked up by identity, frame by frame and front to back; the first binding
counts.
-/

namespace ConsLisp

namespace Store

/-- The element itself, if it is a binding of the name. -/
def bindingAt (s : Store) (name element : Value) : Option Value :=
  match s.cell? element with
  | some c => if c.car = name then some element else none
  | none => none

/-- The first binding of a name in a frame. -/
def bindingIn (s : Store) (name frame : Value) : Except Abort (Option Value) :=
  s.search (fun element => .ok (s.bindingAt name element)) s.size frame

/-- The first binding of a name in an environment. -/
def binding? (s : Store) (name env : Value) : Except Abort (Option Value) :=
  s.search (fun frame => s.bindingIn name frame) s.size env

/-- The value of a name in an environment. -/
def value? (s : Store) (name env : Value) : Except Abort (Option Value) :=
  (s.binding? name env).map (·.map s.cdr)

/-- The cell of an environment that holds the global frame. -/
def globalOf (s : Store) (env : Value) : Except Abort Value :=
  s.last env

/-- Puts a new binding in front of the first frame of an environment. -/
def define (s : Store) (name value env : Value) : Store :=
  let (binding, s) := s.cons name value
  let (frame, s) := s.cons binding (s.car env)
  s.setCar env frame

/-- Defines a primitive under a name of its own. -/
def definePrimitive (s : Store) (env : Value) (p : Primitive) : Store :=
  let (value, s) := s.primitive p p.name
  s.define (.ofName p.name) value env

/-- Defines all primitives and the true value. -/
def defineBuiltins (s : Store) (env : Value) : Store :=
  (Primitive.all.foldl (fun s p => s.definePrimitive env p) s).define .t .t env

/-- A new environment whose only frame holds the primitives and the true value. -/
def globalEnvironment (s : Store) : Value × Store :=
  let (env, s) := s.cons .nil .nil
  (env, s.defineBuiltins env)

end Store

namespace Action

variable {m : Type → Type} [Machine m]

/-- Puts a new binding in front of the first frame of an environment. -/
@[specialize] def define (name value env : Value) : m Unit := do
  let binding ← cons name value
  let frame ← cons binding (← car env)
  setCar env frame

/-- Puts a new binding in front of the global frame of an environment. -/
@[specialize] def defineGlobal (name value env : Value) : m Unit := do
  define name value (← ask (·.globalOf env))

/-- Overwrites the value of the first binding of a name; says whether there is one. -/
@[specialize] def assign (name value env : Value) : m Bool := do
  match ← ask (·.binding? name env) with
  | none => return false
  | some binding =>
    setCdr binding value
    return true

end Action

end ConsLisp
