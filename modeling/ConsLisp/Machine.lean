import ConsLisp.Form.Special
import ConsLisp.Log
import ConsLisp.Store.Chain

/-!
# Machines

What evaluation needs of the monad it runs in.  A machine looks at a store, changes it
by one elementary change at a time, keeps a log, and is told of each nested call.  The
programs over machines are written once; `ConsLisp.Action` is the machine that runs
them, and any other machine may watch them run.
-/

namespace ConsLisp

/-- An elementary change of a store. -/
inductive Change where
  | cons (a d : Value)
  | setCar (v a : Value)
  | setCdr (v d : Value)
  | number (n : Int)
  | error (fault : Fault)
  | closure (params body env : Value)
  deriving DecidableEq, Repr

/-- Makes a change; the answer is the object that was made or overwritten. -/
def Change.perform : Change → Store → Value × Store
  | cons a d, s => s.cons a d
  | setCar v a, s => (v, s.setCar v a)
  | setCdr v d, s => (v, s.setCdr v d)
  | number n, s => s.number n
  | error fault, s => s.error fault
  | closure params body env, s => s.closure params body env

/-- A nested call, with what it is made on. -/
inductive Call where
  | read (text : List Char)
  | readUntilClose (text : List Char)
  | evaluate (form env : Value)
  | evaluateAll (forms env : Value)
  | special (form : Special) (args env : Value)
  | apply (fn args : Value)
  | enter (params body env args : Value)
  | body (forms env : Value)
  deriving DecidableEq, Repr

/-- A monad in which programs over a store run. -/
class Machine (m : Type → Type) extends Monad m, MonadExceptOf Abort m where
  /-- An answer read off the store. -/
  look {α : Type} : (Store → α) → m α
  /-- One change of the store. -/
  change : Change → m Value
  /-- Reports an event to the log. -/
  note : Event → m Unit
  /-- Is an event of this level kept? -/
  keeps : Level → m Bool
  /-- Performs the body of a nested call, which answers with a value. -/
  nested {α : Type} : Call → (α → Value) → m α → m α

end ConsLisp
