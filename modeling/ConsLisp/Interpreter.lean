import ConsLisp.Evaluation
import ConsLisp.Form.Reading

/-!
# Interpreters

An interpreter keeps a state and one global environment over its lines.  Of each
line the first form is read and evaluated; the rest of the line is ignored.  A line
that ends by an abort keeps what it has changed so far.

A workspace holds several interpreters under names and makes each at its first line.
They all use one state, with the cells of all of them in one store and one log; each
has a global environment of its own.  That none of them notices the others is proved
in `ConsLisp.Proofs.Isolation`.
-/

namespace ConsLisp

/-- A binding of a frame: the pair itself, its name and its value. -/
structure Binding where
  pair : Value
  name : Value
  value : Value
  deriving DecidableEq, Repr

/-- The bindings of a frame, front to back. -/
def Store.bindingsOf (s : Store) (frame : Value) : Except Abort (List Binding) := do
  return (← s.elements frame).map fun pair => ⟨pair, s.car pair, s.cdr pair⟩

namespace Action

variable {m : Type → Type} [Machine m]

/-- The value of the first form of a line in an environment. -/
@[specialize] def evalLine (limit : Nat) (env : Value) (line : List Char) : m Value := do
  let (form, _) ← Form.readForm limit line
  evaluate limit form env

/-- The printed value of the first form of a line in an environment. -/
@[specialize] def evalPrint (limit : Nat) (env : Value) (line : List Char) : m String := do
  print limit (← evalLine limit env line)

end Action

/-- A state, a global environment in it, and the bindings it started with. -/
structure Interpreter where
  state : State
  globals : Value
  initial : List Binding
  deriving Repr

namespace Interpreter

/-- A new interpreter, which reports to the given log. -/
def new (log : Log) : Interpreter :=
  let (globals, store) := ({} : Store).globalEnvironment
  let initial := (store.bindingsOf (store.car globals)).toOption.getD []
  ⟨⟨store, log.note .environmentReady⟩, globals, initial⟩

/-- A new interpreter in a state that others may use as well. -/
def newIn (state : State) : Interpreter :=
  let (globals, store) := state.store.globalEnvironment
  let initial := (store.bindingsOf (store.car globals)).toOption.getD []
  ⟨⟨store, state.log.note .environmentReady⟩, globals, initial⟩

/-- Performs an action in the global environment. -/
def perform {α : Type} (action : Value → Action α) : Interpreter → Except Abort α × Interpreter
  | ⟨state, globals, initial⟩ =>
    match action globals state with
    | .ok a state => (.ok a, ⟨state, globals, initial⟩)
    | .error abort state => (.error abort, ⟨state, globals, initial⟩)

/-- The value of a line. -/
def eval (limit : Nat) (line : List Char) : Interpreter → Except Abort Value × Interpreter :=
  perform fun globals => .evalLine limit globals line

/-- The printed value of a line. -/
def evalPrint (limit : Nat) (line : List Char) : Interpreter → Except Abort String × Interpreter :=
  perform fun globals => .evalPrint limit globals line

/-- The bindings of the global frame, newest first. -/
def bindings (i : Interpreter) : Except Abort (List Binding) :=
  i.state.store.bindingsOf (i.state.store.car i.globals)

/-- The bindings of the global frame that have been added or have a new value. -/
def changedBindings (i : Interpreter) : Except Abort (List Binding) := do
  return (← i.bindings).filter (!i.initial.contains ·)

end Interpreter

/-- An interpreter among others: its global environment, and the bindings it started with. -/
structure Member where
  globals : Value
  initial : List Binding
  deriving Repr

/-- The state that interpreters share, and their names, in the order in which they were made. -/
structure Workspace where
  state : State := {}
  members : List (String × Member) := []
  deriving Repr

namespace Workspace

/-- A member as an interpreter in the present state. -/
def view (w : Workspace) (m : Member) : Interpreter :=
  ⟨w.state, m.globals, m.initial⟩

/-- The interpreters that have been made. -/
def interpreters (w : Workspace) : List (String × Interpreter) :=
  w.members.map fun (name, m) => (name, w.view m)

/-- The member of a name, which is made in the shared state if there is none yet. -/
def enter (w : Workspace) (name : String) : Member × Workspace :=
  match w.members.lookup name with
  | some m => (m, w)
  | none =>
    let i := Interpreter.newIn w.state
    let m : Member := ⟨i.globals, i.initial⟩
    (m, ⟨i.state, w.members ++ [(name, m)]⟩)

/-- The interpreter of a name; a new one if there is none yet. -/
def interpreter (w : Workspace) (name : String) : Interpreter :=
  let (m, w) := w.enter name
  w.view m

/-- Performs an action in the global environment of the interpreter of a name. -/
def perform {α : Type} (w : Workspace) (name : String) (action : Value → Action α) :
    Except Abort α × Workspace :=
  let (m, w) := w.enter name
  let (result, i) := (w.view m).perform action
  (result, { w with state := i.state })

/-- The printed value of a line for the interpreter of a name. -/
def evalPrint (limit : Nat) (w : Workspace) (name : String) (line : List Char) :
    Except Abort String × Workspace :=
  w.perform name fun globals => .evalPrint limit globals line

end Workspace

end ConsLisp
