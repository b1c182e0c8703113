import ConsLisp.Interpreter

/-!
# An interpreter on values that never change

Pairs are trees with an identity, which only `eq` and the comparison of names look at.  The numbers
that are read have one as well, small ones apart, and only the comparison of names looks at it.
Lists are built in the order of their elements, and nothing is ever reversed.  What changes is a
table of variables: each has a number, a name and a value.  A frame is a list of variable numbers, a
closure keeps its local frames, and the global frame stands in the state.

Nested calls are counted as the interpreter on cells counts them.  That both give the same answers
is proved in `ConsLisp.Proofs.Reference.Session`.
-/

namespace ConsLisp

/-- A value that never changes. -/
inductive Datum where
  | nil
  | num (n : Int) (serial : Option Nat := none)
  | sym (name : String)
  | error (serial : Nat) (fault : Fault)
  | pair (identity : Nat) (car cdr : Datum)
  | primitive (serial : Nat) (operation : Primitive) (name : String)
  | closure (serial : Nat) (params body : Datum) (frames : List (List Nat))

namespace Datum

/-- The first field of a pair; `nil` for an atom. -/
def car : Datum → Datum
  | pair _ a _ => a
  | _ => nil

/-- The second field of a pair; `nil` for an atom. -/
def cdr : Datum → Datum
  | pair _ _ d => d
  | _ => nil

/-- The elements of a list, and the atom that ends it. -/
def chain : Datum → List Datum × Datum
  | pair _ a d => (a :: d.chain.1, d.chain.2)
  | v => ([], v)

/-- Are the two the same object?  Symbols are, if they are written alike, and so are numbers without
a serial number; all else has an identity or a serial number. -/
def same : Datum → Datum → Bool
  | nil, nil => true
  | num m i, num n j => m = n ∧ i = j
  | sym a, sym b => a = b
  | error i _, error j _ => i = j
  | pair i _ _, pair j _ _ => i = j
  | primitive i _ _, primitive j _ _ => i = j
  | closure i _ _ _, closure j _ _ _ => i = j
  | _, _ => false

/-- Is it an error? -/
def isError : Datum → Bool
  | error .. => true
  | _ => false

/-- Is it a pair? -/
def isPair : Datum → Bool
  | pair .. => true
  | _ => false

/-- The number it is, if it is one. -/
def num? : Datum → Option Int
  | num n _ => some n
  | _ => none

/-- Are the two `eq`?  Numbers are, if they are equal; all else, if it is the same object. -/
def isEq (v w : Datum) : Bool :=
  match v.num?, w.num? with
  | some m, some n => m = n
  | _, _ => v.same w

/-- The answer of a predicate. -/
def ofBool (b : Bool) : Datum :=
  if b then sym "t" else nil

/-- What an atom denotes. -/
def ofToken (token : List Char) : Datum :=
  match Decimal.read? token with
  | some n => num n
  | none => if String.ofList token = "nil" then nil else sym (String.ofList token)

/-- The special form of a list with this head. -/
def special? : Datum → Option Special
  | sym name => Special.ofName? name
  | _ => none

mutual

/-- The printed form. -/
def print : Nat → Datum → Except Abort String
  | 0, _ => .error .tooDeep
  | depth + 1, v =>
    match v with
    | nil => .ok "nil"
    | num n _ => Decimal.write n
    | sym name => .ok name
    | error _ fault => .ok ("<error: " ++ fault.message ++ ">")
    | pair .. => printList depth v
    | primitive .. => .ok "<subr>"
    | closure .. => .ok "<expr>"

/-- The printed form of a pair. -/
def printList : Nat → Datum → Except Abort String
  | 0, _ => .error .tooDeep
  | depth + 1, v => do
    let texts ← v.chain.1.mapM (print depth)
    let ending ← match v.chain.2 with
      | nil => pure ""
      | tail => do pure (" . " ++ (← print depth tail))
    return "(" ++ " ".intercalate texts ++ ending ++ ")"

end

end Datum

namespace Reference

/-- A variable: its name and its value. -/
structure Variable where
  name : Datum
  value : Datum

/-- The table of all variables by number, the global frame, newest first, how many identities and
serial numbers have been handed out, and the log. -/
structure State where
  table : List Variable := []
  globals : List Nat := []
  identities : Nat := 0
  serials : Nat := 0
  log : Log := {}

/-- A step of a session: an answer or an abort, and the state afterwards. -/
abbrev Step := EStateM Abort State

/-- A new pair. -/
def cons (a d : Datum) : Step Datum := fun state =>
  .ok (.pair state.identities a d) { state with identities := state.identities + 1 }

/-- A new list of the given elements. -/
def listOf : List Datum → Step Datum
  | [] => return .nil
  | a :: rest => do cons a (← listOf rest)

/-- A new object for a number. -/
def newNumber (n : Int) : Step Datum := fun state =>
  .ok (.num n (some state.serials)) { state with serials := state.serials + 1 }

/-- A new error. -/
def fail (fault : Fault) : Step Datum := fun state =>
  .ok (.error state.serials fault) { state with serials := state.serials + 1 }

/-- A new closure. -/
def closure (params body : Datum) (frames : List (List Nat)) : Step Datum := fun state =>
  .ok (.closure state.serials params body frames) { state with serials := state.serials + 1 }

/-- A result or an abort. -/
def lift {α : Type} : Except Abort α → Step α
  | .ok a => return a
  | .error abort => throw abort

/-- Reports an event to the log. -/
def note (event : Event) : Step Unit := fun state =>
  .ok () { state with log := state.log.note event }

/-- Reports an event about a value, whose printed form is made only if the event is kept. -/
def noteValue (depth : Nat) (event : String → Event) (v : Datum) : Step Unit := do
  if (← get).log.keeps (event "").level then
    note (event (← lift (v.print depth)))

/-! ## Variables -/

/-- A new variable. -/
def newVariable (name value : Datum) : Step Nat := fun state =>
  .ok state.table.length { state with table := state.table ++ [⟨name, value⟩] }

/-- The first variable of a name, in the local frames and then in the global one. -/
def State.find (state : State) (name : Datum) (frames : List (List Nat)) : Option Nat :=
  (frames.flatten ++ state.globals).find? fun n =>
    (state.table[n]?).any (·.name.same name)

/-- The value of a variable. -/
def State.valueOf (state : State) (n : Nat) : Datum :=
  (state.table[n]?).elim .nil Variable.value

/-- Puts a new variable in front of the global frame. -/
def State.define (state : State) (name value : Datum) : State :=
  { state with
    table := state.table ++ [⟨name, value⟩]
    globals := state.table.length :: state.globals }

/-- Puts a new variable in front of the global frame. -/
def defineGlobal (name value : Datum) : Step Unit :=
  modify (·.define name value)

/-- Gives a new value to the first variable of a name; says whether there is one. -/
def assign (name value : Datum) (frames : List (List Nat)) : Step Bool := do
  match (← get).find name frames with
  | none => return false
  | some n =>
    modify fun state => { state with table := state.table.modify n ({ · with value }) }
    return true

/-- A new variable for each of these names and values. -/
def bindEach : List (Datum × Datum) → Step (List Nat)
  | [] => return []
  | (name, value) :: rest => do
    let n ← newVariable name value
    return n :: (← bindEach rest)

/-! ## Reading -/

/-- An error for a text that cannot be read, and no rest. -/
def refuse (fault : Fault) : Step (Datum × List Char) := do
  note (.readFailed fault)
  return (← fail fault, [])

/-- The object of an atom that is read: a new one for a number below -5 or above 256. -/
def objectOf : Datum → Step Datum
  | .num n _ => if -5 ≤ n ∧ n ≤ 256 then return .num n else newNumber n
  | v => return v

/-- Reads forms up to the closing parenthesis, at most `fuel` of them: the forms, or the error of
one of them, and the rest. -/
def readItems (readOne : List Char → Step (Datum × List Char)) :
    Nat → List Char → Step (Except Datum (List Datum) × List Char)
  | fuel, text =>
    match Text.skipBlanks text with
    | [] => do
      let (error, rest) ← refuse .unfinishedParenthesis
      return (.error error, rest)
    | ')' :: rest => return (.ok [], rest)
    | text =>
      match fuel with
      | 0 => throw .endless
      | fuel + 1 => do
        let (form, rest) ← readOne text
        if form.isError then
          return (.error form, rest)
        else
          let (items, rest) ← readItems readOne fuel rest
          return (items.map (form :: ·), rest)

/-- The list of these items, or the error. -/
def finish : Except Datum (List Datum) → Step Datum
  | .error error => return error
  | .ok items => listOf items

mutual

/-- Reads one form from the front of a text. -/
def read : Nat → List Char → Step (Datum × List Char)
  | 0, _ => throw .tooDeep
  | depth + 1, text =>
    match Text.skipBlanks text with
    | [] => refuse .emptyInput
    | ')' :: rest => refuse (.strayClose (String.ofList (')' :: rest)))
    | '(' :: rest => readUntilClose depth rest
    | '\'' :: rest => do
      let (form, rest) ← read depth rest
      let quoted ← cons (.sym "quote") (← cons form .nil)
      return (quoted, rest)
    | text => return (← objectOf (.ofToken (Atom.split text).1), (Atom.split text).2)

/-- Reads the forms of a list whose opening parenthesis has been read. -/
def readUntilClose : Nat → List Char → Step (Datum × List Char)
  | 0, _ => throw .tooDeep
  | depth + 1, text => do
    let (items, rest) ← readItems (fun text => read depth text) text.length text
    return (← finish items, rest)

end

/-! ## Evaluation -/

/-- A number, or the error that an operand is none. -/
def number : Option Int → Step Datum
  | some n => return .num n
  | none => fail .wrongType

/-- The result of an operation on two numbers. -/
def ofTwo (op : Arithmetic.Operation) (x y : Datum) : Step Datum :=
  match x, y with
  | .num x _, .num y _ => do number (some (← lift (op.result x y)))
  | _, _ => number none

/-- Applies a primitive to a list of arguments. -/
def applyPrimitive (p : Primitive) (args : Datum) : Step Datum :=
  let x := args.car
  let y := args.cdr.car
  match p with
  | .car => return x.car
  | .cdr => return x.cdr
  | .cons => cons x y
  | .eq => return .ofBool (x.isEq y)
  | .atom => return .ofBool (!x.isPair)
  | .numberp => return .ofBool x.num?.isSome
  | .symbolp => return .ofBool (x matches .sym _)
  | .add => number ((args.chain.1.mapM Datum.num?).map (·.foldl (· + ·) 0))
  | .mul => number ((args.chain.1.mapM Datum.num?).map (·.foldl (· * ·) 1))
  | .sub => ofTwo .difference x y
  | .div => ofTwo .quotient x y
  | .mod => ofTwo .remainder x y

/-- The values of the forms of a list in order, or the first error. -/
def collect (valueOf : Datum → Step Datum) : Datum → Step (Except Datum (List Datum))
  | .pair _ form rest => do
    let value ← valueOf form
    if value.isError then
      return .error value
    else
      return (← collect valueOf rest).map (value :: ·)
  | _ => return .ok []

/-- Evaluates the forms of a list in order; the result is the last value, or the value before if
there is no form. -/
def inSequence (valueOf : Datum → Step Datum) : Datum → Datum → Step Datum
  | .pair _ form rest, _ => do inSequence valueOf rest (← valueOf form)
  | _, before => return before

mutual

/-- The value of a form below these local frames. -/
def evaluate : Nat → Datum → List (List Nat) → Step Datum
  | 0, _, _ => throw .tooDeep
  | depth + 1, form, frames =>
    match form with
    | .nil | .num .. | .error .. => return form
    | .sym name => do
      let state ← get
      match state.find form frames with
      | some n => return state.valueOf n
      | none => fail (.unbound name)
    | .pair _ head args =>
      match head.special? with
      | some special => evaluateSpecial depth special args frames
      | none => do
        let fn ← evaluate depth head frames
        let values ← evaluateAll depth args frames
        apply depth fn values
    | _ => do fail (.notEvaluable (← lift (form.print depth)))

/-- The list of the values of the forms of a list, or the first error. -/
def evaluateAll : Nat → Datum → List (List Nat) → Step Datum
  | 0, _, _ => throw .tooDeep
  | depth + 1, forms, frames => do
    finish (← collect (fun form => evaluate depth form frames) forms)

/-- The value of a special form with the given operands. -/
def evaluateSpecial : Nat → Special → Datum → List (List Nat) → Step Datum
  | 0, _, _, _ => throw .tooDeep
  | depth + 1, special, args, frames =>
    match special with
    | .quote => return args.car
    | .choice => do
      let condition ← evaluate depth args.car frames
      if condition matches .nil then
        evaluate depth args.cdr.cdr.car frames
      else
        evaluate depth args.cdr.car frames
    | .lambda => do
      let function ← closure args.car args.cdr frames
      noteValue depth .closureCreated args.car
      return function
    | .define => do
      let function ← closure args.cdr.car args.cdr.cdr frames
      defineGlobal args.car function
      noteValue depth .functionDefined args.car
      return args.car
    | .assign => do
      let value ← evaluate depth args.cdr.car frames
      if ← assign args.car value frames then
        return value
      else
        noteValue depth .globalDefined args.car
        defineGlobal args.car value
        return value

/-- The result of applying a function to a list of arguments. -/
def apply : Nat → Datum → Datum → Step Datum
  | 0, _, _ => throw .tooDeep
  | depth + 1, fn, args =>
    if fn.isError then
      return fn
    else if args.isError then
      return args
    else
      match fn with
      | .primitive _ p _ => applyPrimitive p args
      | .closure _ params body frames => enter depth params body frames args
      | _ => do fail (.notFunction (← lift (fn.print depth)))

/-- The value of a closure body below a new frame that binds the parameters. -/
def enter : Nat → Datum → Datum → List (List Nat) → Datum → Step Datum
  | 0, _, _, _, _ => throw .tooDeep
  | depth + 1, params, body, frames, args => do
    let frame ← bindEach (params.chain.1.zip args.chain.1)
    evaluateBody depth body (frame :: frames)

/-- The value of the last form of a list, after those before it. -/
def evaluateBody : Nat → Datum → List (List Nat) → Step Datum
  | 0, _, _ => throw .tooDeep
  | depth + 1, forms, frames => inSequence (fun form => evaluate depth form frames) forms .nil

end

/-! ## Sessions -/

/-- Defines a primitive under a name of its own. -/
def State.definePrimitive (state : State) (p : Primitive) : State :=
  { state with serials := state.serials + 1 }.define (.sym p.name)
    (.primitive state.serials p p.name)

/-- The state of a new interpreter, which reports to the given log. -/
def new (log : Log) : State :=
  (Primitive.all.foldl State.definePrimitive { log := log.note .environmentReady }).define
    (.sym "t") (.sym "t")

/-- The printed value of the first form of a line. -/
def evalPrint (limit : Nat) (line : List Char) : Step String := do
  let (form, _) ← read limit line
  let value ← evaluate limit form []
  lift (value.print limit)

/-- The result of a step, and the state after it. -/
def perform {α : Type} (step : Step α) (state : State) : Except Abort α × State :=
  match step state with
  | .ok a state => (.ok a, state)
  | .error abort state => (.error abort, state)

/-- The printed results of lines, and the state after them. -/
def evalPrintAll (limit : Nat) : List (List Char) → State → List (Except Abort String) × State
  | [], state => ([], state)
  | line :: rest, state =>
    let (result, state) := perform (evalPrint limit line) state
    let (results, state) := evalPrintAll limit rest state
    (result :: results, state)

/-- The variables of the global frame, newest first. -/
def State.frame (state : State) : List Variable :=
  state.globals.filterMap (state.table[·]?)

end Reference

end ConsLisp
