import ConsLisp.Application
import ConsLisp.Environment
import ConsLisp.Form.Special
import ConsLisp.Value.Printing

/-!
# Evaluation

Numbers, errors and `nil` are their own values, a symbol has the value of its
binding, and a list is a special form or an application.  In an application the
function and then the arguments are evaluated from left to right; the first error
among the arguments ends this and is the result, unless the function is an error
itself.

The first argument of each function is the number of nested calls that are left.
Each function takes one for itself, and a call with none left aborts.  Everything
done before an abort stays done.
-/

namespace ConsLisp

/-- The special form of a list with this head. -/
def Value.special? : Value → Option Special
  | .sym name => Special.ofName? name
  | _ => none

/-- How many forms a loop goes on for after as many as the store had cells.  A chain of
forms that ends is never so long.  One that has no end is evaluated over and over until
a form stops it, and only if none does so does the loop give up. -/
def patience : Nat := Nat.pow 10 9

variable {m : Type → Type} [Machine m]

open ConsLisp.Action Machine

/-- Evaluates the forms of a chain in order and puts the values in front of `done`,
which is then reversed.  The first error ends this and is the result. -/
@[specialize] def collect (valueOf : Value → m Value) : Nat → Value → Value → m Value
  | fuel, done, forms => do
    match ← look (·.cell? forms) with
    | none => reverse done
    | some c =>
      match fuel with
      | 0 => throw .endless
      | fuel + 1 => do
        let value ← valueOf c.car
        if value.isError then
          return value
        else
          let done ← cons value done
          collect valueOf fuel done (← cdr forms)

/-- Evaluates the forms of a chain in order; the result is the last value, or the
value before if there is no form. -/
@[specialize] def inSequence (valueOf : Value → m Value) : Nat → Value → Value → m Value
  | fuel, before, forms => do
    match ← look (·.cell? forms) with
    | none => return before
    | some c =>
      match fuel with
      | 0 => throw .endless
      | fuel + 1 => do
        let value ← valueOf c.car
        inSequence valueOf fuel value (← cdr forms)

/-- Makes a closure of a list of parameters and body. -/
@[specialize] def closeOver (lambdaList env : Value) : m Value := do
  let params ← car lambdaList
  let body ← cdr lambdaList
  change (.closure params body env)

/-- Reports an event about a value, whose printed form is made only if the event is
kept. -/
@[specialize] def noteValue (depth : Nat) (event : String → Event) (v : Value) : m Unit := do
  if ← keeps (event "").level then
    note (event (← print depth v))

mutual

/-- The value of a form in an environment. -/
@[specialize] def evaluate : Nat → Value → Value → m Value
  | 0, _, _ => throw .tooDeep
  | depth + 1, form, env => nested (.evaluate form env) id do
    match form with
    | .nil | .num .. | .error .. | .foreign (.flag _) => return form
    | .sym name =>
      match ← ask (·.value? form env) with
      | some value => return value
      | none => fail (.unbound name)
    | .pair _ =>
      let head ← car form
      let args ← cdr form
      match head.special? with
      | some special => evaluateSpecial depth special args env
      | none =>
        -- The arguments are evaluated even if the function is an error.
        let fn ← evaluate depth head env
        let values ← evaluateAll depth args env
        apply depth fn values
    | _ => fail (.notEvaluable (← print depth form))

/-- The list of the values of the forms of a chain, or the first error. -/
@[specialize] def evaluateAll : Nat → Value → Value → m Value
  | 0, _, _ => throw .tooDeep
  | depth + 1, forms, env => nested (.evaluateAll forms env) id do
    collect (fun form => evaluate depth form env) ((← size) + patience) .nil forms

/-- The value of a special form with the given operands. -/
@[specialize] def evaluateSpecial : Nat → Special → Value → Value → m Value
  | 0, _, _, _ => throw .tooDeep
  | depth + 1, special, args, env => nested (.special special args env) id do
    match special with
    | .quote => car args
    | .choice =>
      let condition ← evaluate depth (← car args) env
      let arms ← cdr args
      if condition = .nil then
        evaluate depth (← car (← cdr arms)) env
      else
        evaluate depth (← car arms) env
    | .lambda =>
      let closure ← closeOver args env
      noteValue depth .closureCreated (← car args)
      return closure
    | .define =>
      let name ← car args
      let closure ← closeOver (← cdr args) env
      defineGlobal name closure env
      noteValue depth .functionDefined name
      return name
    | .assign =>
      let value ← evaluate depth (← car (← cdr args)) env
      -- The name is looked up after this: evaluating the value may have bound it.
      let name ← car args
      if ← assign name value env then
        return value
      else
        noteValue depth .globalDefined name
        defineGlobal name value env
        return value

/-- The result of applying a function to a list of arguments.  An error in either
place is the result itself. -/
@[specialize] def apply : Nat → Value → Value → m Value
  | 0, _, _ => throw .tooDeep
  | depth + 1, fn, args => nested (.apply fn args) id do
    if fn.isError then
      return fn
    else if args.isError then
      return args
    else
      match fn with
      | .primitive _ p _ => p.applyTo args
      | .closure _ params body env => enter depth params body env args
      | _ => fail (.notFunction (← print depth fn))

/-- The value of a closure body in the captured environment, extended by a frame that
binds the parameters. -/
@[specialize] def enter : Nat → Value → Value → Value → Value → m Value
  | 0, _, _, _, _ => throw .tooDeep
  | depth + 1, params, body, env, args => nested (.enter params body env args) id do
    let frame ← zip params args
    evaluateBody depth body (← cons frame env)

/-- The value of the last form of a chain, after those before it. -/
@[specialize] def evaluateBody : Nat → Value → Value → m Value
  | 0, _, _ => throw .tooDeep
  | depth + 1, forms, env => nested (.body forms env) id do
    inSequence (fun form => evaluate depth form env) ((← size) + patience) .nil forms

end

end ConsLisp
