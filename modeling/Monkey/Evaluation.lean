import Monkey.Builtin.Call
import Monkey.Machine
import Monkey.Operation
import Monkey.Tree.Parser

/-!
# Evaluation

A node is evaluated in a scope. It gives a value, or no value (a binding, a loop, a missing node).
An error value and the lack of a value are passed on by everything around them.

`evaluate` descends by one in its depth for each node it enters, so the depth bounds how deep
evaluation nests; a loop has a bound of its own on its rounds. What a construct does with the
evaluation of its parts is defined apart, over any evaluator.
-/

namespace Monkey

/-- How nodes are evaluated in scopes. -/
abbrev Evaluator := Node → Nat → Eval (Option Value)

/-- Goes on with a value. An error, and the lack of a value, is passed on. -/
def withValue (step : Eval (Option Value)) (next : Value → Eval (Option Value)) :
    Eval (Option Value) := do
  match ← step with
  | none => return none
  | some (.error e) => return some (.error e)
  | some v => next v

/-- An error as a result. -/
def complain (e : RuntimeError) : Eval (Option Value) := return some (.error e)

/-! ## Statements in a row -/

/-- Evaluates statements up to an error or a return wrapper, which is kept. -/
def evaluateBlock (step : Node → Eval (Option Value)) (last : Option Value) :
    List Node → Eval (Option Value)
  | [] => return last
  | node :: nodes => do
    match ← step node with
    | some (.error e) => return some (.error e)
    | some (.returned i v) => return some (.returned i v)
    | result => evaluateBlock step result nodes

/-- Evaluates statements up to an error or a return wrapper, which is opened. -/
def evaluateProgram (step : Node → Eval (Option Value)) (last : Option Value) :
    List Node → Eval (Option Value)
  | [] => return last
  | node :: nodes => do
    match ← step node with
    | some (.error e) => return some (.error e)
    | some (.returned _ v) => return some v
    | result => evaluateProgram step result nodes

/-! ## Loops -/

/-- A bound on the rounds of a loop that no run of a program reaches. -/
def roundLimit : Nat := 1 <<< 62

/-- Repeats a round that says how the loop ends, or that it goes on. -/
def repeatRounds (round : Eval (Option (Option Value))) : Nat → Eval (Option Value)
  | 0 => throw .endless
  | limit + 1 => do
    match ← round with
    | some result => return result
    | none => repeatRounds round limit

/-- A round of a loop. The loop ends if the condition does not hold, or on an error; a return wrapper
in the body does not end it. -/
def loopRound (condition body : Eval (Option Value)) : Eval (Option (Option Value)) := do
  match ← condition with
  | none => return some none
  | some (.error e) => return some (some (.error e))
  | some c =>
    if c.truthy then
      match ← body with
      | some (.error e) => return some (some (.error e))
      | _ => return none
    else return some none

/-! ## Several values -/

/-- Goes on with the values of several nodes, evaluated in order. -/
def withValues (step : Node → Eval (Option Value)) :
    List Node → (List Value → Eval (Option Value)) → Eval (Option Value)
  | [], next => next []
  | node :: nodes, next =>
    withValue (step node) fun v => withValues step nodes fun vs => next (v :: vs)

/-- Goes on with the pairs of a dictionary. A key that cannot be one is reported before its value is
evaluated. -/
def withPairs (step : Node → Eval (Option Value)) (pairs : Pairs) :
    List (Node × Node) → (Pairs → Eval (Option Value)) → Eval (Option Value)
  | [], next => next pairs
  | (keyNode, valueNode) :: nodes, next =>
    withValue (step keyNode) fun key =>
      match key.hashKey? with
      | none => complain (.unusableKey key.kind)
      | some hash =>
        withValue (step valueNode) fun value => do
          withPairs step (← insertPair hash (key, value) pairs) nodes next

/-! ## Names -/

/-- The value of a name: a binding that is in scope, or else a built-in function. -/
def evaluateName (name : String) (scope : Nat) : Eval (Option Value) := do
  match (← get).lookup? name scope with
  | some v => return some v
  | none =>
    match Builtin.ofName? name with
    | some b => return some (.builtin b)
    | none => complain (.unknownName name)

/-- Declares a name; this gives no value. -/
def declareName (scope : Nat) (name : String) (constant : Bool) (value : Value) :
    Eval (Option Value) := do
  modify (Machine.declare scope ⟨name, constant, value⟩)
  return none

/-- Assigns to a name; this gives no value. -/
def assignName (scope : Nat) (name : String) (value : Value) : Eval (Option Value) := do
  match ← modifyGet (Machine.assign scope name value) with
  | .done => return none
  | .constant => complain (.constantAssigned name)
  | .unknown => complain (.unknownName name)

/-- Evaluates the value of a binding statement and goes on with it. A value that is no expression is
not evaluated at all. -/
def withBound (step : Node → Eval (Option Value)) (value : Node)
    (next : Value → Eval (Option Value)) : Eval (Option Value) :=
  if value.isExpression then withValue (step value) next else return none

/-! ## Calls -/

/-- The bindings of parameters to arguments. Surplus arguments are ignored, and of parameters with
one name the last counts. -/
def bindParameters (bindings : List Binding) :
    List Name → List Value → Except RuntimeError (List Binding)
  | [], _ => .ok bindings
  | p :: _, [] => .error (.argumentMissing p.value)
  | p :: ps, v :: vs => bindParameters (Scope.put ⟨p.value, false, v⟩ bindings) ps vs

/-- Calls a function with arguments: its body is evaluated in a new scope inside the one in which the
function was written. -/
def applyFunction (run : Evaluator) (function : Value) (arguments : List Value) :
    Eval (Option Value) :=
  match function with
  | .function _ parameters body scope =>
    match bindParameters [] parameters arguments with
    | .error e => complain e
    | .ok bindings => do
      let inner ← modifyGet (Machine.addScope ⟨some scope, bindings⟩)
      return (← run body inner).map Value.unwrap
  | .builtin b => return some (← b.call arguments)
  | v => complain (.notAFunction v.kind)

/-! ## Nodes -/

/-- Evaluates a node in a scope, where `run` evaluates its parts. -/
def evaluateWith (run : Evaluator) : Evaluator := fun node scope =>
  let step := fun part => run part scope
  match node with
  | .missing => return none
  | .program statements => evaluateProgram step none statements
  | .block _ statements => evaluateBlock step none statements
  | .statement _ expression => step expression
  | .letBinding _ name value => withBound step value (declareName scope name.value false)
  | .constBinding _ name value => withBound step value (declareName scope name.value true)
  | .assignment _ name value => withBound step value (assignName scope name.value)
  | .returning _ value => withValue (step value) fun v => do
    return some (.returned (← Eval.identity) v)
  | .loop _ condition body => repeatRounds (loopRound (step condition) (step body)) roundLimit
  | .identifier name => evaluateName name.value scope
  | .integer _ n => return some (.int n)
  | .float _ x => return some (.float x)
  | .boolean _ b => return some (.bool b)
  | .string _ s => return some (.str s)
  | .prefixOp _ operator right => withValue (step right) fun v => some <$> applyPrefix operator v
  | .infixOp _ operator left right =>
    withValue (step left) fun l =>
      withValue (step right) fun r => some <$> applyInfix operator l r
  | .ifThen _ condition consequence =>
    withValue (step condition) fun c =>
      if c.truthy then step consequence else return some .null
  | .ifElse _ condition consequence alternative =>
    withValue (step condition) fun c =>
      if c.truthy then step consequence else step alternative
  | .function _ parameters body => do
    return some (.function (← Eval.identity) parameters body scope)
  | .call _ function arguments =>
    withValue (step function) fun f =>
      withValues step arguments fun vs => applyFunction run f vs
  | .array _ elements => withValues step elements fun vs => some <$> Eval.array vs
  | .index _ left index =>
    withValue (step left) fun l => withValue (step index) fun i => some <$> applyIndex l i
  | .dictionary _ pairs => withPairs step [] pairs fun entries => some <$> Eval.dict entries

/-- Evaluates a node in a scope, nesting at most `depth` deep. -/
def evaluate : Nat → Evaluator
  | 0 => fun _ _ => throw .tooDeep
  | depth + 1 => evaluateWith (evaluate depth)

/-- How deep evaluation may nest. -/
def depthLimit : Nat := 1000

/-- Evaluates a node in a scope. -/
def Node.evaluate (node : Node) (scope : Nat) : Eval (Option Value) :=
  Monkey.evaluate depthLimit node scope

/-- Calls a function with arguments. -/
def Value.call (function : Value) (arguments : List Value) : Eval (Option Value) :=
  applyFunction (Monkey.evaluate depthLimit) function arguments

end Monkey
