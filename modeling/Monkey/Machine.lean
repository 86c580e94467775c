import Monkey.Tree.Printer
import Monkey.Value

/-!
# The machine

The state in which programs are evaluated: the scopes, the input that has not been read yet, the
output so far, and a counter from which identities are taken. The input is a list of events: lines,
and interrupts, which are noticed while a line is awaited.

A scope holds its own bindings, in the order of their first appearance, and the number of the scope
around it. Scope 0 is the global one. A name is looked up from scope to scope outwards; it is
declared and assigned only in the scope where the statement stands.

An evaluation either ends with a result or halts. A halt keeps the state as it was at that moment.
-/

namespace Monkey

/-- Why an evaluation ended without a result. -/
inductive Halt where
  /-- An arithmetic operation has no result. -/
  | arithmetic (fault : Number.Fault)
  /-- Something was to be written that has no text. -/
  | unprintable (reason : Unprintable)
  /-- The program asked to stop. -/
  | exit
  /-- There is no more input. -/
  | endOfInput
  /-- An interrupt came while a line was awaited. -/
  | interrupted
  /-- Evaluation is nested too deep. -/
  | tooDeep
  /-- A loop went on beyond every bound. -/
  | endless
  deriving DecidableEq, Repr

/-- The wording of a halt. -/
def Halt.message : Halt → String
  | arithmetic fault => fault.message
  | unprintable reason => reason.message
  | exit => "0"
  | endOfInput => "EOF when reading a line"
  | interrupted => ""
  | tooDeep => "maximum recursion depth exceeded"
  | endless => ""

/-- A name in a scope. -/
structure Binding where
  name : String
  constant : Bool
  value : Value
  deriving Inhabited

/-- The bindings of a scope, and the scope around it. -/
structure Scope where
  outer : Option Nat
  bindings : List Binding
  deriving Inhabited

namespace Scope

/-- The binding of a name in this scope itself. -/
def find? (s : Scope) (name : String) : Option Binding :=
  s.bindings.find? (·.name = name)

/-- Puts a binding in the place of the one with the same name, or else at the end. -/
def put (b : Binding) : List Binding → List Binding
  | [] => [b]
  | first :: rest => if first.name = b.name then b :: rest else first :: put b rest

/-- Declares a name, whatever it was before. -/
def declare (b : Binding) (s : Scope) : Scope := { s with bindings := put b s.bindings }

end Scope

/-- How an assignment ends. -/
inductive Assigned where
  | done
  /-- The name is bound to a constant. -/
  | constant
  /-- The scope itself does not bind the name. -/
  | unknown
  deriving DecidableEq, Repr

/-- A piece of output. -/
inductive Piece where
  /-- A text that was printed, on a line of its own. -/
  | line (text : String)
  /-- A text in front of which a line of input is awaited. -/
  | prompt (text : String)
  deriving DecidableEq, Repr

/-- The text of a piece of output. -/
def Piece.text : Piece → String
  | line text => text ++ "\n"
  | prompt text => text

/-- What arrives at the input. -/
inductive Incoming where
  /-- A line, without its end. -/
  | line (text : String)
  /-- The key that interrupts a program, pressed while a line is awaited. -/
  | interrupt
  deriving DecidableEq, Repr

namespace Incoming

/-- The lines of a text. The last one need not have an end. -/
def splitLines : List Char → List (List Char)
  | [] => []
  | c :: cs =>
    if c = '\n' then [] :: splitLines cs
    else
      match splitLines cs with
      | [] => [[c]]
      | first :: rest => (c :: first) :: rest

/-- A text arrives line by line. -/
def ofText (text : String) : List Incoming :=
  (splitLines text.toList).map fun cs => line (String.ofList cs)

end Incoming

/-- The state in which programs are evaluated. -/
structure Machine where
  scopes : Array Scope
  nextIdentity : Nat
  input : List Incoming
  output : Array Piece
  deriving Inhabited

namespace Machine

/-- The number of the global scope. -/
def globalScope : Nat := 0

/-- A machine with an empty global scope. -/
def start (input : List Incoming) : Machine := ⟨#[⟨none, []⟩], 0, input, #[]⟩

/-- Everything that was written. -/
def outputText (m : Machine) : String := "".intercalate (m.output.toList.map Piece.text)

/-- The bindings of a scope itself. -/
def bindings (m : Machine) (scope : Nat) : List Binding :=
  (m.scopes[scope]?).elim [] Scope.bindings

/-- The value of a name: that of the nearest scope that binds it. -/
def lookup? (m : Machine) (name : String) (scope : Nat) : Option Value :=
  match m.scopes[scope]? with
  | none => none
  | some s =>
    match s.find? name with
    | some b => some b.value
    | none =>
      match s.outer with
      | none => none
      | some outer => if outer < scope then m.lookup? name outer else none
termination_by scope

/-- Declares a name in a scope. -/
def declare (scope : Nat) (b : Binding) (m : Machine) : Machine :=
  { m with scopes := m.scopes.modify scope (Scope.declare b) }

/-- Assigns a value to a name that the scope itself binds as a variable. -/
def assign (scope : Nat) (name : String) (value : Value) (m : Machine) : Assigned × Machine :=
  match (m.scopes[scope]?).bind (·.find? name) with
  | none => (.unknown, m)
  | some b => if b.constant then (.constant, m) else (.done, m.declare scope ⟨name, false, value⟩)

/-- Adds a scope and gives its number. -/
def addScope (s : Scope) (m : Machine) : Nat × Machine :=
  (m.scopes.size, { m with scopes := m.scopes.push s })

end Machine

/-- A step of evaluation. -/
abbrev Eval := EStateM Halt Machine

namespace Eval

/-- A new identity. -/
def identity : Eval Nat :=
  modifyGet fun m => (m.nextIdentity, { m with nextIdentity := m.nextIdentity + 1 })

/-- A new array. -/
def array (elements : List Value) : Eval Value := do
  return .array (← identity) elements

/-- A new dictionary. -/
def dict (pairs : List (Value × Value)) : Eval Value := do
  return .dict (← identity) pairs

/-- A computed binary number. A NaN is told apart from every other NaN. -/
def float : Binary64 → Eval Value
  | .nan _ => do return .float (.nan (← identity))
  | x => return .float x

/-- A computed number. -/
def number : Number → Eval Value
  | .int n => return .int n
  | .float x => float x

/-- The result of an arithmetic operation. -/
def arithmetic : Except Number.Fault α → Eval α
  | .ok a => return a
  | .error fault => throw (.arithmetic fault)

/-- The result of writing something as text. -/
def written : Except Unprintable α → Eval α
  | .ok a => return a
  | .error reason => throw (.unprintable reason)

/-- Adds a piece to the output. -/
def write (piece : Piece) : Eval Unit :=
  modify fun m => { m with output := m.output.push piece }

/-- Prints a text on a line of its own. -/
def print (text : String) : Eval Unit := write (.line text)

/-- Prints texts, each on a line of its own. -/
def printAll : List String → Eval Unit
  | [] => return ()
  | text :: texts => do
    print text
    printAll texts

/-- Takes the next event of the input. -/
def receive : Eval Incoming := do
  match (← get).input with
  | [] => throw .endOfInput
  | event :: rest =>
    modify fun m => { m with input := rest }
    return event

/-- Reads a line, after writing a prompt. -/
def readLine (prompt : String) : Eval String := do
  write (.prompt prompt)
  match ← receive with
  | .line text => return text
  | .interrupt => throw .interrupted

end Eval

end Monkey
