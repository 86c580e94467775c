import Monkey.Evaluation

/-!
# The prompt

A conversation, line by line: each line is a program of its own, evaluated in the global scope, and
its value is shown. The conversation ends only by a halt: the end of the input, an interrupt, a call
of `exit`, or a fault in a program.
-/

namespace Monkey

namespace Repl

/-- The greeting. -/
def banner : List String :=
  ["\nPrymate 0.4.1 [Running on Linux]", "Type exit() to exit from the REPL.\n"]

/-- What stands in front of a line. -/
def prompt : String := ">>> "

/-- The listing of the errors in a line. -/
def errorListing (errors : List SyntaxError) : List String :=
  "There was a error while parsing the program.\nErrors:" ::
    errors.map fun e => "\t" ++ e.message ++ "\n"

/-- Evaluates a line and shows its value, if it has one. -/
def respond (line : String) : Eval Unit := do
  if line ≠ "" then
    let program := parse line
    if program.errors ≠ [] then Eval.printAll (errorListing program.errors)
    else
      match ← program.tree.evaluate Machine.globalScope with
      | none => return ()
      | some v => Eval.print (← Eval.written v.inspect)

/-- Reads a line and responds to it. -/
def turn : Eval Unit := do
  respond (← Eval.readLine prompt)

/-- Takes a number of turns. -/
def turns : Nat → Eval Unit
  | 0 => return ()
  | n + 1 => do
    turn
    turns n

/-- The whole conversation over the input of the machine. Each turn takes a line or an interrupt from
the input, so with one turn more than that the last one finds the end of the input. -/
def run : Eval Unit := do
  Eval.printAll banner
  turns ((← get).input.length + 1)

end Repl

end Monkey
