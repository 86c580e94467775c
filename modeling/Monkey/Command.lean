import Monkey.Command.Arguments
import Monkey.Repl
import Monkey.Text.Utf8

/-!
# The command

Runs the file that the command line names, or the conversation at the prompt if it names none. Files
are looked up by name; what a file holds is decoded strictly, and every kind of line end becomes a
newline.
-/

namespace Monkey

namespace Command

/-- What stands under a name. -/
inductive Entry where
  | file (bytes : List UInt8)
  | directory
  deriving Repr

/-- The files that can be opened, by name. -/
abbrev Files := String → Option Entry

/-- The files of a directory, by their names in it. Steps of a path that stay in the directory are
skipped. -/
def Files.ofList (entries : List (String × Entry)) : Files := fun path =>
  let steps := (path.splitOn "/").filter fun step => step ≠ "" ∧ step ≠ "."
  if path.startsWith "/" then none else entries.lookup ("/".intercalate steps)

/-- How a command ends. -/
inductive Ending where
  | normal
  /-- The command line itself ends the command, with an exit code. -/
  | exited (code : Nat)
  | halted (h : Halt)
  | isDirectory (name : String)
  | undecodable (e : Utf8.Invalid)
  deriving Repr

/-- What a command leaves behind. -/
structure Report where
  output : String
  errorOutput : String
  ending : Ending

/-- Line ends of every kind as newlines. -/
def normalizeNewlines : List Char → List Char
  | [] => []
  | '\r' :: '\n' :: cs => '\n' :: normalizeNewlines cs
  | '\r' :: cs => '\n' :: normalizeNewlines cs
  | c :: cs => c :: normalizeNewlines cs

/-- Whether a name is that of a program file. -/
def isProgramFile (name : String) : Bool :=
  [".m", ".mon", ".mk"].any fun ending => ending.toList.isSuffixOf name.toList

/-- What is said when a conversation or a program is interrupted. -/
def interruption : String := "KeyboardInterrupt encountered. Quitting."

/-- The listing of the errors in a program. -/
def errorListing (errors : List SyntaxError) : List String :=
  "Prymate encountered errors while parsing the program." :: "Errors:\n" ::
    errors.map SyntaxError.message

/-- Runs a program. Its value is not shown, unless it is an error. -/
def runProgram (code : String) : Eval Unit := do
  let program := parse code
  if program.errors ≠ [] then Eval.printAll (errorListing program.errors)
  else
    match ← program.tree.evaluate Machine.globalScope with
    | some (.error e) =>
      Eval.print "Prymate encountered an error while evaluating the program."
      Eval.print ("Error:\n" ++ e.message)
    | _ => return ()

/-- What remains to be done once files and arguments are known. -/
inductive Task where
  /-- Write to the output and to the error output, and end. -/
  | say (output errorOutput : String) (ending : Ending)
  /-- Evaluate. -/
  | evaluate (step : Eval Unit)
  /-- Hold a conversation at the prompt. -/
  | converse

/-- The task of running a named file. -/
def fileTask (files : Files) (name : String) : Task :=
  if isProgramFile name then
    match files name with
    | none => .evaluate (Eval.print ("File " ++ name ++ " does not exist."))
    | some .directory => .say "" "" (.isDirectory name)
    | some (.file bytes) =>
      match Utf8.decode bytes with
      | .error e => .say "" "" (.undecodable e)
      | .ok cs => .evaluate (runProgram (String.ofList (normalizeNewlines cs)))
  else .evaluate (Eval.print "Unrecognized file type. Only use .m, .mk or .mon files.")

/-- The task that a command line asks for. -/
def task (files : Files) (arguments : List String) : Task :=
  match Request.ofArguments arguments with
  | .error e => .say "" (usageText e) (.exited 2)
  | .ok .help => .say helpText "" (.exited 0)
  | .ok .interactive => .converse
  | .ok (.file name) => fileTask files name

/-- Where an evaluation leaves the machine. An interrupt is a normal end, which is announced. -/
def finish : EStateM.Result Halt Machine Unit → Ending × Machine
  | .ok _ m => (.normal, m)
  | .error .interrupted m => (.normal, { m with output := m.output.push (.line interruption) })
  | .error h m => (.halted h, m)

/-- The report of an evaluation with the given input. -/
def reportOf (input : List Incoming) (step : Eval Unit) : Report :=
  let (ending, m) := finish (step (Machine.start input))
  ⟨m.outputText, "", ending⟩

/-- Carries out a task with the given input. -/
def Task.run (input : List Incoming) : Task → Report
  | say output errorOutput ending => ⟨output, errorOutput, ending⟩
  | evaluate step => reportOf input step
  | converse => reportOf input Repl.run

/-- The exit code of an ending. -/
def Ending.code : Ending → UInt32
  | normal => 0
  | exited code => code.toUInt32
  | halted .exit => 0
  | halted _ | isDirectory _ | undecodable _ => 1

/-- The wording of an ending that is not a normal one. -/
def Ending.message : Ending → String
  | normal => ""
  | exited code => toString code
  | halted h => h.message
  | isDirectory name => "[Errno 21] Is a directory: " ++ Text.quoted name
  | undecodable e => e.message

/-- Runs the command. -/
def run (files : Files) (arguments : List String) (input : List Incoming) : Report :=
  (task files arguments).run input

end Command

end Monkey
