import Monkey.Command

/-!
# The executable

Reads files and lines, and writes the output of evaluations as it appears. An evaluation that finds
no more input is taken up again from where it began, with one more line of input; as evaluations are
determined by their input, it arrives at the same place, and only what is new is written.
-/

namespace Monkey

namespace Main

/-- What stands under a name in the file system. -/
def readEntry (name : String) : IO (Option Command.Entry) := do
  try
    let bytes ← IO.FS.readBinFile name
    return some (.file bytes.toList)
  catch
    | .noFileOrDirectory .. => return none
    | .inappropriateType .. => return some .directory
    | e => throw e

/-- The files that a command line can refer to. -/
def filesFor (arguments : List String) : IO Command.Files := do
  match Command.Request.ofArguments arguments with
  | .ok (.file name) =>
    if Command.isProgramFile name then
      let entry ← readEntry name
      return fun other => if other = name then entry else none
    else return fun _ => none
  | _ => return fun _ => none

/-- Writes pieces of output. -/
def showPieces (pieces : List Piece) : IO Unit := do
  let out ← IO.getStdout
  for piece in pieces do
    out.putStr piece.text
  out.flush

/-- The machine that an evaluation leaves. -/
def machineOf : EStateM.Result Halt Machine Unit → Machine
  | .ok _ m => m
  | .error _ m => m

/-- Evaluates a step, reading lines as they are needed; `shown` pieces of its output have been written
before. -/
partial def drive (step : Eval Unit) (m : Machine) (shown : Nat) :
    IO (EStateM.Result Halt Machine Unit) := do
  let result := step m
  let written := (machineOf result).output.toList
  showPieces (written.drop shown)
  match result with
  | .error .endOfInput _ =>
    let line ← (← IO.getStdin).getLine
    if line.isEmpty then return result
    else drive step { m with input := m.input ++ Incoming.ofText line } written.length
  | _ => return result

/-- Takes turns at the prompt until one of them halts. -/
partial def converse (m : Machine) : IO (EStateM.Result Halt Machine Unit) := do
  match ← drive Repl.turn { m with output := #[] } 0 with
  | .ok _ after => converse after
  | halted => return halted

/-- Ends an evaluation whose output has been written. -/
def conclude (result : EStateM.Result Halt Machine Unit) : IO Command.Ending := do
  let (ending, m) := Command.finish result
  showPieces (m.output.toList.drop (machineOf result).output.size)
  return ending

/-- Carries out a task. -/
def perform : Command.Task → IO Command.Ending
  | .say output errorOutput ending => do
    (← IO.getStdout).putStr output
    (← IO.getStderr).putStr errorOutput
    return ending
  | .evaluate step => do conclude (← drive step (Machine.start []) 0)
  | .converse => do
    let greeted ← drive (Eval.printAll Repl.banner) (Machine.start []) 0
    conclude (← converse (machineOf greeted))

end Main

end Monkey

/-- Runs the command. -/
def main (arguments : List String) : IO UInt32 := do
  let files ← Monkey.Main.filesFor arguments
  let ending ← Monkey.Main.perform (Monkey.Command.task files arguments)
  match ending with
  | .normal | .exited _ | .halted .exit => return ending.code
  | _ =>
    (← IO.getStderr).putStrLn ending.message
    return ending.code
