/-
The command line program: it loads a graph and matches patterns on it, one from the command line or
one for each line of its input.
-/
import GraphPatterns.Console.CommandLine

namespace GraphPatterns.Main

/-- The contents of a file, if it can be read as text. -/
def contents? (file : String) : IO (Option String) := do
  try
    return some (← IO.FS.readFile file)
  catch _ =>
    return none

/-- The files that the options name. -/
def filesOf (o : Options) : IO Files := do
  let names := o.config.toList ++ o.graph.toList
  let loaded ← names.mapM fun name => do return (name, ← contents? name)
  return fun name => (Assoc.get? loaded name).getD none

/-- Runs something and gives the milliseconds that it took as well. -/
def timed {α : Type} (work : Unit → α) : IO (α × Nat) := do
  let before ← IO.monoMsNow
  let result ← IO.lazyPure work
  let after ← IO.monoMsNow
  return (result, after - before)

/-- Responds to the lines of the input until it ends, and gives the code with which the run ends. -/
partial def serve (input output errors : IO.FS.Stream) (s : Session) : IO UInt32 := do
  let line ← input.getLine
  if line.isEmpty then return 0
  let ((response, s), milliseconds) ← timed fun _ => s.respond line
  match response.answer? .standard milliseconds with
  | some .exit => return 0
  | some .skip => pure ()
  | some (.message text) =>
    output.putStr text
    output.flush
  | some (.failure text) => errors.putStr (CommandLine.failureLine text)
  | none => return Output.crashed.code.toUInt32
  serve input output errors s

/-- Prints what a run that is over leaves behind. -/
def finish (result : Output) : IO UInt32 := do
  (← IO.getStdout).putStr result.out
  (← IO.getStderr).putStr result.err
  return result.code.toUInt32

end GraphPatterns.Main

open GraphPatterns in
def main (arguments : List String) : IO UInt32 := do
  match CommandLine.parse arguments with
  | some (.run o) =>
    match o.session (← Main.filesOf o), o.execute with
    | .error e, _ => Main.finish (Output.ofStartError e)
    | .ok s, some pattern =>
      let (result, milliseconds) ← Main.timed fun _ => s.runPattern pattern
      Main.finish (Output.ofPattern .standard milliseconds result)
    | .ok s, none =>
      Main.serve (← IO.getStdin) (← IO.getStdout) (← IO.getStderr) s
  | command => Main.finish (Output.ofRefusal command)
