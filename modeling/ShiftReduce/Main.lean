import ShiftReduce.Command.Arguments

/-! The command line program. It reads the description file, runs the command, and performs its
transcript on the real outputs and files. -/

namespace ShiftReduce

def FileFailure.ofError (e : IO.Error) : FileFailure :=
  match e with
  | .noFileOrDirectory .. => .notFound
  | e => .other (toString e)

def readSource (path : String) : IO (Except FileFailure String) := do
  try
    return Command.decode (← IO.FS.readBinFile path)
  catch e => return .error (.ofError e)

/-- Performs an effect, and tells whether a file could not be written. -/
def Effect.perform : Effect → IO (Option FileFailure)
  | .print text => do
    IO.print text
    return none
  | .complain text => do
    IO.eprint text
    return none
  | .write path text => do
    try
      IO.FS.writeFile path text
      return none
    catch e => return some (.ofError e)

/-- Performs a transcript, and gives the error that ended it. -/
def Transcript.performAll (t : Transcript) : IO (Option CommandError) := do
  for effect in t.effects do
    if let some f ← effect.perform then
      return some (.unwritable f)
  return t.error?

end ShiftReduce

open ShiftReduce in
def main (arguments : List String) : IO UInt32 := do
  match Request.ofArguments arguments with
  | .refused =>
    IO.eprintln "The arguments are not understood."
    return 1
  | .version text =>
    IO.println text
    return 0
  | .run file c =>
    let transcript := c.run (← readSource file)
    match ← transcript.performAll with
    | none => return 0
    | some e =>
      IO.eprintln s!"Error: {e.message}"
      return 1
