import LuaMachine.CommandLine.Basic

namespace LuaMachine.CommandLine

/-- The reason behind a failure of the system. -/
def fileError (e : IO.Error) : FileError :=
  match e with
  | .noFileOrDirectory .. => .missing
  | .permissionDenied .. => .denied
  | .inappropriateType _ code _ => if code = 20 then .notDirectory else .isDirectory
  | .invalidArgument _ code _ => if code = 36 then .nameTooLong else .other (toString e)
  | e => .other (toString e)

/-- The contents of a file, or the reason why there are none. -/
def readBytes (name : String) : IO (Except FileError (List UInt8)) := do
  try
    return .ok (← IO.FS.readBinFile name).toList
  catch e => return .error (fileError e)

/-- The files that a command line may name. -/
def readFiles (args : List String) : IO Files := do
  let contents ← args.mapM fun name => return (name, ← readBytes name)
  return fun name => (contents.lookup name).getD (.error .missing)

/-- Prints what a command left and gives its exit code. -/
def finish (outcome : Outcome) : IO UInt32 := do
  for line in outcome.output do
    IO.println line
  for line in outcome.errors do
    IO.eprintln line
  return UInt32.ofNat outcome.exit

/-- How many steps a run may take: beyond what a run reaches. -/
def stepBound : Nat := 4611686018427387904

end LuaMachine.CommandLine

/-- Lists a chunk for the first argument `bytecode_dump`, and runs a chunk otherwise. -/
def main (args : List String) : IO UInt32 := do
  let files ← LuaMachine.CommandLine.readFiles args
  match args with
  | "bytecode_dump" :: rest => LuaMachine.CommandLine.finish (LuaMachine.CommandLine.list rest files)
  | args =>
    match LuaMachine.CommandLine.run args files LuaMachine.CommandLine.stepBound with
    | some outcome => LuaMachine.CommandLine.finish outcome
    | none => return 1
