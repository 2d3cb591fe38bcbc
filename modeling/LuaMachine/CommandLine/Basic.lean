import LuaMachine.CommandLine.FileTree
import LuaMachine.CommandLine.Listing
import LuaMachine.Library.Module
import LuaMachine.Machine.Step
import LuaMachine.Machine.Teardown

namespace LuaMachine.CommandLine

/-- What a run of a command leaves: an exit code and lines on both outputs. -/
structure Outcome where
  exit : Nat := 0
  output : List String := []
  errors : List String := []
deriving DecidableEq, Repr

/-- The contents of files. -/
abbrev Files := String → Except FileError (List UInt8)

/-- What `-v` shows. -/
def version : String := "luacoop 0.1 (Lua 5.1 bytecode)"

/-- What a wrong command line shows. -/
def usage : List String :=
  ["usage: luacoop [options] chunk [args]",
    "Available options are:",
    "  -f n      run at most n new frames per thread per tick",
    "  -t n      stop after n scheduler ticks",
    "  -n        disable the instruction fuse",
    "  -v        show version information",
    "  --        stop handling options"]

/-- The options and the chunk that a command line names. -/
structure Options where
  chunk : Option (String × List String) := none
  framesPerTick : Option Nat := none
  maxTicks : Option Nat := none
  noFuse : Bool := false
  showVersion : Bool := false
deriving DecidableEq, Repr

/-- An unsigned 64-bit number in digits, with an optional plus. -/
def parseCount? (s : String) : Option Nat :=
  let digits := match s.toList with
    | '+' :: rest => rest
    | cs => cs
  if digits.isEmpty || !digits.all Char.isDigit then none
  else
    let n := Numeral.natural digits
    if n < 0x10000000000000000 then some n else none

/-- The number behind a flag. -/
def flagNumber (flag : String) : Option String → Except String Nat
  | none => .error (String.join ["'", flag, "' needs argument"])
  | some value =>
    match parseCount? value with
    | some n => .ok n
    | none => .error (String.join ["'", flag, "' expects a number, got '", value, "'"])

/-- Reads options up to the first argument that is none; that is the chunk, and the rest are its arguments. -/
def parseOptions (opts : Options) : List String → Except String Options
  | [] => .ok opts
  | "-f" :: rest =>
    match rest with
    | [] => (flagNumber "-f" none).map fun _ => opts
    | value :: rest => do
      let n ← flagNumber "-f" (some value)
      parseOptions { opts with framesPerTick := some n } rest
  | "-t" :: rest =>
    match rest with
    | [] => (flagNumber "-t" none).map fun _ => opts
    | value :: rest => do
      let n ← flagNumber "-t" (some value)
      parseOptions { opts with maxTicks := some n } rest
  | "-n" :: rest => parseOptions { opts with noFuse := true } rest
  | "-v" :: rest => parseOptions { opts with showVersion := true } rest
  | "--" :: rest =>
    match rest with
    | [] => .ok opts
    | name :: args => .ok { opts with chunk := some (name, args) }
  | arg :: rest =>
    if arg.toList.head? == some '-' then .error (String.join ["unrecognized option '", arg, "'"])
    else .ok { opts with chunk := some (arg, rest) }

/-- The table of the chunk's name and arguments. -/
def argTable (hash : Value → UInt64) (name : String) (args : List String) : Table :=
  let named := (Table.new args.length 1).setInt (.strong hash) 0 (.str name)
  (args.zipIdx 1).foldl (fun t (arg, i) => t.setInt (.strong hash) (Int64.ofNat i) (.str arg)) named

/-- A machine with the libraries and the main thread of a chunk. -/
def prepare (opts : Options) (p : Prototype) (name : String) (args : List String) : Machine :=
  let limits : Limits := {
    framesPerTick := opts.framesPerTick.map fun n => max n 1
    fuse := if opts.noFuse then none else ({} : Limits).fuse }
  let m := ((Machine.new limits).openLibraries .all).registerSpawn "spawn"
  let (m, id) := m.addTable (argTable m.hash name args)
  let m := m.setGlobal "arg" (.table id)
  let (m, main) := m.load p
  (m.spawn Machine.defaultGroup (.closure main) (args.map .str)).1

/-- Ticks a machine until it is idle or has had `maxTicks` ticks; the second part is then the number of
ticks. None if `fuel` does not suffice for the ticks or for the steps of one. -/
def tickUntilIdle (maxTicks : Option Nat) (steps : Nat) :
    Nat → Machine → Nat → Option (Machine × Option Nat)
  | 0, _, _ => none
  | fuel + 1, m, ticks =>
    if m.isIdle then some (m, none)
    else if maxTicks.any (· ≤ ticks) then some (m.destroyAll, some ticks)
    else
      let (m, s) := m.continueUpdates m.schedule
      match Machine.run steps m s with
      | none => none
      | some (m, _) => tickUntilIdle maxTicks steps fuel m (ticks + 1)

/-- The line for an error of a thread. -/
def reportLine (r : Report) : String :=
  String.join ["luacoop: thread ", Number.intText r.thread, ": ", r.error.report]

/-- Runs a chunk. -/
def runChunk (opts : Options) (files : Files) (fuel : Nat) (name : String) (args : List String) :
    Option Outcome :=
  let failed (reason : String) : Option Outcome := some { exit := 1, errors := ["luacoop: " ++ reason] }
  match files name with
  | .error e => failed (String.join ["cannot open ", name, ": ", e.message])
  | .ok bytes =>
    match Chunk.read bytes with
    | .error e => failed (String.join [name, ": ", e.message])
    | .ok p =>
      (tickUntilIdle opts.maxTicks fuel fuel (prepare opts p name args) 0).map fun (m, stopped) =>
        let reports := m.reports.reverse.map reportLine
        let final := match stopped with
          | some ticks => [String.join ["luacoop: stopped after ", Number.intText ticks, " ticks"]]
          | none => if reports.isEmpty then [] else ["luacoop: one or more threads failed"]
        { exit := if final.isEmpty then 0 else 1
          output := m.printed.reverse
          errors := reports ++ final }

/-- The command that runs chunks; none if `fuel` does not suffice. -/
def run (args : List String) (files : Files) (fuel : Nat) : Option Outcome :=
  match parseOptions {} args with
  | .error reason => some { exit := 1, errors := ("luacoop: " ++ reason) :: usage }
  | .ok opts =>
    let shown := if opts.showVersion then [version] else []
    match opts.chunk with
    | none =>
      some (if opts.showVersion then { output := shown } else { exit := 1, errors := usage })
    | some (name, args) =>
      (runChunk opts files fuel name args).map fun o => { o with output := shown ++ o.output }

/-- The command that lists chunks. -/
def list (args : List String) (files : Files) : Outcome :=
  match args with
  | [] => { output := ["Usage: bytecode_dump <chunk.luac>"] }
  | name :: _ =>
    match files name with
    | .error e =>
      { exit := 1, errors := [String.join ["Error reading file '", name, "': ", e.message]] }
    | .ok bytes =>
      let heading := [String.join ["=== File: ", name, " ==="], ""]
      match Chunk.read bytes with
      | .error e => { exit := 1, output := heading, errors := ["Load error: " ++ e.message] }
      | .ok p => { output := heading ++ Listing.lines p }

end LuaMachine.CommandLine
