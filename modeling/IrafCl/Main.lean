import IrafCl.Command.Session

/-!
# The command line

Reads the arguments, the environment and the files, hands them to the commands and writes what they
give. Watching looks at the file twice a second and builds it when its text has changed.
-/

namespace IrafCl.Command

/-- The characters of a text; a text that is not UTF-8 has none. -/
def toText (b : Bytes) : String := (String.fromUTF8? ⟨b.toArray⟩).getD ""

def writeTo (h : IO.FS.Stream) (b : Bytes) : IO Unit := do
  h.write ⟨b.toArray⟩
  h.flush

/-- Writes log records to the standard error stream. -/
def writeLog (debug : Bool) (log : List Log.Record) : IO Unit := do
  let err ← IO.getStderr
  for r in Log.atLeast (logLevel debug) log do
    writeTo err (r.line ++ [10])

/-- Reads a stream to its end. -/
partial def readAll (h : IO.FS.Stream) (before : ByteArray) : IO ByteArray := do
  let chunk ← h.read 65536
  if chunk.isEmpty then return before else readAll h (before ++ chunk)

/-- What the operating system says about a path. -/
def ioFailure (operation path : Bytes) : IO.Error → Failure
  | .noFileOrDirectory .. => PathError.noEntry.failure operation path
  | e => .context (operation ++ " " ++ path) (.plain (toString e))

def readFile (path : Bytes) : IO (Except Failure Bytes) := do
  try
    let data ← IO.FS.readBinFile (toText path)
    return .ok data.toList
  catch e => return .error (.context ("error reading file " ++ path) (ioFailure "open" path e))

def readInput (file : Bytes) : IO (Except Failure Bytes) := do
  if file = standard then
    let data ← readAll (← IO.getStdin) .empty
    return .ok data.toList
  else readFile file

/-- Writes a result to its file or to the standard output. -/
def writeOutput (output text : Bytes) : IO (Except Failure Unit) := do
  if isStandard output then
    writeTo (← IO.getStdout) text
    return .ok ()
  else
    try
      IO.FS.writeBinFile (toText output) ⟨text.toArray⟩
      return .ok ()
    catch e => return .error (writeFailure output (ioFailure "open" output e))

/-- Builds the file from its text. -/
def Watcher.buildText (w : Watcher) (debug : Bool) (m : Memory) (source : Bytes) : IO Memory := do
  let (m, r) := w.compile m none source
  writeLog debug r.log
  match r.outcome with
  | .error h => writeLog debug [w.failedRecord (haltText h)]
  | .ok u =>
    match ← writeOutput w.output u.code with
    | .ok () => writeLog debug [w.compiledRecord u]
    | .error f => writeLog debug [w.unwrittenRecord f]
  return m

/-- Watches a file; `last` is what was seen of it the last time. -/
partial def Watcher.watch (w : Watcher) (debug : Bool) (m : Memory) (last : Option (Except Bytes Bytes)) :
    IO Unit := do
  let now := (← readFile w.path).mapError Failure.text
  let changed : Bool := match last, now with
    | some (.ok a), .ok b => a ≠ b
    | some (.error a), .error b => a ≠ b
    | _, _ => true
  let m ← if !changed then pure m
    else match now with
      | .ok source => w.buildText debug m source
      | .error why => do
        writeLog debug [w.failedRecord why]
        pure m
  IO.sleep 500
  w.watch debug m (some now)

/-- Reports a failure and gives the exit code for it. -/
def report (why : Bytes) : IO UInt32 := do
  writeTo (← IO.getStderr) ("Error: " ++ why ++ "\n")
  return 1

def usage : Bytes := "Usage:\n  clc [command] FILE\n\nCommands:\n  compile\n  tokens\n  tree\n  watch\n"

/-- Performs an action. -/
def Action.perform (debug : Bool) : Action → IO UInt32
  | .help => do
    writeTo (← IO.getStdout) usage
    return 0
  | .watch file mode output => do
    Watcher.watch ⟨file, mode, output⟩ debug (.ofSize 0) none
    return 0
  | a => do
    match ← readInput (a.file?.getD standard) with
    | .error f => report f.text
    | .ok source =>
      let r := a.result source
      writeLog debug r.log
      match r.outcome with
      | .error h => report (haltText h)
      | .ok text =>
        match ← writeOutput a.output text with
        | .ok () => return 0
        | .error f => report f.text

end IrafCl.Command

open IrafCl.Command in
def main (args : List String) : IO UInt32 := do
  match parse (args.map IrafCl.Bytes.ofString) with
  | .error e => report e.text
  | .ok i =>
    let asked := ((← IO.getEnv "CLC_DEBUG").getD "") ≠ ""
    i.action.perform (i.debug || asked)
