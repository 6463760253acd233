import IrafCl.Cache.Memory
import IrafCl.Command.Invocation
import IrafCl.Files
import IrafCl.Library.Standard

/-!
# Running commands

A command reads one text, from a file or from the standard input, and gives one text, which goes to the
standard output or to a file. Log records go to the log of the command. Watching builds a file again and
again with one memory; a build that fails is logged and changes nothing else.
-/

namespace IrafCl.Command

open Script (Settings Logged CompiledUnit)

/-- What a command leaves behind. -/
structure Outcome where
  stdout : Bytes
  log : List Log.Record
  files : FileTree
  failure : Option Halt

/-- The least level that is logged. -/
def logLevel (debug : Bool) : Log.Level := if debug then .debug else .info

/-- The name of the standard input and output. -/
def standard : Bytes := "-"

/-- The file name that compiled units carry. -/
def sourceName (file : Bytes) : Bytes := if file = standard then [] else file

/-- The text of a program. -/
def readSource (files : FileTree) (stdin file : Bytes) : Except Failure Bytes :=
  if file = standard then .ok stdin
  else (files.read file).mapError (.context ("error reading file " ++ file))

/-- A token as it is listed. -/
def tokenLine (t : Token Script.Symbol) : Bytes := Bytes.ofInt t.line ++ "\t" ++ t.describe ++ "\n"

/-- The syntax tree as text, with types if they are asked for. -/
def treeText (file : Bytes) (types : Bool) (source : Bytes) : Logged Bytes :=
  match Script.tree source with
  | .error h => ⟨[], .error h⟩
  | .ok t =>
    if types then
      let (notes, scope) := Script.declarations { filename := sourceName file } t
      ⟨notes.map Script.noteRecord,
        scope.bind fun scope => (Script.Typing.checkTypes scope t >>= Node.dump).mapError .violation⟩
    else ⟨[], t.dump.mapError .violation⟩

/-- The file that an action reads. -/
def Action.file? : Action → Option Bytes
  | .help => none
  | .compile file _ _ | .tokens file | .tree file _ | .watch file _ _ => some file

/-- The file that the result of an action goes to. -/
def Action.output : Action → Bytes
  | .compile _ _ output | .watch _ _ output => output
  | _ => []

/-- What an action makes of a text. -/
def Action.result (a : Action) (source : Bytes) : Logged Bytes :=
  match a with
  | .help => ⟨[], .ok []⟩
  | .compile file mode _ | .watch file mode _ =>
    let r := Script.compile { filename := sourceName file, mode } source
    ⟨r.log, r.outcome.map (·.code)⟩
  | .tokens _ => ⟨[], (Script.tokenize source).map fun ts => ts.flatMap tokenLine⟩
  | .tree file types => treeText file types source

/-- Whether a result goes to the standard output. -/
def isStandard (output : Bytes) : Bool := output.isEmpty || output = standard

/-- The failure to write a file. -/
def writeFailure (output : Bytes) (f : Failure) : Failure := .context ("error writing file " ++ output) f

/-- Writes a result: what goes to the standard output, and the files afterwards. -/
def writeResult (files : FileTree) (output text : Bytes) (now : Int) :
    Except Failure (Bytes × FileTree) :=
  if isStandard output then .ok (text, files)
  else match files.write output text now with
    | .ok files => .ok ([], files)
    | .error f => .error (writeFailure output f)

/-! ## Watching -/

/-- A file that is built again and again. -/
structure Watcher where
  path : Bytes
  mode : Bytes
  output : Bytes

/-- The settings of its compilations. -/
def Watcher.settings (w : Watcher) : Settings := { filename := w.path, mode := w.mode }

/-- The failure to watch a path. -/
def Watcher.failure (w : Watcher) (why : PathError) : Failure :=
  .context ("error watching " ++ w.path) (.plain why.text)

/-- What stands in the way of watching: the directory of the file must exist. -/
def Watcher.obstacle? (w : Watcher) (files : FileTree) : Option Failure :=
  (files.missing? (FileTree.directoryOf w.path)).map w.failure

/-- The text of a halt in a log record. -/
def haltText : Halt → Bytes
  | .failure f => f.text
  | .violation v => v.message

/-- The revision and the text of the file as it is now. -/
def Watcher.current (w : Watcher) (files : FileTree) : Except Failure (Revision × Bytes) := do
  let (size, modified) ← files.stat w.path
  let source ← (files.read w.path).mapError (.context ("error reading file " ++ w.path))
  return (⟨w.path, size, modified⟩, source)

def Watcher.failedRecord (w : Watcher) (why : Bytes) : Log.Record :=
  ⟨.error, "compile failed", [("file", w.path), ("error", why)]⟩

def Watcher.unwrittenRecord (w : Watcher) (why : Failure) : Log.Record :=
  ⟨.error, "write failed", [("file", w.output), ("error", why.text)]⟩

def Watcher.compiledRecord (w : Watcher) (u : CompiledUnit) : Log.Record :=
  ⟨.info, "compiled", [("file", w.path), ("procedure", u.procedure),
    ("warnings", Bytes.ofNat u.warnings.length)]⟩

/-- What a build leaves behind: the memory, what goes to the standard output, the log and the files. -/
structure Build where
  memory : Memory
  stdout : Bytes
  log : List Log.Record
  files : FileTree

/-- Compiles a text of the file with a memory. -/
def Watcher.compile (w : Watcher) (m : Memory) (revision : Option Revision) (source : Bytes) :
    Memory × Logged CompiledUnit :=
  let (cache, r) := Script.compileCached (.ofMemory m) w.settings revision source
  (cache.memory, r)

/-- Builds the file as it is now. -/
def Watcher.build (w : Watcher) (m : Memory) (files : FileTree) (now : Int) : Build :=
  match w.current files with
  | .error f => ⟨m, [], [w.failedRecord f.text], files⟩
  | .ok (revision, source) =>
    let (m, r) := w.compile m (some revision) source
    match r.outcome with
    | .error h => ⟨m, [], r.log ++ [w.failedRecord (haltText h)], files⟩
    | .ok u =>
      match writeResult files w.output u.code now with
      | .error f => ⟨m, [], r.log ++ [w.unwrittenRecord f], files⟩
      | .ok (stdout, files) => ⟨m, stdout, r.log ++ [w.compiledRecord u], files⟩

/-! ## Commands -/

/-- Runs an action on its text. -/
def Action.run (a : Action) (files : FileTree) (now : Int) (source : Bytes) : Outcome :=
  let r := a.result source
  match r.outcome with
  | .error h => ⟨[], r.log, files, some h⟩
  | .ok text =>
    match writeResult files a.output text now with
    | .ok (stdout, files) => ⟨stdout, r.log, files, none⟩
    | .error f => ⟨[], r.log, files, some (.failure f)⟩

/-- Watches a file up to its first build. -/
def Watcher.start (w : Watcher) (files : FileTree) (now : Int) : Outcome :=
  match w.obstacle? files with
  | some f => ⟨[], [], files, some (.failure f)⟩
  | none =>
    let b := w.build (.ofSize 0) files now
    ⟨b.stdout, b.log, b.files, none⟩

/-- Runs an action. -/
def Action.runIn (a : Action) (files : FileTree) (now : Int) (stdin : Bytes) : Outcome :=
  match a with
  | .watch file mode output => Watcher.start ⟨file, mode, output⟩ files now
  | a =>
    match a.file? with
    | none => a.run files now []
    | some file =>
      match readSource files stdin file with
      | .error f => ⟨[], [], files, some (.failure f)⟩
      | .ok source => a.run files now source

/-- Runs a command line. `debug` asks for a detailed log whatever the flags say. -/
def run (files : FileTree) (now : Int) (stdin : Bytes) (debug : Bool) (args : List Bytes) : Outcome :=
  match parse args with
  | .error e => ⟨[], [], files, some (.failure (.plain e.text))⟩
  | .ok i =>
    let o := i.action.runIn files now stdin
    { o with log := Log.atLeast (logLevel (debug || i.debug)) o.log }

end IrafCl.Command
