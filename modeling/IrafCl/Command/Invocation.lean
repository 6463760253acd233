import IrafCl.Command.Flag
import IrafCl.Text.Similar

/-!
# Command lines

A command line names one of the commands, in any place among its flags, and one file. The command is
found before its flags are read: an unknown flag with no value of its own is then taken to be followed
by one.
-/

namespace IrafCl.Command

def debugFlag : Flag := ⟨"debug", none, true⟩

def helpFlag : Flag := ⟨"help", some (Bytes.ascii 'h'), true⟩

def outputFlag : Flag := ⟨"output", some (Bytes.ascii 'o'), false⟩

def modeFlag : Flag := ⟨"mode", none, false⟩

def typesFlag : Flag := ⟨"types", none, true⟩

/-- The commands. -/
inductive Name where
  | compile
  | tokens
  | tree
  | watch
  deriving DecidableEq, Repr

def Name.all : List Name := [.compile, .tokens, .tree, .watch]

def Name.text : Name → Bytes
  | .compile => "compile"
  | .tokens => "tokens"
  | .tree => "tree"
  | .watch => "watch"

/-- The flags of a command of its own. -/
def Name.flags : Name → List Flag
  | .compile | .watch => [outputFlag, modeFlag]
  | .tokens => []
  | .tree => [typesFlag]

/-- The commands that print about commands. -/
def helpCommands : List Bytes := ["help", "completion"]

/-! ## Finding the command -/

/-- Whether an argument takes the next one for its value, as far as the flags of the program tell. -/
def takesNext (flags : List Flag) (arg : Bytes) : Bool :=
  match arg with
  | a :: b :: rest =>
    a = dash && !arg.contains equals &&
      (if b = dash then !(flags.any fun f => f.isSwitch && f.name = rest)
      else rest.isEmpty && !(flags.any fun f => f.isSwitch && f.letter = some b))
  | _ => false

/-- The words among some arguments that are no flags and no values of flags. -/
def bareWords (flags : List Flag) : List Bytes → List Bytes
  | [] => []
  | arg :: rest =>
    if arg = "--" then []
    else if takesNext flags arg then
      match rest with
      | [] => []
      | [_] => []
      | _ :: rest => bareWords flags rest
    else if arg.isEmpty || arg.head? = some dash then bareWords flags rest
    else arg :: bareWords flags rest

/-- The arguments without the first bare word that is the given one. -/
def withoutWord (flags : List Flag) (word : Bytes) : List Bytes → List Bytes
  | [] => []
  | arg :: rest =>
    if arg = "--" then arg :: rest
    else if takesNext flags arg then
      match rest with
      | [] => [arg]
      | value :: rest => arg :: value :: withoutWord flags word rest
    else if arg = word then rest
    else arg :: withoutWord flags word rest

/-- How far a mistyped command may be from the one that was meant. -/
def nearDistance : Nat := 2

/-- The commands that a word may have meant. -/
def similarCommands (word : Bytes) : List Bytes :=
  (Name.all.map Name.text ++ [("completion" : Bytes)]).filter fun name =>
    Bytes.editDistance (Bytes.lower word) name ≤ nearDistance || (Bytes.lower word).isPrefixOf name

/-! ## What to do -/

/-- What a command line asks for. -/
inductive Action where
  | help
  | compile (file mode output : Bytes)
  | tokens (file : Bytes)
  | tree (file : Bytes) (types : Bool)
  | watch (file mode output : Bytes)
  deriving DecidableEq, Repr

structure Invocation where
  debug : Bool
  action : Action
  deriving DecidableEq, Repr

/-- The modes of compilation. -/
def checkMode (mode : Bytes) : Except UsageError Bytes :=
  if mode = "proc" || mode = "single" then .ok mode else .error (.unsupportedMode mode)

/-- The action of a command on its file. -/
def Name.action (n : Name) (p : Parsed) (file : Bytes) : Except UsageError Action :=
  let mode := checkMode ((p.value? modeFlag).getD "proc")
  let output := (p.value? outputFlag).getD []
  match n with
  | .compile => mode.map fun mode => .compile file mode output
  | .tokens => .ok (.tokens file)
  | .tree => .ok (.tree file (p.isOn typesFlag))
  | .watch => mode.map fun mode => .watch file mode output

/-- Reads the arguments of a command. -/
def Name.invocation (n : Name) (args : List Bytes) : Except UsageError Invocation := do
  let p ← parseFlags (n.flags ++ [debugFlag, helpFlag]) args
  if p.isOn helpFlag then return ⟨p.isOn debugFlag, .help⟩
  else match p.words with
    | [file] => do
      let action ← n.action p file
      return ⟨p.isOn debugFlag, action⟩
    | words => .error (.argumentCount words.length)

/-- Reads a command line without a command. -/
def rootInvocation (args : List Bytes) : Except UsageError Invocation := do
  let p ← parseFlags [debugFlag, helpFlag] args
  return ⟨p.isOn debugFlag, .help⟩

/-- Reads a command line. -/
def parse (args : List Bytes) : Except UsageError Invocation :=
  match bareWords [debugFlag] args with
  | [] => rootInvocation args
  | word :: _ =>
    match Name.all.find? fun n => n.text = word with
    | some n => n.invocation (withoutWord [debugFlag] word args)
    | none =>
      if helpCommands.contains word then .ok ⟨false, .help⟩
      else .error (.unknownCommand word (similarCommands word))

end IrafCl.Command
