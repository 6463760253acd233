import IrafCl.Failure
import IrafCl.Text.Quoted

/-!
# Flags

A flag has a long name and perhaps a one-letter name. A switch may stand alone, any other flag needs a
value: `--name value`, `--name=value`, `-n value`, `-nvalue` or `-n=value`. Letters of switches may be
joined. Flags and other words may be mixed; two dashes end the flags.
-/

namespace IrafCl.Command

/-- A flag. -/
structure Flag where
  name : Bytes
  letter : Option UInt8
  isSwitch : Bool
  deriving DecidableEq, Repr

/-- What is wrong with a command line. -/
inductive UsageError where
  | badSyntax (arg : Bytes)
  | unknownFlag (name : Bytes)
  | unknownLetter (letter : UInt8) (cluster : Bytes)
  | needsValue (name : Bytes)
  | letterNeedsValue (letter : UInt8) (cluster : Bytes)
  | notBoolean (flag : Flag) (value : Bytes)
  | unknownCommand (name : Bytes) (similar : List Bytes)
  | argumentCount (received : Nat)
  | unsupportedMode (mode : Bytes)
  deriving DecidableEq, Repr

/-- The name of the program. -/
def program : Bytes := "clc"

/-- A letter between single quotes. A byte beyond ASCII shows as the first byte of its two-byte form. -/
def quotedLetter (b : UInt8) : Bytes :=
  if 0xC0 ≤ b then "'Ã'"
  else if 0x80 ≤ b then "'Â'"
  else if b = 39 then "'\\''"
  else if b = 34 then "'\"'"
  else
    let body := Bytes.quote [b]
    "'" ++ (body.drop 1).dropLast ++ "'"

/-- How messages call a flag. -/
def Flag.title (f : Flag) : Bytes :=
  match f.letter with
  | some b => "-" ++ [b] ++ ", --" ++ f.name
  | none => "--" ++ f.name

def UsageError.text : UsageError → Bytes
  | .badSyntax arg => "bad flag syntax: " ++ arg
  | .unknownFlag name => "unknown flag: --" ++ name
  | .unknownLetter b cluster => "unknown shorthand flag: " ++ quotedLetter b ++ " in -" ++ cluster
  | .needsValue name => "flag needs an argument: --" ++ name
  | .letterNeedsValue b cluster => "flag needs an argument: " ++ quotedLetter b ++ " in -" ++ cluster
  | .notBoolean flag value =>
    "invalid argument " ++ value.quote ++ " for " ++ flag.title.quote ++
      " flag: strconv.ParseBool: parsing " ++ value.quote ++ ": invalid syntax"
  | .unknownCommand name similar =>
    let hint : Bytes := if similar.isEmpty then [] else
      "\n\nDid you mean this?\n" ++ similar.flatMap fun s => ("\t" ++ s ++ "\n" : Bytes)
    "unknown command " ++ name.quote ++ " for " ++ program.quote ++ hint
  | .argumentCount n => "accepts 1 arg(s), received " ++ Bytes.ofNat n
  | .unsupportedMode mode => "unsupported mode " ++ mode.quote ++ ": use proc or single"

/-- A flag with the value it is given. -/
abbrev Setting := Flag × Bytes

/-- What one argument says. `opens` is a flag that takes the next argument for its value. -/
inductive ArgKind where
  | word
  | endOfFlags
  | settings (ss : List Setting)
  | opens (ss : List Setting) (flag : Flag) (missing : UsageError)

/-- The words that are read as a truth value. -/
def boolValue? (s : Bytes) : Option Bool :=
  if (["1", "t", "T", "TRUE", "true", "True"] : List Bytes).contains s then some true
  else if (["0", "f", "F", "FALSE", "false", "False"] : List Bytes).contains s then some false
  else none

/-- A switch that stands alone. -/
def Flag.on (f : Flag) : Setting := (f, "true")

/-- A flag with a value that fits it. -/
def setting (f : Flag) (value : Bytes) : Except UsageError Setting :=
  if f.isSwitch && (boolValue? value).isNone then .error (.notBoolean f value) else .ok (f, value)

def dash : UInt8 := Bytes.ascii '-'

def equals : UInt8 := Bytes.ascii '='

/-- An argument after two dashes. -/
def longArg (flags : List Flag) (arg name : Bytes) : Except UsageError ArgKind :=
  if name.head? = some dash || name.head? = some equals then .error (.badSyntax arg)
  else
    let word := name.takeWhile (· ≠ equals)
    match flags.find? fun f => f.name = word with
    | none => .error (.unknownFlag word)
    | some f =>
      match name.dropWhile (· ≠ equals) with
      | _ :: value => do
        let s ← setting f value
        return .settings [s]
      | [] => if f.isSwitch then .ok (.settings [f.on]) else .ok (.opens [] f (.needsValue word))

/-- The letters after one dash. -/
def cluster (flags : List Flag) (before : List Setting) : Bytes → Except UsageError ArgKind
  | [] => .ok (.settings before)
  | b :: rest =>
    match flags.find? fun f => f.letter = some b with
    | none => .error (.unknownLetter b (b :: rest))
    | some f =>
      match rest with
      | e :: v :: value =>
        if e = equals then do
          let s ← setting f (v :: value)
          return .settings (before ++ [s])
        else if f.isSwitch then cluster flags (before ++ [f.on]) rest
        else .ok (.settings (before ++ [(f, rest)]))
      | [_] =>
        if f.isSwitch then cluster flags (before ++ [f.on]) rest
        else .ok (.settings (before ++ [(f, rest)]))
      | [] =>
        if f.isSwitch then .ok (.settings (before ++ [f.on]))
        else .ok (.opens before f (.letterNeedsValue b [b]))

/-- What one argument says. -/
def argKind (flags : List Flag) (arg : Bytes) : Except UsageError ArgKind :=
  match arg with
  | a :: b :: rest =>
    if a ≠ dash then .ok .word
    else if b ≠ dash then cluster flags [] (b :: rest)
    else if rest.isEmpty then .ok .endOfFlags
    else longArg flags arg rest
  | _ => .ok .word

/-- The flags that are set, in order, and the other words. -/
structure Parsed where
  settings : List Setting
  words : List Bytes

/-- Adds what stands before. -/
def Parsed.after (ss : List Setting) (ws : List Bytes) (p : Parsed) : Parsed :=
  ⟨ss ++ p.settings, ws ++ p.words⟩

/-- Reads a list of arguments. -/
def parseFlags (flags : List Flag) : List Bytes → Except UsageError Parsed
  | [] => .ok ⟨[], []⟩
  | arg :: rest =>
    match argKind flags arg with
    | .error e => .error e
    | .ok .word => (parseFlags flags rest).map (·.after [] [arg])
    | .ok .endOfFlags => .ok ⟨[], rest⟩
    | .ok (.settings ss) => (parseFlags flags rest).map (·.after ss [])
    | .ok (.opens ss f missing) =>
      match rest with
      | [] => .error missing
      | value :: rest => (parseFlags flags rest).map (·.after (ss ++ [(f, value)]) [])

/-- The last value that a flag is given. -/
def Parsed.value? (p : Parsed) (f : Flag) : Option Bytes :=
  (p.settings.reverse.find? fun s => s.1.name = f.name).map (·.2)

/-- Whether a switch is on. -/
def Parsed.isOn (p : Parsed) (f : Flag) : Bool := ((p.value? f).bind boolValue?).getD false

end IrafCl.Command
