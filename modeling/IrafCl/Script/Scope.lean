import IrafCl.Param.List
import IrafCl.Param.Defaults
import IrafCl.Script.Literal

/-!
# What a program declares

The declarations of a program, in source order, give its parameters and local variables. The arguments
of the signature come first and must all be declared. An external parameter list takes precedence over
the declarations, or replaces them. Every procedure also has the parameters `mode` and `$nargs`.

Faults stop the reading at once. Defaults that break the constraints of their own declaration are
warnings; where the constraints cannot be checked a note is left.
-/

namespace IrafCl.Script

/-- A parameter list from outside; an authoritative one replaces what the program declares. -/
structure External where
  params : ParamList
  authoritative : Bool

/-- How to compile a program. -/
structure Settings where
  filename : Bytes := []
  mode : Bytes := "proc"
  external : Option External := none

/-- The names of the parameters that every procedure has. -/
def modeParam : Bytes := "mode"

def nargsParam : Bytes := "$nargs"

def taskParam : Bytes := "taskObj"

/-- Whether a parameter is supplied for every procedure. -/
def isSupplied (name : Bytes) : Bool := name = modeParam || name = nargsParam || name = taskParam

/-- The declared names. Notes name the variables whose defaults could not be checked. -/
structure Scope where
  procedure : Bytes
  isProcedure : Bool
  args : List Bytes
  params : ParamList
  locals : ParamList
  warnings : List Bytes
  notes : List (Bytes × Failure)

namespace Scope

def empty : Scope := ⟨[], false, [], .empty, .empty, [], []⟩

/-- The variable that a name refers to; parameters come first. -/
def lookup? (s : Scope) (name : Bytes) : Option Variable := (s.params.get? name).or (s.locals.get? name)

/-! ## Reading one declaration -/

/-- The value of a constant converted to a declared type. -/
def convertConstant (type : Bytes) (c : SignedConstant) : Except Failure Value := do
  let v ← c.value
  match v.convert type with
  | .ok w => return w
  | .error f => .error (f.withLine c.line)

/-- The first element with the least measure. -/
def leastBy {α : Type} (measure : α → Nat) : List α → Option α
  | [] => none
  | x :: xs => match leastBy measure xs with
    | none => some x
    | some y => if measure y < measure x then some y else some x

/-- The distance from which on a word is no longer close. -/
def farDistance : Nat := 3

/-- The word that a mistyped one most likely meant: the nearest of those that contain it, otherwise the nearest of all
if it is close. -/
def suggest? [Library] (word : Bytes) (words : List Bytes) : Option Bytes :=
  match leastBy Prod.snd (Library.ranks word words) with
  | some (found, _) => some found
  | none =>
    let distance := Library.distance (Bytes.lower word)
    leastBy distance (words.filter fun w => distance w < farDistance)

/-- The message about an option that does not exist. -/
def unknownOption [Library] (key name : Bytes) : Bytes :=
  let hint : Bytes := match suggest? key Options.names with
    | some s => "; did you mean '" ++ s ++ "'?"
    | none => []
  "unknown option '" ++ key ++ "' for variable '" ++ name ++ "'" ++ hint

/-- Applies a named option to a variable. -/
def applyOption [Library] (v : Variable) (key : Bytes) (c : SignedConstant) (line : Int) :
    Except Failure Variable := do
  let raw ← c.value
  let bound : Except Failure Value := match raw.convert v.type with
    | .ok w => .ok w
    | .error f => .error (f.withLine line)
  if key = "mode" then return { v with mode := raw.text }
  else if key = "prompt" then return { v with options.prompt := raw.text }
  else if key = "enum" then return { v with options.choices := raw.text }
  else if key = "length" then
    match raw with
    | .int n => return { v with options.length := n }
    | _ => .error (.atLine .syntactic line ("option 'length' of '" ++ v.name ++ "' must be an integer"))
  else if key = "min" then
    let b ← bound
    return { v with options.min := b }
  else if key = "max" then
    let b ← bound
    return { v with options.max := b }
  else .error (.atLine .syntactic line (unknownOption key v.name))

/-- Applies the items between braces in order. A value among them is the initial value, which may be
given only once. -/
def applyItems [Library] (v : Variable) (values : Option (List Value)) :
    List OptionItem → Except Failure (Variable × List Value)
  | [] => .ok (v, values.getD [])
  | .value c :: items =>
    match values with
    | some _ => .error (.atLine .syntactic c.line ("initial value for '" ++ v.name ++ "' given twice"))
    | none => do
      let w ← convertConstant v.type c
      applyItems v (some [w]) items
  | .named key c line :: items => do
    let v ← applyOption v key c line
    applyItems v values items

/-- The variable with its name and shape. -/
def declared (type : Bytes) : Declarator → Except Failure Variable
  | .scalar name => .ok (.scalar name type [])
  | .list name => .ok { Variable.scalar name type [] with isList := true }
  | .array name size => do
    match ← size.value with
    | .int n => return { Variable.scalar name type [] with arraySize := n }
    | _ => return .scalar name type []

/-- How many initial values a variable holds. -/
def capacity (v : Variable) : Nat := if v.isArray then v.arraySize.toInt.toNat else 1

/-- The variable that a declaration describes; missing initial values are left open. -/
def ofDecl [Library] (type : Bytes) (d : VarDecl) : Except Failure Variable := do
  let v ← declared type d.declarator
  let given ← d.values.mapM fun cs => cs.mapM (convertConstant type)
  let (v, values) ← applyItems v given d.options
  if capacity v < values.length then
    .error (.atLine .syntactic d.line ("too many initial values for '" ++ v.name ++ "'"))
  else
    return { v with initial := some (values ++ List.replicate (capacity v - values.length) .none) }

/-! ## Entering declarations -/

/-- The variable with a mode, unless it has one. -/
def withMode (v : Variable) (mode : Bytes) : Variable := if v.mode.isEmpty then { v with mode } else v

/-- Enters a local variable. -/
def defineLocal (s : Scope) (v : Variable) (line : Int) : Except Failure Scope :=
  if s.locals.has v.name then
    .error (.atLine .syntactic line ("local variable '" ++ v.name ++ "' redeclared"))
  else if s.params.has v.name then
    .error (.atLine .syntactic line ("local variable '" ++ v.name ++ "' conflicts with a parameter"))
  else do
    let locals ← s.locals.add (withMode v "u")
    return { s with locals }

/-- Enters a parameter. An argument of the signature has its place already, with no type yet. -/
def defineParam (s : Scope) (v : Variable) (line : Int) : Except Failure Scope :=
  match s.params.get? v.name with
  | some prev =>
    if prev.type ≠ [] then
      .error (.atLine .syntactic line ("parameter '" ++ v.name ++ "' redeclared"))
    else .ok { s with params := s.params.set (withMode v prev.mode) }
  | none => do
    let params ← s.params.add (withMode v "h")
    return { s with params }

/-- Adds what the check of a variable's defaults says. -/
def checkDefaults [Library] (s : Scope) (v : Variable) : Scope :=
  match v.checkDefaults with
  | .ok messages => { s with warnings := s.warnings ++ messages }
  | .error f => { s with notes := s.notes ++ [(v.name, f)] }

/-- Where a variable is declared. -/
inductive Place where
  | param
  | inBody
  deriving DecidableEq

/-- Enters one declaration. -/
def declare [Library] (s : Scope) (place : Place) (type : Bytes) (d : VarDecl) : Except Failure Scope := do
  let v ← ofDecl type d
  let s ← match place with
    | .param => s.defineParam v d.line
    | .inBody => s.defineLocal v d.line
  return s.checkDefaults v

/-- Enters declarations up to the first fault. The scope so far comes with it. -/
def declareAll [Library] (s : Scope) : List (Place × Bytes × VarDecl) → Scope × Option Failure
  | [] => (s, none)
  | (place, type, d) :: rest =>
    match s.declare place type d with
    | .ok s => s.declareAll rest
    | .error f => (s, some f)

/-- The declarations of a header in source order. -/
def entries (h : Header) : List (Place × Bytes × VarDecl) :=
  let of (place : Place) (ds : List Declaration) : List (Place × Bytes × VarDecl) :=
    ds.flatMap fun d => d.vars.map fun v => (place, d.type, v)
  of .param h.params ++ of .inBody h.locals

/-- Enters the arguments of a signature, as parameters that await their declaration. -/
def enterArgs (s : Scope) : List (Bytes × Int) → Except Failure Scope
  | [] => .ok s
  | (name, line) :: rest =>
    if s.params.has name then
      .error (.atLine .syntactic line ("duplicate argument '" ++ name ++ "' in procedure statement"))
    else
      enterArgs { s with args := s.args ++ [name], params := s.params.append (.scalar name [] "a") } rest

/-- Enters the signature of a procedure. -/
def enterSignature (s : Scope) : Option Signature → Except Failure Scope
  | none => .ok s
  | some sig => { s with procedure := sig.name, isProcedure := true }.enterArgs sig.args

/-! ## The procedure name of a script -/

/-- The last component of a path. -/
def baseName (path : Bytes) : Bytes :=
  if path.isEmpty then "."
  else
    let path := Bytes.dropLastWhile (· == Bytes.ascii '/') path
    if path.isEmpty then "/"
    else (Bytes.pieces (Bytes.ascii '/') path).getLastD []

/-- A name without its last dot and what follows it. -/
def dropExtension (name : Bytes) : Bytes :=
  if name.contains (Bytes.ascii '.') then
    (name.reverse.dropWhile (· ≠ Bytes.ascii '.')).tail.reverse
  else name

/-- A character as it appears in a procedure name. -/
def nameByte (atStart : Bool) : Scalar → Bytes
  | .char c =>
    if c == '_' || c.isAlpha then [Bytes.ascii c]
    else if c.isDigit then if atStart then [95, Bytes.ascii c] else [Bytes.ascii c]
    else [95]
  | .stray _ => [95]

/-- The procedure name of a script in the given file. -/
def scriptName (filename : Bytes) : Bytes :=
  let base := dropExtension (baseName filename)
  if base.isEmpty || base = "." || base = "/" then "clscript"
  else match base.scalars with
    | [] => []
    | x :: xs => nameByte true x ++ xs.flatMap (nameByte false)

/-! ## External parameters and supplied ones -/

/-- The list without the parameters that every procedure has. -/
def withoutSupplied (p : ParamList) : ParamList :=
  ((p.remove modeParam).remove nargsParam).remove taskParam

/-- The fault when an argument was never declared. -/
def undeclaredArg? (s : Scope) : Option Failure :=
  (s.args.find? fun a => (s.params.get? a).any fun v => v.type = []).map fun a =>
    .atLine .syntactic 0 ("procedure argument '" ++ a ++ "' is not declared")

/-- Brings in an external parameter list. -/
def mergeExternal (s : Scope) : Option External → Except Failure Scope
  | none => .ok s
  | some ext =>
    match s.locals.vars.find? fun l => ext.params.has l.name with
    | some l =>
      .error (.atLine .syntactic 0
        ("local variable '" ++ l.name ++ "' conflicts with external parameter list"))
    | none =>
      let mismatches := (withoutSupplied s.params).compare (withoutSupplied ext.params)
      let warnings := mismatches.map fun m => ("external parameter list mismatch: " ++ m : Bytes)
      let params := if ext.authoritative then ext.params else s.params.setAll ext.params.vars
      .ok { s with params, warnings := s.warnings ++ warnings }

/-- The parameter `mode` as it is supplied. -/
def suppliedMode : Variable := { Variable.scalar modeParam "string" "h" with initial := some [.string "al"] }

/-- The parameter `$nargs` as it is supplied. -/
def suppliedNargs : Variable := { Variable.scalar nargsParam "int" "h" with initial := some [.int 0] }

/-- Supplies the parameters that every procedure has. -/
def supply (s : Scope) : Scope :=
  let params := if s.params.has modeParam then s.params else s.params.append suppliedMode
  { s with params := (((params.remove nargsParam).append suppliedNargs).remove taskParam) }

/-- What follows the declarations: the checks and additions that need all of them. -/
def finish (s : Scope) (st : Settings) : Except Failure Scope :=
  match s.undeclaredArg? with
  | some f => .error f
  | none => do
    let s := if s.isProcedure then s else { s with procedure := scriptName st.filename }
    let s ← s.mergeExternal st.external
    return s.supply

/-- The scope of a program, and the notes left on the way. -/
def ofHeader [Library] (st : Settings) (h : Header) : List (Bytes × Failure) × Except Failure Scope :=
  match empty.enterSignature h.signature with
  | .error f => ([], .error f)
  | .ok s =>
    match s.declareAll (entries h) with
    | (s, some f) => (s.notes, .error f)
    | (s, none) => (s.notes, s.finish st)

end Scope

end IrafCl.Script
