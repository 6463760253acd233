import IrafCl.Cache.Version
import IrafCl.Cbor.Reader
import IrafCl.Script.Unit

/-!
# Stored units

A compiled unit is stored as a CBOR map. Its members go by number, those of variables, options and
values by name, the shorter names first. Reading is lenient: a member that is missing or null has its
empty value, the first of several members of a name counts, names match in any case, and unknown members
are skipped. A member of the wrong type, or a text that is not UTF-8, makes the whole entry unreadable.
-/

namespace IrafCl

/-- A compiled unit as it is stored. -/
structure Entry where
  code : Bytes
  filename : Bytes
  procedure : Bytes
  isProcedure : Bool
  warnings : List Bytes
  params : List Variable
  locals : List Variable
  deriving DecidableEq, Repr

/-! ## Writing -/

/-- The number of a kind of value. -/
def Value.kindNumber : Value → Nat
  | .none => 0
  | .int _ => 1
  | .float _ => 2
  | .string _ => 3
  | .bool _ => 4
  | .undefined => 5
  | .unknown => 6

/-- A value with all its members; those of other kinds are empty. -/
def Value.toCbor (v : Value) : Cbor :=
  let int : Int64 := match v with | .int n => n | _ => 0
  let text : Bytes := match v with | .string s => s | _ => []
  let bool := match v with | .bool b => b | _ => false
  let float := match v with | .float x => x | _ => .zero
  .ofFields [("Int", .ofInt int.toInt), ("Str", .ofText text), ("Bool", .bool bool),
    ("Kind", .unsigned v.kindNumber), ("Float", .float float)]

def Options.toCbor (o : Options) : Cbor :=
  .ofFields [("Max", o.max.toCbor), ("Min", o.min.toCbor), ("Enum", .ofText o.choices),
    ("Length", .ofInt o.length.toInt), ("Prompt", .ofText o.prompt)]

def Variable.toCbor (v : Variable) : Cbor :=
  let initial : Cbor := match v.initial with
    | some vs => .array (vs.map Value.toCbor)
    | none => .null
  .ofFields [("Init", initial), ("List", .bool v.isList), ("Mode", .ofText v.mode),
    ("Name", .ofText v.name), ("Type", .ofText v.type), ("Options", v.options.toCbor),
    ("ArraySize", .ofInt v.arraySize.toInt)]

namespace Entry

/-- A numbered member that is left out when it is empty. -/
def listMember (n : Nat) (items : List Cbor) : List CborPair :=
  if items.isEmpty then [] else [.mk (.unsigned n) (.array items)]

def toCbor (e : Entry) : Cbor :=
  .map ([.mk (.unsigned 1) (.ofText Version.current), .mk (.unsigned 2) (.ofText e.code),
      .mk (.unsigned 3) (.ofText e.filename), .mk (.unsigned 4) (.ofText e.procedure),
      .mk (.unsigned 5) (.bool e.isProcedure)] ++
    listMember 6 (e.warnings.map Cbor.ofText) ++ listMember 7 (e.params.map Variable.toCbor) ++
    listMember 8 (e.locals.map Variable.toCbor))

/-- The stored form of an entry. -/
def encode (e : Entry) : Bytes := e.toCbor.encode

end Entry

/-! ## Reading -/

namespace Cbor

/-- Whether a key is a possible name of a member: a number or a text. -/
def isMemberKey : Cbor → Bool
  | .unsigned _ => true
  | .negative n => n < Nat.pow 2 63
  | .text chunks => chunks.all Bytes.isUtf8
  | _ => false

/-- The members of a map whose keys are all possible names. -/
def members? : Cbor → Option (List CborPair)
  | .map pairs => if pairs.all fun | .mk k _ => isMemberKey k then some pairs else none
  | _ => none

/-- Whether a key names the given member. -/
def names (name : Bytes) (number : Option Nat) : Cbor → Bool
  | .text chunks => Bytes.lower chunks.flatten = Bytes.lower name
  | .unsigned n => number = some n
  | _ => false

/-- The first member of a name that is not null. -/
def member? (name : Bytes) (number : Option Nat) (pairs : List CborPair) : Option Cbor :=
  match pairs.find? fun | .mk k _ => names name number k with
  | some (.mk _ .null) => none
  | some (.mk _ v) => some v
  | none => none

/-- Reads a member; without it the empty value is taken. -/
def readMember {α : Type} (pairs : List CborPair) (name : Bytes) (number : Option Nat) (empty : α)
    (read : Cbor → Option α) : Option α :=
  match member? name number pairs with
  | some v => read v
  | none => some empty

/-- Reads a member that goes by its name alone. -/
def named {α : Type} (pairs : List CborPair) (name : Bytes) (empty : α) (read : Cbor → Option α) :
    Option α :=
  readMember pairs name none empty read

def asText? : Cbor → Option Bytes
  | .text chunks => if chunks.all Bytes.isUtf8 then some chunks.flatten else none
  | .null => some []
  | _ => none

def asInt? : Cbor → Option Int64
  | .unsigned n | .simple n => if n < Nat.pow 2 63 then some (Int64.ofInt n) else none
  | .negative n => if n < Nat.pow 2 63 then some (Int64.ofInt (-1 - n)) else none
  | _ => none

def asFloat? : Cbor → Option Binary64
  | .float x => some x
  | .unsigned n | .simple n => some (Binary64.ofInt n)
  | .negative n => if n < Nat.pow 2 63 then some (Binary64.ofInt (-1 - n)) else none
  | _ => none

def asBool? : Cbor → Option Bool
  | .bool b => some b
  | _ => none

/-- The items of an array, read one by one. -/
def asList? {α : Type} (read : Cbor → Option α) : Cbor → Option (List α)
  | .array items => items.mapM read
  | _ => none

end Cbor

/-- The value of a kind by its number. -/
def Value.ofKind (kind int : Int64) (float : Binary64) (text : Bytes) (bool : Bool) : Value :=
  if kind = 0 then .none
  else if kind = 1 then .int int
  else if kind = 2 then .float float
  else if kind = 3 then .string text
  else if kind = 4 then .bool bool
  else if kind = 5 then .undefined
  else .unknown

def Value.ofCbor? : Cbor → Option Value
  | .null => some .none
  | c => do
    let m ← c.members?
    let kind ← Cbor.named m "Kind" 0 Cbor.asInt?
    let int ← Cbor.named m "Int" 0 Cbor.asInt?
    let float ← Cbor.named m "Float" .zero Cbor.asFloat?
    let text ← Cbor.named m "Str" [] Cbor.asText?
    let bool ← Cbor.named m "Bool" false Cbor.asBool?
    return .ofKind kind int float text bool

def Options.ofCbor? (c : Cbor) : Option Options := do
  let m ← c.members?
  let min ← Cbor.named m "Min" .none Value.ofCbor?
  let max ← Cbor.named m "Max" .none Value.ofCbor?
  let prompt ← Cbor.named m "Prompt" [] Cbor.asText?
  let choices ← Cbor.named m "Enum" [] Cbor.asText?
  let length ← Cbor.named m "Length" 0 Cbor.asInt?
  return ⟨min, max, prompt, choices, length⟩

def Variable.ofCbor? : Cbor → Option Variable
  | .null => some (.scalar [] [] [])
  | c => do
    let m ← c.members?
    let name ← Cbor.named m "Name" [] Cbor.asText?
    let type ← Cbor.named m "Type" [] Cbor.asText?
    let mode ← Cbor.named m "Mode" [] Cbor.asText?
    let arraySize ← Cbor.named m "ArraySize" 0 Cbor.asInt?
    let initial ← Cbor.named m "Init" none fun v => (Cbor.asList? Value.ofCbor? v).map some
    let isList ← Cbor.named m "List" false Cbor.asBool?
    let options ← Cbor.named m "Options" .empty Options.ofCbor?
    return ⟨name, type, mode, arraySize, initial, isList, options⟩

namespace Entry

/-- A numbered member. -/
def numbered {α : Type} (m : List CborPair) (n : Nat) (empty : α) (read : Cbor → Option α) : Option α :=
  Cbor.readMember m (Bytes.ofNat n) (some n) empty read

/-- The version and the entry of an item. -/
def ofCbor? (c : Cbor) : Option (Bytes × Entry) := do
  let m ← match c with
    | .null => some []
    | c => c.members?
  let version ← numbered m 1 [] Cbor.asText?
  let code ← numbered m 2 [] Cbor.asText?
  let filename ← numbered m 3 [] Cbor.asText?
  let procedure ← numbered m 4 [] Cbor.asText?
  let isProcedure ← numbered m 5 false Cbor.asBool?
  let warnings ← numbered m 6 [] (Cbor.asList? Cbor.asText?)
  let params ← numbered m 7 [] (Cbor.asList? Variable.ofCbor?)
  let locals ← numbered m 8 [] (Cbor.asList? Variable.ofCbor?)
  return (version, ⟨code, filename, procedure, isProcedure, warnings, params, locals⟩)

/-- The entry of its stored form. -/
def decode (data : Bytes) : Except Failure Entry :=
  match (Cbor.decode? data).bind ofCbor? with
  | none => .error (.plain "CBOR decoding failed")
  | some (version, e) =>
    if Version.isReadable version then .ok e
    else .error (.plain ("unsupported format version: got " ++ version.quote ++ ", expected v1"))

/-- The stored form of a unit. -/
def ofUnit (u : Script.CompiledUnit) : Entry :=
  ⟨u.code, u.filename, u.procedure, u.isProcedure, u.warnings, u.params.vars, u.locals⟩

/-- The unit of a stored form. -/
def toUnit (e : Entry) : Script.CompiledUnit :=
  ⟨e.code, e.filename, e.procedure, e.isProcedure, .ofVars e.params, e.locals, e.warnings⟩

end Entry

end IrafCl
