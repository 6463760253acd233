import IrafCl.Failure
import IrafCl.Number.Reading
import IrafCl.Number.Text
import IrafCl.Text.Blank
import IrafCl.Text.Quoted

/-!
# Values of parameters

A value is a number, a text, a truth value, the undefined value `INDEF`, or no value at all. Declared
types fall into classes by the kind of value they hold, and `Value.convert` coerces a literal to a
declared type: integral numbers become integers, integers become floating-point numbers, texts are
read, and anything becomes text. No value and `INDEF` fit every type.
-/

namespace IrafCl

/-- A value. `unknown` stands for a stored value of a kind that does not exist. -/
inductive Value where
  | none
  | int (n : Int64)
  | float (x : Binary64)
  | string (s : Bytes)
  | bool (b : Bool)
  | undefined
  | unknown
  deriving DecidableEq, Repr

/-- What kind of value a declared type holds. -/
inductive TypeClass where
  | int
  | float
  | string
  | bool
  | any
  deriving DecidableEq, Repr

namespace TypeClass

def name : TypeClass → String
  | .int => "int"
  | .float => "float"
  | .string => "string"
  | .bool => "bool"
  | .any => "indef"

/-- The class of a declared type; a type with no class of its own holds text. -/
def ofType (type : Bytes) : TypeClass :=
  if type = "int" then .int
  else if type = "real" || type = "double" then .float
  else if type = "bool" then .bool
  else if type = "pset" then .any
  else .string

end TypeClass

namespace Value

def kindName : Value → String
  | .none => "none"
  | .int _ => "int"
  | .float _ => "float"
  | .string _ => "string"
  | .bool _ => "bool"
  | .undefined => "indef"
  | .unknown => "unknown"

/-- The names of the kinds of values by number. -/
def kindNameOf : Int → String
  | 0 => "none"
  | 1 => "int"
  | 2 => "float"
  | 3 => "string"
  | 4 => "bool"
  | 5 => "indef"
  | _ => "unknown"

def isNumeric : Value → Bool
  | .int _ | .float _ => true
  | _ => false

/-- Whether there is nothing to check or convert: no value, or `INDEF`. -/
def isOpen : Value → Bool
  | .none | .undefined => true
  | _ => false

/-- The value of a number as a floating-point number. -/
def asFloat : Value → Binary64
  | .int n => Binary64.ofInt n.toInt
  | .float x => x
  | _ => .zero

/-- The value as CL prints it. -/
def text : Value → Bytes
  | .int n => Bytes.ofInt n.toInt
  | .float x => x.text
  | .string s => s
  | .bool b => if b then "yes" else "no"
  | .undefined => "INDEF"
  | _ => []

/-- Equality of values. Floating-point numbers compare as numbers, so a NaN differs from itself. -/
def same : Value → Value → Bool
  | .float x, .float y => x.same y
  | v, w => v = w

/-- The integer that an integral number is. Beyond 64 bits it is the least integer. -/
def truncate (x : Binary64) : Int64 :=
  let n := x.toInt
  if x.isFinite && Int64.minValue.toInt ≤ n && n ≤ Int64.maxValue.toInt then Int64.ofInt n
  else Int64.minValue

/-- The words for truth values, in any case. -/
def boolWord? (s : Bytes) : Option Bool :=
  let w := Bytes.lower s
  if w = "yes" || w = "y" then some true
  else if w = "no" || w = "n" then some false
  else Option.none

/-- Text with the exponent mark `d` replaced by `e`. -/
def plainExponent (s : Bytes) : Bytes :=
  s.map fun b => if b = Bytes.ascii 'd' || b = Bytes.ascii 'D' then Bytes.ascii 'e' else b

/-- Coerces a value to a class, if it can be. -/
def coerce? : TypeClass → Value → Option Value
  | _, .none => some .none
  | _, .undefined => some .undefined
  | .int, .int n => some (.int n)
  | .int, .float x => if x.isIntegral then some (.int (truncate x)) else Option.none
  | .int, .string s =>
    let s := s.trim
    if s = "INDEF" then some .undefined else (Reading.int? 10 s).map .int
  | .float, .float x => some (.float x)
  | .float, .int n => some (.float (Binary64.ofInt n.toInt))
  | .float, .string s =>
    let s := s.trim
    if s = "INDEF" then some .undefined else (Reading.float? (plainExponent s)).map .float
  | .bool, .bool b => some (.bool b)
  | .bool, .string s => (boolWord? s.trim).map .bool
  | .any, v => some v
  | .string, .string s => some (.string s)
  | .string, v => some (.string v.text)
  | _, _ => Option.none

/-- The failure when a value does not fit a type. -/
def misfit (type : Bytes) (v : Value) : Failure :=
  .atLine .conversion 0
    ("cannot convert " ++ v.kindName ++ " value " ++ v.text.quote ++ " to " ++ type)

/-- Coerces a value to a declared type. -/
def convert (type : Bytes) (v : Value) : Except Failure Value :=
  match coerce? (TypeClass.ofType type) v with
  | some w => .ok w
  | Option.none => .error (misfit type v)

end Value

end IrafCl
