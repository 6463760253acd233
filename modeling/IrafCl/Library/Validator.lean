import IrafCl.Param.Schema

/-!
# A validator of schemas

A value is checked against a base type first, and then against choices, a greatest length and bounds. The first
constraint it breaks is reported. Numbers are compared exactly as they are written; one that is not finite is within all
bounds.
-/

namespace IrafCl.Schema

/-! ## Exact comparison -/

/-- A number as a fraction, exactly as its text says. -/
def fraction : Value → Int × Nat
  | .int n => (n.toInt, 1)
  | .float x =>
    if x.isFinite && !x.isZero then
      let d := x.shortest
      let n : Int := d.digits * Nat.pow 10 d.exponent.toNat
      (if x.negative then -n else n, Nat.pow 10 (-d.exponent).toNat)
    else (0, 1)
  | _ => (0, 1)

/-- Whether one number is less than another. -/
def less (v w : Value) : Bool :=
  let (a, b) := fraction v
  let (c, d) := fraction w
  isFinite v && isFinite w && a * d < c * b

/-! ## Checking -/

/-- The base type that a value shows; an integral number is an integer. -/
def conforms : BaseType → Value → Bool
  | .integer, .int _ => true
  | .integer, .float x => x.isFinite && x.isIntegral
  | .number, v => v.isNumeric
  | .boolean, .bool _ => true
  | .string, .string _ => true
  | _, _ => false

/-- The base type of a value that does not conform. -/
def shown : Value → String
  | .string _ => "string"
  | .bool _ => "boolean"
  | .int _ | .float _ => "number"
  | _ => "null"

/-- A choice as messages and comparisons see it: every stray byte is a replacement character. -/
def cleaned (s : Bytes) : Bytes :=
  s.scalars.flatMap fun
    | .stray _ => [0xEF, 0xBF, 0xBD]
    | .char c => String.utf8EncodeChar c

/-- The message about a value that is none of the choices. -/
def choiceMessage (choices : List Bytes) : Bytes :=
  match choices with
  | [c] => "value must be " ++ (cleaned c).quote
  | _ => "value must be one of " ++ Bytes.join ", " (choices.map fun c => (cleaned c).quote)

/-- Checks that follow the base type, in order. -/
def detail? (s : Schema) (v : Value) : Option Bytes :=
  let outside (limit : Option Value) (broken : Value → Bool) (relation : Bytes) : Option Bytes :=
    match limit with
    | some b =>
      if broken b then some ("must be " ++ relation ++ " " ++ b.asFloat.text ++ " but found " ++ v.text)
      else none
    | none => none
  let wrongChoice : Option Bytes := match v with
    | .string t =>
      if s.choices.isEmpty || (s.choices.map cleaned).contains t then none
      else some (choiceMessage s.choices)
    | _ => none
  let tooLong : Option Bytes := match v, s.maxLength with
    | .string t, some n =>
      let count := t.scalars.length
      if n.toInt < count then
        some ("length must be <= " ++ Bytes.ofInt n.toInt ++ ", but got " ++ Bytes.ofNat count)
      else none
    | _, _ => none
  let tooSmall := if v.isNumeric then outside s.minimum (fun b => less v b) ">=" else none
  let tooLarge := if v.isNumeric then outside s.maximum (fun b => less b v) "<=" else none
  wrongChoice.or (tooLong.or (tooSmall.or tooLarge))

/-- The first constraint that a value breaks. -/
def violation? (s : Schema) (v : Value) : Option Bytes :=
  match s.base with
  | none => none
  | some base =>
    if conforms base v then s.detail? v
    else some ("expected " ++ base.name ++ ", but got " ++ shown v)

end IrafCl.Schema
