import IrafCl.Param.Value
import IrafCl.Script.Syntax

/-!
# The values of constants

A constant denotes a value: integers in base 8, 10 and 16 must fit 64 bits, floating-point numbers may
have `d` for their exponent mark, and a sexagesimal constant is a sum of sixtieths. Only numbers take
a sign.
-/

namespace IrafCl.Script

/-- Every exponent mark replaced by the given one. -/
def exponentMark (mark : Char) (text : Bytes) : Bytes :=
  text.map fun b =>
    if b = Bytes.ascii 'd' || b = Bytes.ascii 'D' || b = Bytes.ascii 'e' || b = Bytes.ascii 'E' then
      Bytes.ascii mark
    else b

/-- The sum of parts, each worth a sixtieth of the one before; `scale` divides the first. -/
def sexagesimalSum (total : Binary64) (scale : Nat) : List Bytes → Option Binary64
  | [] => some total
  | part :: parts => do
    let x ← Reading.float? part
    sexagesimalSum (total.add (x.divNat scale)) (scale * 60) parts

/-- The number that a sexagesimal constant denotes. -/
def sexagesimal? (text : Bytes) : Option Binary64 :=
  sexagesimalSum .zero 1 (Bytes.pieces (Bytes.ascii ':') text)

namespace Constant

/-- The value of a constant, if its number is in range. -/
def value? (c : Constant) : Option Value :=
  match c.kind with
  | .integer => (Reading.int? 10 c.text).map .int
  | .octal => (Reading.int? 8 c.text.dropLast).map .int
  | .hex => (Reading.int? 16 c.text.dropLast).map .int
  | .float => (Reading.float? (exponentMark 'e' c.text)).map .float
  | .sexagesimal => (sexagesimal? c.text).map .float
  | .string => some (.string c.body)
  | .bool => some (.bool (c.text = "yes"))
  | .undefined => some .undefined

/-- The value of a constant. -/
def value (c : Constant) : Except Failure Value :=
  match c.value? with
  | some v => .ok v
  | none => .error (.atLine .conversion c.line ("invalid literal " ++ c.text.quote))

end Constant

namespace SignedConstant

/-- The failure when a sign stands before something that is no number. -/
def misplacedSign (c : SignedConstant) (sign : Bytes) (v : Value) : Failure :=
  .atLine .syntactic c.line ("unary " ++ sign ++ " applied to " ++ v.kindName ++ " literal")

/-- The value of a constant with its sign. -/
def value (c : SignedConstant) : Except Failure Value := do
  let v ← c.constant.value
  match c.sign, v with
  | none, v => return v
  | some .plus, .int n => return .int n
  | some .plus, .float x => return .float x
  | some .plus, v => .error (c.misplacedSign "+" v)
  | some .minus, .int n => return .int (-n)
  | some .minus, .float x => return .float x.neg
  | some .minus, v => .error (c.misplacedSign "-" v)

end SignedConstant

end IrafCl.Script
