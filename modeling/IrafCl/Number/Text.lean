import IrafCl.Number.Shortest
import IrafCl.Text.Bytes

/-!
# Numbers as text

A floating-point number is written with the fewest digits that read back. Written as
`d.ddd * 10 ^ e` it takes exponent form when `e < -4` or `e ≥ 6`, with a signed exponent of at least
two digits, and plain positional form otherwise. The sign of a negative zero is kept.
-/

namespace IrafCl

namespace Decimal

/-- The digits without trailing zeros, as ASCII bytes. -/
def significant (d : Decimal) : Bytes :=
  Bytes.dropLastWhile (· == Bytes.ascii '0') (Bytes.ofNat d.digits)

/-- The exponent `e` when the decimal is written as `d.ddd * 10 ^ e`. -/
def leading (d : Decimal) : Int := d.exponent + ((Bytes.ofNat d.digits).length : Int) - 1

/-- The least power of ten that is written in exponent form. -/
def exponentFrom : Int := 6

/-- The least power of ten that is written in positional form. -/
def positionalFrom : Int := -4

/-- A signed exponent of at least two digits. -/
def exponentText (e : Int) : Bytes :=
  let digits := Bytes.ofNat e.natAbs
  (if e < 0 then "-" else "+") ++ (if digits.length < 2 then "0" ++ digits else digits)

/-- Exponent form: one digit, the others after a point, and the exponent. -/
def scientific (digits : Bytes) (e : Int) : Bytes :=
  match digits with
  | [] => "0"
  | d :: ds => d :: (if ds.isEmpty then [] else Bytes.ascii '.' :: ds) ++ "e" ++ exponentText e

/-- Positional form. -/
def positional (digits : Bytes) (e : Int) : Bytes :=
  if e < 0 then "0." ++ List.replicate (-e - 1).toNat (Bytes.ascii '0') ++ digits
  else
    let whole := e.toNat + 1
    let frac := digits.drop whole
    digits.take whole ++ List.replicate (whole - digits.length) (Bytes.ascii '0') ++
      (if frac.isEmpty then [] else Bytes.ascii '.' :: frac)

def text (d : Decimal) : Bytes :=
  let e := d.leading
  if e < positionalFrom || exponentFrom ≤ e then scientific d.significant e
  else positional d.significant e

end Decimal

namespace Binary64

/-- The text of a number. -/
def text (x : Binary64) : Bytes :=
  let sign : Bytes := if x.negative then "-" else []
  if x.isNaN then "NaN"
  else if x.isInfinite then if x.negative then "-Inf" else "+Inf"
  else if x.isZero then sign ++ "0"
  else sign ++ (x.shortest).text

end Binary64

end IrafCl
