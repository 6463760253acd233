import IrafCl.Number.Binary64

/-!
# Short floating-point formats

Floating-point numbers are stored in 16, 32 or 64 bits, whichever is the shortest that keeps the value.
A format has a number of exponent bits and of fraction bits; `widen` reads a number of a short format
exactly, and `narrow` gives the number of the format nearest to it from below.
-/

namespace IrafCl.Cbor

/-- A binary floating-point format. -/
structure FloatFormat where
  exponentBits : Nat
  fractionBits : Nat

namespace FloatFormat

def half : FloatFormat := ⟨5, 10⟩

def single : FloatFormat := ⟨8, 23⟩

/-- The number that exponents are stored above. -/
def bias (f : FloatFormat) : Nat := Nat.pow 2 (f.exponentBits - 1) - 1

/-- The exponent field of infinities and NaNs. -/
def top (f : FloatFormat) : Nat := Nat.pow 2 f.exponentBits - 1

/-- The scale of the smallest numbers. -/
def leastScale (f : FloatFormat) : Int := 1 - (f.bias : Int) - f.fractionBits

/-- The number with the given sign and magnitude `m * 2 ^ e`. -/
def scaled (neg : Bool) (m : Nat) : Int → Binary64
  | .ofNat e => Binary64.ofRatio neg (m * Nat.pow 2 e) 1
  | .negSucc e => Binary64.ofRatio neg m (Nat.pow 2 (e + 1))

/-- The number that the bits of a format stand for. -/
def widen (f : FloatFormat) (bits : Nat) : Binary64 :=
  let neg := bits / Nat.pow 2 (f.exponentBits + f.fractionBits) % 2 = 1
  let exponent := bits / Nat.pow 2 f.fractionBits % Nat.pow 2 f.exponentBits
  let fraction := bits % Nat.pow 2 f.fractionBits
  if exponent = f.top then if fraction = 0 then Binary64.infinity neg else Binary64.nan
  else if exponent = 0 then scaled neg fraction f.leastScale
  else scaled neg (Nat.pow 2 f.fractionBits + fraction) (f.leastScale + (exponent : Int) - 1)

/-- The bits of a format for a number that is no NaN, rounded toward zero. Too large a number becomes an
infinity. -/
def narrow (f : FloatFormat) (x : Binary64) : Nat :=
  let sign := if x.negative then Nat.pow 2 (f.exponentBits + f.fractionBits) else 0
  if x.isInfinite then sign + f.top * Nat.pow 2 f.fractionBits
  else if x.isZero then sign
  else
    let lead : Int := (Nat.log2 x.significand : Int) + x.scale
    let scale := max (lead - f.fractionBits) f.leastScale
    let shift := x.scale - scale
    let m :=
      if 0 ≤ shift then x.significand * Nat.pow 2 shift.toNat
      else x.significand / Nat.pow 2 (-shift).toNat
    let magnitude := (scale - f.leastScale).toNat * Nat.pow 2 f.fractionBits + m
    sign + min magnitude (f.top * Nat.pow 2 f.fractionBits)

/-- The bits of a format for a number, if it keeps the value. -/
def narrow? (f : FloatFormat) (x : Binary64) : Option Nat :=
  let bits := f.narrow x
  if f.widen bits = x then some bits else none

end FloatFormat

end IrafCl.Cbor
