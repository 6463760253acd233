/-!
# Binary64 numbers

A floating-point number is its 64 bits. A finite one has the magnitude `significand * 2 ^ scale`, so
arithmetic is done on exact fractions of natural numbers and rounded once, to the nearest number and
to the even one of two equally near ones. Too large a magnitude becomes an infinity.
-/

namespace IrafCl

/-- A 64-bit floating-point number, given by its bits. -/
structure Binary64 where
  bits : UInt64
  deriving DecidableEq, Repr

namespace Binary64

/-! ## The three fields -/

def negative (x : Binary64) : Bool := Nat.pow 2 63 ≤ x.bits.toNat

def exponentField (x : Binary64) : Nat := x.bits.toNat / Nat.pow 2 52 % 2048

def fractionField (x : Binary64) : Nat := x.bits.toNat % Nat.pow 2 52

def isNaN (x : Binary64) : Bool := x.exponentField = 2047 && x.fractionField ≠ 0

def isInfinite (x : Binary64) : Bool := x.exponentField = 2047 && x.fractionField = 0

def isFinite (x : Binary64) : Bool := x.exponentField ≠ 2047

/-- The integer significand of a finite number. -/
def significand (x : Binary64) : Nat :=
  if x.exponentField = 0 then x.fractionField else Nat.pow 2 52 + x.fractionField

/-- The power of two that the significand of a finite number is scaled by. -/
def scale (x : Binary64) : Int :=
  if x.exponentField = 0 then -1074 else (x.exponentField : Int) - 1075

def isZero (x : Binary64) : Bool := x.exponentField = 0 && x.fractionField = 0

/-- The number with the given sign whose other 63 bits are `magnitude`. -/
def withSign (neg : Bool) (magnitude : Nat) : Binary64 :=
  ⟨UInt64.ofNat ((if neg then Nat.pow 2 63 else 0) + magnitude)⟩

def zero : Binary64 := ⟨0⟩

def nan : Binary64 := ⟨0x7FF8000000000001⟩

def infinity (neg : Bool) : Binary64 := withSign neg (2047 * Nat.pow 2 52)

/-- The number with the opposite sign. -/
def neg (x : Binary64) : Binary64 := ⟨x.bits ^^^ 0x8000000000000000⟩

/-- Equality of numbers: the two zeros are equal, and a NaN differs from itself. -/
def same (x y : Binary64) : Bool :=
  !x.isNaN && !y.isNaN && (x.bits == y.bits || (x.isZero && y.isZero))

/-! ## Rounding -/

/-- The quotient rounded to the nearest integer, a half to the even one. -/
def roundDiv (num den : Nat) : Nat :=
  let q := num / den
  let r := num % den
  if 2 * r < den then q else if den < 2 * r then q + 1 else q + q % 2

/-- The quotient `num / (den * 2 ^ e)`, rounded. -/
def roundScaled (num den : Nat) : Int → Nat
  | .ofNat e => roundDiv num (den * Nat.pow 2 e)
  | .negSucc e => roundDiv (num * Nat.pow 2 (e + 1)) den

/-- Whether `num / den` reaches `2 ^ 53` units of `2 ^ e`. -/
def reaches53 (num den : Nat) : Int → Bool
  | .ofNat e => den * Nat.pow 2 (e + 53) ≤ num
  | .negSucc e => den * Nat.pow 2 53 ≤ num * Nat.pow 2 (e + 1)

/-- The scale at which a positive fraction has a 53-bit significand, or the least scale there is. -/
def scaleFor (num den : Nat) : Int :=
  let e : Int := (Nat.log2 num : Int) - (Nat.log2 den : Int) - 53
  max (if reaches53 num den e then e + 1 else e) (-1074)

/-- The number nearest to the fraction `num / den`. -/
def ofRatio (neg : Bool) (num den : Nat) : Binary64 :=
  if num = 0 then withSign neg 0
  else
    let e := scaleFor num den
    let magnitude := (e + 1074).toNat * Nat.pow 2 52 + roundScaled num den e
    withSign neg (min magnitude (2047 * Nat.pow 2 52))

/-- The number nearest to an integer. -/
def ofInt (n : Int) : Binary64 := ofRatio (n < 0) n.natAbs 1

/-- The magnitude of a finite number as a fraction: numerator and denominator. -/
def ratio (x : Binary64) : Nat × Nat :=
  match x.scale with
  | .ofNat e => (x.significand * Nat.pow 2 e, 1)
  | .negSucc e => (x.significand, Nat.pow 2 (e + 1))

/-! ## Arithmetic of numbers that are not negative -/

/-- The sum of two numbers that are not negative. -/
def add (x y : Binary64) : Binary64 :=
  if x.isNaN || y.isNaN then nan
  else if x.isInfinite || y.isInfinite then infinity false
  else ofRatio false (x.ratio.1 * y.ratio.2 + y.ratio.1 * x.ratio.2) (x.ratio.2 * y.ratio.2)

/-- A number that is not negative divided by a positive natural number. -/
def divNat (x : Binary64) (n : Nat) : Binary64 :=
  if x.isFinite then ofRatio false x.ratio.1 (x.ratio.2 * n) else x

/-! ## Integers among the numbers -/

/-- Whether a number is an integer; the infinities count as integers. -/
def isIntegral (x : Binary64) : Bool :=
  if x.isFinite then x.ratio.1 % x.ratio.2 = 0 else x.isInfinite

/-- The value of an integral number. -/
def toInt (x : Binary64) : Int :=
  let n : Int := (x.ratio.1 / x.ratio.2 : Nat)
  if x.negative then -n else n

end Binary64

end IrafCl
