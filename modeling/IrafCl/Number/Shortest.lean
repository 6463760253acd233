import IrafCl.Number.Binary64

/-!
# The fewest digits that read back

Every positive finite number owns the interval of reals that round to it; its ends belong to the
number when its significand is even. On the grids of 1, 2, … 17 significant decimal digits the two
neighbours of the number are tried, and the first grid with a neighbour inside the interval gives
the digits: the nearer neighbour, and of two equally near ones the even one.
-/

namespace IrafCl

/-- A positive decimal number `digits * 10 ^ exponent`. -/
structure Decimal where
  digits : Nat
  exponent : Int
  deriving DecidableEq, Repr

namespace Binary64

/-- The greatest `k` with `10 ^ k ≤ num / den`, for a positive fraction. -/
def leadingPower (num den : Nat) : Int :=
  if den ≤ num then ((Nat.toDigits 10 (num / den)).length : Int) - 1
  else
    let places := (Nat.toDigits 10 (den / num)).length
    if den ≤ num * Nat.pow 10 (places - 1) then -((places : Int) - 1) else -(places : Int)

/-- Quarter units of the last place: the interval of a number reaches two of them up, and two down
or, below a power of two, one. -/
def gapBelow (x : Binary64) : Nat :=
  if x.fractionField = 0 && 1 < x.exponentField then 1 else 2

/-- Whether `c * 10 ^ p` rounds to `x`. -/
def owns (x : Binary64) (c : Nat) (p : Int) : Bool :=
  let unit := x.scale - 2
  let pow (b : Nat) (e : Int) : Nat := Nat.pow b e.toNat
  let value := c * pow 10 p * pow 2 (-unit)
  let low := (4 * x.significand - x.gapBelow) * pow 2 unit * pow 10 (-p)
  let high := (4 * x.significand + 2) * pow 2 unit * pow 10 (-p)
  if x.significand % 2 = 0 then low ≤ value && value ≤ high else low < value && value < high

/-- The best decimal with the given number of significant digits, if one rounds to `x`. -/
def decimalWith? (x : Binary64) (count : Nat) : Option Decimal :=
  let (num, den) := x.ratio
  let p := leadingPower num den - (count - 1 : Nat)
  let n := num * Nat.pow 10 (-p).toNat
  let d := den * Nat.pow 10 p.toNat
  let c := n / d
  let r := n % d
  let down := x.owns c p
  let up := x.owns (c + 1) p
  let nearerUp : Bool := d < 2 * r || (2 * r = d && c % 2 = 1)
  if down && up then some ⟨if nearerUp then c + 1 else c, p⟩
  else if down then some ⟨c, p⟩
  else if up then some ⟨c + 1, p⟩
  else none

/-- The shortest decimal that rounds to a positive finite number. -/
def shortest (x : Binary64) : Decimal :=
  ((List.range 17).findSome? fun i => x.decimalWith? (i + 1)).getD ⟨0, 0⟩

end Binary64

end IrafCl
