import IrafCl.Number.Binary64
import IrafCl.Text.Bytes

/-!
# Reading numbers

Integers are an optional sign and digits of a base, and must fit 64 bits. Floating-point numbers are
decimal or hexadecimal (`0x…p…`, exponent required), or one of the words for infinity and NaN in any
case; an underscore may stand between two digits or after the hexadecimal mark. A number whose
nearest floating-point number is infinite is out of range.
-/

namespace IrafCl

namespace Reading

/-- Takes an optional sign off a text; true for a minus. -/
def signOf : Bytes → Bool × Bytes
  | b :: rest => if b = 45 then (true, rest) else if b = 43 then (false, rest) else (false, b :: rest)
  | [] => (false, [])

/-- The value of a digit in a base up to 16. -/
def digit? (base : Nat) (b : UInt8) : Option Nat :=
  (Bytes.hexValue? b).filter (· < base)

/-- The value of a sequence of digits. -/
def digits? (base : Nat) (s : Bytes) : Option Nat :=
  s.foldlM (fun n b => (digit? base b).map (base * n + ·)) 0

/-- A signed 64-bit integer in the given base. -/
def int? (base : Nat) (s : Bytes) : Option Int64 := do
  let (neg, rest) := signOf s
  guard (!rest.isEmpty)
  let n ← digits? base rest
  if neg then
    guard (n ≤ Nat.pow 2 63)
    return Int64.ofInt (-n)
  else
    guard (n < Nat.pow 2 63)
    return Int64.ofInt n

/-! ## Underscores -/

/-- What stood before the byte at hand. -/
inductive Before where
  | start
  | digit
  | underscore
  | other
  deriving DecidableEq

/-- Whether every underscore stands between digits, given what stood before. -/
def separates (hex : Bool) : Before → Bytes → Bool
  | last, [] => last ≠ .underscore
  | last, b :: rest =>
    if Bytes.isDigit b || (hex && (Bytes.hexValue? b).isSome) then separates hex .digit rest
    else if b = 95 then last = .digit && separates hex .underscore rest
    else last ≠ .underscore && separates hex .other rest

/-- Whether the underscores of a number are well placed; a base mark counts as a digit. -/
def underscoresOk (s : Bytes) : Bool :=
  match (signOf s).2 with
  | a :: b :: rest =>
    let mark := Bytes.lowerByte b
    if a = 48 && (mark = 98 || mark = 111 || mark = 120) then separates (mark = 120) .digit rest
    else separates false .start (a :: b :: rest)
  | rest => separates false .start rest

/-! ## Floating-point numbers -/

/-- The digits of an exponent. Reading stops to grow at five digits, far beyond every range. -/
def exponentDigits (s : Bytes) : Nat :=
  s.foldl (fun e b => if e < 10000 then 10 * e + (b.toNat - 48) else e) 0

/-- An exponent after its mark: an optional sign and at least one decimal digit. -/
def exponent? (s : Bytes) : Option Int :=
  let (neg, rest) := signOf s
  if rest.isEmpty || !rest.all Bytes.isDigit then none
  else some (if neg then -(exponentDigits rest : Int) else exponentDigits rest)

/-- The number `mantissa * base ^ e` with a sign, rounded; none when it is out of range. -/
def scaled? (neg : Bool) (mantissa base : Nat) (e : Int) : Option Binary64 :=
  let x := if mantissa = 0 then Binary64.withSign neg 0
    else Binary64.ofRatio neg (mantissa * Nat.pow base e.toNat) (Nat.pow base (-e).toNat)
  if x.isInfinite then none else some x

/-- Digits with an optional point, and what follows them: all digits, the number of digits after
the point, and the rest. -/
def mantissa (isDigit : UInt8 → Bool) (s : Bytes) : Bytes × Nat × Bytes :=
  let whole := s.takeWhile isDigit
  match s.dropWhile isDigit with
  | 46 :: rest =>
    let frac := rest.takeWhile isDigit
    (whole ++ frac, frac.length, rest.dropWhile isDigit)
  | rest => (whole, 0, rest)

/-- A decimal number without sign and underscores. -/
def decimal? (neg : Bool) (s : Bytes) : Option Binary64 := do
  let (ds, places, rest) := mantissa Bytes.isDigit s
  guard (!ds.isEmpty)
  let n ← digits? 10 ds
  match rest with
  | [] => scaled? neg n 10 (-(places : Int))
  | b :: e =>
    guard (Bytes.lowerByte b = 101)
    let e ← exponent? e
    scaled? neg n 10 (e - places)

/-- A hexadecimal number after its mark, without underscores. -/
def hexadecimal? (neg : Bool) (s : Bytes) : Option Binary64 := do
  let (ds, places, rest) := mantissa (fun b => (Bytes.hexValue? b).isSome) s
  guard (!ds.isEmpty)
  let n ← digits? 16 ds
  match rest with
  | [] => none
  | b :: e =>
    guard (Bytes.lowerByte b = 112)
    let e ← exponent? e
    scaled? neg n 2 (e - 4 * places)

/-- The words that stand for numbers, in any case. NaN takes no sign. -/
def word? (s : Bytes) : Option Binary64 :=
  let (neg, rest) := signOf s
  let w := Bytes.lower rest
  if w = Bytes.ofString "inf" || w = Bytes.ofString "infinity" then some (Binary64.infinity neg)
  else if Bytes.lower s = Bytes.ofString "nan" then some Binary64.nan
  else none

/-- A floating-point number. -/
def float? (s : Bytes) : Option Binary64 :=
  match word? s with
  | some x => some x
  | none =>
    if s.contains 95 && !underscoresOk s then none
    else
      let (neg, rest) := signOf (s.filter (· ≠ 95))
      match rest with
      | 48 :: b :: c :: more =>
        if Bytes.lowerByte b = 120 then hexadecimal? neg (c :: more) else decimal? neg rest
      | _ => decimal? neg rest

end Reading

end IrafCl
