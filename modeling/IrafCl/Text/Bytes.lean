/-!
# Byte text

Scripts, generated code and messages are sequences of bytes: offsets, column budgets and excerpts
are counted in bytes, and nothing guarantees that a script is valid UTF-8. A string literal stands
for its UTF-8 bytes through a coercion, so messages are written as ordinary concatenations.
-/

namespace IrafCl

/-- Text as a sequence of bytes, valid UTF-8 or not. -/
abbrev Bytes := List UInt8

namespace Bytes

/-- The UTF-8 bytes of a string. -/
def ofString (s : String) : Bytes := s.toList.flatMap String.utf8EncodeChar

instance : Coe String Bytes := ⟨ofString⟩

/-- The byte of an ASCII character. -/
def ascii (c : Char) : UInt8 := UInt8.ofNat c.toNat

/-- The decimal digits of a natural number. -/
def ofNat (n : Nat) : Bytes := (Nat.toDigits 10 n).map ascii

/-- An integer in decimal, with a minus sign when it is negative. -/
def ofInt : Int → Bytes
  | .ofNat n => ofNat n
  | .negSucc n => ascii '-' :: ofNat (n + 1)

/-- The parts, separated by `sep`. -/
def join (sep : Bytes) (parts : List Bytes) : Bytes := sep.intercalate parts

/-- Cuts a text at every occurrence of one byte; a text without it is its only part. -/
def pieces (c : UInt8) : Bytes → List Bytes
  | [] => [[]]
  | b :: bs =>
    if b = c then [] :: pieces c bs
    else match pieces c bs with
      | [] => [[b]]
      | part :: parts => (b :: part) :: parts

/-- Every occurrence of one byte becomes a text. -/
def substitute (c : UInt8) (replacement : Bytes) (s : Bytes) : Bytes :=
  s.flatMap fun b => if b = c then replacement else [b]

/-- The number of newline bytes. -/
def newlines (s : Bytes) : Nat := s.count 10

def isDigit (b : UInt8) : Bool := 48 ≤ b && b ≤ 57

def isLower (b : UInt8) : Bool := 97 ≤ b && b ≤ 122

def isUpper (b : UInt8) : Bool := 65 ≤ b && b ≤ 90

/-- Maps the ASCII capitals to small letters and leaves every other byte alone. -/
def lowerByte (b : UInt8) : UInt8 := if isUpper b then b + 32 else b

/-- The ASCII small-letter form of a text. -/
def lower (s : Bytes) : Bytes := s.map lowerByte

/-- A lower-case hexadecimal digit. -/
def hexDigit (n : Nat) : UInt8 := ascii (Nat.digitChar (n % 16))

/-- A byte as two hexadecimal digits. -/
def hexByte (b : UInt8) : Bytes := [hexDigit (b.toNat / 16), hexDigit b.toNat]

/-- The bytes of a text as hexadecimal digits. -/
def hex (s : Bytes) : Bytes := s.flatMap hexByte

/-- The lowest `width` hexadecimal digits of a number. -/
def hexPadded : Nat → Nat → Bytes
  | 0, _ => []
  | width + 1, n => hexPadded width (n / 16) ++ [hexDigit n]

/-- The value of a hexadecimal digit of either case. -/
def hexValue? (b : UInt8) : Option Nat :=
  if isDigit b then some (b.toNat - 48)
  else if 97 ≤ b && b ≤ 102 then some (b.toNat - 87)
  else if 65 ≤ b && b ≤ 70 then some (b.toNat - 55)
  else none

/-- The bytes that pairs of hexadecimal digits spell. -/
def unhex? : Bytes → Option Bytes
  | [] => some []
  | [_] => none
  | a :: b :: rest => do
    let hi ← hexValue? a
    let lo ← hexValue? b
    let tail ← unhex? rest
    return UInt8.ofNat (16 * hi + lo) :: tail

/-- Splits a text at the first occurrence of a separator into what stands before and after it. -/
def cut? (sep : Bytes) : Bytes → Option (Bytes × Bytes)
  | [] => if sep = [] then some ([], []) else none
  | b :: bs =>
    if sep.isPrefixOf (b :: bs) then some ([], (b :: bs).drop sep.length)
    else (cut? sep bs).map fun (before, after) => (b :: before, after)

/-- Drops a byte from the end of a text as long as it is the last one. -/
def dropLastWhile (p : UInt8 → Bool) (s : Bytes) : Bytes := (s.reverse.dropWhile p).reverse

/-! ## Small laws -/

theorem ofNat_ne_nil (n : Nat) : ofNat n ≠ [] := by
  simp [ofNat, Nat.toDigits_ne_nil]

theorem pieces_ne_nil (c : UInt8) (s : Bytes) : pieces c s ≠ [] := by
  cases s with
  | nil => simp [pieces]
  | cons b bs =>
    simp only [pieces]
    split
    · simp
    · split <;> simp

/-- Cutting loses nothing: the parts joined by the byte are the text again. -/
theorem join_pieces (c : UInt8) (s : Bytes) : join [c] (pieces c s) = s := by
  induction s with
  | nil => simp [pieces, join]
  | cons b bs ih =>
    simp only [pieces]
    split
    next h =>
      subst h
      cases hs : pieces b bs with
      | nil => exact absurd hs (pieces_ne_nil b bs)
      | cons part parts => simpa [join, List.intercalate, hs] using ih
    next h =>
      cases hs : pieces c bs with
      | nil => exact absurd hs (pieces_ne_nil c bs)
      | cons part parts =>
        rw [hs] at ih
        cases parts with
        | nil => simpa [join] using ih
        | cons q qs => simpa [join, List.intercalate] using ih

theorem length_hex (s : Bytes) : (hex s).length = 2 * s.length := by
  induction s with
  | nil => rfl
  | cons b bs ih => simp [hex, hexByte] at ih ⊢; omega

end Bytes

end IrafCl
