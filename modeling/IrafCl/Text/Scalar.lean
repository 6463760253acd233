import IrafCl.Text.Bytes

/-!
# Characters of a byte text

A byte text is read as UTF-8 from the left. Where a well-formed sequence starts, it is a character;
every other byte stands alone as a stray byte. Each byte belongs to exactly one element, so text that
is not UTF-8 survives being taken apart.
-/

namespace IrafCl

/-- One element of a byte text read as UTF-8. -/
inductive Scalar where
  | char (c : Char)
  | stray (b : UInt8)
  deriving DecidableEq, Repr

namespace Scalar

/-- A byte of the form `10xxxxxx`. -/
def isTail (b : UInt8) : Bool := 0x80 ≤ b && b ≤ 0xBF

/-- The payload of a tail byte. -/
def tail (b : UInt8) : Nat := b.toNat % 64

/-- The element that starts with byte `b` and goes on with `rest`. Over-long forms, surrogates and
values past the last code point are not characters. -/
def first (b : UInt8) (rest : Bytes) : Scalar :=
  if b < 0x80 then .char (Char.ofNat b.toNat)
  else if b < 0xC2 then .stray b
  else if b < 0xE0 then
    match rest with
    | c :: _ => if isTail c then .char (Char.ofNat (b.toNat % 32 * 64 + tail c)) else .stray b
    | _ => .stray b
  else if b < 0xF0 then
    match rest with
    | c :: d :: _ =>
      if isTail c && isTail d && (b ≠ 0xE0 || 0xA0 ≤ c) && (b ≠ 0xED || c ≤ 0x9F) then
        .char (Char.ofNat (b.toNat % 16 * 4096 + tail c * 64 + tail d))
      else .stray b
    | _ => .stray b
  else if b < 0xF5 then
    match rest with
    | c :: d :: e :: _ =>
      if isTail c && isTail d && isTail e && (b ≠ 0xF0 || 0x90 ≤ c) && (b ≠ 0xF4 || c ≤ 0x8F) then
        .char (Char.ofNat (b.toNat % 8 * 262144 + tail c * 4096 + tail d * 64 + tail e))
      else .stray b
    | _ => .stray b
  else .stray b

/-- The number of bytes of an element. -/
def width : Scalar → Nat
  | .char c => c.utf8Size
  | .stray _ => 1

/-- The bytes of an element. -/
def bytes : Scalar → Bytes
  | .char c => String.utf8EncodeChar c
  | .stray b => [b]

/-- The code point of an element; a stray byte counts as the replacement character. -/
def code : Scalar → Nat
  | .char c => c.toNat
  | .stray _ => 0xFFFD

end Scalar

namespace Bytes

/-- Reads elements after skipping the given number of bytes, which belong to the element before. -/
def scalarsAfter : Nat → Bytes → List Scalar
  | _, [] => []
  | skip + 1, _ :: bs => scalarsAfter skip bs
  | 0, b :: bs =>
    let s := Scalar.first b bs
    s :: scalarsAfter (s.width - 1) bs

/-- The characters and stray bytes of a text, from left to right. -/
def scalars (s : Bytes) : List Scalar := scalarsAfter 0 s

/-- Whether a text is valid UTF-8: it has no stray byte. -/
def isUtf8 (s : Bytes) : Bool :=
  s.scalars.all fun
    | .char _ => true
    | .stray _ => false

/-- The text with the given elements. -/
def ofScalars (xs : List Scalar) : Bytes := xs.flatMap Scalar.bytes

end Bytes

end IrafCl
