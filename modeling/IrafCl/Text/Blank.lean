import IrafCl.Text.Scalar

/-!
# White space

Blanks are the 25 code points with the Unicode property `White_Space`. Texts are trimmed and split
at blanks character by character; a stray byte is never blank.
-/

namespace IrafCl

/-- The code points of white space. -/
def isBlank (code : Nat) : Bool :=
  (9 ≤ code && code ≤ 13) || code == 0x20 || code == 0x85 || code == 0xA0 || code == 0x1680 ||
  (0x2000 ≤ code && code ≤ 0x200A) || code == 0x2028 || code == 0x2029 || code == 0x202F ||
  code == 0x205F || code == 0x3000

namespace Scalar

def blank : Scalar → Bool
  | .char c => isBlank c.toNat
  | .stray _ => false

end Scalar

namespace Bytes

/-- The text without the blanks at its two ends. -/
def trim (s : Bytes) : Bytes :=
  ofScalars ((s.scalars.dropWhile Scalar.blank).reverse.dropWhile Scalar.blank).reverse

/-- The maximal runs of elements that are not blank, given the run read so far. -/
def wordsFrom (run : List Scalar) : List Scalar → List (List Scalar)
  | [] => if run.isEmpty then [] else [run.reverse]
  | x :: xs =>
    if x.blank then
      if run.isEmpty then wordsFrom [] xs else run.reverse :: wordsFrom [] xs
    else wordsFrom (x :: run) xs

/-- The words of a text: its maximal runs without blanks. -/
def words (s : Bytes) : List Bytes := (wordsFrom [] s.scalars).map ofScalars

end Bytes

end IrafCl
