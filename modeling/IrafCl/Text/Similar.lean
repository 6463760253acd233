import IrafCl.Text.Bytes

/-!
# Similar words

Two measures of how close two words are: whether one is a subsequence of the other, and the least
number of single-byte insertions, deletions and replacements that turn one into the other.
The words are ASCII.
-/

namespace IrafCl.Bytes

/-- Whether the bytes of the first text occur in the second in the same order. -/
def isSubsequence : Bytes → Bytes → Bool
  | [], _ => true
  | _ :: _, [] => false
  | a :: as, b :: bs => if a = b then isSubsequence as bs else isSubsequence (a :: as) bs

/-- One row of the edit distance table from the row above it: `diag` and `left` are the entries above
and before the first one still to be computed. -/
def editRow (x : UInt8) (diag left : Nat) : List Nat → Bytes → List Nat
  | up :: ups, y :: ys =>
    let entry := min (min (left + 1) (up + 1)) (diag + if x = y then 0 else 1)
    entry :: editRow x up entry ups ys
  | _, _ => []

/-- The table row after one more byte of the first text. -/
def nextEditRow (target : Bytes) (row : List Nat) (x : UInt8) : List Nat :=
  let first := row.headD 0
  (first + 1) :: editRow x first (first + 1) row.tail target

/-- The number of single-byte edits between two texts. -/
def editDistance (a b : Bytes) : Nat :=
  (a.foldl (nextEditRow b) (List.range (b.length + 1))).getLastD 0

/-- The words that contain another as a subsequence, each with its distance from it. -/
def ranks (word : Bytes) (words : List Bytes) : List (Bytes × Nat) :=
  (words.filter fun w => isSubsequence (lower word) w).map fun w => (w, editDistance word w)

end IrafCl.Bytes
