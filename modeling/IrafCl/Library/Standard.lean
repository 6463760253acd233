import IrafCl.Digest.Blake2b
import IrafCl.Library
import IrafCl.Library.Validator
import IrafCl.Text.Similar

/-!
# The standard libraries

What programs run with: the validator of schemas, ranks by edit distance, and BLAKE2b.
-/

namespace IrafCl

theorem Bytes.length_littleEndian (width n : Nat) : (littleEndian width n).length = width := by
  induction width generalizing n with
  | zero => rfl
  | succ width ih => rw [littleEndian, List.length_cons, ih]

theorem Digest.length_blake2b (message : Bytes) : (Digest.blake2b message).length = Digest.digestLength := by
  unfold Digest.blake2b
  rw [List.length_take, List.length_flatMap]
  simp [Bytes.length_littleEndian, Digest.digestLength, List.map_const']

instance Library.standard : Library where
  mismatch? s v := (s.violation? v).map fun message => ⟨message, []⟩
  ranks := Bytes.ranks
  distance := Bytes.editDistance
  hash := Digest.blake2b
  length_hash := Digest.length_blake2b

end IrafCl
