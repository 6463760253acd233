import IrafCl.Param.Schema

/-!
# What is left to libraries

Libraries check values against schemas, rank words by how close they are, and hash texts. The compiler takes their answers
as they come and asks no more of them than that hashes have a fixed length, so the results about it hold of any validator,
any ranking and any hash. The ones that programs run with are in `Library.Standard`. Stored units are not left open in this
way: their form is that of a standard, which is written out in `Cbor` and `Version`.
-/

namespace IrafCl

/-- What a validator has against a value: a message, and the findings that it comes from. -/
inductive Mismatch where
  | mk (message : Bytes) (causes : List Mismatch)

/-- The message at the end of the first causes. -/
def Mismatch.reason : Mismatch → Bytes
  | .mk message [] => message
  | .mk _ (cause :: _) => cause.reason

/-- The length of a hash in bytes. -/
def hashLength : Nat := 32

class Library where
  /-- What is wrong with a value that does not conform to a schema. -/
  mismatch? (s : Schema) (v : Value) : Option Mismatch
  /-- The words that contain another, in order, each with its distance from it. -/
  ranks (word : Bytes) (words : List Bytes) : List (Bytes × Nat)
  /-- How many edits two words are apart. -/
  distance (word other : Bytes) : Nat
  /-- The hash of a text. -/
  hash (text : Bytes) : Bytes
  length_hash (text : Bytes) : (hash text).length = hashLength

end IrafCl
