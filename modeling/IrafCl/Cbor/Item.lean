import IrafCl.Cbor.Float
import IrafCl.Text.Numeral

/-!
# CBOR data items

The data items of the Concise Binary Object Representation and their canonical encoding: lengths and
integers take the fewest bytes, and so do floating-point numbers. A text may come in chunks; the
canonical encoding writes one. Every NaN is written alike.
-/

namespace IrafCl

mutual

/-- A data item. `negative n` stands for the integer `-1 - n`. -/
inductive Cbor where
  | unsigned (n : Nat)
  | negative (n : Nat)
  | bytes (chunks : List Bytes)
  | text (chunks : List Bytes)
  | array (items : List Cbor)
  | map (pairs : List CborPair)
  | tag (number : Nat) (item : Cbor)
  | simple (n : Nat)
  | bool (b : Bool)
  | null
  | float (x : Binary64)

/-- An entry of a map. -/
inductive CborPair where
  | mk (key value : Cbor)

end

namespace Cbor

/-- The kinds of items that a head tells apart. -/
inductive Major where
  | unsigned | negative | bytes | text | array | map | tag | other
  deriving DecidableEq, Repr

def Major.number : Major → Nat
  | .unsigned => 0
  | .negative => 1
  | .bytes => 2
  | .text => 3
  | .array => 4
  | .map => 5
  | .tag => 6
  | .other => 7

/-- The first byte of a head. -/
def initialByte (m : Major) (info : Nat) : UInt8 := UInt8.ofNat (32 * m.number + info)

/-- A head with its argument in the fewest bytes. -/
def head (m : Major) (n : Nat) : Bytes :=
  if n < 24 then [initialByte m n]
  else if n < Nat.pow 2 8 then initialByte m 24 :: Bytes.bigEndian 1 n
  else if n < Nat.pow 2 16 then initialByte m 25 :: Bytes.bigEndian 2 n
  else if n < Nat.pow 2 32 then initialByte m 26 :: Bytes.bigEndian 4 n
  else initialByte m 27 :: Bytes.bigEndian 8 n

/-- The bits that every NaN is written with. -/
def nanBits : Nat := 0x7E00

/-- A floating-point number in the shortest format that keeps it. -/
def floatBytes (x : Binary64) : Bytes :=
  if x.isNaN then initialByte .other 25 :: Bytes.bigEndian 2 nanBits
  else match FloatFormat.half.narrow? x with
    | some bits => initialByte .other 25 :: Bytes.bigEndian 2 bits
    | none => match FloatFormat.single.narrow? x with
      | some bits => initialByte .other 26 :: Bytes.bigEndian 4 bits
      | none => initialByte .other 27 :: Bytes.bigEndian 8 x.bits.toNat

mutual

/-- The canonical encoding of an item. -/
def encode : Cbor → Bytes
  | .unsigned n => head .unsigned n
  | .negative n => head .negative n
  | .bytes chunks => head .bytes chunks.flatten.length ++ chunks.flatten
  | .text chunks => head .text chunks.flatten.length ++ chunks.flatten
  | .array items => head .array items.length ++ encodeAll items
  | .map pairs => head .map pairs.length ++ encodePairs pairs
  | .tag number item => head .tag number ++ encode item
  | .simple n => head .other n
  | .bool b => [initialByte .other (if b then 21 else 20)]
  | .null => [initialByte .other 22]
  | .float x => floatBytes x

def encodeAll : List Cbor → Bytes
  | [] => []
  | x :: xs => encode x ++ encodeAll xs

def encodePairs : List CborPair → Bytes
  | [] => []
  | .mk k v :: ps => encode k ++ encode v ++ encodePairs ps

end

/-- An integer as an item. -/
def ofInt : Int → Cbor
  | .ofNat n => .unsigned n
  | .negSucc n => .negative n

/-- A text as an item. -/
def ofText (s : Bytes) : Cbor := .text [s]

/-- A map from names to items. -/
def ofFields (fields : List (Bytes × Cbor)) : Cbor := .map (fields.map fun (k, v) => .mk (ofText k) v)

end Cbor

end IrafCl
