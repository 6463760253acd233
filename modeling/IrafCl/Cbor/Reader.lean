import IrafCl.Cbor.Item

/-!
# Reading CBOR

A reader takes one item from the front of a text and hands back the rest. It accepts arguments of any
width and texts, arrays and maps of indefinite length, and refuses what is cut short, reserved, nested
too deeply or too long. What a text holds is not looked at here: an item may be skipped unread.
-/

namespace IrafCl.Cbor

/-- How deeply items may be nested. -/
def maxDepth : Nat := 32

/-- How many members an array or a map may have. -/
def maxMembers : Nat := 131072

/-- What one byte and its argument say. -/
structure Head where
  major : Major
  info : Nat
  value : Nat

def Major.ofNumber : Nat → Major
  | 0 => .unsigned
  | 1 => .negative
  | 2 => .bytes
  | 3 => .text
  | 4 => .array
  | 5 => .map
  | 6 => .tag
  | _ => .other

/-- The number of bytes that an argument takes. -/
def argumentWidth? (info : Nat) : Option Nat :=
  if info < 24 then some 0
  else if info = 24 then some 1
  else if info = 25 then some 2
  else if info = 26 then some 4
  else if info = 27 then some 8
  else if info = 31 then some 0
  else none

/-- The given number of bytes from the front. -/
def take? (n : Nat) (s : Bytes) : Option (Bytes × Bytes) :=
  if n ≤ s.length then some (s.take n, s.drop n) else none

/-- The info of an item of indefinite length. -/
def indefinite : Nat := 31

/-- The byte that ends an item of indefinite length. -/
def breakByte : UInt8 := 0xFF

def readHead? : Bytes → Option (Head × Bytes)
  | [] => none
  | b :: rest => do
    let info := b.toNat % 32
    let width ← argumentWidth? info
    let (argument, rest) ← take? width rest
    let value := if width = 0 then info else Bytes.ofBigEndian argument
    return (⟨Major.ofNumber (b.toNat / 32), info, value⟩, rest)

/-- A reader of one thing. -/
abbrev Read (α : Type) := Bytes → Option (α × Bytes)

/-- Reads a given number of things. -/
def readMany? {α : Type} (read : Read α) : Nat → Read (List α)
  | 0, s => some ([], s)
  | n + 1, s => do
    let (x, s) ← read s
    let (xs, s) ← readMany? read n s
    return (x :: xs, s)

/-- Reads things up to the break, at most `fuel` of them. -/
def readUntilBreak? {α : Type} (read : Read α) : Nat → Read (List α)
  | fuel, b :: s =>
    if b = breakByte then some ([], s)
    else match fuel with
      | 0 => none
      | fuel + 1 => do
        let (x, s) ← read (b :: s)
        let (xs, s) ← readUntilBreak? read fuel s
        return (x :: xs, s)
  | _, [] => none

/-- Reads the members of an array or a map. -/
def readMembers? {α : Type} (read : Read α) (h : Head) (s : Bytes) : Option (List α × Bytes) := do
  let (xs, rest) ← if h.info = indefinite then readUntilBreak? read s.length s
    else if h.value ≤ maxMembers then readMany? read h.value s else none
  if xs.length ≤ maxMembers then return (xs, rest) else none

/-- A chunk of a text of indefinite length, which has a length of its own. -/
def readChunk? (m : Major) : Read Bytes := fun s => do
  let (h, s) ← readHead? s
  if h.major = m && h.info ≠ indefinite then take? h.value s else none

/-- The chunks of a text. -/
def readChunks? (h : Head) (s : Bytes) : Option (List Bytes × Bytes) :=
  if h.info = indefinite then readUntilBreak? (readChunk? h.major) s.length s
  else (take? h.value s).map fun (chunk, rest) => ([chunk], rest)

/-- The item of a head that has nothing after it. -/
def other? (h : Head) : Option Cbor :=
  if h.info < 20 then some (.simple h.info)
  else if h.info = 20 then some (.bool false)
  else if h.info = 21 then some (.bool true)
  else if h.info = 22 || h.info = 23 then some .null
  else if h.info = 24 then if h.value < 32 then none else some (.simple h.value)
  else if h.info = 25 then some (.float (FloatFormat.half.widen h.value))
  else if h.info = 26 then some (.float (FloatFormat.single.widen h.value))
  else if h.info = 27 then
    let x : Binary64 := ⟨UInt64.ofNat h.value⟩
    some (.float (if x.isNaN then .nan else x))
  else none

/-- Reads a key and a value. -/
def readPair? (read : Read Cbor) : Read CborPair := fun s => do
  let (k, s) ← read s
  let (v, s) ← read s
  return (.mk k v, s)

/-- Reads an item under a head. `inner` reads what is nested in it, if it may nest at all. -/
def readBody? (inner : Option (Read Cbor)) (h : Head) (s : Bytes) : Option (Cbor × Bytes) :=
  match h.major with
  | .unsigned => if h.info = indefinite then none else some (.unsigned h.value, s)
  | .negative => if h.info = indefinite then none else some (.negative h.value, s)
  | .bytes => (readChunks? h s).map fun (chunks, rest) => (.bytes chunks, rest)
  | .text => (readChunks? h s).map fun (chunks, rest) => (.text chunks, rest)
  | .array => inner.bind fun read => (readMembers? read h s).map fun (xs, rest) => (.array xs, rest)
  | .map => inner.bind fun read =>
    (readMembers? (readPair? read) h s).map fun (ps, rest) => (.map ps, rest)
  | .tag =>
    if h.info = indefinite then none
    else inner.bind fun read => (read s).map fun (x, rest) => (.tag h.value x, rest)
  | .other => (other? h).map fun x => (x, s)

/-- Reads an item with at most `depth` levels. -/
def read? : Nat → Read Cbor
  | 0, s => do
    let (h, s) ← readHead? s
    readBody? none h s
  | depth + 1, s => do
    let (h, s) ← readHead? s
    readBody? (some (read? depth)) h s

/-- The item that a text consists of. -/
def decode? (s : Bytes) : Option Cbor :=
  match read? maxDepth s with
  | some (x, []) => some x
  | _ => none

end IrafCl.Cbor
