import IrafCl.Text.Numeral

/-!
# BLAKE2b-256

The unkeyed BLAKE2b hash with a digest of 32 bytes. The message is cut into blocks of 128 bytes, the
last one padded with zeros; each block is mixed into a chain of eight words together with the number of
bytes seen so far, and the last one is marked.
-/

namespace IrafCl.Digest

/-- The words of the initial chain. -/
def initialWords : Vector UInt64 8 :=
  #v[0x6a09e667f3bcc908, 0xbb67ae8584caa73b, 0x3c6ef372fe94f82b, 0xa54ff53a5f1d36f1,
    0x510e527fade682d1, 0x9b05688c2b3e6c1f, 0x1f83d9abfb41bd6b, 0x5be0cd19137e2179]

/-- The order in which a round takes the words of a block. -/
abbrev Schedule := Vector (Fin 16) 16

/-- The schedules of the rounds. -/
def schedules : List Schedule := [
  #v[0, 1, 2, 3, 4, 5, 6, 7, 8, 9, 10, 11, 12, 13, 14, 15],
  #v[14, 10, 4, 8, 9, 15, 13, 6, 1, 12, 0, 2, 11, 7, 5, 3],
  #v[11, 8, 12, 0, 5, 2, 15, 13, 10, 14, 3, 6, 7, 1, 9, 4],
  #v[7, 9, 3, 1, 13, 12, 11, 14, 2, 6, 5, 10, 4, 0, 15, 8],
  #v[9, 0, 5, 7, 2, 4, 10, 15, 14, 1, 11, 12, 6, 8, 3, 13],
  #v[2, 12, 6, 10, 0, 11, 8, 3, 4, 13, 7, 5, 15, 14, 1, 9],
  #v[12, 5, 1, 15, 14, 13, 4, 10, 0, 7, 6, 3, 9, 2, 8, 11],
  #v[13, 11, 7, 14, 12, 1, 3, 9, 5, 0, 15, 4, 8, 6, 2, 10],
  #v[6, 15, 14, 9, 11, 3, 0, 8, 12, 2, 13, 7, 1, 4, 10, 5],
  #v[10, 2, 8, 4, 7, 6, 1, 5, 15, 11, 9, 14, 3, 12, 13, 0],
  #v[0, 1, 2, 3, 4, 5, 6, 7, 8, 9, 10, 11, 12, 13, 14, 15],
  #v[14, 10, 4, 8, 9, 15, 13, 6, 1, 12, 0, 2, 11, 7, 5, 3]]

/-- A word turned right by some bits. -/
def rotateRight (x : UInt64) (n : UInt64) : UInt64 := (x >>> n) ||| (x <<< (64 - n))

/-- The sixteen words that a round works on. -/
abbrev Words := Vector UInt64 16

/-- Mixes two words of a block into four of the working words. -/
def mix (v : Words) (a b c d : Fin 16) (x y : UInt64) : Words :=
  let va := v.get a + v.get b + x
  let vd := rotateRight (v.get d ^^^ va) 32
  let vc := v.get c + vd
  let vb := rotateRight (v.get b ^^^ vc) 24
  let va := va + vb + y
  let vd := rotateRight (vd ^^^ va) 16
  let vc := vc + vd
  let vb := rotateRight (vb ^^^ vc) 63
  (((v.set a va).set b vb).set c vc).set d vd

/-- One round: four columns, then four diagonals. -/
def round (block : Words) (v : Words) (s : Schedule) : Words :=
  let m (i : Fin 16) : UInt64 := block.get (s.get i)
  let v := mix v 0 4 8 12 (m 0) (m 1)
  let v := mix v 1 5 9 13 (m 2) (m 3)
  let v := mix v 2 6 10 14 (m 4) (m 5)
  let v := mix v 3 7 11 15 (m 6) (m 7)
  let v := mix v 0 5 10 15 (m 8) (m 9)
  let v := mix v 1 6 11 12 (m 10) (m 11)
  let v := mix v 2 7 8 13 (m 12) (m 13)
  mix v 3 4 9 14 (m 14) (m 15)

/-- The words of a block of 128 bytes; missing bytes are zeros. -/
def blockWords (block : Bytes) : Words :=
  Vector.ofFn fun i => UInt64.ofNat (Bytes.ofLittleEndian ((block.drop (8 * i.val)).take 8))

/-- Mixes a block into the chain. `count` is the number of bytes up to its end. -/
def compress (chain : Vector UInt64 8) (block : Bytes) (count : Nat) (last : Bool) : Vector UInt64 8 :=
  let start : Words := chain ++ initialWords
  let start := start.set 12 (start.get 12 ^^^ UInt64.ofNat count)
  let start := start.set 13 (start.get 13 ^^^ UInt64.ofNat (count / Nat.pow 2 64))
  let start := if last then start.set 14 (start.get 14 ^^^ 0xFFFFFFFFFFFFFFFF) else start
  let v := schedules.foldl (round (blockWords block)) start
  Vector.ofFn fun i => chain.get i ^^^ v.get ⟨i.val, by omega⟩ ^^^ v.get ⟨i.val + 8, by omega⟩

def blockLength : Nat := 128

/-- Mixes the rest of a message into the chain, `count` bytes of which are done. -/
def absorb (chain : Vector UInt64 8) (count : Nat) (message : Bytes) : Vector UInt64 8 :=
  if message.length ≤ blockLength then compress chain message (count + message.length) true
  else
    absorb (compress chain (message.take blockLength) (count + blockLength) false)
      (count + blockLength) (message.drop blockLength)
termination_by message.length
decreasing_by simp [blockLength] at *; omega

/-- The digest length in bytes. -/
def digestLength : Nat := 32

/-- The chain before any block: the digest length and the absence of a key are part of it. -/
def initialChain : Vector UInt64 8 :=
  initialWords.set 0 (initialWords.get 0 ^^^ 0x01010000 ^^^ UInt64.ofNat digestLength)

/-- The BLAKE2b-256 digest of a message. -/
def blake2b (message : Bytes) : Bytes :=
  ((absorb initialChain 0 message).toList.flatMap fun w => Bytes.littleEndian 8 w.toNat).take digestLength

end IrafCl.Digest
