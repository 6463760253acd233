import IrafCl.Cbor.Reader

/-!
# Reading what was written

The canonical encoding of an item is read back as the item, and what follows it is left (`read?_encode`), unless the
item is nested too deeply or has too many members: then the reader refuses it. Only two things are not kept: the chunks
that a text came in, and which NaN a number was (`normal`).
-/

namespace IrafCl.Cbor

/-! ## Heads -/

/-- The info in the first byte of a head. -/
def headInfo (n : Nat) : Nat :=
  if n < 24 then n
  else if n < Nat.pow 2 8 then 24
  else if n < Nat.pow 2 16 then 25
  else if n < Nat.pow 2 32 then 26
  else 27

theorem headInfo_lt (n : Nat) : headInfo n < 28 := by
  unfold headInfo
  repeat' split
  all_goals omega

variable {m : Major} {info width n : Nat} {rest : Bytes}

theorem number_lt (m : Major) : m.number < 8 := by cases m <;> decide

theorem ofNumber_number (m : Major) : Major.ofNumber m.number = m := by cases m <;> rfl

theorem toNat_initialByte (m : Major) (h : info < 32) : (initialByte m info).toNat = 32 * m.number + info := by
  have hm := number_lt m
  rw [initialByte, UInt8.toNat_ofNat']
  omega

theorem take?_append (s rest : Bytes) : take? s.length (s ++ rest) = some (s, rest) := by
  simp [take?]

/-- A head whose argument stands in the first byte. -/
theorem readHead?_short (m : Major) (h : info < 24) (rest : Bytes) :
    readHead? (initialByte m info :: rest) = some (⟨m, info, info⟩, rest) := by
  have hbyte : (initialByte m info).toNat = 32 * m.number + info := toNat_initialByte m (by omega)
  have hm := number_lt m
  have hinfo : (initialByte m info).toNat % 32 = info := by omega
  have hmajor : (initialByte m info).toNat / 32 = m.number := by omega
  simp [readHead?, hinfo, hmajor, argumentWidth?, h, take?, ofNumber_number]

/-- A head whose argument follows the first byte. -/
theorem readHead?_long (m : Major) (hinfo : info < 32) (hwidth : argumentWidth? info = some width) (hpos : width ≠ 0)
    (hn : n < Nat.pow 256 width) (rest : Bytes) :
    readHead? (initialByte m info :: (Bytes.bigEndian width n ++ rest)) = some (⟨m, info, n⟩, rest) := by
  have hbyte := toNat_initialByte m hinfo
  have hm := number_lt m
  have hinfo : (initialByte m info).toNat % 32 = info := by omega
  have hmajor : (initialByte m info).toNat / 32 = m.number := by omega
  have htake : take? width (Bytes.bigEndian width n ++ rest) = some (Bytes.bigEndian width n, rest) := by
    have h := take?_append (Bytes.bigEndian width n) rest
    rwa [Bytes.length_bigEndian] at h
  simp [readHead?, hinfo, hmajor, hwidth, htake, hpos, Bytes.ofBigEndian_bigEndian width n hn, ofNumber_number]

/-- A head with an argument of 64 bits at most is read back. -/
theorem readHead?_head (m : Major) (hn : n < Nat.pow 2 64) (rest : Bytes) :
    readHead? (head m n ++ rest) = some (⟨m, headInfo n, n⟩, rest) := by
  unfold head headInfo
  repeat' split
  · exact readHead?_short m ‹_› rest
  · exact readHead?_long m (by decide) rfl (by decide) ‹_› rest
  · exact readHead?_long m (by decide) rfl (by decide) ‹_› rest
  · exact readHead?_long m (by decide) rfl (by decide) ‹_› rest
  · exact readHead?_long m (by decide) rfl (by decide) hn rest

/-! ## Numbers -/

theorem top_mul_lt (f : FloatFormat) : f.top * Nat.pow 2 f.fractionBits < Nat.pow 2 (f.exponentBits + f.fractionBits) := by
  have hexponent := Nat.two_pow_pos f.exponentBits
  have hfraction := Nat.two_pow_pos f.fractionBits
  have htop : f.top < 2 ^ f.exponentBits := by
    rw [FloatFormat.top, Nat.pow_eq]
    omega
  rw [Nat.pow_eq, Nat.pow_eq, Nat.pow_add]
  exact Nat.mul_lt_mul_of_pos_right htop hfraction

/-- A number of a short format fits the bits of the format. -/
theorem narrow_lt (f : FloatFormat) (x : Binary64) : f.narrow x < Nat.pow 2 (f.exponentBits + f.fractionBits + 1) := by
  have htop := top_mul_lt f
  have hsign : (if x.negative then Nat.pow 2 (f.exponentBits + f.fractionBits) else 0) ≤
      Nat.pow 2 (f.exponentBits + f.fractionBits) := by
    split
    · exact Nat.le_refl _
    · exact Nat.zero_le _
  have hdouble : Nat.pow 2 (f.exponentBits + f.fractionBits + 1) = Nat.pow 2 (f.exponentBits + f.fractionBits) * 2 := rfl
  unfold FloatFormat.narrow
  dsimp only
  repeat' split
  all_goals omega

theorem narrow?_eq_some {f : FloatFormat} {x : Binary64} {bits : Nat} (h : f.narrow? x = some bits) :
    f.widen bits = x ∧ bits < Nat.pow 2 (f.exponentBits + f.fractionBits + 1) := by
  unfold FloatFormat.narrow? at h
  dsimp only at h
  split at h
  · next hwiden =>
    cases h
    exact ⟨hwiden, narrow_lt f x⟩
  · cases h

/-- A number of which no more is kept than that it is a NaN. -/
def normalFloat (x : Binary64) : Binary64 := if x.isNaN then .nan else x

/-- A number is read back from the shortest format that keeps it. -/
theorem read_floatBytes (x : Binary64) (rest : Bytes) : ∃ h : Head, h.major = .other ∧
    readHead? (floatBytes x ++ rest) = some (h, rest) ∧ other? h = some (.float (normalFloat x)) := by
  unfold floatBytes normalFloat
  by_cases hnan : x.isNaN = true
  · rw [if_pos hnan, if_pos hnan]
    exact ⟨_, rfl, readHead?_long .other (by decide) rfl (by decide) (by decide) rest, rfl⟩
  rw [if_neg hnan, if_neg hnan]
  split
  · next bits hbits =>
    obtain ⟨rfl, hlt⟩ := narrow?_eq_some hbits
    exact ⟨_, rfl, readHead?_long .other (by decide) rfl (by decide) hlt rest, rfl⟩
  split
  · next bits hbits =>
    obtain ⟨rfl, hlt⟩ := narrow?_eq_some hbits
    exact ⟨_, rfl, readHead?_long .other (by decide) rfl (by decide) hlt rest, rfl⟩
  · refine ⟨_, rfl, readHead?_long .other (by decide) rfl (by decide) x.bits.toNat_lt rest, ?_⟩
    simp [other?, hnan]

/-! ## Items -/

mutual

/-- Whether a reader that may nest so deep accepts an item: the depth suffices, and no array or map has too many members. -/
def fits : Cbor → Nat → Bool
  | .array _, 0 => false
  | .map _, 0 => false
  | .tag _ _, 0 => false
  | .array items, depth + 1 => items.length ≤ maxMembers && allFit items depth
  | .map pairs, depth + 1 => pairs.length ≤ maxMembers && pairsFit pairs depth
  | .tag _ item, depth + 1 => item.fits depth
  | .unsigned _, _ => true
  | .negative _, _ => true
  | .bytes _, _ => true
  | .text _, _ => true
  | .simple _, _ => true
  | .bool _, _ => true
  | .null, _ => true
  | .float _, _ => true

def allFit : List Cbor → Nat → Bool
  | [], _ => true
  | x :: xs, depth => x.fits depth && allFit xs depth

def pairsFit : List CborPair → Nat → Bool
  | [], _ => true
  | .mk k v :: ps, depth => k.fits depth && v.fits depth && pairsFit ps depth

end

mutual

/-- The numbers of an item have 64 bits at most, and its simple values are no other items. -/
def Bounded : Cbor → Prop
  | .unsigned n => n < Nat.pow 2 64
  | .negative n => n < Nat.pow 2 64
  | .array items => AllBounded items
  | .map pairs => PairsBounded pairs
  | .tag number item => number < Nat.pow 2 64 ∧ item.Bounded
  | .simple n => n < 20 ∨ 32 ≤ n ∧ n < 256
  | .bytes _ => True
  | .text _ => True
  | .bool _ => True
  | .null => True
  | .float _ => True

def AllBounded : List Cbor → Prop
  | [] => True
  | x :: xs => x.Bounded ∧ AllBounded xs

def PairsBounded : List CborPair → Prop
  | [] => True
  | .mk k v :: ps => k.Bounded ∧ v.Bounded ∧ PairsBounded ps

end

mutual

/-- What is kept of an item: texts in one chunk, and a single NaN. -/
def normal : Cbor → Cbor
  | .bytes chunks => .bytes [chunks.flatten]
  | .text chunks => .text [chunks.flatten]
  | .array items => .array (normalAll items)
  | .map pairs => .map (normalPairs pairs)
  | .tag number item => .tag number item.normal
  | .float x => .float (normalFloat x)
  | .unsigned n => .unsigned n
  | .negative n => .negative n
  | .simple n => .simple n
  | .bool b => .bool b
  | .null => .null

def normalAll : List Cbor → List Cbor
  | [] => []
  | x :: xs => x.normal :: normalAll xs

def normalPairs : List CborPair → List CborPair
  | [] => []
  | .mk k v :: ps => .mk k.normal v.normal :: normalPairs ps

end

theorem normalAll_eq_map (xs : List Cbor) : normalAll xs = xs.map normal := by
  induction xs with
  | nil => rfl
  | cons x xs ih => rw [normalAll, ih, List.map_cons]

theorem length_normalPairs (ps : List CborPair) : (normalPairs ps).length = ps.length := by
  induction ps with
  | nil => rfl
  | cons p ps ih =>
    obtain ⟨k, v⟩ := p
    rw [normalPairs, List.length_cons, List.length_cons, ih]

/-- The members of an array or a map are read if there are not too many and each one is. -/
theorem readMembers?_eq {α : Type} {read : Read α} {h : Head} {s : Bytes} {xs : List α} {rest : Bytes} {ok : Bool}
    (hinfo : h.info ≠ indefinite) (hlength : xs.length = h.value)
    (hread : readMany? read h.value s = if ok then some (xs, rest) else none) :
    readMembers? read h s = if h.value ≤ maxMembers && ok then some (xs, rest) else none := by
  unfold readMembers?
  rw [if_neg hinfo]
  by_cases hle : h.value ≤ maxMembers
  · rw [if_pos hle, hread]
    cases ok <;> simp [hle, hlength]
  · simp [hle]

/-- The head of an item is read, and then the item under it. -/
theorem read?_of_readHead? {s rest : Bytes} {h : Head} (hhead : readHead? s = some (h, rest)) (depth : Nat) :
    read? depth s = readBody? (match depth with | 0 => none | depth + 1 => some (read? depth)) h rest := by
  cases depth with
  | zero => simp [read?, hhead]
  | succ depth => simp [read?, hhead]

theorem headInfo_ne (n : Nat) : headInfo n ≠ indefinite := by
  have h := headInfo_lt n
  unfold indefinite
  omega

theorem other?_simple (h : n < 20 ∨ 32 ≤ n ∧ n < 256) : other? ⟨.other, headInfo n, n⟩ = some (.simple n) := by
  rcases h with h | ⟨hle, hlt⟩
  · have hinfo : headInfo n = n := by rw [headInfo, if_pos (by omega)]
    simp [other?, hinfo, h]
  · have hinfo : headInfo n = 24 := by rw [headInfo, if_neg (by omega), if_pos (by exact hlt)]
    simp [other?, hinfo, Nat.not_lt.mpr hle]

theorem readChunks?_append (m : Major) (s rest : Bytes) :
    readChunks? ⟨m, headInfo s.length, s.length⟩ (s ++ rest) = some ([s], rest) := by
  rw [readChunks?, if_neg (headInfo_ne _), take?_append]
  rfl

/-- The head of an item that counts what follows it, and what follows it. -/
theorem read?_head (m : Major) (hn : n < Nat.pow 2 64) (body rest : Bytes) (depth : Nat) :
    read? depth (head m n ++ body ++ rest) =
      readBody? (match depth with | 0 => none | depth + 1 => some (read? depth)) ⟨m, headInfo n, n⟩ (body ++ rest) := by
  rw [List.append_assoc]
  exact read?_of_readHead? (readHead?_head m hn _) depth

theorem map_ite {α β : Type} (f : α → β) (b : Bool) (a : α) :
    (if b then some a else none).map f = if b then some (f a) else none := by
  cases b <;> rfl

theorem head_ne_nil (m : Major) (n : Nat) : head m n ≠ [] := by
  unfold head
  repeat' split
  all_goals exact List.cons_ne_nil _ _

theorem encode_ne_nil (x : Cbor) : x.encode ≠ [] := by
  cases x <;> simp only [encode]
  case float x =>
    unfold floatBytes
    repeat' split
    all_goals exact List.cons_ne_nil _ _
  all_goals simp [head_ne_nil]

/-- Every member takes a byte at least. -/
theorem length_le_encodeAll (xs : List Cbor) : xs.length ≤ (encodeAll xs).length := by
  induction xs with
  | nil => exact Nat.le_refl 0
  | cons x xs ih =>
    have hpos := List.length_pos_iff.mpr (encode_ne_nil x)
    simp only [encodeAll, List.length_append, List.length_cons]
    omega

theorem length_le_encodePairs (ps : List CborPair) : ps.length ≤ (encodePairs ps).length := by
  induction ps with
  | nil => exact Nat.le_refl 0
  | cons p ps ih =>
    obtain ⟨k, v⟩ := p
    have hpos := List.length_pos_iff.mpr (encode_ne_nil k)
    simp only [encodePairs, List.length_append, List.length_cons]
    omega

mutual

/-- An encoded item is read back, if it fits, and the rest is left. -/
theorem read?_encode : ∀ (x : Cbor), x.Bounded → x.encode.length < Nat.pow 2 64 → ∀ (depth : Nat) (rest : Bytes),
    read? depth (x.encode ++ rest) = if x.fits depth then some (x.normal, rest) else none
  | .unsigned n, hn, _, depth, rest => by
    rw [encode, read?_of_readHead? (readHead?_head _ hn rest)]
    simp [readBody?, headInfo_ne, fits, normal]
  | .negative n, hn, _, depth, rest => by
    rw [encode, read?_of_readHead? (readHead?_head _ hn rest)]
    simp [readBody?, headInfo_ne, fits, normal]
  | .bytes chunks, _, hlen, depth, rest => by
    simp only [encode, List.length_append] at hlen
    rw [encode, read?_head _ (by omega)]
    simp only [readBody?, readChunks?_append, fits, normal, Option.map_some, if_true]
  | .text chunks, _, hlen, depth, rest => by
    simp only [encode, List.length_append] at hlen
    rw [encode, read?_head _ (by omega)]
    simp only [readBody?, readChunks?_append, fits, normal, Option.map_some, if_true]
  | .array items, hb, hlen, depth, rest => by
    have hcount := length_le_encodeAll items
    simp only [encode, List.length_append] at hlen
    rw [encode, read?_head _ (by omega)]
    cases depth with
    | zero => simp [readBody?, fits]
    | succ depth =>
      have hmembers := readMembers?_eq (h := ⟨.array, headInfo items.length, items.length⟩) (headInfo_ne _)
        (by rw [normalAll_eq_map, List.length_map]) (readMany?_encodeAll items hb (by omega) depth rest)
      simp only [readBody?, Option.bind_some, hmembers, fits, normal, map_ite]
      rfl
  | .map pairs, hb, hlen, depth, rest => by
    have hcount := length_le_encodePairs pairs
    simp only [encode, List.length_append] at hlen
    rw [encode, read?_head _ (by omega)]
    cases depth with
    | zero => simp [readBody?, fits]
    | succ depth =>
      have hmembers := readMembers?_eq (h := ⟨.map, headInfo pairs.length, pairs.length⟩) (headInfo_ne _)
        (length_normalPairs pairs) (readMany?_encodePairs pairs hb (by omega) depth rest)
      simp only [readBody?, Option.bind_some, hmembers, fits, normal, map_ite]
      rfl
  | .tag number item, hb, hlen, depth, rest => by
    simp only [encode, List.length_append] at hlen
    rw [encode, read?_head _ hb.1]
    cases depth with
    | zero => simp [readBody?, headInfo_ne, fits]
    | succ depth =>
      simp only [readBody?, headInfo_ne, if_false, Option.bind_some, read?_encode item hb.2 (by omega) depth rest, fits,
        normal, map_ite]
      rfl
  | .simple n, hn, _, depth, rest => by
    have hother : other? ⟨.other, headInfo n, n⟩ = some (.simple n) := other?_simple hn
    have hsmall : n < Nat.pow 2 64 := by
      have hpow : Nat.pow 2 64 = 18446744073709551616 := rfl
      rcases hn with hn | hn <;> omega
    rw [encode, read?_of_readHead? (readHead?_head _ hsmall rest)]
    simp [readBody?, hother, fits, normal]
  | .bool b, _, _, depth, rest => by
    cases b <;> rw [encode] <;> exact read?_of_readHead? (readHead?_short .other (by decide) rest) depth
  | .null, _, _, depth, rest => read?_of_readHead? (readHead?_short .other (by decide) rest) depth
  | .float x, _, _, depth, rest => by
    obtain ⟨h, hmajor, hhead, hother⟩ := read_floatBytes x rest
    rw [encode, read?_of_readHead? hhead]
    simp [readBody?, hmajor, hother, fits, normal]

theorem readMany?_encodeAll : ∀ (xs : List Cbor), AllBounded xs → (encodeAll xs).length < Nat.pow 2 64 →
    ∀ (depth : Nat) (rest : Bytes),
    readMany? (read? depth) xs.length (encodeAll xs ++ rest) = if allFit xs depth then some (normalAll xs, rest) else none
  | [], _, _, depth, rest => rfl
  | x :: xs, hb, hlen, depth, rest => by
    simp only [encodeAll, List.length_append] at hlen
    have hx := read?_encode x hb.1 (by omega) depth (encodeAll xs ++ rest)
    have hxs := readMany?_encodeAll xs hb.2 (by omega) depth rest
    rw [encodeAll, List.append_assoc, List.length_cons, readMany?, hx, allFit, normalAll]
    cases x.fits depth <;> cases hall : allFit xs depth <;> simp [hxs, hall]

theorem readMany?_encodePairs : ∀ (ps : List CborPair), PairsBounded ps → (encodePairs ps).length < Nat.pow 2 64 →
    ∀ (depth : Nat) (rest : Bytes), readMany? (readPair? (read? depth)) ps.length (encodePairs ps ++ rest) =
      if pairsFit ps depth then some (normalPairs ps, rest) else none
  | [], _, _, depth, rest => rfl
  | .mk k v :: ps, hb, hlen, depth, rest => by
    simp only [encodePairs, List.length_append] at hlen
    have hk := read?_encode k hb.1 (by omega) depth (v.encode ++ (encodePairs ps ++ rest))
    have hv := read?_encode v hb.2.1 (by omega) depth (encodePairs ps ++ rest)
    have hps := readMany?_encodePairs ps hb.2.2 (by omega) depth rest
    rw [encodePairs, List.append_assoc, List.append_assoc, List.length_cons, readMany?, readPair?, hk, pairsFit, normalPairs]
    cases k.fits depth <;> cases hfits : v.fits depth <;> cases hall : pairsFit ps depth <;> simp [hv, hps, hfits, hall]

end

/-- A whole text that is an encoded item is decoded, if the item fits. -/
theorem decode?_encode {x : Cbor} (hb : x.Bounded) (hlen : x.encode.length < Nat.pow 2 64) :
    decode? x.encode = if x.fits maxDepth then some x.normal else none := by
  have hread := read?_encode x hb hlen maxDepth []
  rw [List.append_nil] at hread
  rw [decode?, hread]
  cases x.fits maxDepth <;> rfl

end IrafCl.Cbor
