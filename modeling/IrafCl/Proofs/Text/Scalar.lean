import IrafCl.Proofs.Text.Bytes
import IrafCl.Text.Blank
import Mathlib.Data.UInt

/-!
# ASCII characters

A code point below 128 comes from a byte below 128 that stands alone (`Scalar.first_of_code_lt`): longer
sequences have higher code points, because over-long forms are not characters. They go on over tail bytes
only (`Scalar.width_first`), so no element reaches into a text that begins with another byte
(`Scalar.first_append`). A text of ASCII characters without blanks has nothing to trim (`Bytes.trim_eq_self`).
-/

namespace IrafCl.Scalar

theorem code_char {n : Nat} (h : n.isValidChar) : (char (Char.ofNat n)).code = n := by
  rw [code, Char.ofNat, dif_pos h]
  rfl

theorem isTail_iff {b : UInt8} : isTail b = true ↔ 128 ≤ b.toNat ∧ b.toNat ≤ 191 := by
  simp [isTail, UInt8.le_iff_toNat_le]

/-- A bound on the second byte that only one lead byte brings with it. -/
theorem le_of_lead {lead b x y : UInt8} (h : b ≠ lead ∨ x ≤ y) (hb : b.toNat = lead.toNat) :
    x.toNat ≤ y.toNat := by
  rcases h with h | h
  · exact absurd (UInt8.toNat_inj.mp hb) h
  · exact UInt8.le_iff_toNat_le.mp h

theorem le_code_of_three {b c d : UInt8} (hb : 224 ≤ b.toNat) (hb' : b.toNat < 240)
    (h : (isTail c && isTail d && (b ≠ 0xE0 || 0xA0 ≤ c) && (b ≠ 0xED || c ≤ 0x9F)) = true) :
    128 ≤ (char (Char.ofNat (b.toNat % 16 * 4096 + tail c * 64 + tail d))).code := by
  simp only [Bool.and_eq_true, Bool.or_eq_true, decide_eq_true_eq, isTail_iff] at h
  obtain ⟨⟨⟨hc, hd⟩, hlow⟩, hsurrogate⟩ := h
  have hlow : b.toNat = 224 → 160 ≤ c.toNat := le_of_lead hlow
  have hsurrogate : b.toNat = 237 → c.toNat ≤ 159 := le_of_lead hsurrogate
  have hvalid : (b.toNat % 16 * 4096 + tail c * 64 + tail d).isValidChar := by
    simp only [Nat.isValidChar, tail]
    omega
  rw [code_char hvalid]
  simp only [tail]
  omega

theorem le_code_of_four {b c d e : UInt8} (hb : 240 ≤ b.toNat) (hb' : b.toNat < 245)
    (h : (isTail c && isTail d && isTail e && (b ≠ 0xF0 || 0x90 ≤ c) && (b ≠ 0xF4 || c ≤ 0x8F)) = true) :
    128 ≤ (char
      (Char.ofNat (b.toNat % 8 * 262144 + tail c * 4096 + tail d * 64 + tail e))).code := by
  simp only [Bool.and_eq_true, Bool.or_eq_true, decide_eq_true_eq, isTail_iff] at h
  obtain ⟨⟨⟨⟨hc, hd⟩, he⟩, hlow⟩, hhigh⟩ := h
  have hlow : b.toNat = 240 → 144 ≤ c.toNat := le_of_lead hlow
  have hhigh : b.toNat = 244 → c.toNat ≤ 143 := le_of_lead hhigh
  have hvalid : (b.toNat % 8 * 262144 + tail c * 4096 + tail d * 64 + tail e).isValidChar := by
    simp only [Nat.isValidChar, tail]
    omega
  rw [code_char hvalid]
  simp only [tail]
  omega

/-- The other bytes start characters of higher code points, or stand alone. -/
theorem le_code_of_le {b : UInt8} (bs : Bytes) (hb : 128 ≤ b.toNat) : 128 ≤ (first b bs).code := by
  have hlt := b.toNat_lt
  unfold Scalar.first
  split
  · next h => exact absurd (UInt8.lt_iff_toNat_lt.mp h) (by simpa using hb)
  split
  · simp [code]
  split
  · next h₁ h₂ =>
    split
    · next c _ =>
      split
      · next htail =>
        obtain ⟨hc, hc'⟩ := isTail_iff.mp htail
        have h₁ : 194 ≤ b.toNat := by simpa [UInt8.lt_iff_toNat_lt] using h₁
        have h₂ : b.toNat < 224 := by simpa [UInt8.lt_iff_toNat_lt] using h₂
        rw [code_char (.inl (by simp only [tail]; omega))]
        omega
      · simp [code]
    · simp [code]
  split
  · next h₂ h₃ =>
    split
    · next c d _ =>
      split
      · next h =>
        exact le_code_of_three (by simpa [UInt8.lt_iff_toNat_lt] using h₂)
          (by simpa [UInt8.lt_iff_toNat_lt] using h₃) h
      · simp [code]
    · simp [code]
  split
  · next h₃ h₄ =>
    split
    · next c d e _ =>
      split
      · next h =>
        exact le_code_of_four (by simpa [UInt8.lt_iff_toNat_lt] using h₃)
          (by simpa [UInt8.lt_iff_toNat_lt] using h₄) h
      · simp [code]
    · simp [code]
  · simp [code]

/-- A code point below 128 is that of a byte below 128. -/
theorem first_of_code_lt {b : UInt8} {bs : Bytes} (h : (first b bs).code < 128) :
    b < 128 ∧ first b bs = .char (Char.ofNat b.toNat) := by
  have hb : b < 128 := by
    rw [UInt8.lt_iff_toNat_lt]
    by_contra hle
    exact absurd (le_code_of_le bs (Nat.not_lt.mp hle)) (Nat.not_le.mpr h)
  refine ⟨hb, ?_⟩
  unfold Scalar.first
  simp [hb]

theorem width_ofNat {n : Nat} (h : n < 128) : (char (Char.ofNat n)).width = 1 := by
  have hn : (char (Char.ofNat n)).code = n := code_char (.inl (by omega))
  simp only [code] at hn
  simp only [width, Char.utf8Size]
  rw [if_pos]
  rw [UInt32.le_iff_toNat_le]
  show (Char.ofNat n).toNat ≤ 127
  omega

/-! ## Longer sequences -/

theorem utf8Size_le_two {n : Nat} (h : n < 2048) : (Char.ofNat n).utf8Size ≤ 2 := by
  have hn : (Char.ofNat n).val.toNat = n := code_char (.inl (by omega))
  have hle : (Char.ofNat n).val ≤ 0x7ff := by rw [UInt32.le_iff_toNat_le, hn]; exact Nat.le_of_lt_succ h
  simp only [Char.utf8Size]
  split
  · decide
  split
  · decide
  · next hgt => exact absurd hle hgt

theorem utf8Size_le_three {n : Nat} (h : n < 65536) : (Char.ofNat n).utf8Size ≤ 3 := by
  have hle : (Char.ofNat n).val ≤ 0xffff := by
    rw [UInt32.le_iff_toNat_le]
    by_cases hvalid : n.isValidChar
    · have hn : (Char.ofNat n).val.toNat = n := code_char hvalid
      rw [hn]
      exact Nat.le_of_lt_succ h
    · rw [Char.ofNat, dif_neg hvalid]
      decide
  simp only [Char.utf8Size]
  split
  · decide
  split
  · decide
  split
  · decide
  · next hgt => exact absurd hle hgt

theorem width_le_of_tails {s : Scalar} (tails : Bytes) {rest : Bytes} (hwidth : s.width ≤ tails.length + 1)
    (htails : ∀ c ∈ tails, isTail c = true) :
    s.width ≤ (tails ++ rest).length + 1 ∧ ∀ c ∈ (tails ++ rest).take (s.width - 1), isTail c = true := by
  refine ⟨by rw [List.length_append]; omega, fun c hc => htails c ?_⟩
  rw [List.take_append_of_le_length (by omega)] at hc
  exact List.mem_of_mem_take hc

/-- An element that is longer than its first byte goes on over tail bytes. -/
theorem width_first (b : UInt8) (bs : Bytes) :
    (first b bs).width ≤ bs.length + 1 ∧ ∀ c ∈ bs.take ((first b bs).width - 1), isTail c = true := by
  have hstray (b : UInt8) (bs : Bytes) : (stray b).width ≤ bs.length + 1 ∧
      ∀ c ∈ bs.take ((stray b).width - 1), isTail c = true := width_le_of_tails [] (Nat.le_refl 1) nofun
  unfold Scalar.first
  split
  · next h =>
    refine width_le_of_tails [] ?_ nofun
    rw [width_ofNat (UInt8.lt_iff_toNat_lt.mp h)]
    exact Nat.le_refl 1
  split
  · exact hstray b bs
  split
  · split
    · next c rest =>
      split
      · next htail =>
        refine width_le_of_tails [c] (utf8Size_le_two ?_) (List.forall_mem_singleton.mpr htail)
        simp only [tail]
        omega
      · exact hstray b _
    · exact hstray b _
  split
  · split
    · next c d rest =>
      split
      · next h =>
        simp only [Bool.and_eq_true] at h
        refine width_le_of_tails [c, d] (utf8Size_le_three ?_) (by simp [h])
        simp only [tail]
        omega
      · exact hstray b _
    · exact hstray b _
  split
  · split
    · next c d e rest =>
      split
      · next h =>
        simp only [Bool.and_eq_true] at h
        exact width_le_of_tails [c, d, e] (Char.utf8Size_le_four _) (by simp [h])
      · exact hstray b _
    · exact hstray b _
  · exact hstray b bs

/-- A text that does not begin with a tail byte has no part in an element before it. -/
theorem first_append (b : UInt8) (bs : Bytes) {v : Bytes} (hv : ∀ c ∈ v.head?, isTail c = false) :
    first b (bs ++ v) = first b bs := by
  cases v with
  | nil => rw [List.append_nil]
  | cons x v =>
    have hx : isTail x = false := hv x rfl
    match bs with
    | [] => cases v with
      | nil => simp [first, hx]
      | cons y v => cases v <;> simp [first, hx]
    | [c] => cases v <;> simp [first, hx]
    | [c, d] => simp [first, hx]
    | c :: d :: e :: bs => simp [first]

end IrafCl.Scalar

namespace IrafCl.Bytes

/-- Every byte of an ASCII text is a character. -/
theorem scalars_ascii {s : Bytes} (h : ∀ b ∈ s, b < 128) : s.scalars = s.map fun b => .char (Char.ofNat b.toNat) := by
  induction s with
  | nil => rfl
  | cons b s ih =>
    obtain ⟨hb, hs⟩ := List.forall_mem_cons.mp h
    have hfirst : Scalar.first b s = .char (Char.ofNat b.toNat) := by simp [Scalar.first, hb]
    rw [List.map_cons, ← ih hs, scalars, scalarsAfter, hfirst, Scalar.width_ofNat (UInt8.lt_iff_toNat_lt.mp hb)]
    rfl

theorem bytes_ascii {b : UInt8} (h : b < 128) : (Scalar.char (Char.ofNat b.toNat)).bytes = [b] := by
  have hbyte := imp_byte (· < 128) (fun b => (Scalar.char (Char.ofNat b.toNat)).bytes == [b]) (by decide +kernel)
    (b := b) (by simpa using h)
  exact eq_of_beq hbyte

/-- A text of ASCII characters that are not blank has nothing to trim. -/
theorem trim_eq_self {s : Bytes} (h : ∀ b ∈ s, b < 128 ∧ isBlank b.toNat = false) : s.trim = s := by
  have hscalars := scalars_ascii fun b hb => (h b hb).1
  have hsolid : ∀ x ∈ s.scalars, Scalar.blank x = false := by
    rw [hscalars, List.forall_mem_map]
    intro b hb
    have hlt : b.toNat < 128 := UInt8.lt_iff_toNat_lt.mp (h b hb).1
    show isBlank (Scalar.char (Char.ofNat b.toNat)).code = false
    rw [Scalar.code_char (.inl (by omega))]
    exact (h b hb).2
  have hdrop {xs : List Scalar} (hxs : ∀ x ∈ xs, Scalar.blank x = false) : xs.dropWhile Scalar.blank = xs := by
    cases xs with
    | nil => rfl
    | cons x xs => rw [List.dropWhile_cons, hxs x List.mem_cons_self, if_neg (by decide)]
  rw [trim, hdrop hsolid, hdrop fun x hx => hsolid x (List.mem_reverse.mp hx), List.reverse_reverse, hscalars, ofScalars,
    List.flatMap_map]
  have hbytes : s.flatMap (fun b => (Scalar.char (Char.ofNat b.toNat)).bytes) = s.flatMap fun b => [b] :=
    List.flatMap_congr fun b hb => bytes_ascii (h b hb).1
  rw [hbytes, List.flatMap_singleton']

end IrafCl.Bytes
