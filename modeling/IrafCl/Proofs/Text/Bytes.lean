import IrafCl.Text.Bytes

/-!
# Laws of byte texts

Cutting a text at a byte gives back the parts that were joined by it, if none of them has the byte
(`Bytes.pieces_join`). Different numbers have different digits (`Bytes.ofNat_injective`). Inclusions between classes
of bytes are checked byte by byte (`Bytes.imp_byte`).
-/

namespace IrafCl.Bytes

/-- A class of bytes lies in another if that holds byte by byte; a byte is two hexadecimal digits. -/
theorem imp_byte (p q : UInt8 → Bool)
    (h : ∀ m < 16, ∀ n < 16, p (UInt8.ofNat (16 * m + n)) = true → q (UInt8.ofNat (16 * m + n)) = true) {b : UInt8}
    (hb : p b = true) : q b = true := by
  have hbound := b.toNat_lt
  have himp := h (b.toNat / 16) (by omega) (b.toNat % 16) (by omega)
  rw [Nat.div_add_mod, UInt8.ofNat_toNat] at himp
  exact himp hb

theorem join_cons_cons (sep a b : Bytes) (rest : List Bytes) :
    join sep (a :: b :: rest) = a ++ (sep ++ join sep (b :: rest)) := by
  simp [join, List.intercalate]

theorem join_singleton (sep a : Bytes) : join sep [a] = a := by
  simp [join]

theorem join_append (sep : Bytes) : ∀ {parts more : List Bytes}, parts ≠ [] → more ≠ [] →
    join sep (parts ++ more) = join sep parts ++ (sep ++ join sep more)
  | [], _, hne, _ => absurd rfl hne
  | [part], next :: more, _, _ => by rw [List.singleton_append, join_cons_cons, join_singleton]
  | part :: next :: parts, more, _, hmore => by
    have ih := join_append sep (List.cons_ne_nil next parts) hmore
    rw [List.cons_append] at ih
    rw [List.cons_append, List.cons_append, join_cons_cons, ih, join_cons_cons, List.append_assoc, List.append_assoc]

theorem join_concat (sep last : Bytes) {parts : List Bytes} (h : parts ≠ []) :
    join sep (parts ++ [last]) = join sep parts ++ (sep ++ last) := by
  rw [join_append sep h (List.cons_ne_nil last []), join_singleton]

theorem pieces_of_not_mem {c : UInt8} : ∀ {s : Bytes}, c ∉ s → pieces c s = [s]
  | [], _ => rfl
  | b :: s, h => by
    rw [List.mem_cons, not_or] at h
    rw [pieces, if_neg (Ne.symm h.1), pieces_of_not_mem h.2]

theorem pieces_append {c : UInt8} : ∀ {a : Bytes} (s : Bytes), c ∉ a → pieces c (a ++ c :: s) = a :: pieces c s
  | [], s, _ => by rw [List.nil_append, pieces, if_pos rfl]
  | b :: a, s, h => by
    rw [List.mem_cons, not_or] at h
    rw [List.cons_append, pieces, if_neg (Ne.symm h.1), pieces_append s h.2]

/-- Parts without the byte between them are cut apart again. -/
theorem pieces_join {c : UInt8} : ∀ {parts : List Bytes}, parts ≠ [] → (∀ part ∈ parts, c ∉ part) →
    pieces c (join [c] parts) = parts
  | [], hne, _ => absurd rfl hne
  | [part], _, h => by
    rw [join_singleton]
    exact pieces_of_not_mem (h part (by simp))
  | part :: next :: parts, _, h => by
    rw [join_cons_cons, List.singleton_append, pieces_append _ (h part (by simp)),
      pieces_join (by simp) fun x hx => h x (List.mem_cons_of_mem _ hx)]

theorem toNat_ascii_of_isDigit {c : Char} (h : c.isDigit = true) : (ascii c).toNat = c.toNat := by
  simp only [Char.isDigit, Bool.and_eq_true, decide_eq_true_eq, ge_iff_le, UInt32.le_iff_toNat_le] at h
  rw [ascii, UInt8.toNat_ofNat']
  exact Nat.mod_eq_of_lt (Nat.lt_of_le_of_lt h.2 (by decide))

theorem ofNat_of_lt {n : Nat} (h : n < 10) : ofNat n = [ascii n.digitChar] := by
  rw [ofNat, Nat.toDigits_of_lt_base h, List.map_singleton]

/-- The last digit of a number comes after the others. -/
theorem ofNat_of_le {n : Nat} (h : 10 ≤ n) : ofNat n = ofNat (n / 10) ++ [ascii (n % 10).digitChar] := by
  rw [ofNat, Nat.toDigits_of_base_le (by decide) h, List.map_append, List.map_singleton, ofNat]

/-- A number is its digits. -/
theorem ofNat_injective : Function.Injective ofNat := by
  intro m n h
  have hcodes (k : Nat) : (ofNat k).map UInt8.toNat = (Nat.toDigits 10 k).map Char.toNat := by
    rw [ofNat, List.map_map]
    exact List.map_congr_left fun c hc => toNat_ascii_of_isDigit (Nat.isDigit_of_mem_toDigits (by decide) (by decide) hc)
  have hdigits : Nat.toDigits 10 m = Nat.toDigits 10 n := by
    refine (List.map_inj_right fun _ _ => Char.toNat_inj.mp).mp ?_
    rw [← hcodes, ← hcodes, h]
  rw [← Nat.ofDigitChars_ten_toDigits (n := m), hdigits, Nat.ofDigitChars_ten_toDigits]

end IrafCl.Bytes
