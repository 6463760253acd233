import IrafCl.Number.Text
import IrafCl.Proofs.Pattern.Matching
import IrafCl.Proofs.Text.Bytes
import IrafCl.Text.Quoted

/-!
# Texts without a carriage return

Numbers and quoted texts have no carriage return in them, whatever is quoted: the character is written as an escape.
-/

namespace IrafCl

namespace Bytes

/-- A text without a carriage return. -/
def NoReturn (s : Bytes) : Prop := 13 ∉ s

instance (s : Bytes) : Decidable (NoReturn s) := inferInstanceAs (Decidable (13 ∉ s))

variable {s t : Bytes}

theorem noReturn_append : NoReturn (s ++ t) ↔ NoReturn s ∧ NoReturn t := by
  simp [NoReturn, not_or]

theorem NoReturn.append (hs : NoReturn s) (ht : NoReturn t) : NoReturn (s ++ t) := noReturn_append.mpr ⟨hs, ht⟩

theorem NoReturn.of_subset (ht : NoReturn t) (h : s ⊆ t) : NoReturn s := fun hmem => ht (h hmem)

theorem NoReturn.of_bytes (good : UInt8 → Bool) (hgood : good 13 = false) (h : ∀ b ∈ s, good b = true) : NoReturn s := by
  intro hmem
  rw [h 13 hmem] at hgood
  cases hgood

theorem noReturn_join {parts : List Bytes} (h : ∀ part ∈ parts, NoReturn part) (ht : NoReturn t) : NoReturn (join t parts) := by
  induction parts with
  | nil => exact List.not_mem_nil
  | cons part parts ih =>
    rw [List.forall_mem_cons] at h
    cases parts with
    | nil => rw [join_singleton]; exact h.1
    | cons next parts =>
      rw [join_cons_cons]
      exact h.1.append (ht.append (ih h.2))

theorem noReturn_flatMap {α : Type} {xs : List α} {f : α → Bytes} (h : ∀ x ∈ xs, NoReturn (f x)) : NoReturn (xs.flatMap f) := by
  intro hmem
  obtain ⟨x, hx, hreturn⟩ := List.mem_flatMap.mp hmem
  exact h x hx hreturn

/-! ## Numbers -/

theorem noReturn_ofNat (n : Nat) : NoReturn (ofNat n) := by
  intro hmem
  obtain ⟨c, hc, heq⟩ := List.mem_map.mp hmem
  have hdigit := Nat.isDigit_of_mem_toDigits (b := 10) (by decide) (by decide) hc
  have hcode := toNat_ascii_of_isDigit hdigit
  rw [heq] at hcode
  simp only [Char.isDigit, Bool.and_eq_true, decide_eq_true_eq, ge_iff_le, UInt32.le_iff_toNat_le] at hdigit
  have hle : 48 ≤ c.toNat := hdigit.1
  rw [← hcode] at hle
  exact absurd hle (by decide)

theorem noReturn_ofInt : ∀ i : Int, NoReturn (ofInt i)
  | .ofNat n => noReturn_ofNat n
  | .negSucc n => NoReturn.append (s := [ascii '-']) (by decide) (noReturn_ofNat (n + 1))

theorem hexDigit_ne (n : Nat) : hexDigit n ≠ 13 := by
  have hall : ∀ n < 16, ascii (Nat.digitChar n) ≠ 13 := by decide
  exact hall (n % 16) (Nat.mod_lt _ (by decide))

theorem noReturn_hexPadded : ∀ width n : Nat, NoReturn (hexPadded width n)
  | 0, _ => List.not_mem_nil
  | width + 1, n => (noReturn_hexPadded width (n / 16)).append (by
    rw [NoReturn, List.mem_singleton]
    exact (hexDigit_ne n).symm)

theorem noReturn_hexByte (b : UInt8) : NoReturn (hexByte b) := by
  simp [NoReturn, hexByte, (hexDigit_ne _).symm]

/-! ## Quoted text -/

/-- The bytes of a character that is not in ASCII are not in ASCII either. -/
theorem le_of_mem_utf8EncodeChar {c : Char} (h : 128 ≤ c.toNat) {b : UInt8} (hb : b ∈ String.utf8EncodeChar c) :
    128 ≤ b.toNat := by
  have marked (n mark : Nat) (hmark : 128 ≤ mark) (hlt : n + mark < 256) : 128 ≤ (UInt8.ofNat (n + mark)).toNat := by
    rw [UInt8.toNat_ofNat', Nat.mod_eq_of_lt hlt]
    omega
  have hlarge : ¬ c.val.toNat ≤ 127 := Nat.not_le.mpr h
  simp only [String.utf8EncodeChar, if_neg hlarge] at hb
  split at hb
  · simp only [List.mem_cons, List.not_mem_nil, or_false] at hb
    rcases hb with rfl | rfl
    · exact marked _ _ (by decide) (by omega)
    · exact marked _ _ (by decide) (by omega)
  split at hb
  · simp only [List.mem_cons, List.not_mem_nil, or_false] at hb
    rcases hb with rfl | rfl | rfl
    · exact marked _ _ (by decide) (by omega)
    · exact marked _ _ (by decide) (by omega)
    · exact marked _ _ (by decide) (by omega)
  · simp only [List.mem_cons, List.not_mem_nil, or_false] at hb
    rcases hb with rfl | rfl | rfl | rfl
    · exact marked _ _ (by decide) (by omega)
    · exact marked _ _ (by decide) (by omega)
    · exact marked _ _ (by decide) (by omega)
    · exact marked _ _ (by decide) (by omega)

theorem noReturn_utf8EncodeChar {c : Char} (h : c.toNat ≠ 13) : NoReturn (String.utf8EncodeChar c) := by
  intro hmem
  by_cases hascii : c.toNat < 128
  · rw [Regex.utf8EncodeChar_ascii hascii, List.mem_singleton] at hmem
    have hcode := congrArg UInt8.toNat hmem
    rw [ascii, UInt8.toNat_ofNat', Nat.mod_eq_of_lt (Nat.lt_trans hascii (by decide))] at hcode
    exact h hcode.symm
  · exact absurd (le_of_mem_utf8EncodeChar (Nat.le_of_not_lt hascii) hmem) (by decide)

theorem noReturn_quoted : ∀ x : Scalar, NoReturn x.quoted
  | .stray b => (show NoReturn "\\x" by decide).append (noReturn_hexByte b)
  | .char c => by
    rw [Scalar.quoted]
    split
    · decide
    split
    · decide
    split
    · next hprintable =>
      refine noReturn_utf8EncodeChar fun heq => ?_
      rw [heq] at hprintable
      exact absurd hprintable (by decide)
    -- the escapes of single characters, then the codes of all others
    split
    all_goals try decide
    split
    · exact (show NoReturn "\\x" by decide).append (noReturn_hexPadded 2 _)
    split
    · exact (show NoReturn "\\u" by decide).append (noReturn_hexPadded 4 _)
    · exact (show NoReturn "\\U" by decide).append (noReturn_hexPadded 8 _)

/-- Quoting writes a carriage return as an escape. -/
theorem noReturn_quote (s : Bytes) : NoReturn s.quote :=
  ((show NoReturn "\"" by decide).append (noReturn_flatMap fun x _ => noReturn_quoted x)).append (by decide)

end Bytes

/-! ## Floating-point numbers -/

open Bytes

theorem Decimal.noReturn_significant (d : Decimal) : NoReturn d.significant := by
  refine (noReturn_ofNat d.digits).of_subset ?_
  unfold significant dropLastWhile
  intro b hb
  rw [List.mem_reverse] at hb
  exact List.mem_reverse.mp ((List.dropWhile_sublist _).subset hb)

theorem Decimal.noReturn_exponentText (e : Int) : NoReturn (exponentText e) := by
  unfold exponentText
  refine NoReturn.append ?_ ?_
  · split <;> decide
  · split
    · exact NoReturn.append (by decide) (noReturn_ofNat _)
    · exact noReturn_ofNat _

theorem Decimal.noReturn_scientific {digits : Bytes} (h : NoReturn digits) (e : Int) : NoReturn (scientific digits e) := by
  cases digits with
  | nil => exact (show NoReturn "0" by decide)
  | cons d ds =>
    have hparts : NoReturn [d] ∧ NoReturn ds := noReturn_append.mp h
    rw [scientific]
    have hfraction : NoReturn (if ds.isEmpty then [] else ascii '.' :: ds) := by
      split
      · exact List.not_mem_nil
      · exact NoReturn.append (s := [ascii '.']) (by decide) hparts.2
    have hmark : NoReturn "e" := by decide
    exact hparts.1.append ((hfraction.append hmark).append (noReturn_exponentText e))

theorem Decimal.noReturn_positional {digits : Bytes} (h : NoReturn digits) (e : Int) : NoReturn (positional digits e) := by
  have hzeros (n : Nat) : NoReturn (List.replicate n (ascii '0')) := by
    intro hmem
    exact absurd (List.eq_of_mem_replicate hmem) (by decide)
  have hdrop (n : Nat) : NoReturn (digits.drop n) := h.of_subset (List.drop_subset n digits)
  unfold positional
  split
  · exact ((show NoReturn "0." by decide).append (hzeros _)).append h
  · refine ((h.of_subset (List.take_subset _ digits)).append (hzeros _)).append ?_
    split
    · exact List.not_mem_nil
    · exact NoReturn.append (s := [ascii '.']) (by decide) (hdrop _)

theorem Decimal.noReturn_text (d : Decimal) : NoReturn d.text := by
  rw [text]
  split
  · exact noReturn_scientific d.noReturn_significant _
  · exact noReturn_positional d.noReturn_significant _

theorem Binary64.noReturn_text (x : Binary64) : NoReturn x.text := by
  have hsign : NoReturn (if x.negative then "-" else []) := by split <;> decide
  unfold text
  generalize (if x.negative then ("-" : Bytes) else []) = sign at hsign
  dsimp only
  split
  · decide
  split
  · split <;> decide
  split
  · exact hsign.append (by decide)
  · exact hsign.append x.shortest.noReturn_text

end IrafCl
