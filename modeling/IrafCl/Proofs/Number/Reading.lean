import IrafCl.Number.Reading
import IrafCl.Number.Shortest
import IrafCl.Proofs.Text.Bytes
import Mathlib.Data.List.Induction
import Mathlib.Data.Nat.Digits.Defs

/-!
# What numbers denote

Digits stand for a number in a base (`inBase`), and an integer is read as that number with its sign, if it fits 64 bits
(`int?_eq`). A decimal number is digits and a power of ten (`decimalOf?`).
-/

namespace IrafCl.Reading

/-! ## Digits -/

/-- The value of a digit; other bytes count nothing. -/
def digitValue (b : UInt8) : Nat := (Bytes.hexValue? b).getD 0

/-- The number that digits stand for in a base, the last one counting least. -/
def inBase (base : Nat) (ds : Bytes) : Nat := Nat.ofDigits base (ds.reverse.map digitValue)

variable {base n : Nat} {ds : Bytes}

theorem inBase_concat (base : Nat) (ds : Bytes) (b : UInt8) :
    inBase base (ds ++ [b]) = base * inBase base ds + digitValue b := by
  rw [inBase, List.reverse_concat, List.map_cons, Nat.ofDigits_cons, Nat.add_comm]
  rfl

/-- Zeros before digits count nothing. -/
theorem inBase_dropWhile_zero (base : Nat) (ds : Bytes) :
    inBase base (ds.dropWhile (· == Bytes.ascii '0')) = inBase base ds := by
  induction ds with
  | nil => rfl
  | cons d ds ih =>
    rw [List.dropWhile_cons]
    split
    · next hd =>
      rw [ih, eq_of_beq hd]
      simp [inBase, Nat.ofDigits_append, show digitValue (Bytes.ascii '0') = 0 from rfl]
    · rfl

theorem digits?_concat (base : Nat) (ds : Bytes) (b : UInt8) :
    digits? base (ds ++ [b]) = (digits? base ds).bind fun n => (digit? base b).map (base * n + ·) := by
  rw [digits?, List.foldlM_append]
  cases h : digits? base ds <;> rw [digits?] at h <;> simp [h]

/-- Digits of a base are read as the number that they stand for. -/
theorem digits?_eq (h : ∀ b ∈ ds, (digit? base b).isSome = true) : digits? base ds = some (inBase base ds) := by
  induction ds using List.reverseRecOn with
  | nil => rfl
  | append_singleton ds b ih =>
    obtain ⟨hds, hb⟩ := List.forall_mem_append.mp h
    obtain ⟨v, hv⟩ := Option.isSome_iff_exists.mp (hb b List.mem_cons_self)
    have hvalue : digitValue b = v := by rw [digitValue, (Option.filter_eq_some_iff.mp hv).1]; rfl
    rw [digits?_concat, ih hds, inBase_concat, hvalue, Option.bind_some, hv, Option.map_some]

theorem isSome_digit?_ten {b : UInt8} (h : Bytes.isDigit b = true) : (digit? 10 b).isSome = true :=
  Bytes.imp_byte Bytes.isDigit (fun b => (digit? 10 b).isSome) (by decide) h

/-! ## Integers -/

/-- The number that digits behind an optional sign stand for. -/
def signed (base : Nat) (s : Bytes) : Int :=
  if (signOf s).1 then -(inBase base (signOf s).2 : Int) else inBase base (signOf s).2

/-- The number fits 64 bits. -/
def FitsInt64 (n : Int) : Prop := -2 ^ 63 ≤ n ∧ n < 2 ^ 63

instance (n : Int) : Decidable (FitsInt64 n) := inferInstanceAs (Decidable (_ ∧ _))

/-- Digits behind an optional sign are read as their number if it fits 64 bits. -/
theorem int?_eq {s : Bytes} (hne : (signOf s).2 ≠ []) (hds : ∀ b ∈ (signOf s).2, (digit? base b).isSome = true) :
    int? base s = if FitsInt64 (signed base s) then some (Int64.ofInt (signed base s)) else none := by
  have hempty : (signOf s).2.isEmpty = false := by simpa using hne
  have hpow : Nat.pow 2 63 = 9223372036854775808 := rfl
  simp only [int?, hempty, digits?_eq hds, hpow, Bool.not_false, guard, if_true, bind, Option.bind_some]
  cases hneg : (signOf s).1 with
  | true =>
    have hsigned : signed base s = -(inBase base (signOf s).2 : Int) := by rw [signed, hneg, if_pos rfl]
    have hfits : FitsInt64 (-(inBase base (signOf s).2 : Int)) ↔ inBase base (signOf s).2 ≤ 9223372036854775808 := by
      rw [FitsInt64]
      omega
    rw [hsigned]
    by_cases h : inBase base (signOf s).2 ≤ 9223372036854775808 <;> simp [hfits, h]
  | false =>
    have hsigned : signed base s = inBase base (signOf s).2 := by rw [signed, hneg, if_neg (by decide)]
    have hfits : FitsInt64 (inBase base (signOf s).2) ↔ inBase base (signOf s).2 < 9223372036854775808 := by
      rw [FitsInt64]
      omega
    rw [hsigned]
    by_cases h : inBase base (signOf s).2 < 9223372036854775808 <;> simp [hfits, h]

theorem signOf_of_head {s : Bytes} (h : ∀ b ∈ s.head?, b ≠ 45 ∧ b ≠ 43) : signOf s = (false, s) := by
  cases s with
  | nil => rfl
  | cons b s =>
    obtain ⟨hminus, hplus⟩ := h b rfl
    rw [signOf, if_neg hminus, if_neg hplus]

/-- Digits without a sign are read as the number that they stand for, if any. -/
theorem toInt_of_int? {i : Int64} (hds : ∀ b ∈ ds, (digit? base b).isSome = true) (h : int? base ds = some i) :
    i.toInt = inBase base ds := by
  have hdigit (b : UInt8) (hb : (digit? base b).isSome = true) : b ≠ 45 ∧ b ≠ 43 := by
    constructor <;> (rintro rfl; cases hb)
  have hsign : signOf ds = (false, ds) := signOf_of_head fun b hb => hdigit b (hds b (List.mem_of_mem_head? hb))
  have hne : ds ≠ [] := by
    rintro rfl
    cases h
  have hvalue : signed base ds = inBase base ds := by rw [signed, hsign]; rfl
  rw [int?_eq (by rwa [hsign]) (by rwa [hsign]), hvalue] at h
  split at h
  · next hfits =>
    cases h
    exact Int64.toInt_ofInt_of_le hfits.1 hfits.2
  · cases h

/-! ## Decimal numbers -/

/-- The exponent that stands behind the digits of a number, if any does. -/
def exponentOf? : Bytes → Option Int
  | [] => some 0
  | mark :: s =>
    if Bytes.lowerByte mark = 101 && !(signOf s).2.isEmpty && (signOf s).2.all Bytes.isDigit then some (signed 10 s) else none

/-- The decimal number that a text denotes: its digits without the point, and the exponent less the places behind the point. -/
def decimalOf? (s : Bytes) : Option Decimal :=
  let (ds, places, rest) := mantissa Bytes.isDigit s
  if ds.isEmpty then none else (exponentOf? rest).map fun e => ⟨inBase 10 ds, e - places⟩

theorem isDigit_lowerByte (b : UInt8) : Bytes.isDigit (Bytes.lowerByte b) = Bytes.isDigit b :=
  eq_of_beq (Bytes.imp_byte (fun _ => true) (fun b => Bytes.isDigit (Bytes.lowerByte b) == Bytes.isDigit b)
    (by decide) rfl)

theorem lowerByte_eq_iff {c : UInt8} (hc : c ∈ ([43, 45, 46] : Bytes)) (b : UInt8) : Bytes.lowerByte b = c ↔ b = c := by
  have hbyte := Bytes.imp_byte (fun _ => true) (fun b => ([43, 45, 46] : Bytes).all fun c => (Bytes.lowerByte b == c) == (b == c))
    (by decide) (b := b) rfl
  have heq := eq_of_beq (List.all_eq_true.mp hbyte c hc)
  rw [← beq_iff_eq, heq, beq_iff_eq]

theorem lower_digits {ds : Bytes} (h : ∀ b ∈ ds, Bytes.isDigit b = true) : Bytes.lower ds = ds := by
  refine (List.map_congr_left fun b hb => ?_).trans (List.map_id ds)
  exact eq_of_beq (Bytes.imp_byte Bytes.isDigit (fun b => Bytes.lowerByte b == b) (by decide) (h b hb))

theorem signOf_lower (s : Bytes) : signOf (Bytes.lower s) = ((signOf s).1, Bytes.lower (signOf s).2) := by
  cases s with
  | nil => rfl
  | cons b s =>
    simp only [Bytes.lower, List.map_cons, signOf, lowerByte_eq_iff (c := 45) (by decide), lowerByte_eq_iff (c := 43) (by decide)]
    split
    · rfl
    · split <;> rfl

theorem exponentOf?_lower (s : Bytes) : exponentOf? (Bytes.lower s) = exponentOf? s := by
  cases s with
  | nil => rfl
  | cons mark s =>
    have hmark : Bytes.lowerByte (Bytes.lowerByte mark) = Bytes.lowerByte mark :=
      eq_of_beq (Bytes.imp_byte (fun _ => true) (fun b => Bytes.lowerByte (Bytes.lowerByte b) == Bytes.lowerByte b)
        (by decide) rfl)
    have hall : (Bytes.lower (signOf s).2).all Bytes.isDigit = (signOf s).2.all Bytes.isDigit := by
      simp [Bytes.lower, List.all_map, Function.comp_def, isDigit_lowerByte]
    show exponentOf? (Bytes.lowerByte mark :: Bytes.lower s) = _
    simp only [exponentOf?, signed, signOf_lower, hmark, hall]
    by_cases hdigits : (signOf s).2.all Bytes.isDigit = true
    · rw [lower_digits (List.all_eq_true.mp hdigits)]
    · simp [hdigits]

theorem span_lower (s : Bytes) : (Bytes.lower s).takeWhile Bytes.isDigit = s.takeWhile Bytes.isDigit ∧
    (Bytes.lower s).dropWhile Bytes.isDigit = Bytes.lower (s.dropWhile Bytes.isDigit) := by
  have hdigit : Bytes.isDigit ∘ Bytes.lowerByte = Bytes.isDigit := funext isDigit_lowerByte
  refine ⟨?_, ?_⟩
  · rw [Bytes.lower, List.takeWhile_map, hdigit]
    exact lower_digits (List.all_eq_true.mp List.all_takeWhile)
  · rw [Bytes.lower, List.dropWhile_map, hdigit, Bytes.lower]

theorem mantissa_lower (s : Bytes) : mantissa Bytes.isDigit (Bytes.lower s) =
    ((mantissa Bytes.isDigit s).1, (mantissa Bytes.isDigit s).2.1, Bytes.lower (mantissa Bytes.isDigit s).2.2) := by
  unfold mantissa
  rw [(span_lower s).1, (span_lower s).2]
  cases s.dropWhile Bytes.isDigit with
  | nil => rfl
  | cons b rest =>
    by_cases hb : b = 46
    · subst hb
      have hrest : Bytes.lower (46 :: rest) = 46 :: Bytes.lower rest := rfl
      simp [hrest, span_lower rest]
    · have hlower : Bytes.lowerByte b ≠ 46 := mt (lowerByte_eq_iff (by decide) b).mp hb
      have hrest : Bytes.lower (b :: rest) = Bytes.lowerByte b :: Bytes.lower rest := rfl
      simp [hrest, hb, hlower]

/-- The case of the exponent mark makes no difference. -/
theorem decimalOf?_lower (s : Bytes) : decimalOf? (Bytes.lower s) = decimalOf? s := by
  rw [decimalOf?, mantissa_lower]
  dsimp only
  rw [exponentOf?_lower]
  rfl

end IrafCl.Reading
