import IrafCl.Proofs.Number.Reading
import IrafCl.Proofs.Script.Constants

/-!
# What literals denote

A declaration takes the value of a constant, and an expression its literal. The literal of an integer in any base and that of
a string are one token of Python for that value (`Denotes`). A floating-point constant and the parts of a sexagesimal one are
read as decimal numbers, and the numbers in their literals are written with the same digits and exponents (`SameDecimal`).
-/

namespace IrafCl.Python

open Reading (inBase)

/-- The value of an integer, whose base is marked in front. -/
def integer? : Bytes → Option Nat
  | 48 :: 120 :: ds => if !ds.isEmpty && ds.all isHexDigit then some (inBase 16 ds) else none
  | 48 :: 111 :: ds => if !ds.isEmpty && ds.all isOctalDigit then some (inBase 8 ds) else none
  | ds => if isInteger ds && ds.all Bytes.isDigit then some (inBase 10 ds) else none

variable {ds : Bytes}

theorem integer?_hexadecimal (hne : ds ≠ []) (hds : ∀ b ∈ ds, isHexDigit b = true) :
    integer? (48 :: 120 :: ds) = some (inBase 16 ds) := by
  have hempty : ds.isEmpty = false := by simpa using hne
  rw [integer?, hempty, List.all_eq_true.mpr hds]
  rfl

theorem integer?_octal (hne : ds ≠ []) (hds : ∀ b ∈ ds, isOctalDigit b = true) :
    integer? (48 :: 111 :: ds) = some (inBase 8 ds) := by
  have hempty : ds.isEmpty = false := by simpa using hne
  rw [integer?, hempty, List.all_eq_true.mpr hds]
  rfl

theorem integer?_decimal (h : isInteger ds = true) (hds : ∀ b ∈ ds, Bytes.isDigit b = true) :
    integer? ds = some (inBase 10 ds) := by
  unfold integer?
  split
  · exact absurd (hds 120 (by simp)) (by decide)
  · exact absurd (hds 111 (by simp)) (by decide)
  · rw [h, List.all_eq_true.mpr hds]
    rfl

/-- A token is a literal of a value. -/
inductive Denotes : Tok → Value → Prop where
  | int {s : Bytes} {n : Nat} {i : Int64} (h : integer? s = some n) (hi : i.toInt = n) : Denotes (.number s) (.int i)
  | string (s : Bytes) : Denotes (.string s) (.string s)

end IrafCl.Python

namespace IrafCl.Reading

/-! ## Decimal numbers -/

/-- Two texts denote the same decimal number, by the same digits and the same exponent. -/
def SameDecimal (s t : Bytes) : Prop := ∃ d, decimalOf? s = some d ∧ decimalOf? t = some d

variable {whole fraction rest : Bytes}

theorem mantissa_whole (hwhole : ∀ b ∈ whole, Bytes.isDigit b = true)
    (hrest : ∀ b ∈ rest.head?, Bytes.isDigit b = false ∧ b ≠ 46) :
    mantissa Bytes.isDigit (whole ++ rest) = (whole, 0, rest) := by
  obtain ⟨htake, hdrop⟩ := Python.takeWhile_of_seam hwhole fun b hb => (hrest b hb).1
  rw [mantissa, htake, hdrop]
  split
  · exact absurd rfl (hrest 46 rfl).2
  · rfl

theorem mantissa_pointed (hwhole : ∀ b ∈ whole, Bytes.isDigit b = true) (hfraction : ∀ b ∈ fraction, Bytes.isDigit b = true)
    (hrest : ∀ b ∈ rest.head?, Bytes.isDigit b = false) :
    mantissa Bytes.isDigit (whole ++ 46 :: (fraction ++ rest)) = (whole ++ fraction, fraction.length, rest) := by
  have hpoint : ∀ b ∈ (46 :: (fraction ++ rest) : Bytes).head?, Bytes.isDigit b = false := by
    rintro _ ⟨⟩
    rfl
  obtain ⟨htake, hdrop⟩ := Python.takeWhile_of_seam hwhole hpoint
  obtain ⟨htake', hdrop'⟩ := Python.takeWhile_of_seam hfraction hrest
  rw [mantissa, htake, hdrop]
  show (whole ++ (fraction ++ rest).takeWhile Bytes.isDigit, ((fraction ++ rest).takeWhile Bytes.isDigit).length,
    (fraction ++ rest).dropWhile Bytes.isDigit) = _
  rw [htake', hdrop']

theorem exponentOf?_isSome {s : Bytes} (h : Python.Exponent s) : (exponentOf? s).isSome = true := by
  cases h with
  | none => rfl
  | @some mark sign ds hmark hsign hne hds =>
    have hlower : Bytes.lowerByte mark = 101 :=
      eq_of_beq (Bytes.imp_byte Python.isExponentMark (fun b => Bytes.lowerByte b == 101) (by decide) hmark)
    have hdigits : (signOf (sign ++ ds)).2 = ds := by
      rcases hsign with rfl | ⟨b, rfl, hb⟩
      · refine congrArg Prod.snd (signOf_of_head fun b hb => ?_)
        have hb := hds b (List.mem_of_mem_head? hb)
        constructor <;> (rintro rfl; cases hb)
      · simp only [Python.isSign, Bool.or_eq_true, decide_eq_true_eq] at hb
        rcases hb with rfl | rfl <;> rfl
    have hempty : ds.isEmpty = false := by simpa using hne
    simp [exponentOf?, hlower, hdigits, hempty, List.all_eq_true.mpr hds]

theorem decimalOf?_eq {s ds : Bytes} {places : Nat} (h : mantissa Bytes.isDigit s = (ds, places, rest)) (hne : ds ≠ []) :
    decimalOf? s = (exponentOf? rest).map fun e => ⟨inBase 10 ds, e - places⟩ := by
  have hempty : ds.isEmpty = false := by simpa using hne
  rw [decimalOf?, h]
  dsimp only
  rw [hempty, if_neg (by decide)]

theorem decimalOf?_digits {ds : Bytes} (hne : ds ≠ []) (hds : ∀ b ∈ ds, Bytes.isDigit b = true) :
    decimalOf? ds = some ⟨inBase 10 ds, 0⟩ := by
  have hmantissa : mantissa Bytes.isDigit (ds ++ []) = (ds, 0, []) := mantissa_whole hds nofun
  rw [List.append_nil] at hmantissa
  exact decimalOf?_eq hmantissa hne

/-- A decimal number of Python denotes one. -/
theorem exists_decimalOf? {s : Bytes} (h : Python.Decimal s) : ∃ d, decimalOf? s = some d := by
  cases h with
  | integer hds h =>
    have hne : s ≠ [] := by rintro rfl; cases h
    exact ⟨_, decimalOf?_digits hne hds⟩
  | pointed hwhole hfraction hne h =>
    obtain ⟨e, he⟩ := Option.isSome_iff_exists.mp (exponentOf?_isSome h)
    have hmantissa := mantissa_pointed hwhole hfraction fun b hb => (h.head b hb).1
    exact ⟨_, by rw [decimalOf?_eq hmantissa hne, he]; rfl⟩
  | marked hwhole hne h _ =>
    obtain ⟨e, he⟩ := Option.isSome_iff_exists.mp (exponentOf?_isSome h)
    have hmantissa := mantissa_whole hwhole fun b hb => ⟨(h.head b hb).1, (h.head b hb).2.1⟩
    exact ⟨_, by rw [decimalOf?_eq hmantissa hne, he]; rfl⟩

end IrafCl.Reading

namespace IrafCl.Script

open Reading (inBase digit? int? toInt_of_int? SameDecimal)
open Python (Denotes)

/-! ## Integers -/

theorem inBase_stripZeros (base : Nat) (ds : Bytes) : inBase base (stripZeros ds) = inBase base ds := by
  rw [← Reading.inBase_dropWhile_zero base ds, stripZeros]
  split
  · next h =>
    rw [h]
    show Nat.ofDigits base [0] = Nat.ofDigits base []
    rw [Nat.ofDigits_singleton, Nat.ofDigits_nil]
  · rfl

/-- The literal of an integer is its value. -/
theorem denotes_integer {text : Bytes} (h : Lexicon.integer.Matches text) {i : Int64} (hi : int? 10 text = some i) :
    Denotes (.number (stripZeros text)) (.int i) := by
  obtain ⟨-, hds⟩ := digits_of_run1 h
  refine .int (Python.integer?_decimal (isInteger_stripZeros text) (stripZeros_digits rfl hds)) ?_
  rw [inBase_stripZeros]
  exact toInt_of_int? (fun b hb => Reading.isSome_digit?_ten (hds b hb)) hi

/-- The literal of an octal number is its value. -/
theorem denotes_octal {text : Bytes} (h : Lexicon.octal.Matches text) {i : Int64} (hi : int? 8 text.dropLast = some i) :
    Denotes (.number ("0o" ++ stripZeros text.dropLast)) (.int i) := by
  have hds := octal_digits h
  have hread : ∀ b ∈ text.dropLast, (digit? 8 b).isSome = true := fun b hb =>
    Bytes.imp_byte Python.isOctalDigit (fun b => (digit? 8 b).isSome) (by decide) (hds b hb)
  have hvalue : i.toInt = inBase 8 (stripZeros text.dropLast) := by
    rw [inBase_stripZeros]
    exact toInt_of_int? hread hi
  exact .int (Python.integer?_octal (stripZeros_ne_nil _) (stripZeros_digits rfl hds)) hvalue

/-- The literal of a hexadecimal number is its value. -/
theorem denotes_hexadecimal {text : Bytes} (h : Lexicon.hexadecimal.Matches text) {i : Int64}
    (hi : int? 16 text.dropLast = some i) : Denotes (.number ("0x" ++ text.dropLast)) (.int i) := by
  obtain ⟨hne, hds⟩ := hexadecimal_digits h
  have hread : ∀ b ∈ text.dropLast, (digit? 16 b).isSome = true := fun b hb =>
    Bytes.imp_byte Python.isHexDigit (fun b => (digit? 16 b).isSome) (by decide) (hds b hb)
  exact .int (Python.integer?_hexadecimal hne hds) (toInt_of_int? hread hi)

/-! ## Decimal numbers -/

/-- The literal of a floating-point number and the text that is read differ in the case of the exponent mark. -/
theorem lower_exponentMark (text : Bytes) : Bytes.lower (exponentMark 'E' text) = Bytes.lower (exponentMark 'e' text) := by
  rw [Bytes.lower, Bytes.lower, exponentMark, exponentMark, List.map_map, List.map_map]
  refine List.map_congr_left fun b _ => ?_
  dsimp only [Function.comp_apply]
  split <;> rfl

theorem sameDecimal_float {text : Bytes} (h : Lexicon.float.Matches text) :
    SameDecimal (exponentMark 'E' text) (exponentMark 'e' text) := by
  obtain ⟨d, hd⟩ := Reading.exists_decimalOf? (decimal_float 'E' (by decide) h)
  refine ⟨d, hd, ?_⟩
  rw [← Reading.decimalOf?_lower, ← lower_exponentMark, Reading.decimalOf?_lower, hd]

theorem sameDecimal_partDigits {part : Bytes} (h : IsSexagesimalPart part) : SameDecimal (partDigits part) part := by
  cases h with
  | whole hne hds =>
    rw [partDigits_digits hds]
    refine ⟨_, Reading.decimalOf?_digits (stripZeros_ne_nil _) (stripZeros_digits rfl hds), ?_⟩
    rw [inBase_stripZeros, Reading.decimalOf?_digits hne hds]
  | pointed hne hds hfraction =>
    obtain ⟨d, hd⟩ := Reading.exists_decimalOf? (decimal_partDigits (.pointed hne hds hfraction))
    rw [partDigits_pointed] at hd ⊢
    exact ⟨d, hd, hd⟩

/-! ## Constants -/

section
variable {c : Constant}

theorem value?_of_value {v : Value} (h : c.value = .ok v) : c.value? = some v := by
  unfold Constant.value at h
  split at h
  · next w hw =>
    cases h
    exact hw
  · cases h

/-- The literal of an integer or a string is one token for its value. -/
theorem denotes_constant (hlexed : c.IsLexed) (hkind : c.kind ∈ [.integer, .octal, .hex, .string]) {v : Value}
    (hv : c.value = .ok v) : ∃ tok, Python.lex c.lower.text = some [tok] ∧ Denotes tok v := by
  have hvalue := value?_of_value hv
  unfold Constant.IsLexed at hlexed
  unfold Constant.value? at hvalue
  unfold Constant.lower
  cases h : c.kind with
  | integer =>
    rw [h] at hlexed hvalue
    obtain ⟨i, hi, rfl⟩ := Option.map_eq_some_iff.mp hvalue
    exact ⟨_, (numeral_integer hlexed).spells.lex_eq, denotes_integer hlexed hi⟩
  | octal =>
    rw [h] at hlexed hvalue
    obtain ⟨i, hi, rfl⟩ := Option.map_eq_some_iff.mp hvalue
    exact ⟨_, (numeral_octal hlexed).spells.lex_eq, denotes_octal hlexed hi⟩
  | hex =>
    rw [h] at hlexed hvalue
    obtain ⟨i, hi, rfl⟩ := Option.map_eq_some_iff.mp hvalue
    exact ⟨_, (numeral_hexadecimal hlexed).spells.lex_eq, denotes_hexadecimal hlexed hi⟩
  | string =>
    rw [h] at hvalue
    cases hvalue
    exact ⟨_, (Python.spells_string c.body).lex_eq, .string c.body⟩
  | _ => simp [h] at hkind

/-- For integers and strings the literal of a constant is one token for its value. For floating-point and sexagesimal constants
the numbers in it are the decimal numbers that the value is made of. -/
theorem literal_denotes {source : Bytes} {tokens : List (Token Symbol)} (htokens : tokenize source = .ok tokens)
    {t : Token Symbol} (ht : t ∈ tokens) (hc : Constant.ofToken? t = some c) :
    (c.kind ∈ [.integer, .octal, .hex, .string] → ∀ v, c.value = .ok v →
      ∃ tok, Python.lex c.lower.text = some [tok] ∧ Denotes tok v) ∧
    (c.kind = .float → ∃ s, Python.lex c.lower.text = some [.number s] ∧
      c.value? = (Reading.float? (exponentMark 'e' c.text)).map .float ∧ SameDecimal s (exponentMark 'e' c.text)) ∧
    (c.kind = .sexagesimal → ∃ parts, Python.read c.lower.text =
        some (.call (.path ["iraf", "clSexagesimal"]) (parts.map fun s => (none, .number s))) ∧
      c.value? = (sexagesimalSum .zero 1 (Bytes.pieces (Bytes.ascii ':') c.text)).map .float ∧
      List.Forall₂ SameDecimal parts (Bytes.pieces (Bytes.ascii ':') c.text)) := by
  have hlexed : c.IsLexed := by
    have hends := tokenize_ends source
    rw [htokens] at hends
    exact isLexed_ofToken (hends t ht) hc
  refine ⟨fun hkind v hv => denotes_constant hlexed hkind hv, fun hkind => ?_, fun hkind => ?_⟩
  · rw [Constant.IsLexed, hkind] at hlexed
    have htext : c.lower.text = exponentMark 'E' c.text := by rw [Constant.lower, hkind]; rfl
    have hvalue : c.value? = (Reading.float? (exponentMark 'e' c.text)).map .float := by rw [Constant.value?, hkind]
    exact ⟨_, by rw [htext]; exact (numeral_float hlexed).spells.lex_eq, hvalue, sameDecimal_float hlexed⟩
  · have hread : Python.read c.lower.text = some c.tree := (prints_constant hlexed).reads.read_eq
    have htree : c.tree = .call (.path ["iraf", "clSexagesimal"])
        (((Bytes.pieces (Bytes.ascii ':') c.text).map partDigits).map fun s => (none, .number s)) := by
      rw [Constant.tree, hkind, List.map_map]
      rfl
    have hvalue : c.value? = (sexagesimalSum .zero 1 (Bytes.pieces (Bytes.ascii ':') c.text)).map .float := by
      rw [Constant.value?, hkind]
      rfl
    rw [Constant.IsLexed, hkind] at hlexed
    refine ⟨_, by rw [hread, htree], hvalue, List.forall₂_map_left_iff.mpr (List.forall₂_same.mpr fun part hpart => ?_)⟩
    exact sameDecimal_partDigits (parts_of_sexagesimal hlexed part hpart)

/-- Zeros in front and the mark of an exponent make no difference. -/
theorem literal_denotes_zeros : ∃ tokens, tokenize "0017b 1.5D2 01:05" = .ok tokens ∧
    tokens.map (·.kind) = [.octal, .float, .sexagesimal, .newline] ∧
    (∃ tok, Python.lex "0o17" = some [tok] ∧ Denotes tok (.int 15)) ∧
    (∃ s, Python.lex "1.5E2" = some [.number s] ∧ SameDecimal s "1.5e2") ∧
    ∃ parts, Python.read "iraf.clSexagesimal(1, 5)" =
      some (.call (.path ["iraf", "clSexagesimal"]) (parts.map fun s => (none, .number s))) ∧
      List.Forall₂ SameDecimal parts ["01", "05"] := by
  have htokens : tokenize "0017b 1.5D2 01:05" = .ok [⟨.octal, "0017b", none, 1⟩, ⟨.float, "1.5D2", none, 1⟩,
      ⟨.sexagesimal, "01:05", none, 1⟩, ⟨.newline, "\n", none, 1⟩] := tokenize_eq_ok (by decide)
  refine ⟨_, htokens, rfl, ?_, ?_, ?_⟩
  · have hoctal := literal_denotes htokens (t := ⟨.octal, "0017b", none, 1⟩) (by simp) rfl
    exact hoctal.1 (by decide) _ rfl
  · have hfloat := literal_denotes htokens (t := ⟨.float, "1.5D2", none, 1⟩) (by simp) rfl
    obtain ⟨s, hlex, -, hsame⟩ := hfloat.2.1 rfl
    exact ⟨s, hlex, hsame⟩
  · have hsexagesimal := literal_denotes htokens (t := ⟨.sexagesimal, "01:05", none, 1⟩) (by simp) rfl
    obtain ⟨parts, hread, -, hsame⟩ := hsexagesimal.2.2 rfl
    exact ⟨parts, hread, hsame⟩

end

end IrafCl.Script
