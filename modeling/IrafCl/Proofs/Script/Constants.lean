import IrafCl.Proofs.Code.Printing
import IrafCl.Proofs.Script.Lexemes
import IrafCl.Script.Lowering.Expr
import IrafCl.Script.Reader

/-!
# Constants in generated code

Each kind of constant is written as a literal that Python reads as one operand (`prints_constant`). Python
takes no leading zeros in decimal integers, other marks for octal and hexadecimal ones, and no sexagesimal
ones at all.
-/

namespace IrafCl.Script

open Python (Decimal Numeral Exponent operandLevel)
open Code (Prints IsPath)

/-- The text of a constant fits its kind. -/
def Constant.IsLexed (c : Constant) : Prop :=
  match c.kind with
  | .integer => Lexicon.integer.Matches c.text
  | .float => Lexicon.float.Matches c.text
  | .octal => Lexicon.octal.Matches c.text
  | .hex => Lexicon.hexadecimal.Matches c.text
  | .sexagesimal => Lexicon.sexagesimal.Matches c.text
  | .string => True
  | .bool => c.text = "yes" ∨ c.text = "no"
  | .undefined => c.text = "INDEF"

theorem isLexed_ofToken {t : Token Symbol} {c : Constant} (ht : Lexed t) (h : Constant.ofToken? t = some c) :
    c.IsLexed := by
  obtain ⟨kind, hkind, rfl⟩ := Option.map_eq_some_iff.mp h
  unfold Lexed at ht
  unfold Constant.IsLexed
  unfold ConstantKind.ofSymbol? at hkind
  split at hkind
  all_goals cases hkind
  all_goals
    next hsymbol =>
      rw [hsymbol] at ht
      exact ht

/-! ## Digits -/

theorem digits_of_run1 {ds : Bytes} (h : (Regex.many1 Lexicon.digit).Matches ds) :
    ds ≠ [] ∧ ∀ b ∈ ds, Bytes.isDigit b = true := by
  obtain ⟨hne, hds⟩ := h.run1 rfl
  exact ⟨hne, fun b hb =>
    Bytes.imp_byte (fun b => CharClass.digits.contains b.toNat) Bytes.isDigit (by decide) (hds b hb)⟩

theorem digits_of_run {ds : Bytes} (h : (Regex.many Lexicon.digit).Matches ds) : ∀ b ∈ ds, Bytes.isDigit b = true := by
  intro b hb
  exact Bytes.imp_byte (fun b => CharClass.digits.contains b.toNat) Bytes.isDigit (by decide) (h.run rfl b hb)

theorem mem_stripZeros {ds : Bytes} {b : UInt8} (h : b ∈ stripZeros ds) : b ∈ ds ∨ b = 48 := by
  unfold stripZeros at h
  split at h
  · exact .inr (List.mem_singleton.mp h)
  · exact .inl ((List.dropWhile_sublist _).subset h)

theorem stripZeros_ne_nil (ds : Bytes) : stripZeros ds ≠ [] := by
  unfold stripZeros
  split
  · exact nofun
  · next hne => exact hne

theorem isInteger_stripZeros (ds : Bytes) : Python.isInteger (stripZeros ds) = true := by
  unfold stripZeros
  split
  · rfl
  · next hne =>
    have hhead := List.head?_dropWhile_not (· == Bytes.ascii '0') ds
    cases hds : ds.dropWhile (· == Bytes.ascii '0') with
    | nil => exact absurd hds hne
    | cons d more =>
      rw [hds] at hhead
      have hd : d ≠ 48 := by
        rintro rfl
        cases hhead
      simp [Python.isInteger, hd]

/-- Zeros are stripped of digits of any kind. -/
theorem stripZeros_digits {p : UInt8 → Bool} {ds : Bytes} (hzero : p 48 = true) (h : ∀ b ∈ ds, p b = true) :
    ∀ b ∈ stripZeros ds, p b = true := by
  intro b hb
  rcases mem_stripZeros hb with hb | rfl
  · exact h b hb
  · exact hzero

theorem decimal_stripZeros {ds : Bytes} (h : ∀ b ∈ ds, Bytes.isDigit b = true) : Python.Decimal (stripZeros ds) :=
  .integer (stripZeros_digits rfl h) (isInteger_stripZeros ds)

/-! ## Numbers -/

theorem numeral_integer {text : Bytes} (h : Lexicon.integer.Matches text) : Numeral (stripZeros text) :=
  .decimal (decimal_stripZeros (digits_of_run1 h).2)

theorem exists_octal {text : Bytes} (h : Lexicon.octal.Matches text) : ∃ ds, text = ds ++ [98] ∧
    (Regex.many1 (.one ⟨[CharClass.range '0' '7'], false⟩)).Matches ds := by
  obtain ⟨ds, rest, rfl, hds, hrest⟩ := h.of_seq
  obtain ⟨mark, rest, rfl, hmark, hend⟩ := hrest.of_seq
  cases hend
  have hmark : mark = [98] := hmark.char (by decide)
  exact ⟨ds, by rw [hmark, List.append_nil], hds⟩

/-- The class of hexadecimal digits. -/
def hexDigits : CharClass := ⟨[CharClass.range '0' '9', CharClass.range 'a' 'f', CharClass.range 'A' 'F'], false⟩

theorem exists_hexadecimal {text : Bytes} (h : Lexicon.hexadecimal.Matches text) : ∃ d ds x, text = d :: (ds ++ [x]) ∧
    Bytes.isDigit d = true ∧ (∀ b ∈ ds, hexDigits.contains b.toNat = true) ∧ (x = 88 ∨ x = 120) := by
  obtain ⟨first, rest, rfl, hfirst, hrest⟩ := h.of_seq
  obtain ⟨ds, rest, rfl, hds, hrest⟩ := hrest.of_seq
  obtain ⟨mark, rest, rfl, hmark, hend⟩ := hrest.of_seq
  cases hend
  obtain ⟨d, rfl, hd⟩ := hfirst.byte rfl
  obtain ⟨x, rfl, hx⟩ := hmark.byte rfl
  have hx := Bytes.imp_byte (fun b => (CharClass.of ['x', 'X']).contains b.toNat) (fun b => b == 88 || b == 120) (by decide) hx
  exact ⟨d, ds, x, by simp, Bytes.imp_byte (fun b => CharClass.digits.contains b.toNat) Bytes.isDigit (by decide) hd,
    hds.run rfl, by simpa using hx⟩

theorem octal_digits {text : Bytes} (h : Lexicon.octal.Matches text) : ∀ b ∈ text.dropLast, Python.isOctalDigit b = true := by
  obtain ⟨ds, rfl, hds⟩ := exists_octal h
  obtain ⟨_, hds⟩ := hds.run1 rfl
  rw [List.dropLast_concat]
  exact fun b hb => Bytes.imp_byte (fun b => CharClass.contains ⟨[CharClass.range '0' '7'], false⟩ b.toNat)
    Python.isOctalDigit (by decide) (hds b hb)

theorem hexadecimal_digits {text : Bytes} (h : Lexicon.hexadecimal.Matches text) :
    text.dropLast ≠ [] ∧ ∀ b ∈ text.dropLast, Python.isHexDigit b = true := by
  obtain ⟨d, ds, x, rfl, hd, hds, -⟩ := exists_hexadecimal h
  rw [← List.cons_append, List.dropLast_concat]
  refine ⟨List.cons_ne_nil _ _, List.forall_mem_cons.mpr ⟨?_, fun b hb => ?_⟩⟩
  · exact Bytes.imp_byte Bytes.isDigit Python.isHexDigit (by decide) hd
  · exact Bytes.imp_byte (fun b => hexDigits.contains b.toNat) Python.isHexDigit (by decide) (hds b hb)

theorem numeral_octal {text : Bytes} (h : Lexicon.octal.Matches text) : Numeral ("0o" ++ stripZeros text.dropLast) :=
  .octal (stripZeros_ne_nil _) (stripZeros_digits rfl (octal_digits h))

theorem numeral_hexadecimal {text : Bytes} (h : Lexicon.hexadecimal.Matches text) : Numeral ("0x" ++ text.dropLast) :=
  .hexadecimal (hexadecimal_digits h).1 (hexadecimal_digits h).2

theorem exponentMark_append (mark : Char) (s t : Bytes) :
    exponentMark mark (s ++ t) = exponentMark mark s ++ exponentMark mark t := List.map_append

theorem exponentMark_digits {mark : Char} {ds : Bytes} (h : ∀ b ∈ ds, Bytes.isDigit b = true) :
    exponentMark mark ds = ds := by
  refine (List.map_congr_left fun b hb => ?_).trans (List.map_id ds)
  have hmark : (b = Bytes.ascii 'd' || b = Bytes.ascii 'D' || b = Bytes.ascii 'e' || b = Bytes.ascii 'E') = false := by
    simpa using Bytes.imp_byte Bytes.isDigit
      (fun b => !(b = Bytes.ascii 'd' || b = Bytes.ascii 'D' || b = Bytes.ascii 'e' || b = Bytes.ascii 'E'))
      (by decide) (h b hb)
  rw [hmark]
  rfl

theorem exponent_mark (mark : Char) (hmark : Python.isExponentMark (Bytes.ascii mark) = true) {s : Bytes}
    (h : Lexicon.exponent.Matches s) : Exponent (exponentMark mark s) ∧ exponentMark mark s ≠ [] := by
  obtain ⟨old, rest, rfl, hold, hrest⟩ := h.of_seq
  obtain ⟨sign, ds, rfl, hsign, hds⟩ := hrest.of_seq
  obtain ⟨b, rfl, hb⟩ := hold.byte rfl
  obtain ⟨hne, hds⟩ := digits_of_run1 hds
  have hold : exponentMark mark [b] = [Bytes.ascii mark] := by
    have hb := Bytes.imp_byte (fun b => (CharClass.of ['e', 'E', 'd', 'D']).contains b.toNat)
      (fun b => b = Bytes.ascii 'd' || b = Bytes.ascii 'D' || b = Bytes.ascii 'e' || b = Bytes.ascii 'E') (by decide) hb
    rw [exponentMark, List.map_singleton, if_pos hb]
  have hsigns : exponentMark mark sign = sign ∧ (sign = [] ∨ ∃ b, sign = [b] ∧ Python.isSign b = true) := by
    rcases hsign.of_opt with rfl | hsign
    · exact ⟨rfl, .inl rfl⟩
    · obtain ⟨b, rfl, hb⟩ := hsign.byte rfl
      have hb := Bytes.imp_byte (fun b => (CharClass.of ['+', '-']).contains b.toNat) Python.isSign (by decide) hb
      have hsign : exponentMark mark [b] = [b] := by
        simp only [Python.isSign, Bool.or_eq_true, decide_eq_true_eq] at hb
        rcases hb with rfl | rfl <;> rfl
      exact ⟨hsign, .inr ⟨b, rfl, hb⟩⟩
  rw [exponentMark_append, exponentMark_append, hold, hsigns.1, exponentMark_digits hds]
  have hexponent : Exponent (Bytes.ascii mark :: (sign ++ ds)) := .some hmark hsigns.2 hne hds
  exact ⟨hexponent, by simp⟩

theorem decimal_float (mark : Char) (hmark : Python.isExponentMark (Bytes.ascii mark) = true) {text : Bytes}
    (h : Lexicon.float.Matches text) : Python.Decimal (exponentMark mark text) := by
  have hpoint {s : Bytes} (h : (Lexicon.char '.').Matches s) : exponentMark mark s = [46] := by
    rw [h.char (by decide)]
    rfl
  cases h with
  | altLeft h =>
    obtain ⟨mantissa, exponent, rfl, hmantissa, hexponent⟩ := h.of_seq
    have hexponent : Exponent (exponentMark mark exponent) := by
      rcases hexponent.of_opt with rfl | h
      · exact .none
      · exact (exponent_mark mark hmark h).1
    cases hmantissa with
    | altLeft h =>
      obtain ⟨whole, rest, rfl, hwhole, hrest⟩ := h.of_seq
      obtain ⟨dot, fraction, rfl, hdot, hfraction⟩ := hrest.of_seq
      obtain ⟨hne, hwhole⟩ := digits_of_run1 hwhole
      have hfraction := digits_of_run hfraction
      rw [exponentMark_append, exponentMark_append, exponentMark_append, hpoint hdot, exponentMark_digits hwhole,
        exponentMark_digits hfraction, List.append_assoc]
      exact .pointed hwhole hfraction (by simp [hne]) hexponent
    | altRight h =>
      obtain ⟨dot, fraction, rfl, hdot, hfraction⟩ := h.of_seq
      obtain ⟨hne, hfraction⟩ := digits_of_run1 hfraction
      have hnone : ∀ b ∈ ([] : Bytes), Bytes.isDigit b = true := nofun
      rw [exponentMark_append, exponentMark_append, hpoint hdot, exponentMark_digits hfraction]
      exact .pointed hnone hfraction hne hexponent
  | altRight h =>
    obtain ⟨whole, exponent, rfl, hwhole, hexponent⟩ := h.of_seq
    obtain ⟨hne, hwhole⟩ := digits_of_run1 hwhole
    obtain ⟨hexponent, hmarked⟩ := exponent_mark mark hmark hexponent
    rw [exponentMark_append, exponentMark_digits hwhole]
    exact .marked hwhole hne hexponent hmarked

theorem numeral_float {text : Bytes} (h : Lexicon.float.Matches text) : Numeral (exponentMark 'E' text) :=
  .decimal (decimal_float 'E' (by decide) h)

/-- The text of a part of a sexagesimal constant. -/
def partDigits (part : Bytes) : Bytes := if part.contains (Bytes.ascii '.') then part else stripZeros part

/-- A part of a sexagesimal constant: digits, and perhaps a fraction. -/
inductive IsSexagesimalPart : Bytes → Prop where
  | whole {ds : Bytes} (hne : ds ≠ []) (hds : ∀ b ∈ ds, Bytes.isDigit b = true) : IsSexagesimalPart ds
  | pointed {ds fraction : Bytes} (hne : ds ≠ []) (hds : ∀ b ∈ ds, Bytes.isDigit b = true)
      (hfraction : ∀ b ∈ fraction, Bytes.isDigit b = true) : IsSexagesimalPart (ds ++ 46 :: fraction)

theorem partDigits_digits {ds : Bytes} (hds : ∀ b ∈ ds, Bytes.isDigit b = true) : partDigits ds = stripZeros ds := by
  have hpoint : ds.contains (Bytes.ascii '.') = false := by
    rw [Bool.eq_false_iff]
    intro hmem
    cases hds _ (List.contains_iff_mem.mp hmem)
  rw [partDigits, if_neg (by rw [hpoint]; decide)]

theorem partDigits_pointed (ds fraction : Bytes) : partDigits (ds ++ 46 :: fraction) = ds ++ 46 :: fraction := by
  have hpoint : (ds ++ 46 :: fraction).contains (Bytes.ascii '.') = true := List.contains_iff_mem.mpr (by simp [Bytes.ascii])
  rw [partDigits, if_pos hpoint]

theorem decimal_partDigits {part : Bytes} (h : IsSexagesimalPart part) : Python.Decimal (partDigits part) := by
  cases h with
  | whole _ hds =>
    rw [partDigits_digits hds]
    exact decimal_stripZeros hds
  | pointed hne hds hfraction =>
    have hpointed := Decimal.pointed hds hfraction (by simp [hne]) .none
    rw [List.append_nil] at hpointed
    rwa [partDigits_pointed]

/-- A sexagesimal constant is made of parts. -/
theorem parts_of_sexagesimal {text : Bytes} (h : Lexicon.sexagesimal.Matches text) :
    ∀ part ∈ Bytes.pieces (Bytes.ascii ':') text, IsSexagesimalPart part := by
  have hcolon {s : Bytes} (h : (Lexicon.char ':').Matches s) : s = [Bytes.ascii ':'] := h.char (by decide)
  have hfree {ds : Bytes} (h : ∀ b ∈ ds, Bytes.isDigit b = true) : Bytes.ascii ':' ∉ ds := fun hmem => by cases h _ hmem
  obtain ⟨degrees, rest, rfl, hdegrees, hrest⟩ := h.of_seq
  obtain ⟨colon, rest, rfl, hc, hrest⟩ := hrest.of_seq
  obtain ⟨minutes, seconds, rfl, hminutes, hseconds⟩ := hrest.of_seq
  obtain ⟨hdne, hdegrees⟩ := digits_of_run1 hdegrees
  obtain ⟨hmne, hminutes⟩ := digits_of_run1 hminutes
  rw [hcolon hc, List.singleton_append, Bytes.pieces_append _ (hfree hdegrees)]
  rw [List.forall_mem_cons]
  refine ⟨.whole hdne hdegrees, ?_⟩
  rcases hseconds.of_opt with rfl | hseconds
  · rw [List.append_nil, Bytes.pieces_of_not_mem (hfree hminutes), List.forall_mem_singleton]
    exact .whole hmne hminutes
  · obtain ⟨colon, rest, rfl, hc, hrest⟩ := hseconds.of_seq
    obtain ⟨ds, fraction, rfl, hds, hfraction⟩ := hrest.of_seq
    obtain ⟨hsne, hds⟩ := digits_of_run1 hds
    rw [hcolon hc, List.singleton_append, Bytes.pieces_append _ (hfree hminutes), List.forall_mem_cons]
    refine ⟨.whole hmne hminutes, ?_⟩
    rcases hfraction.of_opt with rfl | hfraction
    · rw [List.append_nil, Bytes.pieces_of_not_mem (hfree hds), List.forall_mem_singleton]
      exact .whole hsne hds
    · obtain ⟨point, fraction, rfl, hpoint, hfraction⟩ := hfraction.of_seq
      have hdigits := digits_of_run hfraction
      have hpoint : point = [46] := hpoint.char (by decide)
      subst hpoint
      have hseam : Bytes.ascii ':' ∉ ds ++ ([46] ++ fraction) := by
        simp only [List.mem_append, not_or]
        exact ⟨hfree hds, by decide, hfree hdigits⟩
      rw [Bytes.pieces_of_not_mem hseam, List.forall_mem_singleton]
      exact .pointed hsne hds hdigits

/-- The parts of a sexagesimal constant are numbers. -/
theorem numeral_sexagesimal {text : Bytes} (h : Lexicon.sexagesimal.Matches text) :
    ∀ part ∈ Bytes.pieces (Bytes.ascii ':') text, Numeral (partDigits part) :=
  fun part hpart => .decimal (decimal_partDigits (parts_of_sexagesimal h part hpart))

/-! ## Literals -/

/-- The Python expression of a constant. -/
def Constant.tree (c : Constant) : Python.Tree :=
  match c.kind with
  | .integer => .number (stripZeros c.text)
  | .octal => .number ("0o" ++ stripZeros c.text.dropLast)
  | .hex => .number ("0x" ++ c.text.dropLast)
  | .float => .number (exponentMark 'E' c.text)
  | .sexagesimal =>
    .call (.path ["iraf", "clSexagesimal"])
      ((Bytes.pieces (Bytes.ascii ':') c.text).map fun part => (none, .number (partDigits part)))
  | .string => .string c.body
  | .bool | .undefined => .path [c.text]

theorem prints_sexagesimal {parts : List Bytes} (h : ∀ part ∈ parts, Numeral (partDigits part)) :
    Prints operandLevel (Code.Expr.call ["iraf", "clSexagesimal"] (parts.map sexagesimalPart)).text
      (.call (.path ["iraf", "clSexagesimal"]) (parts.map fun part => (none, .number (partDigits part)))) := by
  have htexts : Code.Arg.texts (parts.map sexagesimalPart) =
      (parts.map fun part => (⟨none, false, partDigits part, .number (partDigits part)⟩ : Code.Item)).map Code.Item.all := by
    clear h
    induction parts with
    | nil => rfl
    | cons part parts ih => rw [List.map_cons, Code.Arg.texts, ih]; rfl
  have hpath : IsPath ["iraf", "clSexagesimal"] := ⟨by simp, by decide⟩
  have hcall := Code.prints_call hpath htexts fun x hx => by
    obtain ⟨part, hpart, rfl⟩ := List.mem_map.mp hx
    exact ⟨(Code.prints_number (h part hpart)).weaken (Nat.zero_le _), by simp⟩
  rw [List.map_map] at hcall
  exact hcall

theorem prints_word {w : Bytes} (h : Python.isIdentifier w = true) :
    Prints operandLevel (Code.Expr.name w).text (.path [w]) := Code.prints_path ⟨by simp, by simpa using h⟩

/-- A constant is printed as its literal. -/
theorem prints_constant {c : Constant} (h : c.IsLexed) : Prints operandLevel c.lower.text c.tree := by
  unfold Constant.IsLexed at h
  unfold Constant.lower Constant.tree
  cases hkind : c.kind with
  | integer => rw [hkind] at h; exact Code.prints_number (numeral_integer h)
  | float => rw [hkind] at h; exact Code.prints_number (numeral_float h)
  | octal => rw [hkind] at h; exact Code.prints_number (numeral_octal h)
  | hex => rw [hkind] at h; exact Code.prints_number (numeral_hexadecimal h)
  | sexagesimal => rw [hkind] at h; exact prints_sexagesimal (numeral_sexagesimal h)
  | string => exact Code.prints_string c.body
  | bool =>
    rw [hkind] at h
    refine prints_word ?_
    rcases h with h | h
    · rw [h]; decide
    · rw [h]; decide
  | undefined =>
    rw [hkind] at h
    refine prints_word ?_
    rw [show c.text = "INDEF" from h]
    decide

end IrafCl.Script
