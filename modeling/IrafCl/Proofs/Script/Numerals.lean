import IrafCl.Proofs.Script.Constants
import IrafCl.Proofs.Script.Extent

/-!
# Numbers as lexemes

Five patterns of the lexicon are for numbers, and only they match a text that begins with a digit (`lexeme?_digit`). A text
that one of them matches in full has no match of those before it, but for one case: a hexadecimal number may begin with digits,
an exponent mark and digits, which is a float (`scan_numeral`).
-/

namespace IrafCl.Script

open Scanner
open Lexicon (sexagesimal float octal hexadecimal integer digit)

/-- The kinds of numbers with their expressions, in the order in which they are tried. -/
def numerals : List (Symbol × Regex) :=
  [(.sexagesimal, sexagesimal), (.float, float), (.octal, octal), (.hex, hexadecimal), (.integer, integer)]

/-- The patterns of numbers in the lexicon. -/
def numeralPatterns : List (Pattern Depth Symbol) := [
  ⟨"sexagesimal", sexagesimal, some (emit .sexagesimal), false⟩, ⟨"float", float, some (emit .float), false⟩,
  ⟨"octal", octal, some (emit .octal), false⟩, ⟨"hex", hexadecimal, some (emit .hex), false⟩,
  ⟨"integer", integer, some (emit .integer), false⟩]

/-! ## Which patterns may match -/

theorem numerals_advance : ∀ r ∈ numerals.map (·.2), r.advances = true := by decide

/-- Only the patterns of numbers match a text that begins with a number. -/
theorem lexeme?_numeral {r : Regex} (hr : r ∈ numerals.map (·.2)) {text : Bytes} (h : r.Matches text) (following : Bytes) :
    lexeme? Lexicon.patterns (text ++ following) = lexeme? numeralPatterns (text ++ following) := by
  have hapart : (numerals.map (·.2)).all (fun r => (Lexicon.patterns.filter (!·.regex.starts 48)).all fun p =>
      Regex.apart p.regex.firsts r.firsts) = true := by decide
  exact lexeme?_apart patterns_advance (List.all_eq_true.mp hapart r hr) h (h.ne_nil (numerals_advance r hr)) following

theorem lexeme?_of_first (first : List (Pattern Depth Symbol)) {rest : List (Pattern Depth Symbol)} {p : Pattern Depth Symbol}
    {text : Bytes} {n : Nat} (hfirst : ∀ q ∈ first, q.regex.matchLength? text = none) (hp : p.regex.matchLength? text = some n) :
    lexeme? (first ++ p :: rest) text = some (p, n) := by
  induction first with
  | nil => rw [List.nil_append, lexeme?, hp]
  | cons q first ih =>
    obtain ⟨hq, hfirst⟩ := List.forall_mem_cons.mp hfirst
    rw [List.cons_append, lexeme?, hq]
    exact ih hfirst

/-! ## The texts of numbers -/

/-- A mark that begins an exponent. -/
def isMark (b : UInt8) : Bool := (CharClass.of ['e', 'E', 'd', 'D']).contains b.toNat

/-- Neither a point nor a sign. -/
def isPlain (b : UInt8) : Bool := b != 46 && b != 43 && b != 45

/-- The text begins with digits, an exponent mark and a digit. -/
def BeginsMarked (text : Bytes) : Prop := ∃ (whole : Bytes) (mark d : UInt8) (rest : Bytes), text = whole ++ mark :: d :: rest ∧
  whole ≠ [] ∧ (∀ b ∈ whole, Bytes.isDigit b = true) ∧ isMark mark = true ∧ Bytes.isDigit d = true

/-- The floats with a point. -/
def pointed : Regex :=
  .seq (.alt (.concat [.many1 digit, Lexicon.char '.', .many digit]) (.seq (Lexicon.char '.') (.many1 digit)))
    (.opt Lexicon.exponent)

/-- The floats without a point. -/
def marked : Regex := .seq (.many1 digit) Lexicon.exponent

theorem isMark_of_matches {s : Bytes} (h : (Regex.one (CharClass.of ['e', 'E', 'd', 'D'])).Matches s) :
    ∃ mark, s = [mark] ∧ isMark mark = true := h.byte rfl

/-! ## Where a pattern has no match -/

section
variable {text : Bytes}

theorem sexagesimal_eq_none (h : (58 : UInt8) ∉ text) : sexagesimal.matchLength? text = none := by
  refine Regex.matchLength?_eq_none fun s rest hs hmatch => h ?_
  obtain ⟨degrees, more, rfl, _, hmore⟩ := hmatch.of_seq
  obtain ⟨colon, more, rfl, hcolon, _⟩ := hmore.of_seq
  rw [hs, hcolon.char (by decide)]
  simp [String.utf8EncodeChar]

/-- A float with a point has one. -/
theorem point_mem_of_matches {s : Bytes} (h : pointed.Matches s) : (46 : UInt8) ∈ s := by
  obtain ⟨mantissa, exponent, rfl, hmantissa, _⟩ := h.of_seq
  cases hmantissa with
  | altLeft hmantissa =>
    obtain ⟨whole, more, rfl, _, hmore⟩ := hmantissa.of_seq
    obtain ⟨dot, fraction, rfl, hdot, _⟩ := hmore.of_seq
    rw [hdot.char (by decide)]
    simp [String.utf8EncodeChar]
  | altRight hmantissa =>
    obtain ⟨dot, fraction, rfl, hdot, _⟩ := hmantissa.of_seq
    rw [hdot.char (by decide)]
    simp [String.utf8EncodeChar]

/-- Without a point a float has a mark behind its digits. -/
theorem beginsMarked_of_matches (h : ∀ b ∈ text, isPlain b = true) {s rest : Bytes} (hs : text = s ++ rest)
    (hmatch : float.Matches s) : BeginsMarked text := by
  have hpoint : (46 : UInt8) ∉ s := fun hmem => absurd (h 46 (by rw [hs]; exact List.mem_append_left _ hmem)) (by decide)
  cases hmatch with
  | altLeft hmatch => exact absurd (point_mem_of_matches hmatch) hpoint
  | altRight hmatch =>
    obtain ⟨whole, exponent, rfl, hwhole, hexponent⟩ := hmatch.of_seq
    obtain ⟨mark, more, rfl, hmark, hmore⟩ := hexponent.of_seq
    obtain ⟨sign, ds, rfl, hsign, hds⟩ := hmore.of_seq
    obtain ⟨mark, rfl, hmarked⟩ := isMark_of_matches hmark
    obtain ⟨hwne, hwhole⟩ := digits_of_run1 hwhole
    obtain ⟨hdne, hds⟩ := digits_of_run1 hds
    obtain ⟨d, ds, rfl⟩ := List.exists_cons_of_ne_nil hdne
    have hsign : sign = [] := by
      rcases hsign.of_opt with hsign | hsign
      · exact hsign
      · obtain ⟨b, rfl, hb⟩ := hsign.byte rfl
        have hb' := h b (by rw [hs]; simp)
        have hnot := Bytes.imp_byte (fun b => (CharClass.of ['+', '-']).contains b.toNat) (fun b => !isPlain b) (by decide) hb
        rw [hb'] at hnot
        cases hnot
    subst hsign
    exact ⟨whole, mark, d, ds ++ rest, by rw [hs]; simp, hwne, hwhole, hmarked, hds d List.mem_cons_self⟩

theorem float_eq_none (h : ∀ b ∈ text, isPlain b = true) (hmarked : ¬ BeginsMarked text) : float.matchLength? text = none :=
  Regex.matchLength?_eq_none fun _ _ hs hmatch => hmarked (beginsMarked_of_matches h hs hmatch)

theorem octal_eq_none (h : (98 : UInt8) ∉ text) : octal.matchLength? text = none := by
  refine Regex.matchLength?_eq_none fun s rest hs hmatch => h ?_
  obtain ⟨ds, rfl, _⟩ := exists_octal hmatch
  rw [hs]
  simp

theorem hexadecimal_eq_none (h : ∀ b ∈ text, b ≠ 88 ∧ b ≠ 120) : hexadecimal.matchLength? text = none := by
  refine Regex.matchLength?_eq_none fun s rest hs hmatch => ?_
  obtain ⟨d, ds, x, rfl, _, _, hx⟩ := exists_hexadecimal hmatch
  obtain ⟨hX, hx'⟩ := h x (by rw [hs]; simp)
  exact hx.elim hX hx'

/-- Inside a word no octal number ends. -/
theorem octal_eq_none_of_word (h : ∀ b ∈ text, Cursor.isWordByte b = true) (hlast : text.getLast? ≠ some 98) :
    octal.matchLength? text = none := by
  have hends : octal.ends ⟨none, text⟩ = [] := by
    refine List.eq_nil_iff_forall_not_mem.mpr fun e he => ?_
    simp only [octal, Regex.concat, Regex.ends, List.mem_flatMap] at he
    obtain ⟨c, hc, d, hd, he⟩ := he
    obtain ⟨ds, hds, _⟩ := Regex.moves_of_mem_ends (.plus (.one ⟨[CharClass.range '0' '7'], false⟩) true) ⟨none, text⟩ c hc
    have hds : text = ds ++ c.rest := hds
    obtain ⟨mark, hmark, hmatch⟩ := Regex.moves_of_mem_ends (Lexicon.char 'b') c d hd
    have hmark : c.rest = 98 :: d.rest := by rw [hmark, hmatch.char (by decide)]; rfl
    have hbefore : d.before = some 98 := by
      have hends : (Lexicon.char 'b').ends c = [⟨some 98, d.rest⟩] := by
        rw [show c = ⟨c.before, 98 :: d.rest⟩ by rw [← hmark]]
        exact Regex.ends_byte _ _ (by decide)
      rw [hends, List.mem_singleton] at hd
      rw [hd]
    split at he
    · next hboundary =>
      simp only [Cursor.atWordBoundary, hbefore] at hboundary
      cases hrest : d.rest with
      | nil => exact hlast (by rw [hds, hmark, hrest, List.getLast?_concat])
      | cons b rest =>
        have hb : Cursor.isWordByte b = true := h b (by rw [hds, hmark, hrest]; simp)
        have hmark : Cursor.isWordByte 98 = true := by decide
        simp [hrest, hb, hmark] at hboundary
    · cases he
  rw [Regex.matchLength?, hends]
  rfl

/-! ## Numbers that lex whole -/

theorem scan_of_lexeme? {name : Bytes} {r : Regex} {kind : Symbol} (hne : text ≠ [])
    (h : lexeme? Lexicon.patterns text = some (⟨name, r, some (emit kind), false⟩, text.length)) :
    (scan text).outcome = .ok [⟨kind, text, none, 1⟩] := by
  have hcuts : scanner.Cuts ⟨0, [], 1, 0⟩ (text ++ []) _ _ [] := .step (by rwa [List.append_nil]) hne rfl rfl .nil
  rw [List.append_nil] at hcuts
  exact hcuts.outcome_eq

end

theorem takes_boundary {x : Option UInt8} {v : Bytes}
    (h : (x.any Cursor.isWordByte != v.head?.any Cursor.isWordByte) = true) : (Regex.wordBoundary true).Takes x [] v := by
  have hat : (⟨x, v⟩ : Cursor).atWordBoundary = true := h
  rw [Regex.Takes, Regex.ends, List.nil_append, hat]
  rfl

theorem takes_octal {text : Bytes} (h : octal.Matches text) : octal.Takes none text [] := by
  obtain ⟨ds, rfl, hds⟩ := exists_octal h
  have hrun : (Regex.many1 (.one ⟨[CharClass.range '0' '7'], false⟩)).Takes none ds ([98] ++ [] ++ []) :=
    hds.takes (by decide) (by rintro _ ⟨⟩; rfl) none
  have hmark : (Lexicon.char 'b').Takes (ds.getLast?.or none) [98] ([] ++ []) := Regex.takes_byte (by decide) (by decide)
  exact hrun.seq (hmark.seq (takes_boundary rfl))

theorem takes_hexadecimal {text : Bytes} (h : hexadecimal.Matches text) : hexadecimal.Takes none text [] := by
  obtain ⟨d, ds, x, rfl, hd, hds, hx⟩ := exists_hexadecimal h
  have hstop : ∀ b ∈ ([x] ++ [] ++ [] : Bytes).head?, (Regex.many (.one hexDigits)).goesOn b = false := by
    rcases hx with rfl | rfl <;> (rintro _ ⟨⟩; rfl)
  have hfirst : digit.Takes none [d] (ds ++ ([x] ++ []) ++ []) :=
    ((Regex.matches_byte rfl (Bytes.imp_byte Bytes.isDigit (fun b => CharClass.digits.contains b.toNat) (by decide) hd))).takes
      rfl (fun _ _ => rfl) none
  have hrun : (Regex.many (.one hexDigits)).Takes (some d) ds ([x] ++ [] ++ []) :=
    (Regex.matches_many rfl hds).takes (by decide) hstop _
  have hmark (y : Option UInt8) : (Regex.one (CharClass.of ['x', 'X'])).Takes y [x] ([] ++ []) := by
    rcases hx with rfl | rfl <;> exact Regex.takes_byte (by decide) (by decide)
  have hend (y : Option UInt8) : (Regex.wordBoundary true).Takes ([x].getLast?.or y) [] [] := by
    rcases hx with rfl | rfl <;> exact takes_boundary rfl
  exact hfirst.seq (hrun.seq ((hmark _).seq (hend _)))

theorem takes_float {text : Bytes} (h : float.Matches text) : float.Takes none text [] := by
  cases h with
  | altLeft h =>
    have hpointed : pointed.Takes none text [] := h.takes (by decide) (fun b hb => by cases hb) none
    exact hpointed.altLeft
  | altRight h =>
    have hmarked : marked.Takes none text [] := h.takes (by decide) (fun b hb => by cases hb) none
    refine Regex.Takes.altRight (Regex.ends_eq_nil fun s rest hs hmatch => ?_) hmarked
    have hs : text ++ [] = s ++ rest := hs
    rw [List.append_nil] at hs
    have hmem : (46 : UInt8) ∈ text := by rw [hs]; exact List.mem_append_left _ (point_mem_of_matches hmatch)
    have hnone : (46 != (46 : UInt8)) = true := h.forall_mem (p := (· != 46)) (by decide) 46 hmem
    cases hnone

theorem contains_digits {b : UInt8} (h : Bytes.isDigit b = true) : CharClass.digits.contains b.toNat = true :=
  Bytes.imp_byte Bytes.isDigit (fun b => CharClass.digits.contains b.toNat) (by decide) h

theorem digit_of_isMark {b : UInt8} (h : isMark b = true) : Bytes.isDigit b = false := by
  simpa using Bytes.imp_byte isMark (fun b => !Bytes.isDigit b) (by decide) h

/-- A text that a number matches in full is its lexeme, unless it is a hexadecimal number that begins like a float. -/
theorem lexeme?_whole {kind : Symbol} {r : Regex} (hr : (kind, r) ∈ numerals) {text : Bytes} (h : r.Matches text)
    (hmarked : kind = .hex → ¬ BeginsMarked text) :
    ∃ name, lexeme? Lexicon.patterns text = some (⟨name, r, some (emit kind), false⟩, text.length) := by
  have hnumeral : lexeme? Lexicon.patterns text = lexeme? numeralPatterns text := by
    simpa using lexeme?_numeral (List.mem_map_of_mem hr) h []
  have hlength {r : Regex} (h : r.Takes none text []) : r.matchLength? text = some text.length := by
    simpa using h.matchLength?
  have hend (r : Regex) : ∀ b ∈ ([] : Bytes).head?, r.goesOn b = false := nofun
  have hcolon (hcolon : ∀ b ∈ text, (b != 58) = true) : sexagesimal.matchLength? text = none :=
    sexagesimal_eq_none fun hmem => by cases hcolon 58 hmem
  rw [hnumeral]
  simp only [numerals, List.mem_cons, Prod.mk.injEq, List.not_mem_nil, or_false] at hr
  rcases hr with ⟨rfl, rfl⟩ | ⟨rfl, rfl⟩ | ⟨rfl, rfl⟩ | ⟨rfl, rfl⟩ | ⟨rfl, rfl⟩
  · exact ⟨_, lexeme?_of_first [] nofun (hlength (h.takes (by decide) (hend _) none))⟩
  · have hsexagesimal := hcolon (h.forall_mem (by decide))
    exact ⟨_, lexeme?_of_first (numeralPatterns.take 1) (by simpa [numeralPatterns] using hsexagesimal) (hlength (takes_float h))⟩
  · have hsexagesimal := hcolon (h.forall_mem (by decide))
    have hplain : ∀ b ∈ text, isPlain b = true := h.forall_mem (by decide)
    have hfloat : ¬ BeginsMarked text := by
      rintro ⟨whole, mark, d, rest, rfl, -, -, hmark, -⟩
      have hnone : (!isMark mark) = true := h.forall_mem (p := (!isMark ·)) (by decide) mark (by simp)
      rw [hmark] at hnone
      cases hnone
    exact ⟨_, lexeme?_of_first (numeralPatterns.take 2)
      (by simpa [numeralPatterns] using ⟨hsexagesimal, float_eq_none hplain hfloat⟩) (hlength (takes_octal h))⟩
  · have hsexagesimal := hcolon (h.forall_mem (by decide))
    have hfloat := float_eq_none (h.forall_mem (by decide)) (hmarked rfl)
    have hoctal : octal.matchLength? text = none := by
      refine octal_eq_none_of_word (h.forall_mem (by decide)) ?_
      obtain ⟨d, ds, x, rfl, -, -, hx⟩ := exists_hexadecimal h
      rw [← List.cons_append, List.getLast?_concat]
      rcases hx with rfl | rfl <;> decide
    exact ⟨_, lexeme?_of_first (numeralPatterns.take 3)
      (by simpa [numeralPatterns] using ⟨hsexagesimal, hfloat, hoctal⟩) (hlength (takes_hexadecimal h))⟩
  · have hsexagesimal := hcolon (h.forall_mem (by decide))
    have hdigits : ∀ b ∈ text, Bytes.isDigit b = true := h.forall_mem (by decide)
    have hfloat : float.matchLength? text = none := by
      refine float_eq_none (h.forall_mem (by decide)) ?_
      rintro ⟨whole, mark, d, rest, rfl, -, -, hmark, -⟩
      have hmark' := hdigits mark (by simp)
      rw [digit_of_isMark hmark] at hmark'
      cases hmark'
    have hoctal := octal_eq_none fun hmem => by cases hdigits 98 hmem
    have hhex : hexadecimal.matchLength? text = none := by
      refine hexadecimal_eq_none fun b hb => ⟨?_, ?_⟩ <;> rintro rfl <;> cases hdigits _ hb
    exact ⟨_, lexeme?_of_first (numeralPatterns.take 4)
      (by simpa [numeralPatterns] using ⟨hsexagesimal, hfloat, hoctal, hhex⟩) (hlength (h.takes (by decide) (hend _) none))⟩

/-! ## Hexadecimal numbers that begin like floats -/

/-- The pattern of names in the lexicon. -/
def namePattern : Pattern Depth Symbol := ⟨"name", Lexicon.name, some word, false⟩

/-- Only the pattern of names matches a text that begins with a name. -/
theorem lexeme?_name {text : Bytes} (h : Lexicon.name.Matches text) (following : Bytes) :
    lexeme? Lexicon.patterns (text ++ following) = lexeme? [namePattern] (text ++ following) := by
  have hapart : (Lexicon.patterns.filter (!·.regex.starts 97)).all
      (fun p => Regex.apart p.regex.firsts Lexicon.name.firsts) = true := by decide
  exact lexeme?_apart patterns_advance hapart h (h.ne_nil rfl) following

/-- No keyword and no type ends in the mark of hexadecimal numbers. -/
theorem react_namePattern {text : Bytes} {x : UInt8} (hlast : text.getLast? = some x) (hx : x = 88 ∨ x = 120)
    (m : Moment Depth Symbol) : react namePattern m text = .ok (m.data, some ⟨.ident, text, none, m.line⟩) := by
  have hnot : ∀ w ∈ keyword?.keywords.map (fun w => Bytes.ofString w.1) ++ typeNames,
      w.getLast? ≠ some 88 ∧ w.getLast? ≠ some 120 := by decide
  have hne : ∀ w ∈ keyword?.keywords.map (fun w => Bytes.ofString w.1) ++ typeNames, w ≠ text := by
    rintro w hw rfl
    obtain ⟨hX, hx'⟩ := hnot w hw
    rw [hlast] at hX hx'
    exact hx.elim (fun h => hX (congrArg some h)) fun h => hx' (congrArg some h)
  obtain ⟨hkeywords, htypes⟩ := List.forall_mem_append.mp hne
  have hkeyword : keyword? text = none := by
    simp only [keyword?, Option.map_eq_none_iff, List.find?_eq_none]
    intro w hw
    simpa using hkeywords _ (List.mem_map_of_mem hw)
  have htype : typeNames.contains text = false := by
    rw [Bool.eq_false_iff]
    exact fun hmem => htypes text (List.contains_iff_mem.mp hmem) rfl
  simp only [react, namePattern, word, hkeyword, htype]
  rfl

/-- Digits, a mark and digits are a float that ends before the next byte that is no digit. -/
theorem matchLength?_marked {whole ds rest : Bytes} {mark : UInt8} (hwne : whole ≠ [])
    (hwhole : ∀ b ∈ whole, Bytes.isDigit b = true) (hmark : isMark mark = true) (hdne : ds ≠ [])
    (hds : ∀ b ∈ ds, Bytes.isDigit b = true) (hrest : ∀ b ∈ rest.head?, Bytes.isDigit b = false)
    (hpoint : (46 : UInt8) ∉ rest) :
    float.matchLength? (whole ++ mark :: ds ++ rest) = some (whole ++ mark :: ds).length := by
  have hrun {ds : Bytes} (hne : ds ≠ []) (hds : ∀ b ∈ ds, Bytes.isDigit b = true) : (Regex.many1 digit).Matches ds :=
    Regex.matches_many1 rfl hne fun b hb => contains_digits (hds b hb)
  have hmatch : marked.Matches (whole ++ mark :: ds) :=
    .seq (hrun hwne hwhole) (.seq (Regex.matches_byte rfl hmark) (.seq .optionalNil (hrun hdne hds)))
  have hmarked : marked.Takes none (whole ++ mark :: ds) rest := by
    refine hmatch.takes (by decide) (fun b hb => ?_) none
    simpa using Bytes.imp_byte (fun b => !Bytes.isDigit b) (fun b => !marked.goesOn b) (by decide)
      (by simpa using hrest b hb)
  refine Regex.Takes.matchLength? (Regex.Takes.altRight (Regex.ends_eq_nil fun s more hs hpointed => ?_) hmarked)
  have hs : whole ++ mark :: ds ++ rest = s ++ more := hs
  have hmem : (46 : UInt8) ∈ whole ++ mark :: ds ++ rest := by
    rw [hs]
    exact List.mem_append_left _ (point_mem_of_matches hpointed)
  rcases List.mem_append.mp hmem with hmem | hmem
  · have hnone : (46 != (46 : UInt8)) = true := hmatch.forall_mem (p := (· != 46)) (by decide) 46 hmem
    cases hnone
  · exact hpoint hmem

/-- The digits behind the mark go up to a byte that is none. -/
theorem BeginsMarked.exists_run {text : Bytes} (h : BeginsMarked text) :
    ∃ whole mark ds rest, text = whole ++ mark :: ds ++ rest ∧ whole ≠ [] ∧ (∀ b ∈ whole, Bytes.isDigit b = true) ∧
      isMark mark = true ∧ ds ≠ [] ∧ (∀ b ∈ ds, Bytes.isDigit b = true) ∧ ∀ b ∈ rest.head?, Bytes.isDigit b = false := by
  obtain ⟨whole, mark, d, more, rfl, hwne, hwhole, hmark, hd⟩ := h
  refine ⟨whole, mark, d :: more.takeWhile Bytes.isDigit, more.dropWhile Bytes.isDigit, ?_, hwne, hwhole, hmark,
    List.cons_ne_nil _ _, List.forall_mem_cons.mpr ⟨hd, List.all_eq_true.mp List.all_takeWhile⟩, fun b hb => ?_⟩
  · rw [List.append_assoc, List.cons_append, List.cons_append, List.takeWhile_append_dropWhile]
  · have hnot := List.head?_dropWhile_not Bytes.isDigit more
    rw [Option.mem_def.mp hb] at hnot
    simpa using hnot

/-- A hexadecimal number that begins like a float is cut behind the float, and what is left is a name. -/
theorem scan_marked {text : Bytes} (h : hexadecimal.Matches text) (hmarked : BeginsMarked text) :
    ∃ whole mark ds rest, text = whole ++ mark :: ds ++ rest ∧ (∀ b ∈ whole, Bytes.isDigit b = true) ∧ isMark mark = true ∧
      (∀ b ∈ ds, Bytes.isDigit b = true) ∧ (∀ b ∈ rest.head?, Bytes.isDigit b = false) ∧
      (scan text).outcome = .ok [⟨.float, whole ++ mark :: ds, none, 1⟩, ⟨.ident, rest, none, 1⟩] := by
  obtain ⟨whole, mark, ds, rest, heq, hwne, hwhole, hmark, hdne, hds, hrest⟩ := hmarked.exists_run
  obtain ⟨d, hs, x, hshape, -, -, hx⟩ := exists_hexadecimal h
  have hlast : text.getLast? = some x := by rw [hshape, ← List.cons_append, List.getLast?_concat]
  have hlast : rest.getLast? = some x := by
    rcases List.eq_nil_or_concat' rest with rfl | ⟨rest, y, rfl⟩
    · -- the mark at the end is no digit
      obtain ⟨ds, y, rfl⟩ := (List.eq_nil_or_concat' ds).resolve_left hdne
      rw [heq, List.append_nil, ← List.cons_append, ← List.append_assoc, List.getLast?_concat, Option.some_inj] at hlast
      have hdigit := hds y (by simp)
      rw [hlast] at hdigit
      rcases hx with rfl | rfl <;> cases hdigit
    · rw [heq, ← List.append_assoc, List.getLast?_concat] at hlast
      rw [List.getLast?_concat, hlast]
  obtain ⟨c, rest, rfl⟩ := List.exists_cons_of_ne_nil (l := rest) (by rintro rfl; cases hlast)
  have hmem : ∀ b ∈ c :: rest, b ∈ text := fun b hb => by rw [heq]; exact List.mem_append_right _ hb
  have hstart : Lexicon.identStart.contains c.toNat = true := by
    have hc := h.forall_mem (p := fun b => Bytes.isDigit b || Lexicon.identStart.contains b.toNat) (by decide) c
      (hmem c List.mem_cons_self)
    rwa [hrest c rfl, Bool.false_or] at hc
  have hparts : ∀ b ∈ rest, Lexicon.identPart.contains b.toNat = true := fun b hb =>
    h.forall_mem (p := fun b => Lexicon.identPart.contains b.toNat) (by decide) b (hmem b (List.mem_cons_of_mem _ hb))
  have hname : Lexicon.name.Matches (c :: rest) := by
    have hmatch : Lexicon.name.Matches ([c] ++ rest ++ []) :=
      .seq (.seq (Regex.matches_byte rfl hstart) (Regex.matches_many rfl hparts)) .starNil
    simpa using hmatch
  have hfloat : lexeme? Lexicon.patterns (whole ++ mark :: ds ++ c :: rest) =
      some (⟨"float", float, some (emit .float), false⟩, (whole ++ mark :: ds).length) := by
    have hnumeral := lexeme?_numeral (r := hexadecimal) (by decide) h []
    rw [List.append_nil, heq] at hnumeral
    rw [hnumeral]
    refine lexeme?_of_first (numeralPatterns.take 1) ?_ (matchLength?_marked hwne hwhole hmark hdne hds hrest ?_)
    · have hcolon := sexagesimal_eq_none fun hmem => by cases h.forall_mem (p := (· != 58)) (by decide) 58 hmem
      rw [heq] at hcolon
      simpa [numeralPatterns] using hcolon
    · exact fun hpoint => by cases h.forall_mem (p := (· != 46)) (by decide) 46 (hmem 46 hpoint)
  have hident : lexeme? Lexicon.patterns (c :: rest ++ []) = some (namePattern, (c :: rest).length) := by
    rw [lexeme?_name hname]
    exact lexeme?_of_first [] nofun (hname.takes (by decide) (fun b hb => by cases hb) none).matchLength?
  have hline : Bytes.newlines (whole ++ mark :: ds) = 0 := by
    refine List.count_eq_zero.mpr fun hten => ?_
    cases h.forall_mem (p := (· != 10)) (by decide) 10 (by rw [heq]; exact List.mem_append_left _ hten)
  have hcuts : scanner.Cuts ⟨0, [], 1, 0⟩ (whole ++ mark :: ds ++ (c :: rest ++ [])) _ _ [] :=
    .step (by rwa [List.append_nil]) (by simp) rfl rfl
      (.step hident (List.cons_ne_nil _ _) rfl (react_namePattern hlast hx _) .nil)
  have houtcome := hcuts.outcome_eq
  rw [List.append_nil, ← heq] at houtcome
  simp only [given, List.filterMap_cons, Option.map_some, Progress.moment, Progress.advance, hline] at houtcome
  exact ⟨whole, mark, ds, c :: rest, heq, hwhole, hmark, hds, hrest, houtcome⟩

/-- A text that a number matches in full is the one token of that number, unless it is a hexadecimal number that begins with
digits, an exponent mark and digits: that is cut behind them, into a float and a name. -/
theorem scan_numeral {kind : Symbol} {r : Regex} (hr : (kind, r) ∈ numerals) {text : Bytes} (h : r.matchesAll text = true) :
    (kind = .hex → ¬ BeginsMarked text) ∧ (scan text).outcome = .ok [⟨kind, text, none, 1⟩] ∨
    (kind = .hex ∧ BeginsMarked text) ∧ ∃ whole mark ds rest, text = whole ++ mark :: ds ++ rest ∧
      (∀ b ∈ whole, Bytes.isDigit b = true) ∧ isMark mark = true ∧ (∀ b ∈ ds, Bytes.isDigit b = true) ∧
      (∀ b ∈ rest.head?, Bytes.isDigit b = false) ∧
      (scan text).outcome = .ok [⟨.float, whole ++ mark :: ds, none, 1⟩, ⟨.ident, rest, none, 1⟩] := by
  have hmatch := Regex.matches_of_matchesAll h
  by_cases hmarked : kind = .hex ∧ BeginsMarked text
  · right
    obtain ⟨rfl, hbegins⟩ := hmarked
    have hhex : r = hexadecimal := by simpa [numerals] using hr
    subst hhex
    exact ⟨⟨rfl, hbegins⟩, scan_marked hmatch hbegins⟩
  · left
    have hmarked : kind = .hex → ¬ BeginsMarked text := fun hkind hbegins => hmarked ⟨hkind, hbegins⟩
    obtain ⟨name, hlexeme⟩ := lexeme?_whole hr hmatch hmarked
    exact ⟨hmarked, scan_of_lexeme? (hmatch.ne_nil (numerals_advance r (List.mem_map_of_mem hr))) hlexeme⟩

/-- An octal number is one token. -/
theorem scan_numeral_octal : octal.matchesAll "17b" = true ∧ (scan "17b").outcome = .ok [⟨.octal, "17b", none, 1⟩] := by
  have hmatch : octal.matchesAll "17b" = true := by decide
  refine ⟨hmatch, ?_⟩
  rcases scan_numeral (by decide : (.octal, octal) ∈ numerals) hmatch with ⟨-, hscan⟩ | ⟨⟨hkind, -⟩, -⟩
  · exact hscan
  · cases hkind

/-- A hexadecimal number that begins like a float is not one token. -/
theorem scan_split_hexadecimal : ¬ ∀ text : Bytes, (∃ r ∈ numerals.map (·.2), r.matchesAll text = true) →
    ∃ kind r, (kind, r) ∈ numerals ∧ r.matchesAll text = true ∧ (scan text).outcome = .ok [⟨kind, text, none, 1⟩] := by
  intro h
  obtain ⟨kind, r, -, -, hscan⟩ := h "1e5x" ⟨hexadecimal, by decide, by decide⟩
  have hsplit : (scan "1e5x").outcome.toOption = some [⟨.float, "1e5", none, 1⟩, ⟨.ident, "x", none, 1⟩] := by decide
  rw [hscan] at hsplit
  cases hsplit

end IrafCl.Script
