import IrafCl.Proofs.Pattern.Preference
import IrafCl.Proofs.Script.Newlines

/-!
# Where the lexemes of a script end

A comment goes on to the end of its line (`lexeme?_comment_iff`), blanks as long as there are any (`lexeme?_blanks_iff`) and a
string up to its delimiter (`matchLength?_delimited`). All other lexemes end before a blank, a comment and the end of a line
as they do at the end of the text. So whatever begins with one of these may be put in the place of something else that
does: the lexemes before it stay as they are, but for a comment and blanks right before it (`lexeme?_onto`).
-/

namespace IrafCl.Script

open Scanner
open Regex (many many1 opt ends ends_star ends_byte)

/-! ## First bytes -/

theorem patterns_advance : ∀ p ∈ Lexicon.patterns, p.regex.advances = true := by decide

/-- Only the patterns that start with a byte count for one with which no others start. -/
theorem lexeme?_like (b₀ : UInt8) {b : UInt8} (h : Lexicon.patterns.all (fun p => !p.regex.starts b || p.regex.starts b₀) = true)
    (text : Bytes) : lexeme? Lexicon.patterns (b :: text) = lexeme? (Lexicon.patterns.filter (·.regex.starts b₀)) (b :: text) := by
  refine lexeme?_filter patterns_advance (fun p hp hb => ?_) text
  simpa [hb] using List.all_eq_true.mp h p hp

/-! ## Elements outside a few characters -/

theorem contains_except_iff {cs : List Char} {n : Nat} : (CharClass.except cs).contains n = true ↔ ∀ c ∈ cs, c.toNat ≠ n := by
  simp only [CharClass.except, CharClass.contains, List.any_map, Bool.bne_true, Bool.not_eq_true', List.any_eq_false,
    Function.comp_apply, Bool.and_eq_true, decide_eq_true_eq, not_and, Nat.not_le]
  refine forall₂_congr fun c _ => ?_
  omega

/-- Outside some characters of ASCII there is whatever does not begin with one of them. -/
theorem ends_except {cs : List Char} (hcs : ∀ c ∈ cs, c.toNat < 128) (x : Option UInt8) (b : UInt8) (bs : Bytes) :
    (Regex.one (CharClass.except cs)).ends ⟨x, b :: bs⟩ =
      if cs.all (·.toNat != b.toNat) then [⟨some b, bs.drop ((Scalar.first b bs).width - 1)⟩] else [] := by
  have hcontains : (CharClass.except cs).contains (Scalar.first b bs).code = cs.all (·.toNat != b.toNat) := by
    rw [Bool.eq_iff_iff, contains_except_iff, List.all_eq_true]
    refine forall₂_congr fun c hc => ?_
    rw [bne_iff_ne]
    have hc := hcs c hc
    by_cases hb : b.toNat < 128
    · have hfirst : Scalar.first b bs = .char (Char.ofNat b.toNat) := by simp [Scalar.first, UInt8.lt_iff_toNat_lt, hb]
      rw [hfirst, Scalar.code_char (.inl (by omega))]
    · have hcode := Scalar.le_code_of_le bs (Nat.not_lt.mp hb)
      omega
  simp only [ends, Cursor.step?, hcontains]
  split <;> rfl

theorem ends_anyButNewline (x : Option UInt8) (b : UInt8) (bs : Bytes) : (Regex.one CharClass.anyButNewline).ends ⟨x, b :: bs⟩ =
    if b = 10 then [] else [⟨some b, bs.drop ((Scalar.first b bs).width - 1)⟩] := by
  rw [CharClass.anyButNewline, ends_except (List.forall_mem_singleton.mpr (by decide))]
  by_cases hb : b = 10
  · subst hb
    rfl
  · have hne : (['\n'].all (·.toNat != b.toNat)) = true :=
      List.all_eq_true.mpr (List.forall_mem_singleton.mpr (bne_iff_ne.mpr fun h => hb (UInt8.toNat_inj.mp h.symm)))
    rw [if_pos hne, if_neg hb]

/-- Elements do not go on over a byte that is not a tail byte. -/
theorem drop_tails {b : UInt8} {bs v : Bytes} (hv : ∀ c ∈ v.head?, Scalar.isTail c = false) :
    (bs ++ v).drop ((Scalar.first b (bs ++ v)).width - 1) = bs.drop ((Scalar.first b (bs ++ v)).width - 1) ++ v := by
  have hwidth := (Scalar.width_first b bs).1
  rw [Scalar.first_append b bs hv, List.drop_append_of_le_length (by omega)]

/-! ## Comments -/

/-- The pattern of comments. -/
def commentPattern : Pattern Depth Symbol :=
  ⟨"comment", .seq (Lexicon.char '#') (many (.one CharClass.anyButNewline)), none, false⟩

/-- Anything but newlines is taken up to the next newline. -/
theorem head?_ends_line {v : Bytes} (hv : ∀ b ∈ v.head?, b = 10) : ∀ (x : Option UInt8) (u : Bytes), (10 : UInt8) ∉ u →
    ∃ y, ((many (.one CharClass.anyButNewline)).ends ⟨x, u ++ v⟩).head? = some ⟨y, v⟩
  | x, [], _ => by
    have hnone : (Regex.one CharClass.anyButNewline).ends ⟨x, v⟩ = [] := by
      cases v with
      | nil => rfl
      | cons b v =>
        rw [ends_anyButNewline, if_pos (hv b rfl)]
    refine ⟨x, ?_⟩
    rw [many, ends_star rfl, List.nil_append, hnone]
    rfl
  | x, b :: u, hu => by
    obtain ⟨hb, hu⟩ := not_or.mp (mt List.mem_cons.mpr hu)
    have hstop : ∀ c ∈ v.head?, Scalar.isTail c = false := fun c hc => by rw [hv c hc]; rfl
    obtain ⟨y, hrest⟩ := head?_ends_line hv (some b) (u.drop ((Scalar.first b (u ++ v)).width - 1))
      fun h => hu (List.mem_of_mem_drop h)
    refine ⟨y, ?_⟩
    rw [many, ends_star rfl, if_pos rfl, List.cons_append, ends_anyButNewline, if_neg (Ne.symm hb), List.flatMap_singleton,
      drop_tails hstop, List.head?_append]
    rw [many] at hrest
    rw [hrest]
    rfl
termination_by _ u => u.length

theorem matchLength?_comment (rest : Bytes) :
    commentPattern.regex.matchLength? (35 :: rest) = some ((rest.takeWhile (· != 10)).length + 1) := by
  have hu : (10 : UInt8) ∉ rest.takeWhile (· != 10) := fun h => by cases List.all_eq_true.mp List.all_takeWhile _ h
  have hv : ∀ b ∈ (rest.dropWhile (· != 10)).head?, b = 10 := by
    intro b hb
    have hnot := List.head?_dropWhile_not (· != (10 : UInt8)) rest
    rw [Option.mem_def.mp hb] at hnot
    simpa using hnot
  have hmark : (Lexicon.char '#').ends ⟨none, 35 :: rest⟩ = [⟨some 35, rest⟩] := ends_byte none _ (by decide)
  obtain ⟨y, hline⟩ := head?_ends_line hv (some 35) _ hu
  rw [List.takeWhile_append_dropWhile] at hline
  have hlength : rest.length = (rest.takeWhile (· != 10)).length + (rest.dropWhile (· != 10)).length := by
    rw [← List.length_append, List.takeWhile_append_dropWhile]
  rw [Regex.matchLength?, commentPattern, ends, hmark, List.flatMap_singleton, hline, Option.map_some, List.length_cons]
  exact congrArg some (by dsimp only; omega)

theorem length_takeWhile_append_iff {p : UInt8 → Bool} {u v : Bytes} : ((u ++ v).takeWhile p).length = u.length ↔
    (∀ b ∈ u, p b = true) ∧ ∀ b ∈ v.head?, p b = false := by
  induction u with
  | nil => cases v <;> simp [List.takeWhile_cons]
  | cons b u ih =>
    rw [List.cons_append, List.takeWhile_cons]
    split
    · next hb => simp [ih, hb]
    · next hb => simp [hb]

/-- A comment goes on to the end of its line. -/
theorem lexeme?_comment_iff {text following : Bytes} :
    lexeme? Lexicon.patterns (text ++ following) = some (commentPattern, text.length) ↔
      (∃ u, text = 35 :: u ∧ (10 : UInt8) ∉ u) ∧ ∀ b ∈ following.head?, b = 10 := by
  have hlexeme (rest : Bytes) : lexeme? Lexicon.patterns (35 :: rest) =
      some (commentPattern, (rest.takeWhile (· != 10)).length + 1) := by
    rw [lexeme?_like 35 (by decide)]
    show lexeme? [commentPattern] (35 :: rest) = _
    rw [lexeme?, matchLength?_comment]
  have hrun {u : Bytes} : ((u ++ following).takeWhile (· != 10)).length = u.length ↔
      (10 : UInt8) ∉ u ∧ ∀ b ∈ following.head?, b = 10 := by
    rw [length_takeWhile_append_iff, ← List.forall_mem_ne']
    simp
  constructor
  · intro h
    obtain ⟨mark, u, htext, hmark, -⟩ := (matches_of_lexeme? h).2.of_seq
    rw [List.take_left, hmark.char (by decide)] at htext
    have htext : text = 35 :: u := htext
    rw [htext, List.cons_append, hlexeme, Option.some_inj, Prod.mk.injEq, List.length_cons, Nat.succ_inj, hrun] at h
    exact ⟨⟨u, htext, h.2.1⟩, h.2.2⟩
  · rintro ⟨⟨u, rfl, hu⟩, hfollowing⟩
    rw [List.cons_append, hlexeme, hrun.mpr ⟨hu, hfollowing⟩]
    rfl

/-! ## Ends of lines -/

/-- A byte that parts lexemes and ends no line. -/
def isSpace (b : UInt8) : Bool := b == 32 || b == 9 || b == 13 || b == 12

/-- The pattern of blanks. -/
def blankPattern : Pattern Depth Symbol :=
  ⟨"whitespace", many1 (.one (CharClass.of [' ', '\t', '\r', '\x0c'])), none, false⟩

/-- The pattern of the end of a line that is none. -/
def continuationPattern : Pattern Depth Symbol := ⟨"continuation", .seq (Lexicon.char '\\') Lexicon.lineEnd, none, false⟩

theorem matches_of_isLineEnd {text : Bytes} (h : IsLineEnd text) : Lexicon.lineEnd.Matches text := by
  rcases h with rfl | rfl
  · show Lexicon.lineEnd.Matches ([] ++ [10])
    exact .seq .optionalNil (Regex.matches_byte rfl (by decide))
  · show Lexicon.lineEnd.Matches ([13] ++ [10])
    exact .seq (.optional (Regex.matches_byte rfl (by decide))) (Regex.matches_byte rfl (by decide))

theorem lexeme?_lineEnd {text : Bytes} (h : IsLineEnd text) (following : Bytes) :
    lexeme? Lexicon.patterns (text ++ following) = some (newlinePattern, text.length) := by
  have hlength : newlinePattern.regex.matchLength? (text ++ following) = some text.length :=
    ((matches_of_isLineEnd h).takes (by decide) (fun _ _ => rfl) none).matchLength?
  have hfirst : lexeme? Lexicon.patterns (text ++ following) = lexeme? [newlinePattern, blankPattern] (text ++ following) := by
    rcases h with rfl | rfl
    · exact lexeme?_like 13 (by decide) following
    · exact lexeme?_like 13 (by decide) (10 :: following)
  rw [hfirst, lexeme?, hlength]

theorem lexeme?_continuation {text : Bytes} (h : continuationPattern.regex.Matches text) (following : Bytes) :
    lexeme? Lexicon.patterns (text ++ following) = some (continuationPattern, text.length) := by
  have hlength : continuationPattern.regex.matchLength? (text ++ following) = some text.length :=
    (h.takes (by decide) (fun _ _ => rfl) none).matchLength?
  obtain ⟨mark, lineEnd, rfl, hmark, -⟩ := h.of_seq
  have hmark : mark = [92] := hmark.char (by decide)
  subst hmark
  have hfirst : lexeme? Lexicon.patterns ([92] ++ lineEnd ++ following) =
      lexeme? [continuationPattern] ([92] ++ lineEnd ++ following) :=
    lexeme?_like 92 (by decide) (lineEnd ++ following)
  rw [hfirst, lexeme?, hlength]

/-! ## Blanks -/

theorem contains_blank (b : UInt8) : (CharClass.of [' ', '\t', '\r', '\x0c']).contains b.toNat = isSpace b := by
  have hbyte := Bytes.imp_byte (fun _ => true) (fun b => (CharClass.of [' ', '\t', '\r', '\x0c']).contains b.toNat == isSpace b)
    (by decide) (b := b) rfl
  exact eq_of_beq hbyte

theorem matchLength?_blanks {b : UInt8} (hb : isSpace b = true) (rest : Bytes) :
    blankPattern.regex.matchLength? (b :: rest) = some ((rest.takeWhile isSpace).length + 1) := by
  have hrun : ∀ c ∈ b :: rest.takeWhile isSpace, isSpace c = true :=
    List.forall_mem_cons.mpr ⟨hb, List.all_eq_true.mp List.all_takeWhile⟩
  have hmatch : blankPattern.regex.Matches (b :: rest.takeWhile isSpace) :=
    Regex.matches_many1 rfl (List.cons_ne_nil _ _) fun c hc => by rw [contains_blank, hrun c hc]
  have htakes : blankPattern.regex.Takes none (b :: rest.takeWhile isSpace) (rest.dropWhile isSpace) := by
    refine hmatch.takes (by decide) (fun c hc => ?_) none
    have hnot := List.head?_dropWhile_not isSpace rest
    rw [Option.mem_def.mp hc] at hnot
    have hgoes := Bytes.imp_byte (fun b => !isSpace b) (fun b => !blankPattern.regex.goesOn b) (by decide)
      (by simpa using hnot)
    simpa using hgoes
  have hlength := htakes.matchLength?
  rwa [List.cons_append, List.takeWhile_append_dropWhile] at hlength

/-- A blank that does not begin the end of a line. -/
theorem lineEnd_eq_none {b : UInt8} (hb : isSpace b = true) {rest : Bytes} (h : ¬ (b = 13 ∧ rest.head? = some 10)) :
    Lexicon.lineEnd.matchLength? (b :: rest) = none := by
  refine Regex.matchLength?_eq_none fun s more hs hmatch => ?_
  rcases isLineEnd_of_matches hmatch with rfl | rfl
  · cases hs
    cases hb
  · cases hs
    exact h ⟨rfl, rfl⟩

/-- Blanks go on as long as there are any, unless they are the end of a line. -/
theorem lexeme?_blanks_iff {text following : Bytes} :
    lexeme? Lexicon.patterns (text ++ following) = some (blankPattern, text.length) ↔
      (text ≠ [] ∧ ∀ b ∈ text, isSpace b = true) ∧ (∀ b ∈ following.head?, isSpace b = false) ∧
        ¬ (text = [13] ∧ following.head? = some 10) := by
  have hlexeme {b : UInt8} (hb : isSpace b = true) {rest : Bytes} (h : ¬ (b = 13 ∧ rest.head? = some 10)) :
      lexeme? Lexicon.patterns (b :: rest) = some (blankPattern, (rest.takeWhile isSpace).length + 1) := by
    rw [lexeme?_like 13 (Bytes.imp_byte isSpace (fun b => Lexicon.patterns.all fun p => !p.regex.starts b || p.regex.starts 13)
      (by decide) hb)]
    show lexeme? [newlinePattern, blankPattern] (b :: rest) = _
    have hend : newlinePattern.regex.matchLength? (b :: rest) = none := lineEnd_eq_none hb h
    rw [lexeme?, hend, lexeme?, matchLength?_blanks hb]
  constructor
  · intro h
    have hmatch := (matches_of_lexeme? h).2
    rw [List.take_left] at hmatch
    obtain ⟨b, t, rfl⟩ := List.exists_cons_of_ne_nil (hmatch.ne_nil rfl)
    have hb : isSpace b = true := by
      have hstarts := hmatch.starts b rfl
      exact Bytes.imp_byte (blankPattern.regex.starts ·) isSpace (by decide) hstarts
    by_cases hend : b = 13 ∧ (t ++ following).head? = some 10
    · obtain ⟨rfl, hhead⟩ := hend
      obtain ⟨more, hmore⟩ := List.head?_eq_some_iff.mp hhead
      have hline := lexeme?_lineEnd (.inr rfl) more
      rw [List.cons_append, hmore] at h
      rw [show (13 :: 10 :: more : Bytes) = "\r\n" ++ more from rfl, hline] at h
      cases h
    · rw [List.cons_append, hlexeme hb hend, Option.some_inj, Prod.mk.injEq, List.length_cons, Nat.succ_inj,
        length_takeWhile_append_iff] at h
      refine ⟨⟨List.cons_ne_nil _ _, List.forall_mem_cons.mpr ⟨hb, h.2.1⟩⟩, h.2.2, ?_⟩
      rintro ⟨heq, hhead⟩
      cases heq
      exact hend ⟨rfl, hhead⟩
  · rintro ⟨⟨hne, hblank⟩, hfollowing, hend⟩
    obtain ⟨b, t, rfl⟩ := List.exists_cons_of_ne_nil hne
    obtain ⟨hb, ht⟩ := List.forall_mem_cons.mp hblank
    have hbegin : ¬ (b = 13 ∧ (t ++ following).head? = some 10) := by
      rintro ⟨rfl, hhead⟩
      cases t with
      | nil => exact hend ⟨rfl, hhead⟩
      | cons c t =>
        cases hhead
        cases ht 10 List.mem_cons_self
    rw [List.cons_append, hlexeme hb hbegin, length_takeWhile_append_iff.mpr ⟨ht, hfollowing⟩]
    rfl

/-! ## Strings -/

/-- What stands behind the delimiter that closes a string, of a text behind the one that opens it. -/
def closing (quote : UInt8) : Bytes → Option Bytes
  | [] => none
  | [b] => if b = quote then some [] else none
  | b :: c :: rest =>
    if b = quote then some (c :: rest)
    else if b = 10 then none
    else if b = 92 then closing quote rest
    else closing quote (c :: rest)

theorem closing_cons {quote b : UInt8} (hquote : b ≠ quote) (hline : b ≠ 10) (hescape : b ≠ 92) (rest : Bytes) :
    closing quote (b :: rest) = closing quote rest := by
  cases rest with
  | nil => simp [closing, hquote]
  | cons c rest => simp [closing, hquote, hline, hescape]

theorem closing_tails {quote : UInt8} (hquote : quote < 128) : ∀ {tails : Bytes}, (∀ b ∈ tails, Scalar.isTail b = true) →
    ∀ rest, closing quote (tails ++ rest) = closing quote rest
  | [], _, _ => rfl
  | b :: tails, h, rest => by
    obtain ⟨hb, htails⟩ := List.forall_mem_cons.mp h
    have hb := (Scalar.isTail_iff.mp hb).1
    have hne {c : UInt8} (hc : c < 128) : b ≠ c := by
      rintro rfl
      exact absurd (UInt8.lt_iff_toNat_lt.mp hc) (Nat.not_lt.mpr hb)
    rw [List.cons_append, closing_cons (hne hquote) (hne (by decide)) (hne (by decide)), closing_tails hquote htails]

/-- The rest of an element has no part in where the string closes. -/
theorem closing_drop {quote : UInt8} (hquote : quote < 128) (b : UInt8) (bs : Bytes) :
    closing quote (bs.drop ((Scalar.first b bs).width - 1)) = closing quote bs := by
  have htails := closing_tails hquote (Scalar.width_first b bs).2 (bs.drop ((Scalar.first b bs).width - 1))
  rw [List.take_append_drop] at htails
  exact htails.symm

/-- What stands behind a closed string is what is left of the text. -/
theorem exists_of_closing {quote : UInt8} : ∀ {text rest : Bytes}, closing quote text = some rest →
    ∃ front, front ≠ [] ∧ text = front ++ rest
  | [], _, h => by cases h
  | [b], rest, h => by
    rw [closing] at h
    split at h <;> cases h
    exact ⟨[b], List.cons_ne_nil _ _, rfl⟩
  | b :: c :: text, rest, h => by
    rw [closing] at h
    split at h
    · cases h
      exact ⟨[b], List.cons_ne_nil _ _, rfl⟩
    split at h
    · cases h
    split at h
    · obtain ⟨front, -, heq⟩ := exists_of_closing h
      exact ⟨b :: c :: front, List.cons_ne_nil _ _, by rw [heq]; rfl⟩
    · obtain ⟨front, -, heq⟩ := exists_of_closing h
      exact ⟨b :: front, List.cons_ne_nil _ _, by rw [heq]; rfl⟩

theorem length_lt_of_closing {quote : UInt8} {text rest : Bytes} (h : closing quote text = some rest) :
    rest.length < text.length := by
  obtain ⟨front, hne, rfl⟩ := exists_of_closing h
  have := List.length_pos_of_ne_nil hne
  rw [List.length_append]
  omega

theorem closing_self (quote : UInt8) (rest : Bytes) : closing quote (quote :: rest) = some rest := by
  cases rest <;> simp [closing]

/-- Where a string closes does not depend on what stands behind it. -/
theorem closing_append {quote : UInt8} {v w : Bytes} :
    ∀ {u : Bytes}, closing quote (u ++ v) = some v → closing quote (u ++ w) = some w
  | [], h => absurd (length_lt_of_closing h) (Nat.lt_irrefl _)
  | [b], h => by
    by_cases hquote : b = quote
    · rw [hquote]
      exact closing_self quote w
    · cases v with
      | nil => simp [closing, hquote] at h
      | cons c v =>
        simp only [List.cons_append, List.nil_append, closing, hquote, if_false] at h
        split at h
        · cases h
        split at h
        · have := length_lt_of_closing h
          simp only [List.length_cons] at this
          omega
        · exact absurd (length_lt_of_closing h) (Nat.lt_irrefl _)
  | b :: c :: u, h => by
    rw [List.cons_append, List.cons_append, closing] at h ⊢
    split at h
    · have hlength := congrArg List.length (Option.some.inj h)
      simp at hlength
      omega
    · next hquote =>
      rw [if_neg hquote]
      split at h
      · cases h
      · next hline =>
        rw [if_neg hline]
        split at h
        · next hescape => rw [if_pos hescape]; exact closing_append h
        · next hescape => rw [if_neg hescape]; exact closing_append (u := c :: u) h

/-- An element of a string, or an escaped one. -/
def stringItem (quote : Char) : Regex :=
  .alt (.one (CharClass.except [quote, '\\', '\n']))
    (.seq (Lexicon.char '\\') (.alt (.one CharClass.anyButNewline) (Lexicon.char '\n')))

/-- A string behind its opening delimiter. -/
def stringRest (quote : Char) : Regex := .seq (many (stringItem quote)) (Lexicon.char quote)

theorem delimited_eq (quote : Char) : Lexicon.delimited quote = .seq (Lexicon.char quote) (stringRest quote) := rfl

theorem ends_any (x : Option UInt8) (b : UInt8) (bs : Bytes) :
    (Regex.alt (.one CharClass.anyButNewline) (Lexicon.char '\n')).ends ⟨x, b :: bs⟩ =
      [⟨some b, bs.drop ((Scalar.first b bs).width - 1)⟩] := by
  rw [ends, ends_anyButNewline]
  by_cases hb : b = 10
  · subst hb
    rfl
  · have hnone : (Lexicon.char '\n').ends ⟨x, b :: bs⟩ = [] := by
      refine Regex.ends_eq_nil_of_starts rfl (fun c hc => ?_) x
      cases hc
      simpa using Bytes.imp_byte (fun b => !(b == 10)) (fun b => !(Lexicon.char '\n').starts b) (by decide) (by simpa using hb)
    rw [if_neg hb, hnone]
    rfl

theorem ends_many_seq {r next : Regex} (hr : r.advances = true) (c : Cursor) :
    (Regex.seq (many r) next).ends c = (r.ends c).flatMap (Regex.seq (many r) next).ends ++ next.ends c := by
  rw [ends, many, ends_star hr, if_pos rfl, List.flatMap_append, List.flatMap_assoc, List.flatMap_singleton]
  rfl

theorem ends_char {c : Char} (hc : c.toNat < 128) (x : Option UInt8) (b : UInt8) (bs : Bytes) :
    (Lexicon.char c).ends ⟨x, b :: bs⟩ = if b = Bytes.ascii c then [⟨some b, bs⟩] else [] := by
  split
  · next hb =>
    have hcode : b.toNat = c.toNat := by rw [hb, Bytes.ascii, UInt8.toNat_ofNat', Nat.mod_eq_of_lt (by omega)]
    have hcontains : (CharClass.single c).contains b.toNat = true := by simp [CharClass.contains, CharClass.single, hcode]
    rw [Lexicon.char, ends_byte x bs (UInt8.lt_iff_toNat_lt.mpr (hcode ▸ hc)), if_pos hcontains]
  · next hb =>
    refine Regex.ends_eq_nil fun s rest hs hmatch => hb ?_
    rw [hmatch.char hc, Regex.utf8EncodeChar_ascii hc] at hs
    cases hs
    rfl

/-- The delimiters of strings. -/
def quotes : List Char := ['"', '\'']

section
variable {quote : Char}

theorem eq_of_mem_quotes (hquote : quote ∈ quotes) : quote = '"' ∨ quote = '\'' := by simpa [quotes] using hquote

theorem excluded_ascii (hquote : quote ∈ quotes) : ∀ c ∈ [quote, '\\', '\n'], c.toNat < 128 := by
  simp only [List.forall_mem_cons]
  refine ⟨?_, by decide, by decide, List.forall_mem_nil _⟩
  rcases eq_of_mem_quotes hquote with rfl | rfl <;> decide

theorem ends_stringItem_nil (hquote : quote ∈ quotes) {b : UInt8} (hb : b = Bytes.ascii quote ∨ b = 10) (x : Option UInt8)
    (bs : Bytes) : (stringItem quote).ends ⟨x, b :: bs⟩ = [] := by
  have hstarts : (stringItem quote).starts (Bytes.ascii quote) = false ∧ (stringItem quote).starts 10 = false := by
    rcases eq_of_mem_quotes hquote with rfl | rfl <;> decide
  refine Regex.ends_eq_nil_of_starts rfl (fun c hc => ?_) x
  cases hc
  rcases hb with rfl | rfl
  · exact hstarts.1
  · exact hstarts.2

theorem ends_stringItem_escape (hquote : quote ∈ quotes) (x : Option UInt8) (bs : Bytes) : (stringItem quote).ends ⟨x, 92 :: bs⟩ =
    (Regex.alt (.one CharClass.anyButNewline) (Lexicon.char '\n')).ends ⟨some 92, bs⟩ := by
  have hnot : ¬ ([quote, '\\', '\n'].all (·.toNat != (92 : UInt8).toNat)) = true := fun h =>
    bne_iff_ne.mp (List.all_eq_true.mp h '\\' (by simp)) rfl
  rw [stringItem, ends, ends_except (excluded_ascii hquote), if_neg hnot, List.nil_append, ends, ends_char (by decide),
    if_pos (by rfl), List.flatMap_singleton]

theorem ends_stringItem (hquote : quote ∈ quotes) {b : UInt8} (hb : b ≠ Bytes.ascii quote) (hline : b ≠ 10) (hescape : b ≠ 92)
    (x : Option UInt8) (bs : Bytes) :
    (stringItem quote).ends ⟨x, b :: bs⟩ = [⟨some b, bs.drop ((Scalar.first b bs).width - 1)⟩] := by
  have hascii := excluded_ascii hquote
  have hne : ([quote, '\\', '\n'].all (·.toNat != b.toNat)) = true := by
    have hbyte (c : Char) (h : b ≠ Bytes.ascii c) : c.toNat ≠ b.toNat := by
      rintro heq
      rw [Bytes.ascii, heq, UInt8.ofNat_toNat] at h
      exact h rfl
    simpa using ⟨hbyte quote hb, hbyte '\\' hescape, hbyte '\n' hline⟩
  have hslash : ¬ b = Bytes.ascii '\\' := hescape
  rw [stringItem, ends, ends_except hascii, if_pos hne, ends, ends_char (by decide), if_neg hslash]
  rfl

/-- A string behind its opening delimiter ends where it closes, if it does. -/
theorem ends_stringRest (hquote : quote ∈ quotes) : ∀ (x : Option UInt8) (text : Bytes), (stringRest quote).ends ⟨x, text⟩ =
    (closing (Bytes.ascii quote) text).toList.map fun rest => ⟨some (Bytes.ascii quote), rest⟩
  | x, [] => rfl
  | x, b :: text => by
    have hascii : Bytes.ascii quote < 128 := by rcases eq_of_mem_quotes hquote with rfl | rfl <;> decide
    rw [stringRest, ends_many_seq rfl, ends_char (excluded_ascii hquote quote List.mem_cons_self)]
    by_cases hb : b = Bytes.ascii quote
    · rw [ends_stringItem_nil hquote (.inl hb), if_pos hb, hb, closing_self]
      rfl
    · rw [if_neg hb, List.append_nil]
      by_cases hline : b = 10
      · subst hline
        have hclosing : closing (Bytes.ascii quote) (10 :: text) = none := by cases text <;> simp [closing, hb]
        rw [ends_stringItem_nil hquote (.inr rfl), hclosing]
        rfl
      by_cases hescape : b = 92
      · subst hescape
        rw [ends_stringItem_escape hquote]
        cases text with
        | nil => simp [closing, hb, ends, Cursor.step?, Lexicon.char]
        | cons c text =>
          rw [ends_any, List.flatMap_singleton]
          have ih := ends_stringRest hquote (some c) (text.drop ((Scalar.first c text).width - 1))
          rw [stringRest] at ih
          rw [ih, closing_drop hascii, closing, if_neg hb, if_neg hline, if_pos rfl]
      · rw [ends_stringItem hquote hb hline hescape, List.flatMap_singleton]
        have ih := ends_stringRest hquote (some b) (text.drop ((Scalar.first b text).width - 1))
        rw [stringRest] at ih
        rw [ih, closing_drop hascii, closing_cons hb hline hescape]
termination_by _ text => text.length

theorem matchLength?_delimited (hquote : quote ∈ quotes) (text : Bytes) :
    (Lexicon.delimited quote).matchLength? (Bytes.ascii quote :: text) =
      (closing (Bytes.ascii quote) text).map fun rest => text.length + 1 - rest.length := by
  rw [Regex.matchLength?, delimited_eq, ends, ends_char (excluded_ascii hquote quote List.mem_cons_self), if_pos rfl,
    List.flatMap_singleton, ends_stringRest hquote]
  cases closing (Bytes.ascii quote) text <;> rfl

/-- The pattern of strings with a delimiter. -/
def stringPattern (name : String) (quote : Char) : Pattern Depth Symbol := ⟨name, Lexicon.delimited quote, some quotedString, false⟩

/-- The names of the patterns of strings with their delimiters. -/
def strings : List (String × Char) := [("dstring", '"'), ("sstring", '\'')]

/-- The patterns of strings. -/
def stringPatterns : List (Pattern Depth Symbol) := strings.map fun s => stringPattern s.1 s.2

/-- A delimiter begins a string if that closes. -/
theorem lexeme?_delimiter {name : String} (h : (name, quote) ∈ strings) (rest : Bytes) :
    lexeme? Lexicon.patterns (Bytes.ascii quote :: rest) =
      (closing (Bytes.ascii quote) rest).map fun more => (stringPattern name quote, rest.length + 1 - more.length) := by
  have hfilter : lexeme? Lexicon.patterns (Bytes.ascii quote :: rest) =
      lexeme? [stringPattern name quote] (Bytes.ascii quote :: rest) := by
    simp only [strings, List.mem_cons, Prod.mk.injEq, List.not_mem_nil, or_false] at h
    rcases h with ⟨rfl, rfl⟩ | ⟨rfl, rfl⟩
    · exact lexeme?_like 34 (by decide) rest
    · exact lexeme?_like 39 (by decide) rest
  have hquotes : ∀ s ∈ strings, s.2 ∈ quotes := by decide
  have hlength : (stringPattern name quote).regex.matchLength? (Bytes.ascii quote :: rest) = _ :=
    matchLength?_delimited (hquotes _ h) rest
  rw [hfilter, lexeme?, hlength]
  cases closing (Bytes.ascii quote) rest <;> rfl

/-- A string ends where it closes, whatever stands behind it. -/
theorem lexeme?_string {p : Pattern Depth Symbol} (hp : p ∈ stringPatterns) {text v : Bytes}
    (h : lexeme? Lexicon.patterns (text ++ v) = some (p, text.length)) (w : Bytes) :
    lexeme? Lexicon.patterns (text ++ w) = some (p, text.length) := by
  obtain ⟨⟨name, quote⟩, hmem, rfl⟩ := List.mem_map.mp hp
  have hascii : ∀ s ∈ strings, s.2.toNat < 128 := by decide
  have hascii := hascii _ hmem
  obtain ⟨mark, body, htext, hmark, -⟩ := (matches_of_lexeme? h).2.of_seq
  rw [List.take_left, hmark.char hascii, Regex.utf8EncodeChar_ascii hascii] at htext
  subst htext
  rw [List.singleton_append, List.cons_append, lexeme?_delimiter hmem] at h ⊢
  obtain ⟨more, hclosing, hmore⟩ := Option.map_eq_some_iff.mp h
  obtain ⟨front, hne, heq⟩ := exists_of_closing hclosing
  have hlength := congrArg List.length heq
  have hmore := (Prod.mk.inj hmore).2
  have hfront := List.length_pos_of_ne_nil hne
  simp only [List.length_append, List.length_cons] at hlength hmore
  obtain ⟨-, rfl⟩ := List.append_inj heq (by omega)
  rw [closing_append hclosing, Option.map_some, List.length_append, List.length_cons]
  exact congrArg some (Prod.ext rfl (by dsimp only; omega))

end

/-! ## Other lexemes -/

/-- The bytes with which blanks, comments and ends of lines begin. -/
def stops : Bytes := [9, 10, 12, 13, 32, 35]

/-- The pattern takes nothing of what begins with a stop. -/
def isTight (p : Pattern Depth Symbol) : Bool := p.regex.stopsAt none && stops.all fun b => p.regex.stopsAt (some b)

/-- A text that begins with a stop. -/
def StopsFirst (v : Bytes) : Prop := ∀ b ∈ v.head?, b ∈ stops

theorem stopsAt_of_isTight {p : Pattern Depth Symbol} (hp : isTight p = true) {v : Bytes} (hv : StopsFirst v) :
    p.regex.stopsAt v.head? = true := by
  obtain ⟨hnone, hsome⟩ := Bool.and_eq_true_iff.mp hp
  cases hhead : v.head? with
  | none => exact hnone
  | some b => exact List.all_eq_true.mp hsome b (hv b hhead)

theorem patterns_eq : Lexicon.patterns =
    [commentPattern, continuationPattern, newlinePattern] ++ stringPatterns ++
      (Lexicon.patterns.filter isTight ++ [blankPattern]) := rfl

theorem lexeme?_tight {p : Pattern Depth Symbol} (hp : p ∈ Lexicon.patterns.filter isTight) {text : Bytes}
    (hmatch : p.regex.Matches text) (following : Bytes) :
    lexeme? Lexicon.patterns (text ++ following) = lexeme? (Lexicon.patterns.filter isTight) (text ++ following) := by
  have hapart : (Lexicon.patterns.filter isTight).all (fun p => (Lexicon.patterns.filter (!isTight ·)).all fun q =>
      Regex.apart q.regex.firsts p.regex.firsts) = true := by decide
  have hadvances := patterns_advance p (List.mem_filter.mp hp).1
  exact lexeme?_apart patterns_advance (List.all_eq_true.mp hapart p hp) hmatch (hmatch.ne_nil hadvances) following

/-- Lexemes stay as they are when other text that begins with a stop is put behind them, but for a comment and blanks that it
would go on with. -/
theorem lexeme?_onto {p : Pattern Depth Symbol} {text x v w : Bytes}
    (h : lexeme? Lexicon.patterns (text ++ (x ++ v)) = some (p, text.length))
    (hx : x = [] → p ≠ commentPattern ∧ p ≠ blankPattern) (hv : StopsFirst v) (hw : StopsFirst w) :
    lexeme? Lexicon.patterns (text ++ (x ++ w)) = some (p, text.length) := by
  have hhead (hne : x ≠ []) : (x ++ w).head? = (x ++ v).head? := by
    obtain ⟨b, x, rfl⟩ := List.exists_cons_of_ne_nil hne
    rfl
  obtain ⟨hmem, hmatch⟩ := matches_of_lexeme? h
  rw [List.take_left] at hmatch
  rw [patterns_eq] at hmem
  simp only [List.mem_append, List.mem_cons, List.not_mem_nil, or_false] at hmem
  rcases hmem with ((rfl | rfl | rfl) | hstring) | htight | rfl
  · have hne : x ≠ [] := fun hnil => (hx hnil).1 rfl
    rw [lexeme?_comment_iff] at h ⊢
    rwa [hhead hne]
  · exact lexeme?_continuation hmatch _
  · exact lexeme?_lineEnd (isLineEnd_of_matches hmatch) _
  · exact lexeme?_string hstring h _
  · have hall {v : Bytes} (hv : StopsFirst v) : ∀ q ∈ Lexicon.patterns.filter isTight, q.regex.stopsAt v.head? = true :=
      fun q hq => stopsAt_of_isTight (List.mem_filter.mp hq).2 hv
    rw [lexeme?_tight htight hmatch, ← List.append_assoc, lexeme?_append (hall hv)] at h
    rw [lexeme?_tight htight hmatch, ← List.append_assoc, lexeme?_append (hall hw), h]
  · have hne : x ≠ [] := fun hnil => (hx hnil).2 rfl
    rw [lexeme?_blanks_iff] at h ⊢
    rwa [hhead hne]

end IrafCl.Script
