import IrafCl.Proofs.Script.Extent

/-!
# Spacing does not matter

Blanks and a comment at the end of a line, and lines with nothing else, are lexemes without tokens, and of the ends of such
lines none but the first may give a newline (`cuts_fill`, `cuts_lines`). They leave the lexemes before them as they are, but
that a comment or blanks right before them grow (`cuts_front`). The lexemes behind them give the tokens they gave before, on
later lines (`cuts_behind`). So a script with such spacing in it has the same tokens (`tokenize_spaced`).
-/

namespace IrafCl.Script

open Scanner

/-! ## Spacing -/

/-- Blanks, and perhaps a comment behind them. -/
def IsFill (text : Bytes) : Prop := ∃ blanks note, text = blanks ++ note ∧ (∀ b ∈ blanks, isSpace b = true) ∧
  (note = [] ∨ ∃ u, note = 35 :: u ∧ (10 : UInt8) ∉ u)

/-- A line with nothing but blanks and perhaps a comment. -/
def IsFillLine (line : Bytes) : Prop := ∃ fill lineEnd, line = fill ++ lineEnd ∧ IsFill fill ∧ IsLineEnd lineEnd

theorem isSpace_ne_newline {b : UInt8} (h : isSpace b = true) : b ≠ 10 := by
  rintro rfl
  cases h

theorem IsFill.not_mem {text : Bytes} (h : IsFill text) : (10 : UInt8) ∉ text := by
  obtain ⟨blanks, note, rfl, hblanks, hnote⟩ := h
  rw [List.mem_append, not_or]
  refine ⟨fun hmem => isSpace_ne_newline (hblanks 10 hmem) rfl, ?_⟩
  rcases hnote with rfl | ⟨u, rfl, hu⟩
  · exact nofun
  · simpa using hu

theorem IsFill.blanks_append {blanks text : Bytes} (hblanks : ∀ b ∈ blanks, isSpace b = true) (h : IsFill text) :
    IsFill (blanks ++ text) := by
  obtain ⟨more, note, rfl, hmore, hnote⟩ := h
  exact ⟨blanks ++ more, note, (List.append_assoc ..).symm, List.forall_mem_append.mpr ⟨hblanks, hmore⟩, hnote⟩

theorem isFill_comment {u : Bytes} (hu : (10 : UInt8) ∉ u) : IsFill (35 :: u) := ⟨[], 35 :: u, rfl, nofun, .inr ⟨u, rfl, hu⟩⟩

/-- A carriage return at the end of a line is one more blank, or belongs to the comment. -/
theorem IsFill.exists_newline {fill lineEnd : Bytes} (hfill : IsFill fill) (hend : IsLineEnd lineEnd) :
    ∃ fill', IsFill fill' ∧ fill ++ lineEnd = fill' ++ [10] := by
  rcases hend with rfl | rfl
  · exact ⟨fill, hfill, rfl⟩
  · refine ⟨fill ++ [13], ?_, by rw [List.append_assoc]; rfl⟩
    obtain ⟨blanks, note, rfl, hblanks, rfl | ⟨u, rfl, hu⟩⟩ := hfill
    · exact ⟨blanks ++ [13], [], by simp, List.forall_mem_append.mpr ⟨hblanks, List.forall_mem_singleton.mpr rfl⟩, .inl rfl⟩
    · refine ⟨blanks, 35 :: (u ++ [13]), by simp, hblanks, .inr ⟨_, rfl, ?_⟩⟩
      simpa using hu

theorem IsFill.stopsFirst {fill v : Bytes} (hfill : IsFill fill) (hv : StopsFirst v) : StopsFirst (fill ++ v) := by
  obtain ⟨blanks, note, rfl, hblanks, hnote⟩ := hfill
  cases blanks with
  | cons b blanks =>
    rintro _ ⟨⟩
    exact List.contains_iff_mem.mp (Bytes.imp_byte isSpace (fun b => stops.contains b) (by decide) (hblanks b List.mem_cons_self))
  | nil =>
    rcases hnote with rfl | ⟨u, rfl, -⟩
    · exact hv
    · rintro _ ⟨⟩
      decide

theorem IsLineEnd.stopsFirst {lineEnd : Bytes} (h : IsLineEnd lineEnd) (rest : Bytes) : StopsFirst (lineEnd ++ rest) := by
  rcases h with rfl | rfl <;> (rintro _ ⟨⟩; decide)

/-! ## Lexemes of spacing -/

/-- Whether the end of a line gives a newline. -/
def endsStatement (p : Progress Depth Symbol) : Bool := decide (p.data = 0) && p.tokens.head?.any fun t => newlineEnds t.kind

theorem react_lineEnd (p : Progress Depth Symbol) (text : Bytes) : react newlinePattern p.moment text =
    .ok (p.data, if endsStatement p then some ⟨.newline, text, none, p.line⟩ else none) := by
  have hends : endOfLine p.moment text =
      .ok (p.data, if endsStatement p then some ⟨.newline, text, none, p.line⟩ else none) := rfl
  rw [react, newlinePattern]
  dsimp only
  rw [hends]
  cases endsStatement p <;> rfl

/-- The scans are at the same point but for their offsets. -/
def SameState (p q : Progress Depth Symbol) : Prop := q.data = p.data ∧ q.tokens = p.tokens ∧ q.line = p.line

theorem newlines_eq_zero {text : Bytes} (h : (10 : UInt8) ∉ text) : Bytes.newlines text = 0 := List.count_eq_zero.mpr h

theorem sameState_advance (p : Progress Depth Symbol) {text : Bytes} (h : (10 : UInt8) ∉ text) :
    SameState p (p.advance text p.data none) := by
  refine ⟨rfl, rfl, ?_⟩
  rw [Progress.advance, newlines_eq_zero h]
  rfl

/-- The end of a line of spacing is the only lexeme that may give a token. -/
def Passes (p q : Progress Depth Symbol) : Prop := q.data = p.data ∧ q.line = p.line + 1 ∧
  ∃ text, q.tokens = (if endsStatement p then [⟨.newline, text, none, p.line⟩] else []) ++ p.tokens

theorem Passes.of_sameState {p r q : Progress Depth Symbol} (h : SameState p r) (hq : Passes r q) : Passes p q := by
  obtain ⟨data, tokens, line, offset⟩ := p
  obtain ⟨data', tokens', line', offset'⟩ := r
  obtain ⟨rfl, rfl, rfl⟩ := h
  exact hq

theorem cuts_lineEnd {lineEnd : Bytes} (h : IsLineEnd lineEnd) (p : Progress Depth Symbol) (rest : Bytes) :
    ∃ cuts q, scanner.Cuts p (lineEnd ++ rest) cuts q rest ∧ Passes p q := by
  refine ⟨_, _, .step (lexeme?_lineEnd h rest) (by rcases h with rfl | rfl <;> exact List.cons_ne_nil _ _) rfl
    (react_lineEnd p lineEnd) .nil, rfl, ?_, lineEnd, ?_⟩
  · rcases h with rfl | rfl <;> rfl
  · unfold Progress.advance
    cases endsStatement p <;> rfl

/-- A lexeme without a handler comes before. -/
theorem cuts_silent {pattern : Pattern Depth Symbol} {text following rest : Bytes} {p : Progress Depth Symbol}
    (hlexeme : lexeme? Lexicon.patterns (text ++ following) = some (pattern, text.length)) (hne : text ≠ [])
    (howned : pattern.shadowed = false) (hsilent : pattern.handler = none) (hline : (10 : UInt8) ∉ text)
    (hmore : ∀ r, ∃ cuts q, scanner.Cuts r following cuts q rest ∧ Passes r q) :
    ∃ cuts q, scanner.Cuts p (text ++ following) cuts q rest ∧ Passes p q := by
  have hreact : react pattern p.moment text = .ok (p.data, none) := by rw [react, hsilent]; rfl
  obtain ⟨cuts, q, hcuts, hq⟩ := hmore (p.advance text p.data none)
  exact ⟨_, q, .step hlexeme hne howned hreact hcuts, hq.of_sameState (sameState_advance p hline)⟩

/-- A line of spacing passes. -/
theorem cuts_fill {fill : Bytes} (hfill : IsFill fill) (p : Progress Depth Symbol) (rest : Bytes) :
    ∃ cuts q, scanner.Cuts p (fill ++ 10 :: rest) cuts q rest ∧ Passes p q := by
  obtain ⟨blanks, note, rfl, hblanks, hnote⟩ := hfill
  have hnewline (p : Progress Depth Symbol) : ∃ cuts q, scanner.Cuts p (10 :: rest) cuts q rest ∧ Passes p q :=
    cuts_lineEnd (.inl rfl) p rest
  have hline : (10 : UInt8) ∉ blanks := fun hmem => isSpace_ne_newline (hblanks 10 hmem) rfl
  have hspaced {b : UInt8} {following : Bytes} (hb : isSpace b = false) (hend : ¬ (blanks = [13] ∧ b = 10))
      (hmore : ∀ r, ∃ cuts q, scanner.Cuts r (b :: following) cuts q rest ∧ Passes r q) :
      ∃ cuts q, scanner.Cuts p (blanks ++ b :: following) cuts q rest ∧ Passes p q := by
    by_cases hne : blanks = []
    · rw [hne]
      exact hmore p
    · refine cuts_silent (lexeme?_blanks_iff.mpr ⟨⟨hne, hblanks⟩, ?_, ?_⟩) hne rfl rfl hline hmore
      · rintro _ ⟨⟩
        exact hb
      · rintro ⟨heq, hhead⟩
        exact hend ⟨heq, Option.some.inj hhead⟩
  rcases hnote with rfl | ⟨u, rfl, hu⟩
  · rw [List.append_nil]
    by_cases hreturn : blanks = [13]
    · rw [hreturn]
      exact cuts_lineEnd (.inr rfl) p rest
    · exact hspaced rfl (fun h => hreturn h.1) hnewline
  · rw [List.append_assoc]
    refine hspaced rfl (fun h => by cases h.2) fun r => ?_
    have hcomment : lexeme? Lexicon.patterns (35 :: u ++ 10 :: rest) = some (commentPattern, (35 :: u).length) :=
      lexeme?_comment_iff.mpr ⟨⟨u, rfl, hu⟩, fun b hb => by cases hb; rfl⟩
    exact cuts_silent hcomment (List.cons_ne_nil _ _) rfl rfl (by simpa using hu) hnewline

/-- Behind a line of spacing no further one gives a newline. -/
theorem Passes.endsStatement_eq_false {p q : Progress Depth Symbol} (h : Passes p q) : endsStatement q = false := by
  obtain ⟨hdata, -, text, htokens⟩ := h
  cases hends : endsStatement p with
  | true =>
    rw [hends] at htokens
    simp [endsStatement, htokens, newlineEnds]
  | false =>
    rw [hends] at htokens
    rw [endsStatement, htokens, hdata]
    exact hends

/-- Lines of spacing where no statement can end give no newlines. -/
theorem cuts_lines {lines : List Bytes} (hlines : ∀ line ∈ lines, IsFillLine line) (p : Progress Depth Symbol)
    (hp : endsStatement p = false) (rest : Bytes) : ∃ cuts q, scanner.Cuts p (lines.flatten ++ rest) cuts q rest ∧
      q.data = p.data ∧ q.tokens = p.tokens ∧ q.line = p.line + lines.length := by
  induction lines generalizing p with
  | nil => exact ⟨[], p, .nil, rfl, rfl, rfl⟩
  | cons line lines ih =>
    obtain ⟨⟨fill, lineEnd, rfl, hfill, hend⟩, hmore⟩ := List.forall_mem_cons.mp hlines
    obtain ⟨fill', hfill', heq⟩ := hfill.exists_newline hend
    obtain ⟨first, r, hfirst, hpasses⟩ := cuts_fill hfill' p (lines.flatten ++ rest)
    obtain ⟨others, q, hothers, hdata, htokens, hline⟩ := ih hmore r hpasses.endsStatement_eq_false
    obtain ⟨hdata', hline', text, htokens'⟩ := hpasses
    refine ⟨first ++ others, q, ?_, hdata.trans hdata', ?_, ?_⟩
    · rw [List.flatten_cons, heq, List.append_assoc, List.append_assoc]
      exact hfirst.append hothers
    · rw [htokens, htokens', hp]
      rfl
    · rw [hline, hline', List.length_cons]
      omega

/-! ## Before the spacing -/

/-- Blanks and comments are spacing, and go on over more of it. -/
theorem isFill_append {p : Pattern Depth Symbol} {text following more : Bytes} (hp : p = commentPattern ∨ p = blankPattern)
    (h : lexeme? Lexicon.patterns (text ++ following) = some (p, text.length)) (hmore : IsFill more) : IsFill (text ++ more) := by
  rcases hp with rfl | rfl
  · obtain ⟨⟨u, rfl, hu⟩, -⟩ := lexeme?_comment_iff.mp h
    refine isFill_comment (u := u ++ more) ?_
    rw [List.mem_append, not_or]
    exact ⟨hu, hmore.not_mem⟩
  · exact hmore.blanks_append (lexeme?_blanks_iff.mp h).1.2

theorem eq_of_covered_eq_nil {p q : Progress Depth Symbol} {text rest : Bytes} {cuts : List (Cut Depth Symbol)}
    (h : scanner.Cuts p text cuts q rest) (hnil : covered cuts = []) : cuts = [] ∧ q = p := by
  cases h with
  | nil => exact ⟨rfl, rfl⟩
  | cons hnext hcuts =>
    rw [covered, List.flatMap_cons, List.append_eq_nil_iff] at hnil
    exact absurd hnil.1 hnext.ne_nil

/-- Lexemes that other spacing is put behind stay as they are, or the last of them is spacing that goes on over it. -/
theorem cuts_front {p q : Progress Depth Symbol} {text v w : Bytes} {cuts : List (Cut Depth Symbol)}
    (h : scanner.Cuts p text cuts q v) (hv : StopsFirst v) (hw : StopsFirst w) :
    ∃ cuts' r fill, scanner.Cuts p (covered cuts ++ w) cuts' r (fill ++ w) ∧ SameState q r ∧
      ∀ more, IsFill more → IsFill (fill ++ more) := by
  induction h with
  | nil => exact ⟨[], _, [], .nil, ⟨rfl, rfl, rfl⟩, fun _ hmore => hmore⟩
  | @cons c cuts q following rest hnext hcuts ih =>
    obtain ⟨cuts', r, fill, hcuts', hsame, hfill⟩ := ih hv
    have hlexeme := hnext.lexeme?
    rw [hcuts.text_eq] at hlexeme
    by_cases hlast : covered cuts = [] ∧ (c.pattern = commentPattern ∨ c.pattern = blankPattern)
    · obtain ⟨hnil, hspacing⟩ := hlast
      have hgrows : ∀ more, IsFill more → IsFill (c.text ++ more) := fun more => isFill_append hspacing hlexeme
      have hline : (10 : UInt8) ∉ c.text := by simpa using (hgrows [] ⟨[], [], rfl, nofun, .inl rfl⟩).not_mem
      have hreact := hnext.react
      have hsilent : c.pattern.handler = none := by rcases hspacing with hpattern | hpattern <;> rw [hpattern] <;> rfl
      rw [react, hsilent] at hreact
      obtain ⟨rfl, rfl⟩ := eq_of_covered_eq_nil hcuts hnil
      refine ⟨[], c.before, c.text, ?_, ?_, hgrows⟩
      · rw [covered, List.flatMap_cons, List.flatMap_nil, List.append_nil]
        exact .nil
      · obtain ⟨hdata, htoken⟩ := Prod.mk.inj (Except.ok.inj hreact)
        obtain ⟨hdata', htokens, hline⟩ := sameState_advance c.before hline
        rw [Cut.after, ← hdata, ← htoken]
        exact ⟨hdata'.symm, htokens.symm, hline.symm⟩
    · have hx : covered cuts = [] → c.pattern ≠ commentPattern ∧ c.pattern ≠ blankPattern :=
        fun hnil => not_or.mp fun hspacing => hlast ⟨hnil, hspacing⟩
      refine ⟨c :: cuts', r, fill, ?_, hsame, hfill⟩
      rw [covered, List.flatMap_cons, List.append_assoc]
      exact .cons ⟨lexeme?_onto hlexeme hx hv hw, hnext.ne_nil, hnext.not_shadowed, hnext.react⟩ hcuts'

/-! ## Behind the spacing -/

/-- Of a scan a pattern sees only the depth, the kind of the last token and the line, and the line only becomes that of its token. -/
def SeesKind (p : Pattern Depth Symbol) : Prop :=
  ∀ (m m' : Moment Depth Symbol) (text : Bytes), m'.data = m.data → m'.last.map (·.kind) = m.last.map (·.kind) →
    react p m' text = (react p m text).map fun (data, token) => (data, token.map fun t => { t with line := m'.line })

section
variable {name : Bytes} {regex : Regex} {kind : Symbol}

theorem seesKind_skip : SeesKind ⟨name, regex, none, false⟩ := by
  intro m m' text hdata _
  simp only [react, hdata]
  rfl

theorem seesKind_emit : SeesKind ⟨name, regex, some (emit kind), false⟩ := by
  intro m m' text hdata _
  simp only [react, emit, hdata]
  rfl

theorem seesKind_openBracket : SeesKind ⟨name, regex, some (openBracket kind), false⟩ := by
  intro m m' text hdata _
  simp only [react, openBracket, hdata]
  rfl

theorem seesKind_closeBracket : SeesKind ⟨name, regex, some (closeBracket kind), false⟩ := by
  intro m m' text hdata _
  simp only [react, closeBracket, hdata]
  rfl

theorem seesKind_quotedString : SeesKind ⟨name, regex, some quotedString, false⟩ := by
  intro m m' text hdata _
  simp only [react, quotedString, hdata]
  rfl

theorem seesKind_word : SeesKind ⟨name, regex, some word, false⟩ := by
  intro m m' text hdata _
  simp only [react, word, hdata, Except.map, Option.map_some]
  split
  · rfl
  · split <;> rfl

theorem seesKind_endOfLine : SeesKind ⟨name, regex, some endOfLine, false⟩ := by
  intro m m' text hdata hlast
  have hends : (m'.last.any fun t => newlineEnds t.kind) = m.last.any fun t => newlineEnds t.kind := by
    have hmap (last : Option (Token Symbol)) :
        (last.any fun t => newlineEnds t.kind) = (last.map (·.kind)).any newlineEnds := by cases last <;> rfl
    rw [hmap, hmap, hlast]
  simp only [react, endOfLine, hdata, hends]
  cases decide (m.data = 0) && m.last.any fun t => newlineEnds t.kind <;> rfl

end

theorem seesKind : ∀ p ∈ Lexicon.patterns, SeesKind p := by
  unfold Lexicon.patterns
  simp only [List.forall_mem_cons]
  repeat' apply And.intro
  all_goals first
    | exact seesKind_emit
    | exact seesKind_openBracket
    | exact seesKind_closeBracket
    | exact seesKind_endOfLine
    | exact seesKind_quotedString
    | exact seesKind_word
    | exact seesKind_skip
    | exact List.forall_mem_nil _

/-- A token of a script and the same in one with more lines behind some line. A newline may have another text. -/
structure Moved (last count : Nat) (t t' : Token Symbol) : Prop where
  kind : t'.kind = t.kind
  value : t'.value = t.value
  text : t.kind ≠ .newline → t'.text = t.text
  line : t'.line = if last < t.line then t.line + count else t.line

/-- A scan that has come past the line, and one with more lines at the same point. -/
structure Follows (last count : Nat) (p p' : Progress Depth Symbol) : Prop where
  data : p'.data = p.data
  tokens : List.Forall₂ (Moved last count) p.tokens p'.tokens
  line : p'.line = p.line + count
  past : last < p.line

theorem kind_head?_of_moved {last count : Nat} {ts ts' : List (Token Symbol)} (h : List.Forall₂ (Moved last count) ts ts') :
    ts'.head?.map (·.kind) = ts.head?.map (·.kind) := by
  cases h with
  | nil => rfl
  | cons ht _ => exact congrArg some ht.kind

/-- Behind more lines the lexemes give the same tokens, further down. -/
theorem cuts_behind {last count : Nat} {p q p' : Progress Depth Symbol} {text rest : Bytes} {cuts : List (Cut Depth Symbol)}
    (h : scanner.Cuts p text cuts q rest) (hfollows : Follows last count p p') :
    ∃ cuts' q', scanner.Cuts p' text cuts' q' rest ∧ Follows last count q q' := by
  induction h generalizing p' with
  | nil => exact ⟨[], p', .nil, hfollows⟩
  | @cons c cuts q following rest hnext hcuts ih =>
    have hreact : react c.pattern p'.moment c.text = .ok (c.data, c.token.map fun t => { t with line := p'.line }) := by
      rw [seesKind c.pattern hnext.matches.1 c.before.moment p'.moment c.text hfollows.data (kind_head?_of_moved hfollows.tokens),
        hnext.react]
      rfl
    have htoken : List.Forall₂ (Moved last count) c.token.toList (c.token.map fun t => { t with line := p'.line }).toList := by
      cases htoken : c.token with
      | none => exact .nil
      | some t =>
        have hline := hnext.react
        rw [htoken] at hline
        have hline : t.line = c.before.line := line_of_react hline
        refine .cons ⟨rfl, rfl, fun _ => rfl, ?_⟩ .nil
        have := hfollows.past
        rw [if_pos (by omega), hline, hfollows.line]
        rfl
    have hnow : Follows last count c.after (p'.advance c.text c.data (c.token.map fun t => { t with line := p'.line })) := by
      refine ⟨rfl, List.rel_append htoken hfollows.tokens, ?_, Nat.lt_add_right _ hfollows.past⟩
      simp only [Progress.advance, Cut.after, hfollows.line]
      omega
    obtain ⟨cuts', q', hcuts', hq⟩ := ih hnow
    exact ⟨_, q', .step hnext.lexeme? hnext.ne_nil hnext.not_shadowed hreact hcuts', hq⟩

/-! ## Spacing in a script -/

/-- A newline that closes the list stands on the line of the last token. -/
theorem moved_terminate {last count : Nat} {ts ts' : List (Token Symbol)} (h : List.Forall₂ (Moved last count) ts ts') :
    List.Forall₂ (Moved last count) (terminate ts) (terminate ts') := by
  have hreverse : List.Forall₂ (Moved last count) ts.reverse ts'.reverse := List.rel_reverse h
  unfold terminate
  rw [← List.head?_reverse, ← List.head?_reverse]
  generalize ts.reverse = rs, ts'.reverse = rs' at hreverse
  cases hreverse with
  | nil => exact h
  | @cons t t' _ _ ht _ =>
    simp only [List.head?_cons, ht.kind]
    split
    · exact List.rel_append h (.cons ⟨rfl, rfl, fun _ => rfl, ht.line⟩ .nil)
    · exact h

/-- The lines of lexemes and tokens go up. -/
theorem lines_of_cuts {p q : Progress Depth Symbol} {text rest : Bytes} {cuts : List (Cut Depth Symbol)}
    (h : scanner.Cuts p text cuts q rest) (hp : ∀ t ∈ p.tokens, t.line ≤ p.line) :
    p.line ≤ q.line ∧ (∀ t ∈ q.tokens, t.line ≤ q.line) ∧ ∀ c ∈ cuts, p.line ≤ c.before.line ∧ c.before.line ≤ q.line := by
  induction h with
  | nil => exact ⟨Nat.le_refl _, hp, List.forall_mem_nil _⟩
  | @cons c cuts q following rest hnext hcuts ih =>
    have hafter : c.before.line ≤ c.after.line := Nat.le_add_right _ _
    have htokens : ∀ t ∈ c.after.tokens, t.line ≤ c.after.line := by
      intro t ht
      rcases List.mem_append.mp ht with ht | ht
      · have hreact := hnext.react
        rw [Option.mem_toList.mp ht] at hreact
        have hline : t.line = c.before.line := line_of_react hreact
        omega
      · have := hp t ht
        omega
    obtain ⟨hle, htokens, hlines⟩ := ih htokens
    refine ⟨by omega, htokens, List.forall_mem_cons.mpr ⟨⟨Nat.le_refl _, by omega⟩, fun d hd => ?_⟩⟩
    obtain ⟨hle, hle'⟩ := hlines d hd
    exact ⟨by omega, hle'⟩

theorem eq_newlinePattern : ∀ p ∈ Lexicon.patterns, p.name = "newline" → p = newlinePattern := by
  unfold Lexicon.patterns
  simp only [List.forall_mem_cons]
  repeat' apply And.intro
  all_goals first
    | exact fun h => absurd h (by decide)
    | exact fun _ => rfl
    | exact List.forall_mem_nil _

/-- Over two ends of the line a scan gives the same but for the text of the newline. -/
theorem Passes.moved {p q q' : Progress Depth Symbol} (h : Passes p q) (h' : Passes p q') (hp : ∀ t ∈ p.tokens, t.line ≤ p.line)
    (count : Nat) : List.Forall₂ (Moved p.line count) q.tokens q'.tokens := by
  have hstays {t : Token Symbol} (ht : t.line ≤ p.line) : Moved p.line count t t :=
    ⟨rfl, rfl, fun _ => rfl, by rw [if_neg (by omega)]⟩
  have hbefore : List.Forall₂ (Moved p.line count) p.tokens p.tokens := List.forall₂_same.mpr fun t ht => hstays (hp t ht)
  obtain ⟨-, -, text, htokens⟩ := h
  obtain ⟨-, -, text', htokens'⟩ := h'
  rw [htokens, htokens']
  refine List.rel_append ?_ hbefore
  split
  · exact .cons ⟨rfl, rfl, fun hkind => absurd rfl hkind, (hstays (Int.le_refl _)).line⟩ .nil
  · exact .nil

/-- Blanks and a comment before the end of a line, and lines of such behind it, leave the tokens of a script as they are, but for
the texts of newlines; those of later lines are as many lines further down. -/
theorem tokenize_spaced {source : Bytes} {tokens : List (Token Symbol)} (h : tokenize source = .ok tokens)
    {before after : List Lexeme} {nl : Lexeme} (hlexemes : (scan source).lexemes = before ++ nl :: after)
    (hnl : nl.pattern = "newline") {fill : Bytes} (hfill : IsFill fill) {lines : List Bytes}
    (hlines : ∀ line ∈ lines, IsFillLine line) :
    source = before.flatMap Lexeme.text ++ (nl.text ++ after.flatMap Lexeme.text) ∧
    (∀ l ∈ before, l.line ≤ nl.line) ∧ (∀ l ∈ after, nl.line < l.line) ∧
    ∃ tokens', tokenize (before.flatMap Lexeme.text ++ (fill ++ (nl.text ++ (lines.flatten ++ after.flatMap Lexeme.text)))) =
        .ok tokens' ∧ List.Forall₂ (Moved nl.line lines.length) tokens tokens' := by
  obtain ⟨scanned, hscanned, rfl⟩ := exists_scanned h
  obtain ⟨cuts, q, hcuts, rfl⟩ := exists_cuts_of_outcome hscanned
  have hmap : cuts.map Cut.lexeme = before ++ nl :: after := by rw [← hlexemes]; exact hcuts.lexemes_eq.symm
  obtain ⟨front, others, rfl, rfl, hothers⟩ := List.map_eq_append_iff.mp hmap
  obtain ⟨c, back, rfl, rfl, rfl⟩ := List.map_eq_cons_iff.mp hothers
  have htexts (cuts : List (Cut Depth Symbol)) : (cuts.map Cut.lexeme).flatMap Lexeme.text = covered cuts := List.flatMap_map ..
  have htext : c.lexeme.text = c.text := rfl
  rw [htexts, htexts, htext]
  obtain ⟨hfront, hnext, hback⟩ := hcuts.at
  rw [List.append_nil] at hfront hnext hback
  have hpattern := eq_newlinePattern c.pattern hnext.matches.1 hnl
  have hend : IsLineEnd c.text := (pattern_eq_iff hnext).mp hpattern
  obtain ⟨-, hbelow, hfrontLines⟩ := lines_of_cuts hfront (List.forall_mem_nil _)
  have hpasses : Passes c.before c.after := by
    have hreact := hnext.react
    rw [hpattern, react_lineEnd] at hreact
    obtain ⟨hdata, htoken⟩ := Prod.mk.inj (Except.ok.inj hreact)
    refine ⟨hdata.symm, ?_, c.text, ?_⟩
    · rcases hend with htext | htext <;> rw [Cut.after, htext] <;> rfl
    · rw [Cut.after, ← htoken, Progress.advance]
      cases endsStatement c.before <;> rfl
  have hbackLines : ∀ d ∈ back, c.before.line < d.before.line := by
    intro d hd
    obtain ⟨-, hafter, -⟩ := lines_of_cuts (hfront.append (.cons hnext .nil)) (List.forall_mem_nil _)
    have hle := ((lines_of_cuts hback hafter).2.2 d hd).1
    rw [hpasses.2.1] at hle
    exact hle
  obtain ⟨frontCuts, r, spacing, hfrontCuts, hsame, hspacing⟩ := cuts_front hfront (hend.stopsFirst (covered back))
    (hfill.stopsFirst (hend.stopsFirst (lines.flatten ++ covered back)))
  obtain ⟨fill', hfill', heq⟩ := (hspacing fill hfill).exists_newline hend
  obtain ⟨lineCuts, r', hlineCuts, hpasses'⟩ := cuts_fill hfill' r (lines.flatten ++ covered back)
  obtain ⟨linesCuts, r'', hlinesCuts, hdata, htokens, hline⟩ :=
    cuts_lines hlines r' hpasses'.endsStatement_eq_false (covered back)
  have hpasses' := hpasses'.of_sameState hsame
  have hfollows : Follows c.before.line lines.length c.after r'' := by
    refine ⟨?_, ?_, ?_, ?_⟩
    · rw [hdata, hpasses'.1, hpasses.1]
    · rw [htokens]
      exact hpasses.moved hpasses' hbelow lines.length
    · rw [hline, hpasses'.2.1, hpasses.2.1]
    · rw [hpasses.2.1]
      exact Nat.lt_succ_self _
  obtain ⟨backCuts, q', hbackCuts, hq⟩ := cuts_behind hback hfollows
  have htext' : spacing ++ (fill ++ (c.text ++ (lines.flatten ++ covered back))) =
      fill' ++ 10 :: (lines.flatten ++ covered back) := by
    rw [← List.append_assoc, ← List.append_assoc, heq, List.append_assoc]
    rfl
  rw [htext'] at hfrontCuts
  have hall := hfrontCuts.append (hlineCuts.append (hlinesCuts.append hbackCuts))
  refine ⟨?_, fun l hl => ?_, fun l hl => ?_, terminate q'.tokens.reverse, ?_, moved_terminate ?_⟩
  · simpa [covered] using hcuts.text_eq
  · obtain ⟨d, hd, rfl⟩ := List.mem_map.mp hl
    exact (hfrontLines d hd).2
  · obtain ⟨d, hd, rfl⟩ := List.mem_map.mp hl
    exact hbackLines d hd
  · rw [tokenize, scan, hall.outcome_eq, ← hall.tokens_eq]
    rfl
  · rw [← hcuts.tokens_eq]
    exact List.rel_reverse hq.tokens

/-- A comment and two more lines between two statements. -/
theorem tokenize_spaced_lines : ∃ tokens tokens', tokenize "a\nb\n" = .ok tokens ∧ tokens.map (·.line) = [1, 1, 2, 2] ∧
    tokenize "a # x\n\t\n#y\r\nb\n" = .ok tokens' ∧ List.Forall₂ (Moved 1 2) tokens tokens' := by
  have htokens : tokenize "a\nb\n" =
      .ok [⟨.ident, "a", none, 1⟩, ⟨.newline, "\n", none, 1⟩, ⟨.ident, "b", none, 2⟩, ⟨.newline, "\n", none, 2⟩] :=
    tokenize_eq_ok (by decide)
  have hlexemes : (scan "a\nb\n").lexemes =
      [⟨"name", "a", 1⟩] ++ ⟨"newline", "\n", 1⟩ :: [⟨"name", "b", 2⟩, ⟨"newline", "\n", 2⟩] := by decide
  have hfill : IsFill " # x" := ⟨" ", "# x", rfl, List.all_eq_true.mp rfl, .inr ⟨" x", rfl, by decide⟩⟩
  have hlines : ∀ line ∈ (["\t\n", "#y\r\n"] : List Bytes), IsFillLine line := by
    rw [List.forall_mem_cons, List.forall_mem_singleton]
    exact ⟨⟨"\t", "\n", rfl, ⟨"\t", [], rfl, List.all_eq_true.mp rfl, .inl rfl⟩, .inl rfl⟩,
      ⟨"#y", "\r\n", rfl, ⟨[], "#y", rfl, nofun, .inr ⟨"y", rfl, by decide⟩⟩, .inr rfl⟩⟩
  obtain ⟨-, -, -, tokens', htokens', hmoved⟩ := tokenize_spaced htokens hlexemes rfl hfill hlines
  have hsource : ([⟨"name", "a", 1⟩] : List Lexeme).flatMap Lexeme.text ++ (Bytes.ofString " # x" ++ (Bytes.ofString "\n" ++
      (([Bytes.ofString "\t\n", Bytes.ofString "#y\r\n"] : List Bytes).flatten ++
        ([⟨"name", "b", 2⟩, ⟨"newline", "\n", 2⟩] : List Lexeme).flatMap Lexeme.text))) = "a # x\n\t\n#y\r\nb\n" := by decide
  exact ⟨_, tokens', htokens, rfl, hsource ▸ htokens', hmoved⟩

end IrafCl.Script
