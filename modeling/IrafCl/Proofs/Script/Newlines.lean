import IrafCl.Proofs.Script.Lexemes

/-!
# The newlines among the tokens

The end of a line is a lexeme of a script like any other (`pattern_eq_iff`). It gives a token where a statement may end: outside
brackets, and behind a token that can be the last of a statement (`newline_iff`). The handlers keep a depth for this, and a scan
has its last token at hand; both are what the tokens before say (`data_eq_of_cuts`, `newline_iff_given`). Once the text is
through, a list that has not ended its statement is closed by one more newline, whatever brackets are open (`terminate_eq`).
-/

namespace IrafCl.Script

open Scanner

/-! ## Depth and ends of statements -/

/-- The kinds of tokens that cannot end a statement, or have ended it already. -/
def unended : List Symbol := [.newline, .semi, .lbrace, .comma, .pipe, .kwElse, .kwBegin]

theorem newlineEnds_iff {kind : Symbol} : newlineEnds kind = true ↔ kind ∉ unended := by
  cases kind <;> decide

/-- The tokens end in one that can end a statement. -/
def MayEnd (ts : List (Token Symbol)) : Prop := ∃ last ∈ ts.getLast?, last.kind ∉ unended

/-- The kinds of brackets that may span lines. -/
def brackets : List Symbol := [.lparen, .lbracket, .rparen, .rbracket]

/-- The bracket depth behind a token. A bracket that closes nothing does not count. -/
def depthStep (depth : Nat) (t : Token Symbol) : Nat :=
  match t.kind with
  | .lparen | .lbracket => depth + 1
  | .rparen | .rbracket => depth - 1
  | _ => depth

theorem depthStep_of_notMem {t : Token Symbol} (h : t.kind ∉ brackets) (depth : Nat) : depthStep depth t = depth := by
  unfold depthStep
  split <;> simp_all [brackets]

/-- The bracket depth behind some tokens. -/
def depthAfter (ts : List (Token Symbol)) : Nat := ts.foldl depthStep 0

/-- The end of a line. -/
def IsLineEnd (text : Bytes) : Prop := text = "\n" ∨ text = "\r\n"

theorem isLineEnd_of_matches {text : Bytes} (h : Lexicon.lineEnd.Matches text) : IsLineEnd text := by
  obtain ⟨x, y, rfl, hx, hy⟩ := h.of_seq
  rw [hy.char (by decide)]
  rcases hx.of_opt with rfl | hx
  · exact .inl rfl
  · rw [hx.char (by decide)]
    exact .inr rfl

/-! ## What the patterns do -/

/-- A pattern leaves the bracket depth behind its token. -/
def KeepsDepth (p : Pattern Depth Symbol) : Prop :=
  ∀ (m : Moment Depth Symbol) (text : Bytes) (data : Depth) (token : Option (Token Symbol)),
    react p m text = .ok (data, token) → data = token.toList.foldl depthStep m.data

section
variable {name : Bytes} {regex : Regex} {kind : Symbol}

theorem keepsDepth_skip : KeepsDepth ⟨name, regex, none, false⟩ := by
  intro m text data token h
  cases h
  rfl

theorem keepsDepth_emit (hkind : kind ∉ brackets) : KeepsDepth ⟨name, regex, some (emit kind), false⟩ := by
  intro m text data token h
  cases h
  exact (depthStep_of_notMem hkind _).symm

theorem keepsDepth_openBracket (hkind : ∀ depth text line, depthStep depth ⟨kind, text, none, line⟩ = depth + 1) :
    KeepsDepth ⟨name, regex, some (openBracket kind), false⟩ := by
  intro m text data token h
  cases h
  exact (hkind ..).symm

theorem keepsDepth_closeBracket (hkind : ∀ depth text line, depthStep depth ⟨kind, text, none, line⟩ = depth - 1) :
    KeepsDepth ⟨name, regex, some (closeBracket kind), false⟩ := by
  intro m text data token h
  cases h
  exact (hkind ..).symm

theorem keepsDepth_quotedString : KeepsDepth ⟨name, regex, some quotedString, false⟩ := by
  intro m text data token h
  cases h
  rfl

theorem keepsDepth_endOfLine : KeepsDepth ⟨name, regex, some endOfLine, false⟩ := by
  intro m text data token h
  simp only [react, endOfLine] at h
  split at h <;> (cases h; rfl)

/-- No word is a bracket. -/
theorem keepsDepth_word : KeepsDepth ⟨name, regex, some word, false⟩ := by
  have hkinds : ∀ kind ∈ keywordKinds, kind ∉ brackets := by decide
  intro m text data token h
  simp only [react, word, Except.map] at h
  cases h
  split
  · next kind hkind =>
    exact (depthStep_of_notMem (hkinds kind (mem_keywordKinds hkind)) _).symm
  · split <;> rfl

end

theorem keepsDepth : ∀ p ∈ Lexicon.patterns, KeepsDepth p := by
  unfold Lexicon.patterns
  simp only [List.forall_mem_cons]
  repeat' apply And.intro
  all_goals first
    | exact keepsDepth_emit (by decide)
    | exact keepsDepth_openBracket fun _ _ _ => rfl
    | exact keepsDepth_closeBracket fun _ _ _ => rfl
    | exact keepsDepth_endOfLine
    | exact keepsDepth_quotedString
    | exact keepsDepth_word
    | exact keepsDepth_skip
    | exact List.forall_mem_nil _

/-- The pattern of the end of a line. -/
def newlinePattern : Pattern Depth Symbol := ⟨"newline", Lexicon.lineEnd, some endOfLine, false⟩

/-- Only the end of a line gives a newline. -/
theorem eq_newlinePattern_or_emits :
    ∀ p ∈ Lexicon.patterns, p = newlinePattern ∨ Emits (fun t => t.kind ≠ .newline) p := by
  have hkinds : ∀ kind ∈ keywordKinds, kind ≠ .newline := by decide
  unfold Lexicon.patterns
  simp only [List.forall_mem_cons]
  repeat' apply And.intro
  all_goals first
    | exact .inr (emits_plain fun _ _ => nofun)
    | exact .inr (emits_openBracket fun _ _ => nofun)
    | exact .inr (emits_closeBracket fun _ _ => nofun)
    | exact .inr (emits_quotedString fun _ _ _ => nofun)
    | exact .inr (emits_word (fun _ kind _ h => hkinds kind (mem_keywordKinds h)) (fun _ _ _ => nofun) fun _ _ _ => nofun)
    | exact .inr emits_skip
    | exact List.forall_mem_nil _
    | exact .inl rfl

theorem react_newlinePattern {m : Moment Depth Symbol} {text : Bytes} {data : Depth} {token : Option (Token Symbol)}
    (h : react newlinePattern m text = .ok (data, token)) :
    (∃ t, token = some t ∧ t.kind = .newline) ↔ (∃ last ∈ m.last, last.kind ∉ unended) ∧ m.data = 0 := by
  have hends : (decide (m.data = 0) && m.last.any fun t => newlineEnds t.kind) = true ↔
      (∃ last ∈ m.last, last.kind ∉ unended) ∧ m.data = 0 := by
    simp only [Bool.and_eq_true, decide_eq_true_eq, Option.any_eq_true, newlineEnds_iff, Option.mem_def, and_comm]
  rw [← hends]
  simp only [react, newlinePattern, endOfLine] at h
  split at h
  · next hends =>
    cases h
    exact ⟨fun _ => hends, fun _ => ⟨_, rfl, rfl⟩⟩
  · next hends =>
    cases h
    constructor
    · rintro ⟨t, ht, -⟩
      cases ht
    · exact fun h => absurd h hends

theorem exists_lexeme?_of_isLineEnd {text : Bytes} (h : IsLineEnd text) (following : Bytes) :
    ∃ n, lexeme? Lexicon.patterns (text ++ following) = some (newlinePattern, n) := by
  rcases h with rfl | rfl
  · exact ⟨_, rfl⟩
  · exact ⟨_, rfl⟩

/-! ## What the lexemes do -/

section
variable {c : Cut Depth Symbol} {p q : Progress Depth Symbol} {text following rest : Bytes} {cuts : List (Cut Depth Symbol)}

theorem pattern_eq_iff (h : c.IsNext scanner following) : c.pattern = newlinePattern ↔ IsLineEnd c.text := by
  constructor
  · intro hpattern
    have hmatch := h.matches.2
    rw [hpattern] at hmatch
    exact isLineEnd_of_matches hmatch
  · intro htext
    obtain ⟨n, hn⟩ := exists_lexeme?_of_isLineEnd htext following
    have hlexeme : lexeme? Lexicon.patterns (c.text ++ following) = some (c.pattern, c.text.length) := h.lexeme?
    rw [hn, Option.some_inj, Prod.mk.injEq] at hlexeme
    exact hlexeme.1.symm

/-- A lexeme gives a newline if it is the end of a line, what comes before may end a statement and no bracket is open. -/
theorem newline_iff (h : c.IsNext scanner following) : (∃ t, c.token = some t ∧ t.kind = .newline) ↔
    IsLineEnd c.text ∧ (∃ last ∈ c.before.tokens.head?, last.kind ∉ unended) ∧ c.before.data = 0 := by
  rw [← pattern_eq_iff h]
  have hreact := h.react
  constructor
  · rintro ⟨t, ht, hkind⟩
    rcases eq_newlinePattern_or_emits _ h.matches.1 with hpattern | hemits
    · rw [hpattern] at hreact
      exact ⟨hpattern, (react_newlinePattern hreact).mp ⟨t, ht, hkind⟩⟩
    · rw [ht] at hreact
      exact absurd hkind (hemits _ _ _ _ h.matches.2 hreact)
  · rintro ⟨hpattern, hends⟩
    rw [hpattern] at hreact
    exact (react_newlinePattern hreact).mpr hends

/-- The depth that a scan of a script keeps is that behind its tokens. -/
theorem data_eq_of_cuts (h : scanner.Cuts p text cuts q rest) : q.data = (given cuts).foldl depthStep p.data := by
  induction h with
  | nil => rfl
  | @cons c cuts q following rest hnext hcuts ih =>
    have hdata := keepsDepth _ hnext.matches.1 _ _ _ _ hnext.react
    rw [ih]
    show (given cuts).foldl depthStep c.data = _
    rw [hdata, ← List.foldl_append, given, given, List.filterMap_cons]
    cases c.token <;> rfl

/-- A lexeme of a script gives a newline if it is the end of a line where a statement may end outside brackets. -/
theorem newline_iff_given {before after : List (Cut Depth Symbol)} {source : Bytes}
    (h : scanner.Cuts ⟨0, [], 1, 0⟩ source (before ++ c :: after) q rest) : (∃ t, c.token = some t ∧ t.kind = .newline) ↔
    IsLineEnd c.text ∧ MayEnd (given before) ∧ depthAfter (given before) = 0 := by
  obtain ⟨hbefore, hnext, -⟩ := h.at
  have htokens : c.before.tokens.head? = (given before).getLast? := by
    rw [← hbefore.tokens_eq, List.getLast?_reverse]
  rw [newline_iff hnext, htokens, data_eq_of_cuts hbefore]
  rfl

/-- So it is with the newlines that a scan gives. -/
theorem mayEnd_of_given {before after : List (Token Symbol)} {t : Token Symbol} {source : Bytes}
    (h : scanner.Cuts ⟨0, [], 1, 0⟩ source cuts q rest) (hgiven : given cuts = before ++ t :: after)
    (hkind : t.kind = .newline) : MayEnd before ∧ depthAfter before = 0 := by
  obtain ⟨earlier, c, later, rfl, rfl, hc⟩ := exists_cut_of_given hgiven
  exact ((newline_iff_given h).mp ⟨t, hc, hkind⟩).2

end

/-! ## The closed list -/

/-- A list is closed by a newline if it may end there. -/
theorem terminate_eq (ts : List (Token Symbol)) : terminate ts = ts ∧ ¬ MayEnd ts ∨
    MayEnd ts ∧ ∃ line, terminate ts = ts ++ [⟨.newline, "\n", none, line⟩] := by
  unfold terminate MayEnd
  cases ts.getLast? with
  | none => exact .inl ⟨rfl, nofun⟩
  | some last =>
    dsimp only
    by_cases hends : newlineEnds last.kind = true
    · rw [if_pos hends]
      exact .inr ⟨⟨last, rfl, newlineEnds_iff.mp hends⟩, _, rfl⟩
    · rw [if_neg hends]
      refine .inl ⟨rfl, ?_⟩
      rintro ⟨_, ⟨⟩, hkind⟩
      exact hends (newlineEnds_iff.mpr hkind)

theorem exists_scanned {source : Bytes} {tokens : List (Token Symbol)} (h : tokenize source = .ok tokens) :
    ∃ scanned, (scan source).outcome = .ok scanned ∧ tokens = terminate scanned := by
  unfold tokenize at h
  cases houtcome : (scan source).outcome with
  | error halt =>
    rw [houtcome] at h
    cases h
  | ok scanned =>
    rw [houtcome] at h
    cases h
    exact ⟨scanned, rfl, rfl⟩

/-- Of the tokens of a script none is a newline that comes first, or right behind one that cannot end a statement or has ended
it already. The last token, if there is one, has ended a statement or cannot end one. But for one newline that may close the
list the tokens come from lexemes, and of these the end of a line gives a newline where a statement may end and no bracket is
open, and nothing else does. -/
theorem newlines_of_tokenize {source : Bytes} {tokens : List (Token Symbol)} (h : tokenize source = .ok tokens) :
    (∀ before t after, tokens = before ++ t :: after → t.kind = .newline → MayEnd before) ∧
    (∀ last ∈ tokens.getLast?, last.kind ∈ unended) ∧
    ∃ (cuts : List (Cut Depth Symbol)) (q : Progress Depth Symbol) (closing : List (Token Symbol)),
      scanner.Cuts ⟨0, [], 1, 0⟩ source cuts q [] ∧ tokens = given cuts ++ closing ∧
      (closing = [] ∨ ∃ line, closing = [⟨.newline, "\n", none, line⟩]) ∧
      (∀ before t after, given cuts = before ++ t :: after → t.kind = .newline → depthAfter before = 0) ∧
      ∀ before c after, cuts = before ++ c :: after →
        ((∃ t, c.token = some t ∧ t.kind = .newline) ↔
          IsLineEnd c.text ∧ MayEnd (given before) ∧ depthAfter (given before) = 0) := by
  obtain ⟨scanned, hscanned, rfl⟩ := exists_scanned h
  obtain ⟨cuts, q, hcuts, rfl⟩ := exists_cuts_of_outcome hscanned
  have hgiven : ∀ before t after, given cuts = before ++ t :: after → t.kind = .newline →
      MayEnd before ∧ depthAfter before = 0 := fun before t after heq hkind => mayEnd_of_given hcuts heq hkind
  have hlexemes : ∀ before c after, cuts = before ++ c :: after → ((∃ t, c.token = some t ∧ t.kind = .newline) ↔
      IsLineEnd c.text ∧ MayEnd (given before) ∧ depthAfter (given before) = 0) := by
    rintro before c after rfl
    exact newline_iff_given hcuts
  rcases terminate_eq (given cuts) with ⟨heq, hend⟩ | ⟨hend, line, heq⟩
  · rw [heq]
    refine ⟨fun before t after heq hkind => (hgiven before t after heq hkind).1, fun last hlast => ?_,
      cuts, q, [], hcuts, (List.append_nil _).symm, .inl rfl, fun before t after heq hkind =>
        (hgiven before t after heq hkind).2, hlexemes⟩
    by_contra hkind
    exact hend ⟨last, hlast, hkind⟩
  · rw [heq]
    refine ⟨fun before t after heq hkind => ?_, fun last hlast => ?_, cuts, q, _, hcuts, rfl, .inr ⟨line, rfl⟩,
      fun before t after heq hkind => (hgiven before t after heq hkind).2, hlexemes⟩
    · -- the closing newline stands behind all other tokens
      rcases List.eq_nil_or_concat' after with rfl | ⟨after, last, rfl⟩
      · obtain ⟨rfl, -⟩ := List.append_inj' heq rfl
        exact hend
      · rw [← List.cons_append, ← List.append_assoc] at heq
        exact (hgiven before t after (List.append_inj' heq rfl).1 hkind).1
    · rw [List.getLast?_concat] at hlast
      cases hlast
      exact List.mem_cons_self

/-- The tokens of two lines with an empty one between them, where the second leaves a bracket open. -/
def unclosedLines : List (Token Symbol) := [⟨.ident, "a", none, 1⟩, ⟨.newline, "\n", none, 1⟩, ⟨.lparen, "(", none, 3⟩,
  ⟨.ident, "b", none, 3⟩, ⟨.newline, "\n", none, 3⟩]

/-- An empty line gives no newline, nor does the end of a line inside a bracket; but one closes the list. -/
theorem newlines_of_tokenize_unclosed : tokenize "a\n\n(b\n" = .ok unclosedLines ∧
    ∃ (cuts : List (Cut Depth Symbol)) (q : Progress Depth Symbol),
      scanner.Cuts ⟨0, [], 1, 0⟩ "a\n\n(b\n" cuts q [] ∧ given cuts = unclosedLines.dropLast := by
  have htokens : tokenize "a\n\n(b\n" = .ok unclosedLines := tokenize_eq_ok (by decide +kernel)
  obtain ⟨-, -, cuts, q, closing, hcuts, heq, hclosing, hdepth, -⟩ := newlines_of_tokenize htokens
  refine ⟨htokens, cuts, q, hcuts, ?_⟩
  rcases hclosing with rfl | ⟨line, rfl⟩
  · -- the last newline would stand inside the bracket
    rw [List.append_nil] at heq
    exact absurd (hdepth unclosedLines.dropLast ⟨.newline, "\n", none, 3⟩ [] heq.symm rfl) (by decide)
  · rw [heq, List.dropLast_concat]

end IrafCl.Script
