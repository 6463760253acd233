import IrafCl.Proofs.Pattern.Matching

/-!
# How a scan goes

A scan cuts its text into lexemes, one after the other, and stops at some place (`Cuts`, `Stops`); every scan is accounted
for in this way (`exists_cuts`). So the lexemes and what is left are together the text (`Cuts.text_eq`), and what the scan
knows when it comes to a lexeme is what the lexemes before it say: the offset is their length, the line one more than the
newlines in them, and the tokens are those they gave (`Cuts.progress_eq`). The first pattern that matches is the match of all
patterns as one alternation (`alternation_of_lexeme?`), so a scan stops for want of a lexeme exactly where that has no
match or an empty one. All this comes together in `scan_cuts`. A scan gives only such tokens as its patterns do (`scan_ends`).
-/

namespace IrafCl

/-! ## Patterns as one expression -/

theorem Regex.matchLength?_alt (a b : Regex) (text : Bytes) :
    (Regex.alt a b).matchLength? text = (a.matchLength? text).or (b.matchLength? text) := by
  simp only [matchLength?, ends, List.head?_append]
  cases (a.ends ⟨none, text⟩).head? <;> rfl

namespace Scanner

variable {σ κ : Type}

/-- The patterns of a scanner as one expression, in which the first that matches counts. -/
def alternation (s : Scanner σ κ) : Regex := .choice (s.patterns.map (·.regex))

theorem map_lexeme? {p : Pattern σ κ} {ps : List (Pattern σ κ)} {text : Bytes} :
    (lexeme? (p :: ps) text).map (·.2) = (Regex.choice ((p :: ps).map (·.regex))).matchLength? text := by
  induction ps generalizing p with
  | nil =>
    rw [lexeme?]
    simp only [List.map_cons, List.map_nil, Regex.choice]
    cases p.regex.matchLength? text <;> rfl
  | cons q ps ih =>
    rw [lexeme?, List.map_cons, List.map_cons, Regex.choice, Regex.matchLength?_alt, ← List.map_cons, ← ih]
    · cases p.regex.matchLength? text <;> rfl
    · exact List.cons_ne_nil _ _

theorem alternation_of_lexeme? {s : Scanner σ κ} {text : Bytes} {p : Pattern σ κ} {n : Nat}
    (h : lexeme? s.patterns text = some (p, n)) : s.alternation.matchLength? text = some n := by
  unfold alternation
  cases hpatterns : s.patterns with
  | nil =>
    rw [hpatterns] at h
    cases h
  | cons q qs =>
    rw [hpatterns] at h
    rw [← map_lexeme?, h]
    rfl

/-- Where no pattern matches the alternation has no match either, unless there are no patterns at all. -/
theorem alternation_of_lexeme?_eq_none {s : Scanner σ κ} {text : Bytes} (h : lexeme? s.patterns text = none) :
    s.alternation.matchLength? text = none ∨ s.alternation.matchLength? text = some 0 := by
  unfold alternation
  cases hpatterns : s.patterns with
  | nil =>
    right
    simp [Regex.choice, Regex.matchLength?, Regex.ends]
  | cons q qs =>
    rw [hpatterns] at h
    left
    rw [← map_lexeme?, h]
    rfl

/-! ## Lexemes of a scan -/

/-- A lexeme of a scan: what was known before it, the pattern that took it, and what that made of it. -/
structure Cut (σ κ : Type) where
  before : Progress σ κ
  pattern : Pattern σ κ
  text : Bytes
  data : σ
  token : Option (Token κ)

namespace Cut

def after (c : Cut σ κ) : Progress σ κ := c.before.advance c.text c.data c.token

/-- The lexeme as the log shows it. -/
def lexeme (c : Cut σ κ) : Lexeme := ⟨c.pattern.name, c.text, c.before.line⟩

/-- The lexeme is the one that stands at the front of its text and what follows. -/
structure IsNext (s : Scanner σ κ) (c : Cut σ κ) (following : Bytes) : Prop where
  lexeme? : lexeme? s.patterns (c.text ++ following) = some (c.pattern, c.text.length)
  ne_nil : c.text ≠ []
  not_shadowed : c.pattern.shadowed = false
  react : react c.pattern c.before.moment c.text = .ok (c.data, c.token)

end Cut

/-- The text that lexemes cover. -/
def covered (cuts : List (Cut σ κ)) : Bytes := cuts.flatMap Cut.text

/-- The tokens that lexemes gave. -/
def given (cuts : List (Cut σ κ)) : List (Token κ) := cuts.filterMap Cut.token

/-- A scan with progress `p` at the front of `text` comes by the given lexemes to progress `q` at the front of `rest`. -/
inductive Cuts (s : Scanner σ κ) : Progress σ κ → Bytes → List (Cut σ κ) → Progress σ κ → Bytes → Prop where
  | nil {p : Progress σ κ} {text : Bytes} : Cuts s p text [] p text
  | cons {c : Cut σ κ} {cuts : List (Cut σ κ)} {q : Progress σ κ} {following rest : Bytes} (hnext : c.IsNext s following)
      (hcuts : Cuts s c.after following cuts q rest) : Cuts s c.before (c.text ++ following) (c :: cuts) q rest

/-- Why a scan goes no further. -/
inductive Ending where
  | textEnd
  | unmatched
  | refused (message : Bytes)
  | disowned

/-- Whether a scan goes no further at the front of a text: there is none left, there is no lexeme, the handler of its pattern
refuses the lexeme, or its pattern has lost its name. -/
inductive Stops (s : Scanner σ κ) (p : Progress σ κ) : Bytes → Ending → Prop where
  | textEnd : Stops s p [] .textEnd
  | unmatched {rest : Bytes} (hne : rest ≠ [])
      (h : s.alternation.matchLength? rest = none ∨ s.alternation.matchLength? rest = some 0) : Stops s p rest .unmatched
  | refused {pattern : Pattern σ κ} {text following message : Bytes}
      (hlexeme : lexeme? s.patterns (text ++ following) = some (pattern, text.length)) (hne : text ≠ [])
      (howned : pattern.shadowed = false) (hreact : react pattern p.moment text = .error message) :
      Stops s p (text ++ following) (.refused message)
  | disowned {pattern : Pattern σ κ} {text following : Bytes}
      (hlexeme : lexeme? s.patterns (text ++ following) = some (pattern, text.length)) (hne : text ≠ [])
      (hshadowed : pattern.shadowed = true) : Stops s p (text ++ following) .disowned

/-- What a scan answers that goes no further at the front of a text. -/
def Ending.outcome (p : Progress σ κ) (rest : Bytes) : Ending → Except Halt (List (Token κ))
  | .textEnd => .ok p.tokens.reverse
  | .unmatched => .error (.failure (.atLine .lexical p.line (noLexeme p.offset rest)))
  | .refused message => .error (.failure (.atLine .lexical p.line message))
  | .disowned => .error (.violation (.broken .invariant "a match must belong to some pattern"))

section
variable {s : Scanner σ κ} {p q : Progress σ κ} {text rest : Bytes} {cuts before after : List (Cut σ κ)} {c : Cut σ κ}

theorem scanAfter_eq_drop (s : Scanner σ κ) (skip : Nat) (p : Progress σ κ) (text : Bytes) :
    s.scanAfter skip p text = s.scanAfter 0 p (text.drop skip) := by
  induction text generalizing skip with
  | nil => cases skip <;> simp [scanAfter]
  | cons b rest ih =>
    cases skip with
    | zero => rfl
    | succ skip => rw [scanAfter, ih, List.drop_succ_cons]

/-- A match is no longer than the text. -/
theorem le_length_of_lexeme? {ps : List (Pattern σ κ)} {text : Bytes} {p : Pattern σ κ} {n : Nat}
    (h : lexeme? ps text = some (p, n)) : n ≤ text.length := by
  induction ps with
  | nil => cases h
  | cons q ps ih =>
    rw [lexeme?] at h
    split at h
    · next m hm =>
      cases h
      obtain ⟨c, -, rfl⟩ := Option.map_eq_some_iff.mp hm
      exact Nat.sub_le _ _
    · exact ih h

/-- A lexeme is matched by its pattern. -/
theorem Cut.IsNext.matches {following : Bytes} (h : c.IsNext s following) :
    c.pattern ∈ s.patterns ∧ c.pattern.regex.Matches c.text := by
  have hmatch := matches_of_lexeme? h.lexeme?
  rwa [List.take_left] at hmatch

/-- Every scan cuts its text into lexemes up to where it stops. -/
theorem exists_cuts (s : Scanner σ κ) (p : Progress σ κ) (text : Bytes) :
    ∃ cuts q rest ending, s.Cuts p text cuts q rest ∧ s.Stops q rest ending ∧
      s.scanAfter 0 p text = ⟨cuts.map Cut.lexeme, ending.outcome q rest⟩ := by
  -- the text behind a lexeme is shorter
  induction hlength : text.length using Nat.strongRecOn generalizing p text with
  | ind length ih =>
    subst hlength
    cases text with
    | nil => exact ⟨[], p, [], .textEnd, .nil, .textEnd, by simp [scanAfter, Ending.outcome]⟩
    | cons b tail =>
      rw [scanAfter]
      split
      · next h =>
        exact ⟨[], p, b :: tail, .unmatched, .nil, .unmatched (List.cons_ne_nil _ _) (alternation_of_lexeme?_eq_none h), rfl⟩
      · next pattern h =>
        exact ⟨[], p, b :: tail, .unmatched, .nil,
          .unmatched (List.cons_ne_nil _ _) (.inr (alternation_of_lexeme? h)), rfl⟩
      · next pattern n h =>
        have hle := le_length_of_lexeme? h
        have hlength : ((b :: tail).take (n + 1)).length = n + 1 := by rw [List.length_take]; omega
        have htext : b :: tail = (b :: tail).take (n + 1) ++ tail.drop n := by
          rw [← List.drop_succ_cons (a := b), List.take_append_drop]
        have hlexeme : lexeme? s.patterns ((b :: tail).take (n + 1) ++ tail.drop n) =
            some (pattern, ((b :: tail).take (n + 1)).length) := by rw [← htext, hlength, h]
        have hne : (b :: tail).take (n + 1) ≠ [] := by simp
        split
        · next hshadowed =>
          refine ⟨[], p, b :: tail, .disowned, .nil, ?_, rfl⟩
          rw [htext]
          exact .disowned hlexeme hne hshadowed
        · next howned =>
          have howned : pattern.shadowed = false := Bool.eq_false_iff.mpr howned
          dsimp only
          split
          · next message hreact =>
            refine ⟨[], p, b :: tail, .refused message, .nil, ?_, rfl⟩
            rw [htext]
            exact .refused hlexeme hne howned hreact
          · next data token hreact =>
            let c : Cut σ κ := ⟨p, pattern, (b :: tail).take (n + 1), data, token⟩
            have hshorter : (tail.drop n).length < (b :: tail).length := by
              rw [List.length_drop, List.length_cons]
              omega
            obtain ⟨cuts, q, rest, ending, hcuts, hstops, hscan⟩ := ih _ hshorter c.after (tail.drop n) rfl
            refine ⟨c :: cuts, q, rest, ending, ?_, hstops, ?_⟩
            · rw [htext]
              exact .cons (c := c) ⟨hlexeme, hne, howned, hreact⟩ hcuts
            · rw [scanAfter_eq_drop]
              show (s.scanAfter 0 c.after (tail.drop n)).after c.lexeme = _
              rw [hscan]
              rfl

/-- A lexeme at the front of the text is the first. -/
theorem Cuts.step {pattern : Pattern σ κ} {following : Bytes} {data : σ} {token : Option (Token κ)}
    (hlexeme : lexeme? s.patterns (text ++ following) = some (pattern, text.length)) (hne : text ≠ [])
    (howned : pattern.shadowed = false) (hreact : react pattern p.moment text = .ok (data, token))
    (hmore : s.Cuts (p.advance text data token) following cuts q rest) :
    s.Cuts p (text ++ following) (⟨p, pattern, text, data, token⟩ :: cuts) q rest :=
  .cons (c := ⟨p, pattern, text, data, token⟩) ⟨hlexeme, hne, howned, hreact⟩ hmore

/-- What lexemes a scan comes by settles how it goes on. -/
theorem Cuts.scanAfter_eq (h : s.Cuts p text cuts q rest) : s.scanAfter 0 p text =
    ⟨cuts.map Cut.lexeme ++ (s.scanAfter 0 q rest).lexemes, (s.scanAfter 0 q rest).outcome⟩ := by
  induction h with
  | nil => rfl
  | @cons c cuts q following rest hnext hcuts ih =>
    obtain ⟨b, tail, htext⟩ := List.exists_cons_of_ne_nil hnext.ne_nil
    have hlexeme := hnext.lexeme?
    have hreact := hnext.react
    rw [htext, List.length_cons, List.cons_append] at hlexeme
    rw [htext] at hreact
    rw [htext, List.cons_append, scanAfter, hlexeme]
    simp only [hnext.not_shadowed, List.take_succ_cons, List.take_left, hreact]
    rw [scanAfter_eq_drop, List.drop_left]
    have hafter : c.before.advance (b :: tail) c.data c.token = c.after := by rw [← htext]; rfl
    rw [hafter, ih, ← htext]
    rfl

theorem Cuts.append {p q r : Progress σ κ} {text following rest : Bytes} {first second : List (Cut σ κ)}
    (h : s.Cuts p text first q following) (h' : s.Cuts q following second r rest) :
    s.Cuts p text (first ++ second) r rest := by
  induction h with
  | nil => exact h'
  | cons hnext _ ih => exact .cons hnext (ih h')

/-! ## What the lexemes of a scan say -/

/-- A scan can be taken apart before any of its lexemes. -/
theorem Cuts.split (h : s.Cuts p text (before ++ after) q rest) :
    ∃ r following, s.Cuts p text before r following ∧ s.Cuts r following after q rest := by
  induction before generalizing p text with
  | nil => exact ⟨p, text, .nil, h⟩
  | cons c before ih =>
    cases h with
    | cons hnext hcuts =>
      obtain ⟨r, following, hbefore, hafter⟩ := ih hcuts
      exact ⟨r, following, .cons hnext hbefore, hafter⟩

/-- The lexemes and what is left are together the text. -/
theorem Cuts.text_eq (h : s.Cuts p text cuts q rest) : text = covered cuts ++ rest := by
  induction h with
  | nil => rfl
  | cons _ _ ih => rw [covered, List.flatMap_cons, List.append_assoc, ih]; rfl

/-- What a scan knows comes from the lexemes, but for the data of its handlers. -/
theorem Cuts.progress_eq (h : s.Cuts p text cuts q rest) :
    q = ⟨q.data, (given cuts).reverse ++ p.tokens, p.line + (covered cuts).newlines,
      p.offset + (covered cuts).length⟩ := by
  induction h with
  | nil => rfl
  | @cons c cuts q following rest hnext hcuts ih =>
    rw [ih]
    simp only [Cut.after, Progress.advance, given, covered, Bytes.newlines, List.flatMap_cons, List.count_append,
      List.length_append, List.filterMap_cons, Progress.mk.injEq, true_and]
    refine ⟨?_, by omega, by omega⟩
    cases c.token <;> simp

/-- Before a lexeme a scan knows what the lexemes before say, and behind it stands what the lexemes after cover. -/
theorem Cuts.at (h : s.Cuts p text (before ++ c :: after) q rest) :
    s.Cuts p text before c.before (c.text ++ (covered after ++ rest)) ∧ c.IsNext s (covered after ++ rest) ∧
      s.Cuts c.after (covered after ++ rest) after q rest := by
  obtain ⟨r, following, hbefore, hafter⟩ := h.split
  cases hafter with
  | cons hnext hcuts =>
    rw [← hcuts.text_eq]
    exact ⟨hbefore, hnext, hcuts⟩

/-- From its beginning a scan has just the tokens that its lexemes gave. -/
theorem Cuts.tokens_eq {data : σ} {line offset : Nat} (h : s.Cuts ⟨data, [], line, offset⟩ text cuts q rest) :
    q.tokens.reverse = given cuts := by
  rw [h.progress_eq, List.append_nil, List.reverse_reverse]

/-- A scan whose lexemes are its text gives their tokens. -/
theorem Cuts.outcome_eq {data : σ} (h : s.Cuts ⟨data, [], 1, 0⟩ text cuts q []) :
    (s.scan data text).outcome = .ok (given cuts) := by
  rw [scan, h.scanAfter_eq, ← h.tokens_eq]
  rfl

theorem Cuts.lexemes_eq {data : σ} (h : s.Cuts ⟨data, [], 1, 0⟩ text cuts q []) :
    (s.scan data text).lexemes = cuts.map Cut.lexeme := by
  rw [scan, h.scanAfter_eq]
  exact List.append_nil _

theorem Cuts.isNext_of_mem (h : s.Cuts p text cuts q rest) (hc : c ∈ cuts) : ∃ following, c.IsNext s following := by
  obtain ⟨before, after, rfl⟩ := List.append_of_mem hc
  exact ⟨_, h.at.2.1⟩

/-- A token comes from a lexeme, and the tokens before it from the lexemes before. -/
theorem exists_cut_of_given {front back : List (Token κ)} {t : Token κ} (h : given cuts = front ++ t :: back) :
    ∃ before c after, cuts = before ++ c :: after ∧ given before = front ∧ c.token = some t := by
  obtain ⟨first, others, rfl, hfirst, hothers⟩ := List.filterMap_eq_append_iff.mp h
  obtain ⟨silent, c, after, rfl, hsilent, hc, -⟩ := List.filterMap_eq_cons_iff.mp hothers
  refine ⟨first ++ silent, c, after, (List.append_assoc ..).symm, ?_, hc⟩
  rw [given, List.filterMap_append, hfirst, List.filterMap_eq_nil_iff.mpr hsilent, List.append_nil]

/-- A scan that ends well has cut all of its text. -/
theorem exists_cuts_of_outcome {data : σ} {tokens : List (Token κ)} (h : (s.scan data text).outcome = .ok tokens) :
    ∃ cuts q, s.Cuts ⟨data, [], 1, 0⟩ text cuts q [] ∧ tokens = given cuts := by
  obtain ⟨cuts, q, rest, ending, hcuts, hstops, hscan⟩ := s.exists_cuts ⟨data, [], 1, 0⟩ text
  rw [scan, hscan] at h
  cases hstops with
  | textEnd =>
    cases h
    exact ⟨cuts, q, hcuts, hcuts.tokens_eq⟩
  | _ => cases h

/-- How a scan ends when its patterns only give certain tokens: with such tokens, or with a lexical report. -/
def Ends (good : Token κ → Prop) (outcome : Except Halt (List (Token κ))) : Prop :=
  match outcome with
  | .ok ts => ∀ t ∈ ts, good t
  | .error halt => halt.kind? = some .lexical

/-- A scan without shadowed patterns only ever fails with a lexical report, and gives only what its patterns do. -/
theorem scan_ends (s : Scanner σ κ) {good : Token κ → Prop} (hshadowed : ∀ p ∈ s.patterns, p.shadowed = false)
    (hgood : ∀ p ∈ s.patterns, ∀ (m : Moment σ κ) (text : Bytes) (data : σ) (t : Token κ),
      p.regex.Matches text → react p m text = .ok (data, some t) → good t) (data : σ) (text : Bytes) :
    Ends good (s.scan data text).outcome := by
  obtain ⟨cuts, q, rest, ending, hcuts, hstops, hscan⟩ := s.exists_cuts ⟨data, [], 1, 0⟩ text
  rw [scan, hscan]
  cases hstops with
  | textEnd =>
    show ∀ t ∈ q.tokens.reverse, good t
    rw [hcuts.tokens_eq]
    intro t ht
    obtain ⟨c, hc, htoken⟩ := List.mem_filterMap.mp ht
    obtain ⟨following, hnext⟩ := hcuts.isNext_of_mem hc
    obtain ⟨hmem, hmatch⟩ := hnext.matches
    have hreact := hnext.react
    rw [htoken] at hreact
    exact hgood c.pattern hmem _ _ c.data t hmatch hreact
  | unmatched => rfl
  | refused => rfl
  | disowned hlexeme hne hshadow =>
    rw [hshadowed _ (matches_of_lexeme? hlexeme).1] at hshadow
    cases hshadow

/-- A token stands on the line of its lexeme. -/
theorem line_of_react {pattern : Pattern σ κ} {m : Moment σ κ} {data : σ} {t : Token κ}
    (h : react pattern m text = .ok (data, some t)) : t.line = m.line := by
  unfold react at h
  split at h
  · cases h
  · next handler _ =>
    cases hhandler : handler m text with
    | error message =>
      rw [hhandler] at h
      cases h
    | ok result =>
      obtain ⟨data', token⟩ := result
      rw [hhandler] at h
      cases token with
      | none => cases h
      | some t' =>
        cases h
        rfl

/-- The lexeme that a match of some length takes. -/
theorem lexeme?_take {ps : List (Pattern σ κ)} {pattern : Pattern σ κ} {text following : Bytes}
    (h : lexeme? ps (text ++ following) = some (pattern, text.length)) (hne : text ≠ []) :
    ∃ n, lexeme? ps (text ++ following) = some (pattern, n + 1) ∧ (text ++ following).take (n + 1) = text := by
  obtain ⟨n, hn⟩ := Nat.exists_eq_succ_of_ne_zero (mt List.length_eq_zero_iff.mp hne)
  refine ⟨n, by rw [h, hn], ?_⟩
  rw [← Nat.succ_eq_add_one, ← hn, List.take_left]

/-- Every scan comes to an end. Its lexemes, none of them empty, and what is left are together the text. A lexeme is the match
of the patterns at its offset; its line, and that of its token, is one more than the newlines before. The scan ends well if
nothing is left, with the tokens that the lexemes gave. Otherwise it stops on the line of what is left: because the patterns
have no match there or an empty one, because the handler of the lexeme there refuses it, or because the pattern of that lexeme
has lost its name. -/
theorem scan_cuts (s : Scanner σ κ) (data : σ) (text : Bytes) :
    ∃ (cuts : List (Cut σ κ)) (q : Progress σ κ) (rest : Bytes), s.Cuts ⟨data, [], 1, 0⟩ text cuts q rest ∧
    (s.scan data text).lexemes = cuts.map Cut.lexeme ∧
    text = covered cuts ++ rest ∧
    (∀ before c after, cuts = before ++ c :: after →
      c.text ≠ [] ∧ s.alternation.matchLength? (c.text ++ (covered after ++ rest)) = some c.text.length ∧
      c.before.offset = (covered before).length ∧ c.before.line = 1 + (covered before).newlines ∧
      ∀ t, c.token = some t → t.line = (1 + (covered before).newlines : Nat)) ∧
    q.offset = (covered cuts).length ∧ q.line = 1 + (covered cuts).newlines ∧
    (rest = [] ∧ (s.scan data text).outcome = .ok (given cuts) ∨
    rest ≠ [] ∧
      (s.alternation.matchLength? rest = none ∨ s.alternation.matchLength? rest = some 0) ∧
      (s.scan data text).outcome = .error (.failure (.atLine .lexical q.line (noLexeme q.offset rest))) ∨
    (∃ pattern n message, lexeme? s.patterns rest = some (pattern, n + 1) ∧ pattern.shadowed = false ∧
      react pattern q.moment (rest.take (n + 1)) = .error message ∧
      (s.scan data text).outcome = .error (.failure (.atLine .lexical q.line message))) ∨
    ∃ pattern n, lexeme? s.patterns rest = some (pattern, n + 1) ∧ pattern.shadowed = true ∧
      (s.scan data text).outcome = .error (.violation (.broken .invariant "a match must belong to some pattern"))) := by
  obtain ⟨cuts, q, rest, ending, hcuts, hstops, hscan⟩ := s.exists_cuts ⟨data, [], 1, 0⟩ text
  have hscan : s.scan data text = ⟨cuts.map Cut.lexeme, ending.outcome q rest⟩ := hscan
  have hprogress := hcuts.progress_eq
  refine ⟨cuts, q, rest, hcuts, by rw [hscan], hcuts.text_eq, fun before c after heq => ?_,
    by rw [hprogress, Nat.zero_add], by rw [hprogress], ?_⟩
  · subst heq
    obtain ⟨hbefore, hnext, -⟩ := hcuts.at
    have hprogress := hbefore.progress_eq
    have hline : c.before.line = 1 + (covered before).newlines := by rw [hprogress]
    refine ⟨hnext.ne_nil, alternation_of_lexeme? hnext.lexeme?, by rw [hprogress, Nat.zero_add], hline, fun t ht => ?_⟩
    have hreact := hnext.react
    rw [ht] at hreact
    rw [line_of_react hreact, ← hline]
    rfl
  · rw [hscan, ← hcuts.tokens_eq]
    cases hstops with
    | textEnd => exact .inl ⟨rfl, rfl⟩
    | unmatched hne h => exact .inr (.inl ⟨hne, h, rfl⟩)
    | @refused pattern text following message hlexeme hne howned hreact =>
      obtain ⟨n, hn, htake⟩ := lexeme?_take hlexeme hne
      exact .inr (.inr (.inl ⟨pattern, n, message, hn, howned, by rw [htake, hreact], rfl⟩))
    | @disowned pattern text following hlexeme hne hshadowed =>
      obtain ⟨n, hn, -⟩ := lexeme?_take hlexeme hne
      exact .inr (.inr (.inr ⟨pattern, n, hn, hshadowed, rfl⟩))

end

end Scanner

end IrafCl
