import IrafCl.Grammar.Spec
import IrafCl.Proofs.Chart.Backwards
import IrafCl.Proofs.Outcome
import Mathlib

/-!
# What the parser answers

A parse ends in one of three ways (`parse_cases`): at a token, when the start rule does not span the
tokens; at an ambiguity; or with a derivation of the start symbol over all tokens. In a grammar read from
specifications only the start rule has the start symbol on the left, so the first way is taken exactly
for the token lists outside the language (`parse_syntactic_iff`).
-/

namespace IrafCl

namespace Grammar

variable {κ : Type} [DecidableEq κ] [Alphabet κ]

theorem kind?_syntaxFailure (t : Token κ) : (Halt.failure (Chart.syntaxFailure t)).kind? = some .syntactic := by
  unfold Chart.syntaxFailure
  split <;> rfl

omit [DecidableEq κ] in
theorem kind?_ambiguity (cs : List (Candidate κ)) (cause : Bytes) :
    (ambiguity cs cause).kind? = some .ambiguous := rfl

/-- The start rule spans all tokens. -/
abbrev Covers (g : Grammar κ) (ts : List (Token κ)) : Prop := g.Spans ts (g.rule g.first).rhs 0 ts.length

/-- Where a chart accepts, the start rule spans all tokens. -/
theorem covers_of_recognise {g : Grammar κ} {tokens : List (Token κ)} {chart : Chart g}
    (h : (Chart.recognise g g.lookaheads (Chart.withEnd tokens)).2 = .ok chart) : g.Covers (Chart.withEnd tokens) := by
  have hends := Chart.recognise_spec (g := g) (Chart.closed_withEnd tokens)
  rw [h] at hends
  obtain ⟨hl, -, hat⟩ := hends
  have hcomplete : (Chart.accepting g).isComplete = true := Item.isComplete_iff.mpr (Nat.le_refl _)
  have hspan := (hl.sits _ _ hat).spans
  rwa [List.take_of_length_le (Item.isComplete_iff.mp hcomplete)] at hspan

/-- Where there is no chart, the start rule does not span the tokens. -/
theorem not_covers_of_refused {g : Grammar κ} {tokens : List (Token κ)} {steps : List (ChartStep κ)} {f : Failure}
    (h : Chart.recognise g g.lookaheads (Chart.withEnd tokens) = (steps, .error f)) :
    ¬ g.Covers (Chart.withEnd tokens) := by
  have hends := Chart.recognise_spec (g := g) (Chart.closed_withEnd tokens)
  rw [h] at hends
  exact hends.2

/-- Without a chart a parse fails as reading the tokens did. -/
theorem outcome_of_refused {g : Grammar κ} {tokens : List (Token κ)} {steps : List (ChartStep κ)} {f : Failure}
    (h : Chart.recognise g g.lookaheads (Chart.withEnd tokens) = (steps, .error f)) (resolver : Resolver κ) :
    (g.parse resolver tokens).outcome = .error (.failure f) := by
  simp only [parse, parseWith, h]

/-- With a chart a parse gets stuck or gives a derivation of all tokens. What holds of tokens, and of the
derivation of an item that is followed if it holds of those below it, holds of all below the start rule. -/
theorem outcome_keeps {g : Grammar κ} {tokens : List (Token κ)} {steps : List (ChartStep κ)} {chart : Chart g}
    (h : Chart.recognise g g.lookaheads (Chart.withEnd tokens) = (steps, .ok chart)) (resolver : Resolver κ)
    (kept : Derivation g → Prop) (htoken : ∀ t, kept (.token t))
    (hnode : ∀ active it child state ds, Chart.Followed chart resolver active it child state →
      Chart.Derives (Chart.withEnd tokens) (.node child.rule ds) child.lhs child.origin state →
        (∀ d ∈ ds, kept d) → kept (.node child.rule ds)) :
    (∃ halt, (g.parse resolver tokens).outcome = .error halt ∧
      Chart.Stuck (Chart.withEnd tokens) chart resolver halt) ∨
    ∃ ds, (g.parse resolver tokens).outcome = .ok (.node g.first ds) ∧
      Chart.Derives (g := g) (Chart.withEnd tokens) (.node g.first ds) (g.rule g.first).lhs 0
        (Chart.withEnd tokens).length ∧ ∀ d ∈ ds, kept d := by
  have hends := Chart.recognise_spec (g := g) (Chart.closed_withEnd tokens)
  rw [h] at hends
  obtain ⟨hl, -, hat⟩ := hends
  have hread := Chart.derive_accepting kept resolver hl htoken hnode hat []
  simp only [parse, parseWith, h]
  cases hrun : (chart.derive (Chart.withEnd tokens).toArray resolver (chart.size + 1) []
      (Chart.accepting g) (Chart.withEnd tokens).length).run [] with
  | mk outcome choices =>
    rw [hrun] at hread
    cases outcome with
    | error halt => exact .inl ⟨halt, rfl, hread⟩
    | ok d =>
      obtain ⟨ds, rfl, hd, hkept⟩ := hread
      exact .inr ⟨ds, rfl, hd, hkept⟩

/-- The three ways in which a parse ends. -/
theorem parse_cases (g : Grammar κ) (resolver : Resolver κ) (tokens : List (Token κ)) :
    (∃ t : Token κ, (g.parse resolver tokens).outcome = .error (.failure (Chart.syntaxFailure t)) ∧
      ¬ g.Covers (Chart.withEnd tokens)) ∨
    (g.Covers (Chart.withEnd tokens) ∧
      ((∃ halt, (g.parse resolver tokens).outcome = .error halt ∧ Chart.Stops resolver g.Acyclic halt) ∨
      ∃ ds, (g.parse resolver tokens).outcome = .ok (.node g.first ds) ∧
        Chart.Derives (g := g) (Chart.withEnd tokens) (.node g.first ds) (g.rule g.first).lhs 0
          (Chart.withEnd tokens).length)) := by
  have hends := Chart.recognise_spec (g := g) (Chart.closed_withEnd tokens)
  cases hrec : Chart.recognise g g.lookaheads (Chart.withEnd tokens) with
  | mk steps outcome =>
    rw [hrec] at hends
    cases outcome with
    | error f =>
      obtain ⟨⟨t, _, rfl⟩, hspan⟩ := hends
      exact .inl ⟨t, outcome_of_refused hrec resolver, hspan⟩
    | ok chart =>
      refine .inr ⟨covers_of_recognise (congrArg (·.2) hrec), ?_⟩
      rcases outcome_keeps hrec resolver (fun _ => True) (fun _ => trivial) (fun _ _ _ _ _ _ _ _ => trivial) with
        ⟨halt, hout, hstuck⟩ | ⟨ds, hout, hd, -⟩
      · exact .inl ⟨halt, hout, hstuck.stops hends.1⟩
      · exact .inr ⟨ds, hout, hd⟩

/-- In a grammar without cycles a resolver that takes one of the candidates derives all that the start rule
spans. -/
theorem parse_of_covers {g : Grammar κ} (hg : g.Acyclic) {resolver : Resolver κ} (h : resolver.Decisive)
    {tokens : List (Token κ)} (hcovers : g.Covers (Chart.withEnd tokens)) :
    ∃ ds, (g.parse resolver tokens).outcome = .ok (.node g.first ds) ∧ (Derivation.node g.first ds).Valid ∧
      Derivation.yieldAll ds = Chart.withEnd tokens := by
  rcases parse_cases g resolver tokens with ⟨_, _, hrefused⟩ | ⟨_, ⟨_, _, hstops⟩ | ⟨ds, hout, hd⟩⟩
  · exact absurd hcovers hrefused
  · exact absurd ⟨hg, h⟩ hstops.2
  · have hyield := hd.yield
    rw [between_length] at hyield
    exact ⟨ds, hout, hd.valid, hyield⟩

/-- If the tokens have one derivation, all resolvers that take one of the candidates give the same. -/
theorem outcome_eq_of_unique {g : Grammar κ} (hg : g.Acyclic) {tokens : List (Token κ)}
    (hunique : ∀ ds ds', (Derivation.node g.first ds).Valid → (Derivation.node g.first ds').Valid →
      Derivation.yieldAll ds = Chart.withEnd tokens → Derivation.yieldAll ds' = Chart.withEnd tokens → ds = ds')
    {resolver resolver' : Resolver κ} (h : resolver.Decisive) (h' : resolver'.Decisive) :
    (g.parse resolver tokens).outcome = (g.parse resolver' tokens).outcome := by
  cases hrec : Chart.recognise g g.lookaheads (Chart.withEnd tokens) with
  | mk steps outcome =>
    cases outcome with
    | error f => simp only [parse, parseWith, hrec]
    | ok chart =>
      have hcovers := covers_of_recognise (congrArg (·.2) hrec)
      obtain ⟨ds, hout, hvalid, hyield⟩ := parse_of_covers hg h hcovers
      obtain ⟨ds', hout', hvalid', hyield'⟩ := parse_of_covers hg h' hcovers
      rw [hout, hout', hunique ds ds' hvalid hvalid' hyield hyield']

/-! ## Grammars from specifications -/

/-- Only the start rule has the start symbol on the left. -/
def Rooted (g : Grammar κ) : Prop := ∀ r, (g.rule r).lhs = (g.rule g.first).lhs → r = g.first

omit [DecidableEq κ] in
theorem rule_ofRules_mem {start : κ} {rules : List (Rule κ)} {r : (ofRules start rules).Index}
    (h : r ≠ (ofRules start rules).first) : (ofRules start rules).rule r ∈ rules := by
  obtain ⟨n, hn⟩ := r
  cases n with
  | zero => exact absurd rfl h
  | succ n => simp [rule, ofRules]

omit [DecidableEq κ] in
theorem rooted_ofRules {start : κ} {rules : List (Rule κ)} (h : ∀ r ∈ rules, r.lhs ≠ Alphabet.start) :
    Rooted (ofRules start rules) := by
  intro r hlhs
  by_contra hr
  exact absurd hlhs (h _ (rule_ofRules_mem hr))

theorem lhs_ne_start_of_readAll : ∀ {specs : List RuleSpec} {rules : List (Rule String)},
    RuleSpec.readAll specs = .ok rules → ∀ r ∈ rules, r.lhs ≠ "START"
  | [], rules, h, r, hr => by
    cases h
    cases hr
  | spec :: specs, rules, h, r, hr => by
    unfold RuleSpec.readAll at h
    obtain ⟨rs, hrs, h⟩ := bind_eq_ok.mp h
    split at h
    · cases h
    · next hany =>
      obtain ⟨more, hmore, h⟩ := bind_eq_ok.mp h
      cases h
      rcases List.mem_append.mp hr with hr | hr
      · intro hlhs
        exact hany (List.any_eq_true.mpr ⟨r, hr, by simpa using hlhs⟩)
      · exact lhs_ne_start_of_readAll hmore r hr

/-- A grammar that was read from specifications has them as its rules, after the start rule. -/
theorem exists_rules_of_ofSpecs {start : String} {specs : List RuleSpec} {g : Grammar String}
    (h : ofSpecs start specs = .ok g) :
    ∃ rules, g = ofRules start rules ∧ (∀ r ∈ rules, r.lhs ≠ "START") ∧ g.isNonterminal start = true := by
  unfold ofSpecs at h
  obtain ⟨rules, hrules, h⟩ := bind_eq_ok.mp h
  dsimp only at h
  split at h
  · next hstart =>
    cases h
    exact ⟨rules, rfl, lhs_ne_start_of_readAll hrules, hstart⟩
  · cases h

theorem rooted_ofSpecs {start : String} {specs : List RuleSpec} {g : Grammar String}
    (h : ofSpecs start specs = .ok g) : g.Rooted := by
  obtain ⟨rules, rfl, hlhs, _⟩ := exists_rules_of_ofSpecs h
  exact rooted_ofRules hlhs

omit [Alphabet κ] in
/-- Where only the start rule has the start symbol on the left, it spans all words of the language. -/
theorem covers_iff {g : Grammar κ} (hg : g.Rooted) (ts : List (Token κ)) :
    g.Covers ts ↔ ts.map (·.kind) ∈ g.contextFree.language := by
  rw [← spans_start_iff]
  constructor
  · exact Spans.single
  · intro h
    obtain ⟨r, hr, hspan⟩ := h.of_single (isNonterminal_lhs g.first)
    rwa [hg r hr] at hspan

/-- A parse fails with a syntactic report exactly if the tokens, closed by the end of input, are no word
of the language. -/
theorem parse_syntactic_iff {start : String} {specs : List RuleSpec} {g : Grammar String}
    (hg : ofSpecs start specs = .ok g) (resolver : Resolver String) (tokens : List (Token String)) :
    (∃ halt, (g.parse resolver tokens).outcome = .error halt ∧ halt.kind? = some .syntactic) ↔
      (Chart.withEnd tokens).map (·.kind) ∉ g.contextFree.language := by
  rw [← covers_iff (rooted_ofSpecs hg)]
  rcases parse_cases g resolver tokens with ⟨t, hout, hcovers⟩ | ⟨hcovers, hout⟩
  · exact iff_of_true ⟨_, hout, kind?_syntaxFailure t⟩ hcovers
  · refine iff_of_false ?_ (not_not_intro hcovers)
    rintro ⟨halt, hhalt, hkind⟩
    rcases hout with ⟨halt', hout, ⟨cs, cause, rfl⟩, _⟩ | ⟨ds, hout, _⟩
    · rw [hout] at hhalt
      cases hhalt
      rw [kind?_ambiguity] at hkind
      cases hkind
    · rw [hout] at hhalt
      cases hhalt

/-- A token that is no symbol of a cyclic grammar is refused, so no word has it. -/
theorem parse_syntactic_iff_unknown :
    ∃ g, ofSpecs "S" [⟨"S ::= S S\nS ::=\nS ::= a", "s", true⟩] = .ok g ∧
      ["a", "b", "EOF"] ∉ g.contextFree.language := by
  have hg : ofSpecs "S" [⟨"S ::= S S\nS ::=\nS ::= a", "s", true⟩] = .ok
      (ofRules "S" [⟨"S", ["S", "S"], "s", true⟩, ⟨"S", [], "s", true⟩, ⟨"S", ["a"], "s", true⟩]) := by cbv
  refine ⟨_, hg, ?_⟩
  exact (parse_syntactic_iff hg .shortestRule [⟨"a", [], none, 1⟩, ⟨"b", [], none, 1⟩]).mp
    ⟨.failure (Chart.syntaxFailure ⟨"b", [], none, 1⟩), by cbv, kind?_syntaxFailure _⟩

end Grammar

end IrafCl
