import IrafCl.Grammar.Summary
import IrafCl.Proofs.Grammar.Tables
import IrafCl.Proofs.Parser

/-!
# What symbols can begin with

The tables of a grammar say what is derivable: a symbol is nullable if it derives the empty string
(`vanishes_iff`), and a terminal is in a first set if a sentential form derived from the symbol begins with
it (`mem_firstSets_iff`). Nothing is asked of the grammar: its symbols may be useless, and its rules recursive
in any way.
-/

namespace IrafCl.Grammar

section
variable {κ : Type} [DecidableEq κ]

/-- The symbols derive a word. -/
def DerivesWord (g : Grammar κ) (α w : List κ) : Prop := g.contextFree.Derives (α.map g.symbol) (w.map .terminal)

/-- The symbols derive the empty string. -/
abbrev Vanishes (g : Grammar κ) (α : List κ) : Prop := g.DerivesWord α []

/-- The symbols derive a sentential form that begins with a terminal. -/
def BeginsWith (g : Grammar κ) (α : List κ) (t : κ) : Prop :=
  ∃ γ, g.contextFree.Derives (α.map g.symbol) (.terminal t :: γ)

variable {g : Grammar κ} {α β w v : List κ} {s t : κ}

/-! ## What the tables say -/

theorem derives_rule (r : g.Index) :
    g.contextFree.Derives [.nonterminal (g.rule r).lhs] ((g.rule r).rhs.map g.symbol) :=
  Relation.ReflTransGen.single ⟨_, mem_contextFree_rules.mpr ⟨r, rfl⟩, ContextFreeRule.Rewrites.input_output⟩

theorem derives_lhs (r : g.Index) :
    g.contextFree.Derives ([(g.rule r).lhs].map g.symbol) ((g.rule r).rhs.map g.symbol) := by
  rw [List.map_singleton, symbol_lhs]
  exact derives_rule r

theorem DerivesWord.append (h₁ : g.DerivesWord α v) (h₂ : g.DerivesWord β w) : g.DerivesWord (α ++ β) (v ++ w) := by
  rw [DerivesWord, List.map_append, List.map_append]
  exact (h₁.append_right _).trans (h₂.append_left _)

theorem DerivesWord.of_rule {r : g.Index} (h : g.DerivesWord (g.rule r).rhs w) : g.DerivesWord [(g.rule r).lhs] w :=
  (derives_lhs r).trans h

theorem DerivesWord.terminal (h : g.isNonterminal s = false) : g.DerivesWord [s] [s] := by
  rw [DerivesWord, List.map_singleton, symbol_terminal h]
  exact Relation.ReflTransGen.refl

/-- What spans tokens derives their word. -/
theorem Spans.derivesWord {ts : List (Token κ)} {i j : Nat} (h : Spans g ts α i j) :
    g.DerivesWord α (between (ts.map (·.kind)) i j) := h.derives

theorem Spans.vanishes {ts : List (Token κ)} {i : Nat} (h : Spans g ts α i i) : g.Vanishes α := by
  have hword := h.derivesWord
  rwa [between_self] at hword

theorem vanishes_of_mem_nullable (h : s ∈ g.nullable) : g.Vanishes [s] := by
  refine nullable_induction (P := fun s => g.Vanishes [s]) (fun r hr => ?_) h
  refine DerivesWord.of_rule ?_
  generalize (g.rule r).rhs = α at hr
  induction α with
  | nil => exact Relation.ReflTransGen.refl
  | cons x α ih => exact (hr x (by simp)).append (ih fun y hy => hr y (by simp [hy]))

/-- Symbols derive the empty string exactly if all of them are nullable. -/
theorem vanishes_iff : g.Vanishes α ↔ ∀ x ∈ α, x ∈ g.nullable := by
  constructor
  · intro h
    have hspan : g.Spans [] α 0 0 := (spans_iff_derives (Nat.le_refl 0) (Nat.zero_le _)).mpr h
    exact mem_nullable_of_spans hspan rfl
  · intro h
    induction α with
    | nil => exact Relation.ReflTransGen.refl
    | cons x α ih => exact (vanishes_of_mem_nullable (h x (by simp))).append (ih fun y hy => h y (by simp [hy]))

theorem BeginsWith.append (h : g.BeginsWith α t) (β : List κ) : g.BeginsWith (α ++ β) t := by
  obtain ⟨γ, h⟩ := h
  refine ⟨γ ++ β.map g.symbol, ?_⟩
  rw [List.map_append]
  exact h.append_right _

theorem BeginsWith.of_vanishes (hα : g.Vanishes α) (h : g.BeginsWith β t) : g.BeginsWith (α ++ β) t := by
  obtain ⟨γ, h⟩ := h
  refine ⟨γ, ?_⟩
  rw [List.map_append]
  exact (hα.append_right _).trans h

/-- Where the sets are right, so is what a sequence begins with. -/
theorem beginsWith_of_mem_sequenceFirst {sets : FirstSets κ}
    (hsets : ∀ s, t ∈ FirstSets.of sets s → g.BeginsWith [s] t)
    (h : t ∈ g.sequenceFirst g.nullable sets α) : g.BeginsWith α t := by
  induction α with
  | nil => cases h
  | cons s rest ih =>
    rcases mem_sequenceFirst_cons.mp h with ⟨hs, rfl⟩ | ⟨hs, ht | ⟨hn, ht⟩⟩
    · refine ⟨rest.map g.symbol, ?_⟩
      rw [List.map_cons, symbol_terminal hs]
    · exact (hsets s ht).append rest
    · exact (ih ht).of_vanishes (vanishes_of_mem_nullable hn)

theorem beginsWith_of_mem_firstChain (n : Nat) : ∀ s, t ∈ FirstSets.of (g.firstChain n) s → g.BeginsWith [s] t := by
  induction n with
  | zero =>
    intro s h
    rw [firstChain_zero] at h
    cases h
  | succ n ih =>
    intro s h
    rcases (mem_firstChain_succ.mp h).2 with hold | ⟨r, rfl, hrule⟩
    · exact ih s hold
    · obtain ⟨γ, hγ⟩ := beginsWith_of_mem_sequenceFirst ih hrule
      exact ⟨γ, (derives_lhs r).trans hγ⟩

theorem mem_sequenceFirst_append : t ∈ g.sequenceFirst g.nullable g.firstSets (α ++ β) ↔
    t ∈ g.sequenceFirst g.nullable g.firstSets α ∨
      ((∀ x ∈ α, x ∈ g.nullable) ∧ t ∈ g.sequenceFirst g.nullable g.firstSets β) := by
  induction α with
  | nil => simp [sequenceFirst]
  | cons s α ih =>
    rw [List.cons_append, mem_sequenceFirst_cons, mem_sequenceFirst_cons, ih]
    constructor
    · rintro (h | ⟨hs, h | ⟨hn, h | ⟨hα, h⟩⟩⟩)
      · exact .inl (.inl h)
      · exact .inl (.inr ⟨hs, .inl h⟩)
      · exact .inl (.inr ⟨hs, .inr ⟨hn, h⟩⟩)
      · exact .inr ⟨List.forall_mem_cons.mpr ⟨hn, hα⟩, h⟩
    · rintro ((h | ⟨hs, h | ⟨hn, h⟩⟩) | ⟨hα, h⟩)
      · exact .inl h
      · exact .inr ⟨hs, .inl h⟩
      · exact .inr ⟨hs, .inr ⟨hn, .inl h⟩⟩
      · obtain ⟨hn, hα⟩ := List.forall_mem_cons.mp hα
        exact .inr ⟨isNonterminal_of_mem_nullable hn, .inr ⟨hn, .inr ⟨hα, h⟩⟩⟩

/-- What a sequence begins with after a rule was applied in it, it begins with before. -/
theorem mem_sequenceFirst_of_rule (r : g.Index)
    (h : t ∈ g.sequenceFirst g.nullable g.firstSets (α ++ ((g.rule r).rhs ++ β))) :
    t ∈ g.sequenceFirst g.nullable g.firstSets (α ++ (g.rule r).lhs :: β) := by
  rw [mem_sequenceFirst_append] at h ⊢
  rcases h with h | ⟨hα, h⟩
  · exact .inl h
  · refine .inr ⟨hα, mem_sequenceFirst_cons.mpr (.inr ⟨isNonterminal_lhs r, ?_⟩)⟩
    rcases mem_sequenceFirst_append.mp h with h | ⟨hr, h⟩
    · exact .inl (mem_firstSets_of_rule r h)
    · exact .inr ⟨mem_nullable_of_rule r hr, h⟩

/-- A rewritten sequence of symbols is one in which a rule was applied. -/
theorem exists_rule_of_produces {u : List (Symbol κ κ)} (h : g.contextFree.Produces (α.map g.symbol) u) :
    ∃ β r γ, α = β ++ (g.rule r).lhs :: γ ∧ u = (β ++ ((g.rule r).rhs ++ γ)).map g.symbol := by
  obtain ⟨rule, hrule, hrw⟩ := h
  obtain ⟨r, rfl⟩ := mem_contextFree_rules.mp hrule
  obtain ⟨p, q, hα, rfl⟩ := hrw.exists_parts
  rw [List.append_assoc] at hα
  obtain ⟨β, α', rfl, rfl, hα'⟩ := List.map_eq_append_iff.mp hα
  obtain ⟨s, γ, rfl, hs, rfl⟩ := List.map_eq_cons_iff.mp hα'
  obtain rfl := symbol_eq_nonterminal hs
  exact ⟨β, r, γ, rfl, by simp⟩

theorem mem_sequenceFirst_of_derives {u v : List (Symbol κ κ)} (h : g.contextFree.Derives u v) :
    ∀ {α : List κ} {γ : List (Symbol κ κ)}, u = α.map g.symbol → v = .terminal t :: γ →
      t ∈ g.sequenceFirst g.nullable g.firstSets α := by
  induction h using Relation.ReflTransGen.head_induction_on with
  | refl =>
    intro α γ hu hv
    rw [hu] at hv
    obtain ⟨s, rest, rfl, hs, -⟩ := List.map_eq_cons_iff.mp hv
    obtain ⟨rfl, hs⟩ := symbol_eq_terminal hs
    exact mem_sequenceFirst_cons.mpr (.inl ⟨hs, rfl⟩)
  | head hstep _ ih =>
    intro α γ hu hv
    subst hu
    obtain ⟨β, r, δ, rfl, rfl⟩ := exists_rule_of_produces hstep
    exact mem_sequenceFirst_of_rule r (ih rfl hv)

theorem exists_mem_rhs_of_derives {u v : List (Symbol κ κ)} (h : g.contextFree.Derives u v) (ht : .terminal t ∈ v) :
    .terminal t ∈ u ∨ ∃ r, t ∈ (g.rule r).rhs := by
  induction h with
  | refl => exact .inl ht
  | tail _ hstep ih =>
    obtain ⟨rule, hrule, hrw⟩ := hstep
    obtain ⟨r, rfl⟩ := mem_contextFree_rules.mp hrule
    obtain ⟨p, q, rfl, rfl⟩ := hrw.exists_parts
    simp only [List.mem_append] at ht ih
    rcases ht with (ht | ht) | ht
    · exact ih (.inl (.inl ht))
    · obtain ⟨s, hs, hst⟩ := List.mem_map.mp ht
      obtain ⟨rfl, -⟩ := symbol_eq_terminal hst
      exact .inr ⟨r, hs⟩
    · exact ih (.inr ht)

/-- What a nonterminal begins with stands in a rule. -/
theorem BeginsWith.exists_rhs (hs : g.isNonterminal s = true) (h : g.BeginsWith [s] t) : ∃ r, t ∈ (g.rule r).rhs := by
  obtain ⟨γ, hγ⟩ := h
  rcases exists_mem_rhs_of_derives hγ (t := t) (by simp) with ht | hr
  · simp [symbol, hs] at ht
  · exact hr

/-- What the tables say that symbols begin with, they do begin with, and nothing else. -/
theorem mem_sequenceFirst_iff : t ∈ g.sequenceFirst g.nullable g.firstSets α ↔ g.BeginsWith α t := by
  constructor
  · intro h
    refine beginsWith_of_mem_sequenceFirst (fun s hs => ?_) h
    rw [firstSets_eq] at hs
    exact beginsWith_of_mem_firstChain _ s hs
  · rintro ⟨γ, h⟩
    exact mem_sequenceFirst_of_derives h rfl rfl

theorem mem_firstSets_iff (hs : g.isNonterminal s = true) : t ∈ FirstSets.of g.firstSets s ↔ g.BeginsWith [s] t := by
  rw [← mem_sequenceFirst_iff, mem_sequenceFirst_cons]
  simp [hs, sequenceFirst]

/-! ## Candidates -/

theorem candidates_sorted (g : Grammar κ) (s t : κ) : (g.candidates g.lookaheads s t).Pairwise (· < ·) :=
  (List.sortedLT_finRange _).pairwise.filter _

/-- The candidates before a terminal are the rules that can begin with it or vanish. -/
theorem mem_candidates_iff (ht : t ∈ g.terminals) {r : g.Index} : r ∈ g.candidates g.lookaheads s t ↔
    (g.rule r).lhs = s ∧ (g.BeginsWith (g.rule r).rhs t ∨ g.Vanishes (g.rule r).rhs) := by
  rw [mem_candidates, mem_sequenceFirst_iff, ← vanishes_iff, and_iff_left ht]

end

/-! ## Symbols by name -/

theorem ne_empty_of_mem_wordsFrom {word cs : List Char} {s : String} (h : s ∈ RuleSpec.wordsFrom word cs) :
    s ≠ "" := by
  have hword : ∀ {word : List Char}, word.isEmpty = false → String.ofList word.reverse ≠ "" := by
    intro word hne hempty
    have := congrArg String.toList hempty
    simp_all
  induction cs generalizing word with
  | nil =>
    unfold RuleSpec.wordsFrom at h
    split at h
    · cases h
    · next hne =>
      rw [List.mem_singleton.mp h]
      exact hword (by simpa using hne)
  | cons c cs ih =>
    unfold RuleSpec.wordsFrom at h
    split at h
    · split at h
      · exact ih h
      · next hne =>
        rcases List.mem_cons.mp h with rfl | h
        · exact hword (by simpa using hne)
        · exact ih h
    · exact ih h

theorem names_of_readLine {spec : RuleSpec} {line : List Char} {r : Rule String} (h : spec.readLine line = .ok r) :
    r.lhs ≠ "" ∧ "" ∉ r.rhs := by
  unfold RuleSpec.readLine at h
  dsimp only at h
  split at h
  · cases h
  · next l right _ =>
    split at h
    · cases h
    · next hlhs =>
      cases h
      refine ⟨fun hempty => hlhs ?_, fun hmem => ne_empty_of_mem_wordsFrom hmem rfl⟩
      have := congrArg String.toList hempty
      simp_all

theorem names_of_readAll : ∀ {specs : List RuleSpec} {rules : List (Rule String)},
    RuleSpec.readAll specs = .ok rules → ∀ r ∈ rules, r.lhs ≠ "" ∧ "" ∉ r.rhs
  | [], rules, h, r, hr => by
    cases h
    cases hr
  | spec :: specs, rules, h, r, hr => by
    unfold RuleSpec.readAll RuleSpec.rules at h
    obtain ⟨rs, hrs, h⟩ := bind_eq_ok.mp h
    obtain ⟨rs', hread, hrs⟩ := bind_eq_ok.mp hrs
    split at hrs
    · cases hrs
    cases hrs
    split at h
    · cases h
    obtain ⟨more, hmore, h⟩ := bind_eq_ok.mp h
    cases h
    rcases List.mem_append.mp hr with hr | hr
    · obtain ⟨line, -, hline⟩ := exists_of_mapM_eq_ok hread r hr
      exact names_of_readLine hline
    · exact names_of_readAll hmore r hr

/-- No symbol of a grammar from specifications is the empty name, so that is free to stand for the empty
string. -/
theorem empty_not_mem_rhs {start : String} {specs : List RuleSpec} {g : Grammar String}
    (hg : ofSpecs start specs = .ok g) (r : g.Index) : "" ∉ (g.rule r).rhs := by
  unfold ofSpecs at hg
  obtain ⟨rules, hrules, hg⟩ := bind_eq_ok.mp hg
  dsimp only at hg
  split at hg
  · next hstart =>
    cases hg
    have hnames := names_of_readAll hrules
    by_cases hr : r = (ofRules start rules).first
    · obtain ⟨r', hr'⟩ := isNonterminal_iff.mp hstart
      have hne : start ≠ "" := by
        rw [← hr']
        by_cases hfirst : r' = (ofRules start rules).first
        · rw [hfirst]
          exact (by decide : "START" ≠ "")
        · exact (hnames _ (rule_ofRules_mem hfirst)).1
      rw [hr]
      intro hmem
      rcases List.mem_cons.mp hmem with h | h
      · exact hne h.symm
      · exact absurd (List.mem_singleton.mp h) (by decide)
    · exact (hnames _ (rule_ofRules_mem hr)).2
  · cases hg

theorem mem_firstNames {g : Grammar String} {s t : String} (hs : g.isNonterminal s = true) :
    t ∈ g.firstNames s ↔ (s ∈ g.nullable ∧ t = "") ∨ t ∈ FirstSets.of g.firstSets s := by
  rw [firstNames, if_pos hs, List.mem_append, sortNames, List.mem_mergeSort]
  refine or_congr_left ?_
  by_cases hn : s ∈ g.nullable <;> simp [hn]

/-- In every grammar that is read, the steps behind its tables come to rest after finitely many, whatever number
is allowed, and so do passes in which every rule works in place, with the same sets. The tables are the least ones
that the rules are closed under, and so they say exactly what can be derived: which symbols vanish, which terminals a
symbol can begin with, and which rules of a symbol, in their order, can begin with a terminal or vanish. -/
theorem tables_exact {start : String} {specs : List RuleSpec} {g : Grammar String}
    (hg : ofSpecs start specs = .ok g) :
    (Settles g.nullableStep [] g.nullable ∧
      Settles (g.firstStep g.nullable) (g.nonterminals.map fun s => (s, [])) g.firstSets) ∧
    ((∃ found, g.FindsOut .nothing found) ∧ ∀ found, g.FindsOut .nothing found →
      (∀ s, s ∈ found.vanishing ↔ s ∈ g.nullable) ∧
      ∀ s, g.isNonterminal s = true → ∀ t, t ∈ found.first s ↔ t ∈ FirstSets.of g.firstSets s) ∧
    (g.Closed g.nullable g.firstSets ∧ ∀ known sets, g.Closed known sets →
      g.nullable ⊆ known ∧ ∀ s, FirstSets.of g.firstSets s ⊆ FirstSets.of sets s) ∧
    ∀ s, g.isNonterminal s = true →
      (s ∈ g.nullable ↔ g.Vanishes [s]) ∧ ("" ∈ g.firstNames s ↔ g.Vanishes [s]) ∧
      (∀ t, t ≠ "" → (t ∈ g.firstNames s ↔ g.BeginsWith [s] t)) ∧
      ∀ t ∈ g.terminals, (g.candidates g.lookaheads s t).Pairwise (· < ·) ∧
        ∀ r, r ∈ g.candidates g.lookaheads s t ↔
          (g.rule r).lhs = s ∧ (g.BeginsWith (g.rule r).rhs t ∨ g.Vanishes (g.rule r).rhs) := by
  refine ⟨⟨settles_settle _ _ (nullableStep_nullable g), settles_settle _ _ (firstStep_firstSets g)⟩,
    ⟨exists_findsOut Findings.sound_nothing, fun found h => h.exact Findings.sound_nothing⟩,
    ⟨closed_tables g, fun known sets h => h.least⟩, fun s hs => ?_⟩
  have hvanishes : s ∈ g.nullable ↔ g.Vanishes [s] := by
    rw [vanishes_iff]
    simp
  refine ⟨hvanishes, ?_, fun t ht => ?_, fun t ht => ⟨candidates_sorted g s t, fun r => mem_candidates_iff ht⟩⟩
  · rw [mem_firstNames hs, ← hvanishes]
    have hempty : "" ∉ FirstSets.of g.firstSets s := by
      intro h
      obtain ⟨r, hr⟩ := ((mem_firstSets_iff hs).mp h).exists_rhs hs
      exact empty_not_mem_rhs hg r hr
    simp [hempty]
  · rw [mem_firstNames hs, mem_firstSets_iff hs]
    simp [ht]

/-- An `a` need not be there, so a `b` can come first. -/
def leading : Grammar String :=
  ofRules "s" [⟨"s", ["a", "b"], "s", true⟩, ⟨"a", ["x"], "a", true⟩, ⟨"a", [], "a", true⟩, ⟨"b", ["y"], "b", true⟩]

theorem tables_exact_leading :
    leading.Vanishes ["a"] ∧ ¬ leading.Vanishes ["s"] ∧ leading.BeginsWith ["s"] "y" ∧
      ¬ leading.BeginsWith ["a"] "y" := by
  have hg : ofSpecs "s" [⟨"s ::= a b", "s", true⟩, ⟨"a ::= x\na ::=", "a", true⟩, ⟨"b ::= y", "b", true⟩] =
      .ok leading := by cbv
  obtain ⟨-, -, -, hsymbol⟩ := tables_exact hg
  obtain ⟨-, hvanishA, hbeginA, -⟩ := hsymbol "a" (by cbv)
  obtain ⟨-, hvanishS, hbeginS, -⟩ := hsymbol "s" (by cbv)
  have hA : leading.firstNames "a" = ["", "x"] := by cbv
  have hS : leading.firstNames "s" = ["x", "y"] := by cbv
  rw [hA] at hvanishA hbeginA
  rw [hS] at hvanishS hbeginS
  refine ⟨hvanishA.mp (by simp), fun h => ?_, (hbeginS "y" (by decide)).mp (by simp), fun h => ?_⟩
  · have := hvanishS.mpr h
    simp at this
  · have := (hbeginA "y" (by decide)).mpr h
    simp at this

end IrafCl.Grammar
