import IrafCl.Proofs.Chart.Preference
import IrafCl.Proofs.Grammar.Cycles
import IrafCl.Proofs.Script.Lexemes
import IrafCl.Proofs.Script.Shape

/-!
# Parsing scripts

No symbol of the CL grammar derives itself alone, since every rule that can do without its other symbols
goes down (`height`). So the parser always has a candidate to follow, the resolver always takes one, and a
parse ends with a tree or a syntactic report (`parse_ends`).
-/

namespace IrafCl

namespace Script

/-! ## The CL grammar -/

/-- The symbols that may stand for nothing. -/
def vanishing : List Symbol :=
  [.program, .paramDecls, .localDecls, .stmtList, .optNl, .optAssign, .optExpr, .cmdArgs, .redirs]

/-- How far a symbol stands above the tokens when nothing but vanishing symbols stands beside it. -/
def height : Symbol → Nat
  | .start => 30
  | .program => 29
  | .stmtList => 28
  | .statement => 27
  | .optExpr | .exprList => 26
  | .callArgs => 27
  | .callArg => 26
  | .expr => 25
  | .orExpr => 24
  | .andExpr => 23
  | .cmpExpr => 22
  | .concatExpr => 21
  | .addExpr => 20
  | .mulExpr => 19
  | .unary => 18
  | .powExpr => 17
  | .primary => 16
  | .optList | .cmdArgs => 5
  | .optItem | .initList | .constList | .cmdArg => 4
  | .initValue => 3
  | .constant => 2
  | .declList => 5
  | .declSpec => 4
  | .declVar => 3
  | .varName => 2
  | .simpleStmt => 4
  | .pipeline | .optAssign | .caseList | .redirs | .paramDecls | .localDecls => 3
  | .taskCall | .assignment | .caseClause | .redir | .declStmt => 2
  | .block | .ifStmt | .whileStmt | .forStmt | .switchStmt | .term | .optNl | .procArgs | .lvalue | .cmdWord
  | .redirTarget | .identRef | .arrayRef | .funcCall | .parenExpr => 1
  | _ => 0

theorem forall_rule {P : Rule Symbol → Prop} (hfirst : P ⟨.start, [.program, .eof], "START", true⟩)
    (hrules : ∀ r ∈ rules, P r) (r : grammar.Index) : P (grammar.rule r) := by
  have hmem : grammar.rule r ∈ grammar.rules.toList := by simpa using Grammar.mem_rules r
  rcases List.mem_cons.mp hmem with heq | hmem
  · rw [heq]; exact hfirst
  · exact hrules _ hmem

/-- No rule is for the start symbol or contains it, none leads out of the vanishing symbols, and all go down. -/
theorem rules_spec : ∀ r ∈ rules, r.lhs ≠ .start ∧ .start ∉ r.rhs ∧
    ((∀ x ∈ r.rhs, x ∈ vanishing) → r.lhs ∈ vanishing) ∧ Grammar.GoesDown vanishing height r := by
  decide +kernel

theorem rooted_grammar : grammar.Rooted := Grammar.rooted_ofRules fun r hr => (rules_spec r hr).1

theorem start_notMem_rhs (r : grammar.Index) : (grammar.rule grammar.first).lhs ∉ (grammar.rule r).rhs :=
  forall_rule (P := fun r => Symbol.start ∉ r.rhs) (by decide) (fun r hr => (rules_spec r hr).2.1) r

theorem vanishing_closed (r : grammar.Index) :
    (∀ x ∈ (grammar.rule r).rhs, x ∈ vanishing) → (grammar.rule r).lhs ∈ vanishing :=
  forall_rule (P := fun r => (∀ x ∈ r.rhs, x ∈ vanishing) → r.lhs ∈ vanishing) (by decide)
    (fun r hr => (rules_spec r hr).2.2.1) r

theorem acyclic_grammar : grammar.Acyclic :=
  Grammar.acyclic_of_height vanishing height vanishing_closed
    (forall_rule (by decide) fun r hr => (rules_spec r hr).2.2.2)

/-! ## Trees -/

/-- A parse gives a tree of the tokens, or a syntactic report. -/
theorem parse_spec (tokens : List (Token Symbol)) :
    (∃ t, parse tokens = .ok t ∧ t.Conforms grammar ∧ (∀ token ∈ t.leaves, token ∈ tokens) ∧ t.kind? = some .program) ∨
      ∃ halt, parse tokens = .error halt ∧ halt.kind? = some .syntactic := by
  unfold parse
  rcases Grammar.parse_cases grammar Resolver.shortestRule tokens with
    ⟨t, hout, _⟩ | ⟨_, ⟨halt, hout, hstops⟩ | ⟨ds, hout, hd⟩⟩
  · exact .inr ⟨_, congrArg (Except.map Derivation.tree) hout, Grammar.kind?_syntaxFailure t⟩
  · exact absurd ⟨acyclic_grammar, Resolver.decisive_shortestRule⟩ hstops.2
  · have hyield := hd.yield
    rw [Grammar.between_length] at hyield
    obtain ⟨hconforms, hkind, hleaves⟩ := Derivation.tree_first_spec rooted_grammar (fun r _ => start_notMem_rhs r)
      rfl (Chart.closed_withEnd tokens) hd.valid hyield
    refine .inl ⟨_, congrArg (Except.map Derivation.tree) hout, hconforms, fun token htoken => ?_, hkind⟩
    rw [hleaves] at htoken
    exact Chart.mem_of_mem_dropLast_withEnd htoken

/-- How a parse ends: with a tree of the tokens, or with a syntactic report. -/
theorem parse_ends {tokens : List (Token Symbol)} (h : ∀ t ∈ tokens, Lexed t) :
    (∃ t, parse tokens = .ok t ∧ Grown t ∧ t.kind? = some .program) ∨ ∃ halt, parse tokens = .error halt ∧ halt.kind? = some .syntactic := by
  rcases parse_spec tokens with ⟨t, hparse, hconforms, hleaves, hkind⟩ | hreport
  · exact .inl ⟨t, hparse, ⟨hconforms, fun token htoken => h token (hleaves token htoken)⟩, hkind⟩
  · exact .inr hreport

/-- How reading a script ends: with a tree of its tokens, or with a lexical or syntactic report. -/
theorem tree_ends (source : Bytes) :
    (∃ t, tree source = .ok t ∧ Grown t ∧ t.kind? = some .program) ∨
      ∃ halt, tree source = .error halt ∧ (halt.kind? = some .lexical ∨ halt.kind? = some .syntactic) := by
  have htokens := tokenize_ends source
  unfold tree
  cases htokenize : tokenize source with
  | error halt =>
    rw [htokenize] at htokens
    exact .inr ⟨halt, rfl, .inl htokens⟩
  | ok tokens =>
    rw [htokenize] at htokens
    rcases parse_ends htokens with ⟨t, hparse, ht⟩ | ⟨halt, hparse, hkind⟩
    · exact .inl ⟨t, hparse, ht⟩
    · exact .inr ⟨halt, hparse, .inr hkind⟩

/-- Every token in a tree is one that the patterns give. -/
theorem good_of_mem_leaves {good : Token Symbol → Prop} (hgood : ∀ p ∈ Lexicon.patterns, Emits good p)
    (hnewline : ∀ line, good ⟨.newline, "\n", none, line⟩) {source : Bytes} {t : Tree} (h : tree source = .ok t) :
    ∀ token ∈ t.leaves, good token := by
  have htokens := tokenize_ends_of hgood hnewline source
  unfold tree at h
  obtain ⟨tokens, htokenize, hparse⟩ := bind_eq_ok.mp h
  rw [htokenize] at htokens
  rcases parse_spec tokens with ⟨t', hparse', -, hleaves, -⟩ | ⟨halt, hparse', -⟩
  · rw [hparse'] at hparse
    cases hparse
    exact fun token htoken => htokens token (hleaves token htoken)
  · rw [hparse'] at hparse
    cases hparse

/-- The redirections in a tree have one of the texts for them. -/
theorem redirected_of_mem_leaves {source : Bytes} {t : Tree} (h : tree source = .ok t) : ∀ token ∈ t.leaves, Redirected token :=
  good_of_mem_leaves emitsRedirected (fun line => redirected_of rfl _ _ line) h

/-- The types in a tree have the name of a type for their value. -/
theorem typeNamed_of_mem_leaves {source : Bytes} {t : Tree} (h : tree source = .ok t) : ∀ token ∈ t.leaves, TypeNamed token :=
  good_of_mem_leaves emitsTypeNamed (fun line => typeNamed_of (by decide) _ _ line) h

end Script

end IrafCl
