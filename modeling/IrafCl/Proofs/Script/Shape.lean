import IrafCl.Proofs.Script.Lexemes
import IrafCl.Proofs.Tree
import IrafCl.Script.Reader
import IrafCl.Script.Rules

/-!
# The shapes of CL trees

A tree of the CL grammar has a token where a rule has a terminal and a node where it has a nonterminal,
and the children of a node read as one of the few rules of its kind (`Grown.children`). All that readers
and passes rely on follows from this, kind by kind.
-/

namespace IrafCl.Script

/-- The right-hand sides of the rules of a symbol. -/
def productions (k : Symbol) : List (List Symbol) := (rules.filter fun r => r.lhs = k).map (·.rhs)

/-- A tree that the rules of CL have made of tokens that fit their kinds. -/
structure Grown (n : Tree) : Prop where
  conforms : n.Conforms grammar
  lexed : ∀ t ∈ n.leaves, Lexed t

/-! ## Sets of symbols -/

/-- Some symbols, as a number with a bit for each. -/
def bits : List Symbol → Nat
  | [] => 0
  | s :: rest => 2 ^ s.ctorIdx ||| bits rest

theorem ctorIdx_inj {s t : Symbol} (h : s.ctorIdx = t.ctorIdx) : s = t := by
  rw [← Symbol.ofNat_ctorIdx s, h, Symbol.ofNat_ctorIdx]

theorem testBit_bits {l : List Symbol} {s : Symbol} : (bits l).testBit s.ctorIdx = true ↔ s ∈ l := by
  induction l with
  | nil => simp [bits]
  | cons t l ih =>
    rw [bits, Nat.testBit_or, Bool.or_eq_true, Nat.testBit_two_pow, decide_eq_true_eq, ih, List.mem_cons]
    exact or_congr_left ⟨fun h => (ctorIdx_inj h).symm, fun h => by rw [h]⟩

/-! ## The grammar -/

theorem rule_mem_rules {r : grammar.Index} (h : (grammar.rule r).lhs ≠ .start) : grammar.rule r ∈ rules := by
  have hmem : grammar.rule r ∈ grammar.rules.toList := by
    simpa using Grammar.mem_rules r
  rcases List.mem_cons.mp hmem with heq | hmem
  · rw [heq] at h
    exact absurd rfl h
  · exact hmem

theorem rhs_mem_productions {r : grammar.Index} (h : (grammar.rule r).lhs ≠ .start) :
    (grammar.rule r).rhs ∈ productions (grammar.rule r).lhs := by
  refine List.mem_map.mpr ⟨grammar.rule r, List.mem_filter.mpr ⟨rule_mem_rules h, by simp⟩, rfl⟩

theorem mem_productions {k : Symbol} {rhs : List Symbol} (h : (productions k).contains rhs = true) :
    rhs ∈ productions k := by simpa using h

theorem exists_rule_of_mem_productions {k : Symbol} {rhs : List Symbol} (h : rhs ∈ productions k) :
    ∃ r : grammar.Index, (grammar.rule r).lhs = k ∧ (grammar.rule r).rhs = rhs := by
  obtain ⟨r, hr, rfl⟩ := List.mem_map.mp h
  obtain ⟨hmem, hlhs⟩ := List.mem_filter.mp hr
  obtain ⟨i, rfl⟩ : ∃ i, grammar.rule i = r :=
    Grammar.exists_index (by simpa [grammar, Grammar.ofRules] using .inr hmem)
  exact ⟨i, by simpa using hlhs, rfl⟩

/-- The kinds of inner nodes. -/
def Symbol.isInner : Symbol → Bool
  | .program | .procStmt | .procArgs | .paramDecls | .localDecls | .bodyBlock | .declStmt | .declList | .declSpec
  | .declVar | .varName | .initList | .initValue | .constant | .declOpts | .optList | .optItem | .stmtList
  | .statement | .simpleStmt | .term | .optNl | .block | .ifStmt | .whileStmt | .forStmt | .optAssign | .optExpr
  | .switchStmt | .caseList | .caseClause | .constList | .assignment | .lvalue | .pipeline | .taskCall | .cmdArgs
  | .cmdArg | .cmdWord | .callArgs | .callArg | .redirs | .redir | .redirTarget | .expr | .orExpr | .andExpr
  | .cmpExpr | .concatExpr | .addExpr | .mulExpr | .unary | .powExpr | .primary | .identRef | .arrayRef
  | .exprList | .funcCall | .parenExpr => true
  | _ => false

theorem isInner_iff {s : Symbol} : s.isInner = true ↔ s ∈ rules.map (·.lhs) := by
  have hall : ∀ n < 122, (Symbol.ofNat n).isInner = (bits (rules.map (·.lhs))).testBit n := by decide +kernel
  have hs : s.ctorIdx < 122 := by cases s <;> simp [Symbol.ctorIdx]
  have h := hall s.ctorIdx hs
  rw [Symbol.ofNat_ctorIdx] at h
  rw [h, testBit_bits]

theorem isInner_of_mem_productions {k : Symbol} {rhs : List Symbol} (h : rhs ∈ productions k) : k.isInner = true := by
  obtain ⟨r, hr, -⟩ := List.mem_map.mp h
  obtain ⟨hmem, hlhs⟩ := List.mem_filter.mp hr
  rw [decide_eq_true_eq] at hlhs
  rw [isInner_iff, ← hlhs]
  exact List.mem_map_of_mem hmem

theorem isNonterminal_of_isInner {s : Symbol} (h : s.isInner = true) : grammar.isNonterminal s = true := by
  obtain ⟨r, hr, rfl⟩ := List.mem_map.mp (isInner_iff.mp h)
  obtain ⟨i, rfl⟩ : ∃ i, grammar.rule i = r :=
    Grammar.exists_index (by simpa [grammar, Grammar.ofRules] using .inr hr)
  exact Grammar.isNonterminal_lhs i

theorem isInner_of_isNonterminal {s : Symbol} (h : grammar.isNonterminal s = true) (hs : s ≠ .start) :
    s.isInner = true := by
  obtain ⟨r, rfl⟩ := Grammar.isNonterminal_iff.mp h
  exact isInner_iff.mpr (List.mem_map_of_mem (rule_mem_rules hs))

/-! ## Trees -/

/-- A tree that grew for a symbol. -/
abbrev Kid (s : Symbol) (c : Tree) : Prop := c.kind? = some s ∧ Grown c

/-- The children of a grown node are one for each symbol of a right-hand side. -/
def Kids (rhs : List Symbol) (cs : List Tree) : Prop :=
  List.Forall₂ (fun s c => c.kind? = some s ∧ Grown c) rhs cs

section Kids

variable {s t u v w x : Symbol} {rhs : List Symbol} {cs : List Tree}

theorem Kids.eq_nil (h : Kids [] cs) : cs = [] := List.forall₂_nil_left_iff.mp h

theorem Kids.uncons (h : Kids (s :: rhs) cs) : ∃ c rest, cs = c :: rest ∧ Kid s c ∧ Kids rhs rest := by
  obtain ⟨c, rest, hc, hrest, rfl⟩ := List.forall₂_cons_left_iff.mp h
  exact ⟨c, rest, rfl, hc, hrest⟩

/-! Right-hand sides are short, so their children are named one by one. -/

theorem Kids.single (h : Kids [s] cs) : ∃ a, cs = [a] ∧ Kid s a := by
  obtain ⟨a, rest, rfl, ha, h⟩ := h.uncons
  obtain rfl := h.eq_nil
  exact ⟨a, rfl, ha⟩

theorem Kids.pair (h : Kids [s, t] cs) : ∃ a b, cs = [a, b] ∧ Kid s a ∧ Kid t b := by
  obtain ⟨a, rest, rfl, ha, h⟩ := h.uncons
  obtain ⟨b, rfl, hb⟩ := h.single
  exact ⟨a, b, rfl, ha, hb⟩

theorem Kids.triple (h : Kids [s, t, u] cs) : ∃ a b c, cs = [a, b, c] ∧ Kid s a ∧ Kid t b ∧ Kid u c := by
  obtain ⟨a, rest, rfl, ha, h⟩ := h.uncons
  obtain ⟨b, c, rfl, hb, hc⟩ := h.pair
  exact ⟨a, b, c, rfl, ha, hb, hc⟩

theorem Kids.four (h : Kids [s, t, u, v] cs) :
    ∃ a b c d, cs = [a, b, c, d] ∧ Kid s a ∧ Kid t b ∧ Kid u c ∧ Kid v d := by
  obtain ⟨a, rest, rfl, ha, h⟩ := h.uncons
  obtain ⟨b, c, d, rfl, hkids⟩ := h.triple
  exact ⟨a, b, c, d, rfl, ha, hkids⟩

theorem Kids.five (h : Kids [s, t, u, v, w] cs) :
    ∃ a b c d e, cs = [a, b, c, d, e] ∧ Kid s a ∧ Kid t b ∧ Kid u c ∧ Kid v d ∧ Kid w e := by
  obtain ⟨a, rest, rfl, ha, h⟩ := h.uncons
  obtain ⟨b, c, d, e, rfl, hkids⟩ := h.four
  exact ⟨a, b, c, d, e, rfl, ha, hkids⟩

theorem Kids.six (h : Kids [s, t, u, v, w, x] cs) :
    ∃ a b c d e f, cs = [a, b, c, d, e, f] ∧ Kid s a ∧ Kid t b ∧ Kid u c ∧ Kid v d ∧ Kid w e ∧ Kid x f := by
  obtain ⟨a, rest, rfl, ha, h⟩ := h.uncons
  obtain ⟨b, c, d, e, f, rfl, hkids⟩ := h.five
  exact ⟨a, b, c, d, e, f, rfl, ha, hkids⟩

end Kids

theorem kids_of_kinds {rhs : List Symbol} {cs : List Tree} (hkinds : cs.map Node.kind? = rhs.map some)
    (hcs : ∀ c ∈ cs, Grown c) : Kids rhs cs := by
  unfold Kids
  induction rhs generalizing cs with
  | nil =>
    have : cs = [] := by simpa using hkinds
    rw [this]
    exact .nil
  | cons s rhs ih =>
    cases cs with
    | nil => simp at hkinds
    | cons c cs =>
      simp only [List.map_cons, List.cons.injEq] at hkinds
      exact .cons ⟨hkinds.1, hcs c (by simp)⟩ (ih hkinds.2 fun c' hc' => hcs c' (by simp [hc']))

theorem Grown.leaf {n : Tree} {s : Symbol} (h : Grown n) (hk : n.kind? = some s) (hs : s.isInner = false)
    (hstart : s ≠ .start) : ∃ t, n = .leaf t ∧ t.kind = s ∧ Lexed t := by
  cases h.conforms with
  | leaf t hn => exact ⟨t, rfl, by simpa [Node.kind?] using hk, h.lexed t (by simp [Node.leaves])⟩
  | branch r types cs hkinds hcs =>
    have hlhs : (grammar.rule r).lhs = s := by simpa [Node.kind?] using hk
    have := isInner_of_isNonterminal (Grammar.isNonterminal_lhs r) (by rw [hlhs]; exact hstart)
    rw [hlhs, hs] at this
    cases this

theorem Grown.of_mem_children {n c : Tree} (h : Grown n) (hc : c ∈ n.children) : Grown c := by
  obtain ⟨hconforms, hlexed⟩ := h
  cases hconforms with
  | leaf t hn => cases hc
  | branch r types cs hkinds hcs =>
    refine ⟨hcs c hc, fun t ht => hlexed t ?_⟩
    rw [Node.leaves, Node.leavesOf_eq_flatMap]
    exact List.mem_flatMap.mpr ⟨c, hc, ht⟩

theorem Grown.children {n : Tree} {s : Symbol} (h : Grown n) (hk : n.kind? = some s) (hs : s.isInner = true) :
    ∃ types cs rhs, n = .branch s types cs ∧ rhs ∈ productions s ∧ Kids rhs cs := by
  have hall := fun c => h.of_mem_children (c := c)
  cases h.conforms with
  | leaf t hn =>
    have hkind : t.kind = s := by simpa [Node.kind?] using hk
    rw [hkind, isNonterminal_of_isInner hs] at hn
    cases hn
  | branch r types cs hkinds _ =>
    have hlhs : (grammar.rule r).lhs = s := by simpa [Node.kind?] using hk
    have hne : (grammar.rule r).lhs ≠ .start := by
      rw [hlhs]
      rintro rfl
      exact absurd hs (by decide)
    refine ⟨types, cs, (grammar.rule r).rhs, by rw [hlhs], by rw [← hlhs]; exact rhs_mem_productions hne, ?_⟩
    exact kids_of_kinds hkinds hall

/-- A token that fits its kind is a tree. -/
theorem grown_leaf {t : Token Symbol} (hkind : t.kind.isInner = false) (hstart : t.kind ≠ .start) (ht : Lexed t) :
    Grown (.leaf t) := by
  refine ⟨.leaf t ?_, by simpa [Node.leaves] using ht⟩
  rw [Bool.eq_false_iff]
  intro hnonterminal
  rw [isInner_of_isNonterminal hnonterminal hstart] at hkind
  cases hkind

/-- Trees for the symbols of a right-hand side are the children of a tree. -/
theorem grown_branch {k : Symbol} {rhs : List Symbol} {cs : List Tree} (hrhs : rhs ∈ productions k)
    (hkinds : cs.map Node.kind? = rhs.map some) (hcs : ∀ c ∈ cs, Grown c) (types : Types) : Grown (.branch k types cs) := by
  obtain ⟨i, rfl, rfl⟩ := exists_rule_of_mem_productions hrhs
  refine ⟨.branch i types cs hkinds fun c hc => (hcs c hc).conforms, fun t ht => ?_⟩
  rw [Node.leaves, Node.leavesOf_eq_flatMap, List.mem_flatMap] at ht
  obtain ⟨c, hc, ht⟩ := ht
  exact (hcs c hc).lexed t ht

/-- What holds of a tree if it holds of its children holds of every tree. -/
theorem Grown.induction {P : Tree → Prop} (step : ∀ n, Grown n → (∀ c ∈ n.children, P c) → P n) {n : Tree}
    (h : Grown n) : P n := by
  obtain ⟨hconforms, hlexed⟩ := h
  induction hconforms with
  | leaf t hn => exact step _ ⟨.leaf t hn, hlexed⟩ (by simp [Node.children])
  | branch r types cs hkinds hcs ih =>
    have hn : Grown (.branch (grammar.rule r).lhs types cs) := ⟨.branch r types cs hkinds hcs, hlexed⟩
    exact step _ hn fun c hc => ih c hc (hn.of_mem_children hc).lexed

/-! ## Checking a tree -/

/-- Whether a token is seen to fit its kind. -/
def fits (t : Token Symbol) : Bool :=
  let whole (r : Regex) : Bool := r.matchLength? t.text == some t.text.length
  match t.kind with
  | .ident => whole Lexicon.name
  | .typeName => typeNames.contains t.text
  | .integer => whole Lexicon.integer
  | .float => whole Lexicon.float
  | .octal => whole Lexicon.octal
  | .hex => whole Lexicon.hexadecimal
  | .sexagesimal => whole Lexicon.sexagesimal
  | .bool => t.text == "yes" || t.text == "no"
  | .undefined => t.text == "INDEF"
  | .assignOp => (["+=", "-=", "*=", "//=", "/="] : List Bytes).contains t.text
  | _ => true

theorem lexed_of_fits {t : Token Symbol} (h : fits t = true) : Lexed t := by
  have hwhole {r : Regex} {text : Bytes} (h : (r.matchLength? text == some text.length) = true) : r.Matches text := by
    have hmatch := Regex.matches_of_matchLength? (beq_iff_eq.mp h)
    rwa [List.take_length] at hmatch
  obtain ⟨kind, text, value, line⟩ := t
  cases kind
  case ident | integer | float | octal | hex | sexagesimal => exact hwhole h
  case typeName | assignOp => exact List.contains_iff_mem.mp h
  case bool => exact (Bool.or_eq_true _ _ ▸ h).imp beq_iff_eq.mp beq_iff_eq.mp
  case undefined => exact beq_iff_eq.mp h
  all_goals trivial

mutual

/-- Whether a tree is seen to have grown. -/
def grows : Tree → Bool
  | .absent => false
  | .leaf t => !t.kind.isInner && t.kind != .start && fits t
  | .branch k _ cs => (productions k).any (fun rhs => cs.map Node.kind? == rhs.map some) && allGrow cs

def allGrow : List Tree → Bool
  | [] => true
  | c :: cs => grows c && allGrow cs

end

mutual

theorem grown_of_grows : ∀ {n : Tree}, grows n = true → Grown n
  | .absent, h => by cases h
  | .leaf t, h => by
    rw [grows, Bool.and_eq_true, Bool.and_eq_true, Bool.not_eq_true', bne_iff_ne] at h
    exact grown_leaf h.1.1 h.1.2 (lexed_of_fits h.2)
  | .branch k types cs, h => by
    rw [grows, Bool.and_eq_true, List.any_eq_true] at h
    obtain ⟨⟨rhs, hrhs, hkinds⟩, hcs⟩ := h
    exact grown_branch hrhs (beq_iff_eq.mp hkinds) (grown_of_allGrow hcs) types

theorem grown_of_allGrow : ∀ {cs : List Tree}, allGrow cs = true → ∀ c ∈ cs, Grown c
  | [], _ => List.forall_mem_nil _
  | c :: cs, h => by
    rw [allGrow, Bool.and_eq_true] at h
    exact List.forall_mem_cons.mpr ⟨grown_of_grows h.1, grown_of_allGrow h.2⟩

end

/-! ## Expressions -/

/-- The kinds of nodes that are expressions. -/
def Symbol.isExpr : Symbol → Bool
  | .expr | .orExpr | .andExpr | .cmpExpr | .concatExpr | .addExpr | .mulExpr | .unary | .powExpr | .primary
  | .constant | .identRef | .arrayRef | .funcCall | .parenExpr => true
  | _ => false

/-- The kinds of nodes that may stand for their only child. -/
def Symbol.isPass : Symbol → Bool
  | .expr | .orExpr | .andExpr | .cmpExpr | .concatExpr | .addExpr | .mulExpr | .unary | .powExpr | .primary => true
  | _ => false

/-- How tightly the expressions of a kind of node hold together. -/
def Symbol.level : Symbol → Nat
  | .expr | .orExpr => 0
  | .andExpr => 1
  | .cmpExpr => 3
  | .concatExpr | .addExpr => 4
  | .mulExpr => 5
  | .unary => 6
  | .powExpr => 7
  | _ => 8

/-- The rules of operators between two operands. -/
inductive OpRule : Symbol → Symbol → Symbol → Symbol → Prop where
  | or : OpRule .orExpr .orExpr .orOr .andExpr
  | and : OpRule .andExpr .andExpr .andAnd .cmpExpr
  | eq : OpRule .cmpExpr .concatExpr .eqEq .concatExpr
  | ne : OpRule .cmpExpr .concatExpr .ne .concatExpr
  | lt : OpRule .cmpExpr .concatExpr .lt .concatExpr
  | le : OpRule .cmpExpr .concatExpr .le .concatExpr
  | gt : OpRule .cmpExpr .concatExpr .gt .concatExpr
  | ge : OpRule .cmpExpr .concatExpr .ge .concatExpr
  | concat : OpRule .concatExpr .concatExpr .concat .addExpr
  | add : OpRule .addExpr .addExpr .plus .mulExpr
  | sub : OpRule .addExpr .addExpr .minus .mulExpr
  | mul : OpRule .mulExpr .mulExpr .star .unary
  | div : OpRule .mulExpr .mulExpr .slash .unary
  | mod : OpRule .mulExpr .mulExpr .percent .unary
  | pow : OpRule .powExpr .primary .pow .unary

/-- The rules of expressions: a node stands for its only child, or is an operand, or applies an operator. -/
inductive ExprRule : Symbol → List Symbol → Prop where
  | pass {k s : Symbol} (hk : k.isPass = true) (hs : s.isExpr = true) (hlevel : k.level ≤ s.level) : ExprRule k [s]
  | constant {s : Symbol} (hs : s.isInner = false) (hkind : (ConstantKind.ofSymbol? s).isSome) :
      ExprRule .constant [s]
  | name : ExprRule .identRef [.ident]
  | element : ExprRule .arrayRef [.ident, .lbracket, .exprList, .rbracket]
  | callNone : ExprRule .funcCall [.ident, .lparen, .rparen]
  | call : ExprRule .funcCall [.ident, .lparen, .callArgs, .rparen]
  | cast : ExprRule .funcCall [.typeName, .lparen, .callArgs, .rparen]
  | paren : ExprRule .parenExpr [.lparen, .expr, .rparen]
  | unary {op : Symbol} (hop : (UnaryOp.ofSymbol? op).isSome) : ExprRule .unary [op, .unary]
  | binary {k l op r : Symbol} (h : OpRule k l op r) : ExprRule k [l, op, r]

theorem OpRule.isExpr {k l op r : Symbol} (h : OpRule k l op r) : l.isExpr = true ∧ r.isExpr = true := by
  cases h <;> exact ⟨rfl, rfl⟩

/-- An operator is one whatever the type of the result. -/
theorem OpRule.isSome {k l op r : Symbol} (h : OpRule k l op r) (t : Ty) : (BinaryOp.ofSymbol? t op).isSome := by
  cases h <;> rfl

theorem exprRules {k : Symbol} (hk : k.isExpr = true) : (productions k).Forall (ExprRule k) := by
  have pass {k s : Symbol} (h : (k.isPass && s.isExpr && decide (k.level ≤ s.level)) = true) : ExprRule k [s] := by
    simp only [Bool.and_eq_true, decide_eq_true_eq] at h
    exact .pass h.1.1 h.1.2 h.2
  cases k <;> cases hk
  case expr => exact pass rfl
  case orExpr => exact ⟨.binary .or, pass rfl⟩
  case andExpr => exact ⟨.binary .and, pass rfl⟩
  case cmpExpr =>
    exact ⟨.binary .eq, .binary .ne, .binary .lt, .binary .le, .binary .gt, .binary .ge, pass rfl⟩
  case concatExpr => exact ⟨.binary .concat, pass rfl⟩
  case addExpr => exact ⟨.binary .add, .binary .sub, pass rfl⟩
  case mulExpr => exact ⟨.binary .mul, .binary .div, .binary .mod, pass rfl⟩
  case unary => exact ⟨.unary rfl, .unary rfl, .unary rfl, pass rfl⟩
  case powExpr => exact ⟨.binary .pow, pass rfl⟩
  case primary => exact ⟨pass rfl, pass rfl, pass rfl, pass rfl, pass rfl⟩
  case constant =>
    exact ⟨.constant rfl rfl, .constant rfl rfl, .constant rfl rfl, .constant rfl rfl, .constant rfl rfl,
      .constant rfl rfl, .constant rfl rfl, .constant rfl rfl⟩
  case identRef => exact .name
  case arrayRef => exact .element
  case funcCall => exact ⟨.callNone, .call, .cast⟩
  case parenExpr => exact .paren

theorem exprRule_of_mem {k : Symbol} {rhs : List Symbol} (hk : k.isExpr = true) (h : rhs ∈ productions k) :
    ExprRule k rhs := List.forall_iff_forall_mem.mp (exprRules hk) rhs h

end IrafCl.Script
