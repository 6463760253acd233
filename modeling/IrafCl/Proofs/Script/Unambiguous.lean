import IrafCl.Library.Standard
import IrafCl.Proofs.Grammar.Survey
import IrafCl.Proofs.Script.Else
import IrafCl.Script.Unit

/-!
# Programs without an else

The dangling else is the only ambiguity of the CL grammar: tokens without an else have at most one
derivation from a program (`unique_of_else_free`). So the resolver decides nothing there, and every one that
takes one of the candidates gives the same tree and the same code.

One token of lookahead nearly tells how to go on. Where it does not, the token behind it does: a plus after
a name is an operator if an operand follows it, and a flag otherwise; a comma after an initial value goes on
with the values unless a name or a star follows it.
-/

namespace IrafCl.Script

open IrafCl.Script.Symbol

/-! ## What may come next -/

def constants : Nat := bits [integer, float, octal, hex, sexagesimal, string, bool, undefined]

def initials : Nat := bits [plus, minus] ||| constants

def operands : Nat := bits [ident, typeName, lparen] ||| constants

def terms : Nat := bits [plus, minus, not] ||| operands

def commands : Nat := bits [ident, kwBreak, kwNext, kwReturn, kwGoto]

def statements : Nat := bits [kwIf, kwWhile, kwFor, kwSwitch, lbrace, semi] ||| commands

/-- What a symbol begins with. -/
def begins : Symbol → Nat
  | .start => bits [kwProcedure, typeName, eof] ||| statements
  | .program => bits [kwProcedure, typeName] ||| statements
  | .procStmt => bits [kwProcedure]
  | .paramDecls | .localDecls | .declStmt => bits [typeName]
  | .bodyBlock => bits [kwBegin]
  | .declList | .declSpec | .declVar | .varName => bits [ident, star]
  | .initList | .initValue | .constList => initials
  | .constant => constants
  | .declOpts | .block => bits [lbrace]
  | .optList | .optItem => bits [ident] ||| initials
  | .term => bits [newline, semi]
  | .optNl => bits [newline]
  | .stmtList | .statement => statements
  | .simpleStmt => commands
  | .ifStmt => bits [kwIf]
  | .whileStmt => bits [kwWhile]
  | .forStmt => bits [kwFor]
  | .switchStmt => bits [kwSwitch]
  | .caseList | .caseClause => bits [kwCase, kwDefault]
  | .procArgs | .optAssign | .assignment | .lvalue | .pipeline | .taskCall | .cmdWord | .identRef
  | .arrayRef => bits [ident]
  | .cmdArgs | .cmdArg => bits [ident] ||| constants
  | .redirs | .redir => bits [lt, gt, redirOp]
  | .redirTarget => bits [string, ident, lparen]
  | .callArgs | .callArg | .exprList | .optExpr | .expr | .orExpr | .andExpr | .cmpExpr | .concatExpr | .addExpr
  | .mulExpr | .unary => terms
  | .powExpr | .primary => operands
  | .funcCall => bits [ident, typeName]
  | .parenExpr => bits [lparen]
  | s => bits [s]

def closers : Nat := bits [newline, semi, rbrace]

def afterCall : Nat := bits [pipe] ||| closers

def afterRedir : Nat := bits [lt, gt, redirOp] ||| afterCall

def afterArg : Nat := bits [ident] ||| constants ||| afterRedir

def afterExpr : Nat := bits [comma, rparen, rbracket] ||| closers

def afterAnd : Nat := bits [andAnd, orOr] ||| afterExpr

def afterConcat : Nat := bits [concat, eqEq, ne, lt, le, gt, ge] ||| afterAnd

def afterAdd : Nat := bits [plus, minus] ||| afterConcat

def afterMul : Nat := bits [star, slash, percent] ||| afterAdd

def afterPrimary : Nat := bits [pow] ||| afterMul

def afterInit : Nat := bits [colon, comma, lbrace] ||| closers

def afterDecls : Nat := bits [typeName, kwEnd, eof] ||| statements

def afterStatement : Nat := bits [kwElse, kwCase, kwDefault, kwEnd, rbrace, eof] ||| statements

/-- What may come after a symbol. -/
def follows : Symbol → Glimpse Symbol
  | .start | .program | .bodyBlock => ⟨bits [eof], []⟩
  | .procStmt | .paramDecls => ⟨bits [typeName, kwBegin], []⟩
  | .localDecls => ⟨afterDecls, []⟩
  | .declStmt => ⟨bits [kwBegin] ||| afterDecls, []⟩
  | .declList | .declSpec | .declOpts => ⟨bits [comma, newline, semi], [(comma, bits [ident, star])]⟩
  | .declVar => ⟨bits [comma, lbrace, newline, semi], [(comma, bits [ident, star])]⟩
  | .varName => ⟨bits [equals, comma, lbrace, newline, semi], []⟩
  | .initList => ⟨bits [comma, lbrace, newline, semi], []⟩
  | .initValue => ⟨afterInit, []⟩
  | .optList | .optItem => ⟨bits [comma, newline, rbrace], []⟩
  | .constant => ⟨afterInit ||| afterArg ||| afterPrimary, []⟩
  | .term => ⟨bits [typeName, kwBegin] ||| afterStatement, []⟩
  | .optNl => ⟨bits [typeName] ||| afterStatement, []⟩
  | .stmtList => ⟨bits [kwEnd, rbrace, eof] ||| statements, []⟩
  | .statement | .block | .ifStmt | .whileStmt | .forStmt | .switchStmt => ⟨afterStatement, []⟩
  | .simpleStmt => ⟨closers, []⟩
  | .optAssign => ⟨bits [semi, rparen], []⟩
  | .optExpr => ⟨bits [semi], []⟩
  | .caseList | .caseClause => ⟨bits [kwCase, kwDefault, rbrace], []⟩
  | .constList => ⟨bits [colon, comma], []⟩
  | .assignment => ⟨bits [rparen] ||| closers, []⟩
  | .lvalue => ⟨bits [equals, assignOp], []⟩
  | .pipeline | .taskCall => ⟨afterCall, []⟩
  | .redirs | .redir | .redirTarget => ⟨afterRedir, []⟩
  | .cmdArgs | .cmdArg | .cmdWord => ⟨afterArg, []⟩
  | .procArgs | .callArgs | .callArg => ⟨bits [comma, rparen], []⟩
  | .exprList => ⟨bits [comma, rbracket], []⟩
  | .expr => ⟨afterExpr, []⟩
  | .orExpr => ⟨bits [orOr] ||| afterExpr, []⟩
  | .andExpr | .cmpExpr => ⟨afterAnd, []⟩
  | .concatExpr => ⟨afterConcat, []⟩
  | .addExpr => ⟨afterAdd, [(plus, terms), (minus, terms)]⟩
  | .mulExpr | .unary | .powExpr => ⟨afterMul, [(plus, terms), (minus, terms)]⟩
  | .primary | .identRef => ⟨afterPrimary, [(plus, terms), (minus, terms)]⟩
  | .arrayRef | .funcCall | .parenExpr => ⟨afterPrimary, []⟩
  | _ => ⟨0, []⟩

/-- What may come next in a program. -/
def outlook : Outlook Symbol where
  bit := Symbol.ctorIdx
  inner := Symbol.isInner
  vanishes s := (bits vanishing).testBit s.ctorIdx
  blank s := (bits ((rules.filter (·.rhs.isEmpty)).map (·.lhs))).testBit s.ctorIdx
  begins := begins
  follows := follows

theorem has_bits {l : List Symbol} {s : Symbol} : outlook.has (bits l) s = true ↔ s ∈ l := testBit_bits

theorem isInner_eq {s : Symbol} (hs : s ≠ .start) : s.isInner = grammar.isNonterminal s := by
  rw [Bool.eq_iff_iff]
  exact ⟨isNonterminal_of_isInner, fun h => isInner_of_isNonterminal h hs⟩

theorem has_begins_terminal {s : Symbol} (h : grammar.isNonterminal s = false) : outlook.has (begins s) s = true := by
  have hstart : s ≠ .start := by
    rintro rfl
    have hnonterminal : grammar.isNonterminal .start = true := Grammar.isNonterminal_lhs grammar.first
    rw [hnonterminal] at h
    cases h
  have hinner : s.isInner ≠ true := by
    intro hinner
    rw [isNonterminal_of_isInner hinner] at h
    cases h
  cases s
  case start => exact absurd rfl hstart
  all_goals first
    | exact absurd rfl hinner
    | exact has_bits.mpr (List.mem_singleton_self _)

theorem blank_unique (r r' : grammar.Index) (h : (grammar.rule r).rhs = []) (h' : (grammar.rule r').rhs = [])
    (hlhs : (grammar.rule r).lhs = (grammar.rule r').lhs) : r = r' := by
  have hnodup : ((grammar.openings.filter (·.rest.isEmpty)).map (·.lhs)).Nodup := by decide +kernel
  have hmem : ∀ r, (grammar.rule r).rhs = [] → grammar.opening r ∈ grammar.openings.filter (·.rest.isEmpty) := by
    intro r hr
    refine List.mem_filter.mpr ⟨Grammar.opening_mem_openings r, ?_⟩
    rw [Grammar.opening, hr]
    rfl
  have heq : grammar.opening r = grammar.opening r' := List.inj_on_of_nodup_map hnodup (hmem r h) (hmem r' h') hlhs
  exact Fin.ext (congrArg (·.rule) heq)

/-- The rules of CL keep to the tables. -/
theorem sound_outlook : outlook.Sound grammar where
  bit_inj _ _ := ctorIdx_inj
  inner r s hs := isInner_eq fun heq => by
    rw [heq] at hs
    exact start_notMem_rhs r hs
  vanishes r h := testBit_bits.mpr (vanishing_closed r fun x hx => testBit_bits.mp (h x hx))
  blank r h := by
    have hmem : grammar.rule r ∈ rules := rule_mem_rules fun hlhs => by
      rw [rooted_grammar r hlhs] at h
      cases h
    exact testBit_bits.mpr (List.mem_map_of_mem (List.mem_filter.mpr ⟨hmem, by rw [h]; rfl⟩))
  blank_unique := blank_unique
  terminal _ := has_begins_terminal
  begins := by
    have hrules : ∀ r ∈ rules, Outlook.within (outlook.heads 0 r.rhs) (begins r.lhs) = true := by decide +kernel
    exact forall_rule (by decide +kernel) hrules
  follows := by
    have hrules : ∀ r ∈ rules, outlook.admits r.lhs r.rhs = true := by decide +kernel
    exact forall_rule (by decide +kernel) hrules

/-! ## Which spots share a stack -/

/-- Operands inside of operations inside of expressions. -/
def ladder : List Symbol :=
  [expr, orExpr, andExpr, cmpExpr, concatExpr, addExpr, mulExpr, unary, powExpr, primary, Symbol.constant, identRef,
    arrayRef, funcCall, parenExpr]

/-- The nonterminals that what a symbol stands for may begin with. -/
def leads : Symbol → Nat
  | .start => bits [start, program, procStmt, localDecls]
  | .program => bits [program, procStmt, localDecls]
  | .declList => bits [declList, declSpec, declVar, varName]
  | .declSpec => bits [declSpec, declVar, varName]
  | .declVar => bits [declVar, varName]
  | .initList => bits [initList, initValue, Symbol.constant]
  | .constList => bits [constList, initValue, Symbol.constant]
  | .initValue => bits [initValue, Symbol.constant]
  | .optList => bits [optList, optItem, initValue, Symbol.constant]
  | .optItem => bits [optItem, initValue, Symbol.constant]
  | .cmdArg => bits [cmdArg, cmdWord, Symbol.constant]
  | .caseList => bits [caseList, caseClause]
  | .statement => bits [statement, simpleStmt, block, ifStmt, whileStmt, forStmt, switchStmt, assignment, lvalue,
      pipeline, taskCall]
  | .simpleStmt => bits [simpleStmt, assignment, lvalue, pipeline, taskCall]
  | .pipeline => bits [pipeline, taskCall]
  | .assignment => bits [assignment, lvalue]
  | .optAssign => bits [optAssign, assignment, lvalue]
  | .callArgs => bits [callArgs, callArg] ||| bits ladder
  | .callArg => bits [callArg] ||| bits ladder
  | .exprList => bits [exprList] ||| bits ladder
  | .optExpr => bits [optExpr] ||| bits ladder
  | s => if s.isPass then bits (ladder.dropWhile (· ≠ s)) else if s.isInner then bits [s] else 0

/-- Spots of two symbols behind one name share a stack when it is not yet known what the name is for. -/
def kin (a b : Symbol) : Bool :=
  [bits [statement, lvalue, taskCall], bits [callArg, identRef, arrayRef, funcCall], bits [cmdArg, cmdWord]].any
    (Outlook.within (bits [a, b]))

/-- Behind a symbol a spot of its own list or operation goes on with it. -/
def resumes (s lhs : Symbol) : Bool := s = lhs || (s = .simpleStmt && lhs = .statement)

/-- A spot goes on beside another one: they stand behind the same symbols of a left-hand side, or the second
stands behind the first symbol of its rule. -/
def follow (k k' : Spot Symbol) : Bool :=
  match k.before, k'.before with
  | [], [] => k.lhs = .start && k'.lhs = .start
  | s :: front, s' :: front' =>
    s = s' && ((k.lhs = k'.lhs && front = front') ||
      (front'.isEmpty && (resumes s k'.lhs || (s = .ident && front.isEmpty && kin k.lhs k'.lhs))))
  | _, _ => false

/-- The spots of the CL grammar. -/
def survey : Survey Symbol where
  leads := leads
  tops := [start, bodyBlock, callArgs, caseList, cmdArg, cmdArgs, constList, declList, declOpts, declStmt, exprList,
    initList, optAssign, optExpr, optList, optNl, paramDecls, procArgs, redir, redirTarget, redirs, statement, stmtList,
    Symbol.term]
  meetings := [(cmdArg, redirs), (Symbol.constant, cmdWord), (statement, simpleStmt), (optNl, optList),
    (declStmt, bodyBlock), (declStmt, stmtList)]
  beside k k' := follow k k' || follow k' k

theorem code_of_follow {k k' : Spot Symbol} (h : follow k k' = true) : outlook.code k = outlook.code k' := by
  unfold follow at h
  unfold Outlook.code
  split at h
  · next hk hk' => rw [hk, hk']
  · next hk hk' =>
    rw [Bool.and_eq_true, decide_eq_true_eq] at h
    rw [hk, hk', h.1]
  · cases h

/-- A spot that stands behind nothing is only beside one of the start rule. -/
theorem lhs_of_follow {k k' : Spot Symbol} (h : follow k k' = true) (hbefore : k.before = [] ∨ k'.before = []) :
    k.lhs = .start ∧ k'.lhs = .start := by
  unfold follow at h
  split at h
  · simpa using h
  · next hk hk' => simp [hk, hk'] at hbefore
  · cases h

theorem clears_survey : survey.Clears outlook grammar (bits [kwElse]) where
  comm k k' := Bool.or_comm _ _
  start := by decide +kernel
  behind k k' h := by
    rcases Bool.or_eq_true_iff.mp h with h | h
    · exact code_of_follow h
    · exact (code_of_follow h).symm
  begun k k' h hbefore := by
    rcases Bool.or_eq_true_iff.mp h with h | h
    · exact (lhs_of_follow h (.inl hbefore)).1
    · exact (lhs_of_follow h (.inr hbefore)).2
  leads_self := by
    have hrules : ∀ r ∈ rules, outlook.has (leads r.lhs) r.lhs = true := by decide +kernel
    exact forall_rule (P := fun r => outlook.has (leads r.lhs) r.lhs = true) (by decide +kernel) hrules
  leads_head := by
    have hrules : ∀ r ∈ rules, ∀ s ∈ r.rhs.head?, Outlook.within (leads s) (leads r.lhs) = true := by decide +kernel
    intro r s rest hrhs
    refine forall_rule (P := fun r => ∀ s ∈ r.rhs.head?, Outlook.within (leads s) (leads r.lhs) = true)
      (by decide +kernel) hrules r s ?_
    rw [hrhs]
    rfl
  leads_top := by
    have hrules : ∀ r ∈ rules, ∃ t ∈ survey.tops, Outlook.within (leads r.lhs) (leads t) = true := by decide +kernel
    exact forall_rule (P := fun r => ∃ t ∈ survey.tops, Outlook.within (leads r.lhs) (leads t) = true)
      (by decide +kernel) hrules
  kernels := ⟨7, by decide +kernel⟩
  tops := by decide +kernel
  meetings := by decide +kernel

/-! ## Programs -/

/-- Derivations by the start rule of the same tokens are the same, if none of these is an else. -/
theorem children_eq {ds ds' : List (Derivation grammar)} (h : (Derivation.node grammar.first ds).Valid)
    (h' : (Derivation.node grammar.first ds').Valid) {ts : List (Token Symbol)}
    (hyield : Derivation.yieldAll ds = ts) (hyield' : Derivation.yieldAll ds' = ts)
    (hfree : ∀ t ∈ ts, t.kind ≠ .kwElse) : ds = ds' := by
  let last : Token Symbol := ⟨.eof, [], none, 0⟩
  have hlast : (outlook.follows (grammar.rule grammar.first).lhs).Holds outlook [last] :=
    ⟨last, [], rfl, has_bits.mpr (List.mem_singleton_self _), nofun⟩
  have hbarred : ∀ t ∈ ts ++ [last], outlook.has (bits [kwElse]) t.kind = false := by
    intro t ht
    rw [Bool.eq_false_iff, Ne, has_bits, List.mem_singleton]
    rcases List.mem_append.mp ht with ht | ht
    · exact hfree t ht
    · rw [List.mem_singleton.mp ht]
      decide
  exact (clears_survey.decided rooted_grammar sound_outlook).unique sound_outlook (by decide) start_notMem_rhs hlast
    h h' hyield hyield' hbarred

/-- A program with the end of input behind it. -/
theorem valid_closed {d : Derivation grammar} (hd : d.Valid) (hsymbol : d.symbol = .program) (line : Int) :
    (Derivation.node grammar.first [d, .token ⟨.eof, [], none, line⟩]).Valid := by
  refine .node _ _ ?_ fun e he => ?_
  · rw [List.map_cons, hsymbol]
    rfl
  · rcases List.mem_cons.mp he with rfl | he
    · exact hd
    · rw [List.mem_singleton.mp he]
      refine .token _ (Bool.eq_false_iff.mpr fun h => ?_)
      cases isInner_of_isNonterminal h (show Symbol.eof ≠ .start by decide)

theorem else_free_withEnd {tokens : List (Token Symbol)} (h : ∀ t ∈ tokens, t.kind ≠ .kwElse) :
    ∀ t ∈ Chart.withEnd tokens, t.kind ≠ .kwElse := by
  intro t ht
  rcases Chart.mem_of_mem_withEnd ht with ht | ht
  · exact h t ht
  · rw [ht]
    decide

/-- Tokens without an else have at most one derivation from a program, so every resolver that takes one of the
candidates gives the same tree, and the same code. -/
theorem unique_of_else_free [Library] {tokens : List (Token Symbol)} (h : ∀ t ∈ tokens, t.kind ≠ .kwElse) :
    (∀ d d' : Derivation grammar, d.Valid → d'.Valid → d.symbol = .program → d'.symbol = .program →
      d.yield = tokens → d'.yield = tokens → d = d') ∧
    ∀ resolver : Resolver Symbol, resolver.Decisive →
      (grammar.parseWith lookaheads resolver tokens).outcome.map Derivation.tree = parse tokens ∧
      ∀ st, ((grammar.parseWith lookaheads resolver tokens).outcome.map fun d => compileTree st d.tree) =
        (parse tokens).map (compileTree st) := by
  refine ⟨fun d d' hd hd' hsymbol hsymbol' hyield hyield' => ?_, fun resolver hresolver => ?_⟩
  · let last : Token Symbol := ⟨.eof, [], none, 0⟩
    have hclosed : ∀ d : Derivation grammar, d.yield = tokens →
        Derivation.yieldAll [d, .token last] = tokens ++ [last] := by
      rintro d rfl
      simp only [Derivation.yieldAll, Derivation.yield, List.append_nil]
    have hfree : ∀ t ∈ tokens ++ [last], t.kind ≠ .kwElse := by
      intro t ht
      rcases List.mem_append.mp ht with ht | ht
      · exact h t ht
      · rw [List.mem_singleton.mp ht]
        decide
    have heq := children_eq (valid_closed hd hsymbol 0) (valid_closed hd' hsymbol' 0) (hclosed d hyield)
      (hclosed d' hyield') hfree
    exact (List.cons.inj heq).1
  · have houtcome : (grammar.parseWith lookaheads resolver tokens).outcome =
        (grammar.parseWith lookaheads Resolver.shortestRule tokens).outcome :=
      Grammar.outcome_eq_of_unique acyclic_grammar
        (fun ds ds' hvalid hvalid' hyield hyield' => children_eq hvalid hvalid' hyield hyield' (else_free_withEnd h))
        hresolver Resolver.decisive_shortestRule
    rw [houtcome]
    refine ⟨rfl, fun st => ?_⟩
    unfold parse
    cases (grammar.parseWith lookaheads Resolver.shortestRule tokens).outcome <;> rfl

/-- The leaves of a program tree without an else are parsed as that tree. -/
theorem parse_leaves {t : Tree} (ht : t.Conforms grammar) (hkind : t.kind? = some .program)
    (htypes : ∀ m ∈ t.nodes, m.types = .unset) (hleaves : ∀ token ∈ t.leaves, token.kind ≠ .kwElse ∧ token.kind ≠ .eof) :
    parse t.leaves = .ok t := by
  have hinner : ∀ r, r ≠ grammar.first → (grammar.rule grammar.first).lhs ∉ (grammar.rule r).rhs :=
    fun r _ => start_notMem_rhs r
  have hstart : t.kind? ≠ some (grammar.rule grammar.first).lhs := by
    rw [hkind]
    exact fun h => absurd (Option.some.inj h) (by decide)
  obtain ⟨d, hd, hsymbol, htree⟩ := Derivation.exists_of_conforms hinner ht hstart htypes
  have hprogram : d.symbol = .program := Option.some.inj (hsymbol.symm.trans hkind)
  have hyield : d.yield = t.leaves := by
    rw [← htree]
    exact (Derivation.tree_spec hinner hd (by rw [hprogram]; decide)).2.2.symm
  obtain ⟨line, hend⟩ := Chart.withEnd_eq_append fun token h => (hleaves token h).2
  have hvalid := valid_closed hd hprogram line
  have hclosed : Derivation.yieldAll [d, .token ⟨.eof, [], none, line⟩] = Chart.withEnd t.leaves := by
    rw [hend, ← hyield]
    simp only [Derivation.yieldAll, Derivation.yield, List.append_nil]
    rfl
  have hcovers : grammar.Covers (Chart.withEnd t.leaves) :=
    hvalid.spans_rhs (by rw [Grammar.between_length]; exact hclosed) (Nat.zero_le _) fun _ => Nat.le_refl _
  obtain ⟨ds, hout, hvalid', hyield'⟩ := Grammar.parse_of_covers acyclic_grammar Resolver.decisive_shortestRule hcovers
  have hds := children_eq hvalid' hvalid hyield' hclosed (else_free_withEnd fun token h => (hleaves token h).1)
  have hmap := congrArg (Except.map Derivation.tree) hout
  rw [hds] at hmap
  refine hmap.trans (congrArg Except.ok ?_)
  rw [Derivation.tree_first, htree]

/-- A text with the leaves of a program tree without an else for tokens has that tree. -/
theorem tree_eq_ok {source : Bytes} {t : Tree} (htokens : (tokenize source).toOption = some t.leaves) (ht : Grown t)
    (hkind : t.kind? = some .program) (htypes : ∀ m ∈ t.nodes, m.types = .unset)
    (hleaves : ∀ token ∈ t.leaves, token.kind ≠ .kwElse ∧ token.kind ≠ .eof) : tree source = .ok t :=
  bind_eq_ok.mpr ⟨_, tokenize_eq_ok htokens, parse_leaves ht.conforms hkind htypes hleaves⟩

/-- The tokens of a task with a flag. -/
def flagged : List (Token Symbol) :=
  [⟨.ident, "t", none, 1⟩, ⟨.ident, "a", none, 1⟩, ⟨.plus, "+", none, 1⟩, ⟨.newline, "\n", none, 1⟩]

theorem covers_flagged : grammar.Covers (flagged ++ [⟨.eof, [], none, 1⟩]) := by
  let ts : List (Token Symbol) := flagged ++ [⟨.eof, [], none, 1⟩]
  show grammar.Covers ts
  have vanish (k : Symbol) (i : Nat) (hk : (productions k).contains [] = true) : grammar.Spans ts [k] i i :=
    spans_of_production (mem_productions hk) (.nil i)
  have name {i : Nat} {text : Bytes} (hi : ts[i]? = some ⟨.ident, text, none, 1⟩) : grammar.Spans ts [.ident] i (i + 1) :=
    spans_leaf hi rfl nofun
  have flag : grammar.Spans ts [.cmdArg] 1 3 := spans_of_production
    (show [.ident, .plus] ∈ productions .cmdArg from mem_productions rfl)
    ((name rfl).append (spans_leaf (i := 2) (t := ⟨.plus, "+", none, 1⟩) rfl rfl nofun))
  have args : grammar.Spans ts [.cmdArgs] 1 3 := spans_of_production
    (show [.cmdArgs, .cmdArg] ∈ productions .cmdArgs from mem_productions rfl)
    ((vanish .cmdArgs _ rfl).append flag)
  have call : grammar.Spans ts [.taskCall] 0 3 := spans_of_production
    (show [.ident, .cmdArgs, .redirs] ∈ productions .taskCall from mem_productions rfl)
    ((name rfl).append (args.append (vanish .redirs _ rfl)))
  have simple : grammar.Spans ts [.simpleStmt] 0 3 := spans_of_production
    (show [.pipeline] ∈ productions .simpleStmt from mem_productions rfl)
    (spans_of_production (show [.taskCall] ∈ productions .pipeline from mem_productions rfl) call)
  have term : grammar.Spans ts [.term] 3 4 := spans_of_production
    (show [.newline] ∈ productions .term from mem_productions rfl)
    (spans_leaf (i := 3) (t := ⟨.newline, "\n", none, 1⟩) rfl rfl nofun)
  have statement : grammar.Spans ts [.statement] 0 4 := spans_of_production
    (show [.simpleStmt, .term] ∈ productions .statement from mem_productions rfl) (simple.append term)
  have list : grammar.Spans ts [.stmtList] 0 4 := spans_of_production
    (show [.stmtList, .statement] ∈ productions .stmtList from mem_productions rfl)
    ((vanish .stmtList _ rfl).append statement)
  have program : grammar.Spans ts [.program] 0 4 := spans_of_production
    (show [.localDecls, .stmtList] ∈ productions .program from mem_productions rfl)
    ((vanish .localDecls _ rfl).append list)
  exact program.append (spans_leaf (i := 4) (t := ⟨.eof, [], none, 1⟩) rfl rfl nofun)

/-- A task with a flag has one derivation, and the resolver for the longest rule gives its tree too. -/
theorem unique_of_else_free_flagged : (∀ t ∈ flagged, t.kind ≠ .kwElse) ∧
    (∃ d : Derivation grammar, (d.Valid ∧ d.symbol = .program ∧ d.yield = flagged) ∧
      ∀ d' : Derivation grammar, d'.Valid → d'.symbol = .program → d'.yield = flagged → d' = d) ∧
    (grammar.parseWith lookaheads Resolver.longestRule flagged).outcome.map Derivation.tree = parse flagged := by
  have hfree : ∀ t ∈ flagged, t.kind ≠ .kwElse := by decide
  have hend : Chart.withEnd flagged = flagged ++ [⟨.eof, [], none, 1⟩] := rfl
  have hcovers := covers_flagged
  rw [← hend] at hcovers
  obtain ⟨ds, -, hvalid, hyield⟩ := Grammar.parse_of_covers acyclic_grammar Resolver.decisive_shortestRule hcovers
  obtain ⟨d, -, rfl, hd, hprogram, hdrop⟩ :=
    Derivation.children_of_first (show (grammar.rule grammar.first).rhs = [.program, .eof] from rfl)
      (Chart.closed_withEnd flagged) hvalid hyield
  rw [hend, List.dropLast_concat] at hdrop
  obtain ⟨hunique, hresolver⟩ := unique_of_else_free hfree
  refine ⟨hfree, ⟨d, ⟨hd, hprogram, hdrop⟩, fun d' hd' hprogram' hyield' => ?_⟩,
    (hresolver .longestRule Resolver.decisive_longestRule).1⟩
  exact hunique d' d hd' hd hprogram' hprogram hyield' hdrop

end IrafCl.Script
