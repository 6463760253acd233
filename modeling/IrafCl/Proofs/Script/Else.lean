import IrafCl.Proofs.Chart.Preference
import IrafCl.Proofs.Script.Parsing

/-!
# The nearest if

An else belongs to the nearest if that has none: what stands before an else never ends with such an if
(`endsOpen_of_else`), however many else branches, loops and labels lead down to it. Otherwise the inner if
could have had the else. The derivation in which it has is over the same tokens, and the outer if is
derived there by the rule without an else, which has fewer symbols (`exists_extended`); but the parser
prefers the rules with the fewest symbols.
-/

namespace IrafCl.Script

open IrafCl.Derivation (symbol yield yieldAll yieldAll_append tree_node tree_first tree_spec children_of_first)

/-! ## Open statements -/

mutual

/-- Whether a statement ends with an if without an else: the last statement in it, down through else
branches, loops and labels, is one. -/
def endsOpen : Tree → Bool
  | .branch .ifStmt _ cs => !cs.any (fun c => c.kind? = some .kwElse) || lastOpen cs
  | .branch .statement _ cs | .branch .whileStmt _ cs | .branch .forStmt _ cs => lastOpen cs
  | _ => false

def lastOpen : List Tree → Bool
  | [] => false
  | [c] => endsOpen c
  | _ :: c :: cs => lastOpen (c :: cs)

end

theorem exists_last_of_lastOpen : ∀ {cs : List Tree}, lastOpen cs = true →
    ∃ front c, cs = front ++ [c] ∧ endsOpen c = true
  | [], h => by simp [lastOpen] at h
  | [c], h => ⟨[], c, rfl, by rwa [lastOpen] at h⟩
  | b :: c :: cs, h => by
    rw [lastOpen] at h
    obtain ⟨front, l, hcs, hl⟩ := exists_last_of_lastOpen h
    exact ⟨b :: front, l, by rw [hcs, List.cons_append], hl⟩

/-- A node is open because it is an if without an else, or because its last child is open. -/
theorem endsOpen_branch {k : Symbol} {types : Types} {cs : List Tree} (h : endsOpen (.branch k types cs) = true) :
    (k = .ifStmt ∧ ∀ c ∈ cs, c.kind? ≠ some .kwElse) ∨ lastOpen cs = true := by
  cases k
  case ifStmt => simpa [endsOpen] using h
  case statement | whileStmt | forStmt => exact .inr (by rwa [endsOpen] at h)
  all_goals simp [endsOpen] at h

/-! ## The two rules -/

/-- What stands before the first statement of an if. -/
def ifHead : List Symbol := [.kwIf, .lparen, .expr, .rparen, .optNl]

/-- An else and its statement. -/
def elseTail : List Symbol := [.kwElse, .optNl, .statement]

theorem productions_ifStmt :
    productions .ifStmt = [ifHead ++ [.statement], ifHead ++ .statement :: elseTail] := rfl

/-- An if has one rule without an else and one with it. -/
theorem rhs_ifStmt {r : grammar.Index} (h : (grammar.rule r).lhs = .ifStmt) :
    (grammar.rule r).rhs =
      if .kwElse ∈ (grammar.rule r).rhs then ifHead ++ .statement :: elseTail else ifHead ++ [.statement] := by
  have hmem := rhs_mem_productions (r := r) (by rw [h]; decide)
  rw [h, productions_ifStmt, List.mem_pair] at hmem
  rcases hmem with hrhs | hrhs
  · rw [hrhs, if_neg (by decide)]
  · rw [hrhs, if_pos (by decide)]

theorem exists_rule_if : ∃ r : grammar.Index,
    (grammar.rule r).lhs = .ifStmt ∧ (grammar.rule r).rhs = ifHead ++ [.statement] :=
  exists_rule_of_mem_productions (by rw [productions_ifStmt]; exact List.mem_cons_self)

theorem exists_rule_else : ∃ r : grammar.Index,
    (grammar.rule r).lhs = .ifStmt ∧ (grammar.rule r).rhs = ifHead ++ .statement :: elseTail :=
  exists_rule_of_mem_productions (by rw [productions_ifStmt]; exact List.mem_of_getLast? rfl)

/-! ## Giving an else to an open statement -/

theorem symbol_ne_start_of_mem {r : grammar.Index} {ds : List (Derivation grammar)}
    (hrhs : ds.map symbol = (grammar.rule r).rhs) {d : Derivation grammar} (hd : d ∈ ds) : d.symbol ≠ .start := by
  intro hs
  refine start_notMem_rhs r ?_
  rw [← hrhs]
  exact List.mem_map.mpr ⟨d, hd, hs⟩

theorem kind?_tree {d : Derivation grammar} (hd : d.Valid) (hs : d.symbol ≠ .start) :
    d.tree.kind? = some d.symbol :=
  (tree_spec (fun r _ => start_notMem_rhs r) hd hs).2.1

theorem rule_ne_first {r : grammar.Index} {ds : List (Derivation grammar)}
    (hs : (Derivation.node r ds).symbol ≠ .start) : r ≠ grammar.first := by
  rintro rfl
  exact hs rfl

/-- An open statement followed by an else can be derived as one statement, in which the else belongs to the
if that was open. -/
theorem exists_extended {tail : List (Derivation grammar)} (htail : tail.map symbol = elseTail)
    (hvalid : ∀ d ∈ tail, d.Valid) {d : Derivation grammar} (hd : d.Valid) :
    d.symbol ≠ .start → endsOpen d.tree = true →
      ∃ d' : Derivation grammar, d'.Valid ∧ d'.symbol = d.symbol ∧ d'.yield = d.yield ++ yieldAll tail := by
  induction hd with
  | token t hn =>
    intro _ hopen
    simp [Derivation.tree, Derivation.eval, endsOpen] at hopen
  | node r ds hrhs hds ih =>
    intro hs hopen
    rw [tree_node (rule_ne_first hs), Node.new] at hopen
    rcases endsOpen_branch hopen with ⟨hif, hnone⟩ | hlast
    · -- the if itself is open, and gets the else
      have hshort : .kwElse ∉ (grammar.rule r).rhs := by
        intro hmem
        rw [← hrhs] at hmem
        obtain ⟨d, hd, hsymbol⟩ := List.mem_map.mp hmem
        refine hnone d.tree (List.mem_map_of_mem hd) ?_
        rw [kind?_tree (hds d hd) (symbol_ne_start_of_mem hrhs hd), hsymbol]
      rw [rhs_ifStmt hif, if_neg hshort] at hrhs
      obtain ⟨r', hlhs', hrhs'⟩ := exists_rule_else
      refine ⟨.node r' (ds ++ tail), .node r' _ ?_ ?_, ?_, ?_⟩
      · rw [List.map_append, hrhs, htail, hrhs', List.append_assoc]
        rfl
      · intro d hd
        rcases List.mem_append.mp hd with hd | hd
        · exact hds d hd
        · exact hvalid d hd
      · rw [symbol, symbol, hlhs', hif]
      · rw [yield, yield, yieldAll_append]
    · -- the last statement in it is open, and takes the else
      obtain ⟨front, c, hmap, hc⟩ := exists_last_of_lastOpen hlast
      obtain ⟨ds', last, rfl, -, hlast⟩ := List.map_eq_append_iff.mp hmap
      obtain ⟨e, rfl, rfl⟩ := List.map_eq_singleton_iff.mp hlast
      obtain ⟨e', hvalid', hsymbol', hyield'⟩ := ih e (by simp) (symbol_ne_start_of_mem hrhs (by simp)) hc
      refine ⟨.node r (ds' ++ [e']), .node r _ ?_ ?_, rfl, ?_⟩
      · rw [← hrhs, List.map_append, List.map_append, List.map_singleton, List.map_singleton, hsymbol']
      · intro d hd
        rcases List.mem_append.mp hd with hd | hd
        · exact hds d (List.mem_append_left _ hd)
        · rw [List.mem_singleton.mp hd]
          exact hvalid'
      · simp only [yield, yieldAll_append, yieldAll, hyield', List.append_nil, List.append_assoc]

/-! ## Trees of parses -/

/-- The nodes of the tree of a frugal derivation are trees of frugal derivations. -/
theorem exists_frugal_of_mem_nodes {d : Derivation grammar} (hd : d.Valid) : d.symbol ≠ .start → d.Frugal →
    ∀ n ∈ d.tree.nodes, ∃ e : Derivation grammar, e.Valid ∧ e.symbol ≠ .start ∧ e.Frugal ∧ e.tree = n := by
  induction hd with
  | token t hn =>
    intro hs hf n hmem
    have hn' : n = .leaf t := by simpa [Derivation.tree, Derivation.eval, Node.nodes] using hmem
    exact ⟨.token t, .token t hn, hs, hf, hn'.symm⟩
  | node r ds hrhs hds ih =>
    intro hs hf n hmem
    have htree : (Derivation.node r ds).tree = _ := tree_node (rule_ne_first hs)
    have hmem' := hmem
    rw [htree, Node.new, Node.nodes, Node.nodesOf_eq_flatMap, List.flatMap_map] at hmem'
    rcases List.mem_cons.mp hmem' with rfl | hmem'
    · exact ⟨.node r ds, .node r ds hrhs hds, hs, hf, htree⟩
    · obtain ⟨e, he, hmem'⟩ := List.mem_flatMap.mp hmem'
      cases hf with
      | node _ _ hfds _ => exact ih e he (symbol_ne_start_of_mem hrhs he) (hfds e he) n hmem'

/-- In the tree of a frugal derivation the statement before an else is not open. -/
theorem endsOpen_of_frugal {d : Derivation grammar} (hd : d.Valid) (hs : d.symbol ≠ .start) (hf : d.Frugal)
    (hkind : d.tree.kind? = some .ifStmt) (helse : ∃ c ∈ d.tree.children, c.kind? = some .kwElse) :
    ∃ s, d.tree.children[5]? = some s ∧ s.kind? = some .statement ∧ endsOpen s = false := by
  rw [kind?_tree hd hs, Option.some.injEq] at hkind
  cases hd with
  | token t hn =>
    rw [symbol] at hkind
    rw [hkind, isNonterminal_of_isInner rfl] at hn
    cases hn
  | node r ds hrhs hds =>
    have hchildren : (Derivation.node r ds).tree.children = ds.map Derivation.tree := by
      rw [tree_node (rule_ne_first hs)]
      rfl
    rw [hchildren] at helse ⊢
    -- the rule is the one with an else
    have hlong : .kwElse ∈ (grammar.rule r).rhs := by
      obtain ⟨c, hc, hckind⟩ := helse
      obtain ⟨e, he, rfl⟩ := List.mem_map.mp hc
      rw [kind?_tree (hds e he) (symbol_ne_start_of_mem hrhs he), Option.some.injEq] at hckind
      rw [← hrhs, ← hckind]
      exact List.mem_map_of_mem he
    have hrule := rhs_ifStmt hkind
    rw [if_pos hlong] at hrule
    have hsplit := hrhs
    rw [hrule] at hsplit
    obtain ⟨front, rest, rfl, hfront, hrest⟩ := List.map_eq_append_iff.mp hsplit
    obtain ⟨s, tail, rfl, hsymbol, htail⟩ := List.map_eq_cons_iff.mp hrest
    have hstatement : s ∈ front ++ s :: tail := by simp
    have hlength : front.length = 5 := by simpa [ifHead] using congrArg List.length hfront
    have hne := symbol_ne_start_of_mem hrhs hstatement
    refine ⟨s.tree, ?_, ?_, ?_⟩
    · rw [List.map_append, List.map_cons, List.getElem?_append_right (by simp [hlength])]
      simp [hlength]
    · rw [kind?_tree (hds s hstatement) hne, hsymbol]
    · -- otherwise the else could belong to it, and the rule without an else would do
      by_contra hopen
      rw [Bool.not_eq_false] at hopen
      obtain ⟨s', hvalid', hsymbol', hyield'⟩ :=
        exists_extended htail (fun d hd => hds d (by simp [hd])) (hds s hstatement) hne hopen
      obtain ⟨r', hlhs', hrhs'⟩ := exists_rule_if
      cases hf with
      | node _ _ _ hleast =>
        have hle := hleast r' (front ++ [s']) ?_ (by rw [hlhs']; exact hkind.symm) ?_
        · rw [hrule, hrhs'] at hle
          simp [ifHead, elseTail] at hle
        · refine .node r' _ ?_ ?_
          · rw [List.map_append, hfront, List.map_singleton, hsymbol', hsymbol, hrhs']
          · intro d hd
            rcases List.mem_append.mp hd with hd | hd
            · exact hds d (List.mem_append_left _ hd)
            · rw [List.mem_singleton.mp hd]
              exact hvalid'
        · simp only [yieldAll_append, yieldAll, hyield', List.append_nil]

/-- An else belongs to the nearest if: the statement between an if and its else does not end with an if
that has none. -/
theorem endsOpen_of_else {source : Bytes} {t : Tree} (h : tree source = .ok t) {n : Tree} (hn : n ∈ t.nodes)
    (hkind : n.kind? = some .ifStmt) (helse : ∃ c ∈ n.children, c.kind? = some .kwElse) :
    ∃ s, n.children[5]? = some s ∧ s.kind? = some .statement ∧ endsOpen s = false := by
  unfold tree at h
  obtain ⟨tokens, -, hparse⟩ := bind_eq_ok.mp h
  unfold parse at hparse
  cases hout : (grammar.parse .shortestRule tokens).outcome with
  | error halt =>
    rw [Grammar.parse] at hout
    rw [lookaheads, hout] at hparse
    cases hparse
  | ok d =>
    obtain ⟨ds, rfl, hvalid, hyield, hfrugal⟩ := Grammar.frugal_parse acyclic_grammar hout
    rw [Grammar.parse] at hout
    rw [lookaheads, hout] at hparse
    obtain rfl : _ = t := Except.ok.inj hparse
    obtain ⟨d, e, rfl, hd, hprogram, -⟩ :=
      children_of_first (show (grammar.rule grammar.first).rhs = [.program, .eof] from rfl)
        (Chart.closed_withEnd tokens) hvalid hyield
    rw [tree_first] at hn
    have hne : d.symbol ≠ .start := by rw [hprogram]; decide
    obtain ⟨e, hevalid, hene, hefrugal, rfl⟩ :=
      exists_frugal_of_mem_nodes hd hne (hfrugal d (by simp)) n hn
    exact endsOpen_of_frugal hevalid hene hefrugal hkind helse

/-! ## A script with two ifs and one else -/

/-- Tokens that the start rule spans have a tree. -/
theorem exists_tree_of_covers {tokens : List (Token Symbol)} (h : grammar.Covers (Chart.withEnd tokens)) :
    ∃ t, parse tokens = .ok t ∧ t.Conforms grammar ∧ t.kind? = some .program ∧
      t.leaves = (Chart.withEnd tokens).dropLast := by
  obtain ⟨ds, hout, hvalid, hyield⟩ := Grammar.parse_of_covers acyclic_grammar Resolver.decisive_shortestRule h
  obtain ⟨hconforms, hkind, hleaves⟩ := Derivation.tree_first_spec rooted_grammar (fun r _ => start_notMem_rhs r)
    rfl (Chart.closed_withEnd tokens) hvalid hyield
  exact ⟨_, congrArg (Except.map Derivation.tree) hout, hconforms, hkind, hleaves⟩

/-- Every else is a child of an if. -/
theorem exists_if_of_mem_leaves {t : Tree} (ht : t.Conforms grammar) : t.kind? ≠ some .kwElse →
    ∀ token ∈ t.leaves, token.kind = .kwElse →
      ∃ n ∈ t.nodes, n.kind? = some .ifStmt ∧ ∃ c ∈ n.children, c.kind? = some .kwElse := by
  induction ht with
  | leaf t hn =>
    intro hkind token htoken helse
    rw [Node.leaves, List.mem_singleton] at htoken
    rw [htoken] at helse
    exact absurd (congrArg some helse) hkind
  | branch r types cs hkinds hcs ih =>
    intro _ token htoken helse
    rw [Node.leaves, Node.leavesOf_eq_flatMap, List.mem_flatMap] at htoken
    obtain ⟨c, hc, htoken⟩ := htoken
    by_cases hkind : c.kind? = some .kwElse
    · have hrules : ∀ r ∈ rules, .kwElse ∈ r.rhs → r.lhs = .ifStmt := by decide +kernel
      have hmem : some .kwElse ∈ (grammar.rule r).rhs.map some := by
        rw [← hkinds, ← hkind]
        exact List.mem_map_of_mem hc
      have hlhs := forall_rule (P := fun r => .kwElse ∈ r.rhs → r.lhs = .ifStmt) (by decide) hrules r
        (by simpa using hmem)
      exact ⟨_, Node.mem_nodes_self _, congrArg some hlhs, c, hc, hkind⟩
    · obtain ⟨n, hn, hif⟩ := ih c hc hkind token htoken helse
      exact ⟨n, Node.nodes_subset (Node.mem_nodes_of_mem_children hc) hn, hif⟩

/-- What a right-hand side spans, its symbol spans. -/
theorem spans_of_production {ts : List (Token Symbol)} {k : Symbol} {rhs : List Symbol} {i j : Nat}
    (hrhs : rhs ∈ productions k) (h : grammar.Spans ts rhs i j) : grammar.Spans ts [k] i j := by
  obtain ⟨r, rfl, rfl⟩ := exists_rule_of_mem_productions hrhs
  exact h.single

/-- A terminal spans a token of its kind. -/
theorem spans_leaf {ts : List (Token Symbol)} {i : Nat} {t : Token Symbol} (ht : ts[i]? = some t)
    (hk : t.kind.isInner = false) (hs : t.kind ≠ .start) : grammar.Spans ts [t.kind] i (i + 1) := by
  refine .single_terminal ht (Bool.eq_false_iff.mpr fun h => ?_)
  rw [isInner_of_isNonterminal h hs] at hk
  cases hk

/-- The tokens of a script with two ifs and one else. -/
def nestedIfs : List (Token Symbol) :=
  let head := [⟨.kwIf, "if", none, 1⟩, ⟨.lparen, "(", none, 1⟩, ⟨.integer, "1", none, 1⟩, ⟨.rparen, ")", none, 1⟩]
  head ++ head ++ [⟨.semi, ";", none, 1⟩, ⟨.kwElse, "else", none, 1⟩, ⟨.semi, ";", none, 1⟩]

theorem covers_nestedIfs : grammar.Covers (nestedIfs ++ [⟨.eof, [], none, 1⟩]) := by
  let ts : List (Token Symbol) := nestedIfs ++ [⟨.eof, [], none, 1⟩]
  show grammar.Covers ts
  have vanish (k : Symbol) (i : Nat) (hk : (productions k).contains [] = true) : grammar.Spans ts [k] i i :=
    spans_of_production (mem_productions hk) (.nil i)
  have unit {k s : Symbol} {i j : Nat} (hk : (productions k).contains [s] = true)
      (h : grammar.Spans ts [s] i j) : grammar.Spans ts [k] i j := spans_of_production (mem_productions hk) h
  have expr {i : Nat} (hi : ts[i]? = some ⟨.integer, "1", none, 1⟩) : grammar.Spans ts [.expr] i (i + 1) := by
    have hconstant := unit (k := .constant) rfl (spans_leaf hi rfl nofun)
    have hprimary := unit (k := .primary) rfl hconstant
    have hmul := unit (k := .mulExpr) rfl (unit (k := .unary) rfl (unit (k := .powExpr) rfl hprimary))
    have hcmp := unit (k := .cmpExpr) rfl (unit (k := .concatExpr) rfl (unit (k := .addExpr) rfl hmul))
    exact unit rfl (unit (k := .orExpr) rfl (unit (k := .andExpr) rfl hcmp))
  have front {i : Nat} (h₁ : ts[i]? = some ⟨.kwIf, "if", none, 1⟩) (h₂ : ts[i + 1]? = some ⟨.lparen, "(", none, 1⟩)
      (h₃ : ts[i + 2]? = some ⟨.integer, "1", none, 1⟩) (h₄ : ts[i + 3]? = some ⟨.rparen, ")", none, 1⟩) :
      grammar.Spans ts ifHead i (i + 4) :=
    (spans_leaf h₁ rfl nofun).append ((spans_leaf h₂ rfl nofun).append ((expr h₃).append ((spans_leaf h₄ rfl nofun).append
      (vanish .optNl _ rfl))))
  have semi {i : Nat} (hi : ts[i]? = some ⟨.semi, ";", none, 1⟩) : grammar.Spans ts [.statement] i (i + 1) :=
    unit rfl (spans_leaf hi rfl nofun)
  -- here the outer if takes the else; that the tokens can be derived is all that matters
  have inner : grammar.Spans ts [.ifStmt] 4 9 := spans_of_production
    (show ifHead ++ [.statement] ∈ productions .ifStmt from mem_productions rfl)
    ((front rfl rfl rfl rfl).append (semi rfl))
  have outer : grammar.Spans ts [.ifStmt] 0 11 := spans_of_production
    (show ifHead ++ .statement :: elseTail ∈ productions .ifStmt from mem_productions rfl)
    ((front rfl rfl rfl rfl).append ((unit rfl inner).append
      ((spans_leaf (t := ⟨.kwElse, "else", none, 1⟩) rfl rfl nofun).append
        ((vanish .optNl _ rfl).append (semi rfl)))))
  have list : grammar.Spans ts [.stmtList] 0 11 := spans_of_production
    (show [.stmtList, .statement] ∈ productions .stmtList from mem_productions rfl)
    ((vanish .stmtList _ rfl).append (unit rfl outer))
  have program : grammar.Spans ts [.program] 0 11 := spans_of_production
    (show [.localDecls, .stmtList] ∈ productions .program from mem_productions rfl)
    ((vanish .localDecls _ rfl).append list)
  exact program.append (spans_leaf (i := 11) (t := ⟨.eof, [], none, 1⟩) rfl rfl nofun)

/-- Of two nested ifs the inner one gets the else. -/
theorem endsOpen_of_else_nested : ∃ t n s, tree "if(1)if(1);else;" = .ok t ∧ n ∈ t.nodes ∧ n.kind? = some .ifStmt ∧
    (∃ c ∈ n.children, c.kind? = some .kwElse) ∧ n.children[5]? = some s ∧ endsOpen s = false := by
  have htokens : tokenize "if(1)if(1);else;" = .ok nestedIfs := by cbv
  have hend : Chart.withEnd nestedIfs = nestedIfs ++ [⟨.eof, [], none, 1⟩] := by cbv
  have helse : ⟨.kwElse, "else", none, 1⟩ ∈ nestedIfs := List.mem_append_right _ (.tail _ (.head _))
  have hcovers := covers_nestedIfs
  rw [← hend] at hcovers
  obtain ⟨t, hparse, hconforms, hkind, hleaves⟩ := exists_tree_of_covers hcovers
  have htree : tree "if(1)if(1);else;" = .ok t := bind_eq_ok.mpr ⟨nestedIfs, htokens, hparse⟩
  rw [hend, List.dropLast_concat] at hleaves
  rw [← hleaves] at helse
  obtain ⟨n, hn, hif, hc⟩ := exists_if_of_mem_leaves hconforms (by rw [hkind]; decide) _ helse rfl
  obtain ⟨s, hs, -, hopen⟩ := endsOpen_of_else htree hn hif hc
  exact ⟨t, n, s, htree, hn, hif, hc, hs, hopen⟩

end IrafCl.Script
