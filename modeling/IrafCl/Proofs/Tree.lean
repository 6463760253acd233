import IrafCl.Proofs.Parser
import IrafCl.Tree.Node
import Mathlib

/-!
# The value of a parse

A derivation is evaluated from its leaves up (`Derivation.Evaluates`). The syntax tree is one such value.
A derivation without the start rule inside gives a tree that conforms to the grammar: each inner node
with the kinds of its children reads as a rule, and its leaves are the tokens of the derivation. When
tokens have lines, the line of a node is the line of its first leaf.
-/

namespace IrafCl

variable {κ : Type} {g : Grammar κ}

/-! ## Values -/

namespace Derivation

variable {α : Type}

theorem evalAll_eq_map (token : Token κ → α) (node : Rule κ → List α → α) (ds : List (Derivation g)) :
    evalAll token node ds = ds.map (eval token node) := by
  induction ds with
  | nil => rfl
  | cons d ds ih => rw [evalAll, ih, List.map_cons]

/-- A derivation has a value: a token its own, the start rule that of its first child, and any other rule
its reduction of the values of its children, or the list of them. -/
inductive Evaluates (token : Token κ → α) (list : List α → α) (reduce : Rule κ → List α → α) :
    Derivation g → α → Prop where
  | token (t : Token κ) : Evaluates token list reduce (.token t) (token t)
  | first (ds : List (Derivation g)) (v : α) (vs : List α)
      (h : List.Forall₂ (Evaluates token list reduce) ds (v :: vs)) :
      Evaluates token list reduce (.node g.first ds) v
  | reduced (r : g.Index) (ds : List (Derivation g)) (vs : List α) (hr : r ≠ g.first)
      (hreduces : (g.rule r).reduces = true) (h : List.Forall₂ (Evaluates token list reduce) ds vs) :
      Evaluates token list reduce (.node r ds) (reduce (g.rule r) vs)
  | listed (r : g.Index) (ds : List (Derivation g)) (vs : List α) (hr : r ≠ g.first)
      (hreduces : (g.rule r).reduces = false) (h : List.Forall₂ (Evaluates token list reduce) ds vs) :
      Evaluates token list reduce (.node r ds) (list vs)

variable [DecidableEq κ]

theorem evaluates_value (token : Token κ → α) (list : List α → α) (reduce : Rule κ → List α → α)
    (hfirst : (g.rule g.first).rhs ≠ []) {d : Derivation g} (hd : d.Valid) :
    d.Evaluates token list reduce (d.value token list reduce) := by
  induction hd with
  | token t hn => exact .token t
  | node r ds hrhs hds ih =>
    have hall : List.Forall₂ (Evaluates token list reduce) ds (ds.map (value token list reduce)) := by
      rw [List.forall₂_map_right_iff, List.forall₂_same]
      exact ih
    unfold value at hall ⊢
    rw [eval, evalAll_eq_map]
    split
    · next hr =>
      subst hr
      cases ds with
      | nil => exact absurd hrhs.symm hfirst
      | cons d ds => exact .first _ _ _ hall
    · next hr =>
      cases hreduces : (g.rule r).reduces with
      | true => exact .reduced r ds _ hr hreduces hall
      | false => exact .listed r ds _ hr hreduces hall

end Derivation

/-! ## Trees -/

namespace Node

mutual

/-- The tokens of a tree, from left to right. -/
def leaves : Node κ → List (Token κ)
  | .absent => []
  | .leaf t => [t]
  | .branch _ _ cs => leavesOf cs

def leavesOf : List (Node κ) → List (Token κ)
  | [] => []
  | c :: cs => c.leaves ++ leavesOf cs

end

mutual

/-- A node and all nodes below it. -/
def nodes : Node κ → List (Node κ)
  | .absent => [.absent]
  | .leaf t => [.leaf t]
  | .branch k t cs => .branch k t cs :: nodesOf cs

def nodesOf : List (Node κ) → List (Node κ)
  | [] => []
  | c :: cs => c.nodes ++ nodesOf cs

end

/-- A tree whose leaves are terminals and whose inner nodes read as rules. -/
inductive Conforms [DecidableEq κ] (g : Grammar κ) : Node κ → Prop where
  | leaf (t : Token κ) (hn : g.isNonterminal t.kind = false) : Conforms g (.leaf t)
  | branch (r : g.Index) (types : Types) (cs : List (Node κ)) (hkinds : cs.map kind? = (g.rule r).rhs.map some)
      (hcs : ∀ c ∈ cs, Conforms g c) : Conforms g (.branch (g.rule r).lhs types cs)

mutual

/-- In a tree of tokens with lines, the line of a node is that of its first leaf. -/
theorem line_eq_head : ∀ n : Node κ, (∀ t ∈ n.leaves, 0 < t.line) →
    n.line = (n.leaves.head?.map (·.line)).getD 0
  | .absent, _ => rfl
  | .leaf _, _ => rfl
  | .branch _ _ cs, h => firstLine_eq_head cs h

theorem firstLine_eq_head : ∀ cs : List (Node κ), (∀ t ∈ leavesOf cs, 0 < t.line) →
    firstLine cs = ((leavesOf cs).head?.map (·.line)).getD 0
  | [], _ => rfl
  | c :: cs, h => by
    have hc := line_eq_head c fun t ht => h t (List.mem_append_left _ ht)
    have hcs := firstLine_eq_head cs fun t ht => h t (List.mem_append_right _ ht)
    rw [firstLine, hcs, hc, leavesOf]
    cases hleaves : c.leaves with
    | nil => rfl
    | cons t ts =>
      have hpos : 0 < t.line := h t (by simp [leavesOf, hleaves])
      simp [hpos]

end

mutual

theorem leaves_subset : ∀ {n m : Node κ}, m ∈ n.nodes → m.leaves ⊆ n.leaves
  | .absent, m, h => by simp only [nodes, List.mem_singleton] at h; subst h; exact List.Subset.refl _
  | .leaf t, m, h => by simp only [nodes, List.mem_singleton] at h; subst h; exact List.Subset.refl _
  | .branch k t cs, m, h => by
    rcases List.mem_cons.mp h with rfl | h
    · exact List.Subset.refl _
    · exact leaves_subset_leavesOf h

theorem leaves_subset_leavesOf : ∀ {cs : List (Node κ)} {m : Node κ}, m ∈ nodesOf cs → m.leaves ⊆ leavesOf cs
  | [], m, h => by cases h
  | c :: cs, m, h => by
    intro t ht
    rcases List.mem_append.mp h with h | h
    · exact List.mem_append_left _ (leaves_subset h ht)
    · exact List.mem_append_right _ (leaves_subset_leavesOf h ht)

end

mutual

theorem nodes_subset : ∀ {n m : Node κ}, m ∈ n.nodes → m.nodes ⊆ n.nodes
  | .absent, m, h => by simp only [nodes, List.mem_singleton] at h; subst h; exact List.Subset.refl _
  | .leaf t, m, h => by simp only [nodes, List.mem_singleton] at h; subst h; exact List.Subset.refl _
  | .branch k t cs, m, h => by
    rcases List.mem_cons.mp h with rfl | h
    · exact List.Subset.refl _
    · exact List.subset_cons_of_subset _ (nodes_subset_nodesOf h)

theorem nodes_subset_nodesOf : ∀ {cs : List (Node κ)} {m : Node κ}, m ∈ nodesOf cs → m.nodes ⊆ nodesOf cs
  | [], m, h => by cases h
  | c :: cs, m, h => by
    intro x hx
    rcases List.mem_append.mp h with h | h
    · exact List.mem_append_left _ (nodes_subset h hx)
    · exact List.mem_append_right _ (nodes_subset_nodesOf h hx)

end

theorem nodesOf_eq_flatMap (cs : List (Node κ)) : nodesOf cs = cs.flatMap nodes := by
  induction cs with
  | nil => rfl
  | cons c cs ih => rw [nodesOf, ih, List.flatMap_cons]

theorem mem_nodes_self (n : Node κ) : n ∈ n.nodes := by
  cases n <;> simp [nodes]

theorem mem_nodes_of_mem_children {n c : Node κ} (h : c ∈ n.children) : c ∈ n.nodes := by
  cases n with
  | absent => cases h
  | leaf t => cases h
  | branch k t cs =>
    rw [nodes, nodesOf_eq_flatMap]
    exact List.mem_cons_of_mem _ (List.mem_flatMap.mpr ⟨c, h, mem_nodes_self c⟩)

theorem leavesOf_eq_flatMap (cs : List (Node κ)) : leavesOf cs = cs.flatMap leaves := by
  induction cs with
  | nil => rfl
  | cons c cs ih => rw [leavesOf, ih, List.flatMap_cons]

end Node

/-! ## The tree of a derivation -/

namespace Derivation

theorem yieldAll_eq_flatMap (ds : List (Derivation g)) : yieldAll ds = ds.flatMap yield := by
  induction ds with
  | nil => rfl
  | cons d ds ih => rw [yieldAll, ih, List.flatMap_cons]

theorem tree_node {r : g.Index} {ds : List (Derivation g)} (hr : r ≠ g.first) :
    (Derivation.node r ds).tree = .new (g.rule r).lhs (ds.map tree) := by
  simp only [tree, eval, if_neg hr, evalAll_eq_map]
  rfl

theorem tree_first {d : Derivation g} {ds : List (Derivation g)} :
    (Derivation.node g.first (d :: ds)).tree = d.tree := by
  simp only [tree, eval, evalAll, if_true, List.headD_cons]

variable [DecidableEq κ]

/-- The tree of a derivation conforms, unless the start rule hides inside. -/
theorem tree_spec (hinner : ∀ r, r ≠ g.first → (g.rule g.first).lhs ∉ (g.rule r).rhs) {d : Derivation g}
    (hd : d.Valid) : d.symbol ≠ (g.rule g.first).lhs →
      d.tree.Conforms g ∧ d.tree.kind? = some d.symbol ∧ d.tree.leaves = d.yield := by
  induction hd with
  | token t hn => intro _; exact ⟨.leaf t hn, rfl, rfl⟩
  | node r ds hrhs hds ih =>
    intro hsymbol
    have hr : r ≠ g.first := by rintro rfl; exact hsymbol rfl
    have hchild : ∀ d ∈ ds, d.tree.Conforms g ∧ d.tree.kind? = some d.symbol ∧ d.tree.leaves = d.yield := by
      intro d hd
      refine ih d hd fun hs => hinner r hr ?_
      rw [← hrhs, ← hs]
      exact List.mem_map_of_mem hd
    rw [tree_node hr]
    refine ⟨.branch r .unset _ ?_ ?_, rfl, ?_⟩
    · rw [← hrhs, List.map_map, List.map_map]
      exact List.map_congr_left fun d hd => (hchild d hd).2.1
    · intro c hc
      obtain ⟨d, hd, rfl⟩ := List.mem_map.mp hc
      exact (hchild d hd).1
    · rw [Node.new, Node.leaves, yield, Node.leavesOf_eq_flatMap, yieldAll_eq_flatMap, List.flatMap_map]
      exact List.flatMap_congr fun d hd => (hchild d hd).2.2

/-- A tree that conforms and has no types yet is the tree of a derivation. -/
theorem exists_of_conforms (hinner : ∀ r, r ≠ g.first → (g.rule g.first).lhs ∉ (g.rule r).rhs) {n : Node κ}
    (hn : n.Conforms g) : n.kind? ≠ some (g.rule g.first).lhs → (∀ m ∈ n.nodes, m.types = .unset) →
      ∃ d : Derivation g, d.Valid ∧ n.kind? = some d.symbol ∧ d.tree = n := by
  induction hn with
  | leaf t hn => exact fun _ _ => ⟨.token t, .token t hn, rfl, rfl⟩
  | branch r types cs hkinds hcs ih =>
    intro hkind htypes
    have hr : r ≠ g.first := by rintro rfl; exact hkind rfl
    have hchild : ∀ c ∈ cs, ∃ d : Derivation g, d.Valid ∧ c.kind? = some d.symbol ∧ d.tree = c := by
      intro c hc
      refine ih c hc (fun hs => hinner r hr ?_) fun m hm => htypes m ?_
      · have hmem : c.kind? ∈ (g.rule r).rhs.map some := hkinds ▸ List.mem_map_of_mem hc
        rw [hs] at hmem
        simpa using hmem
      · exact Node.nodes_subset (Node.mem_nodes_of_mem_children hc) hm
    have : Nonempty (Derivation g) := ⟨.node r []⟩
    choose! derive hvalid hsymbol htree using hchild
    refine ⟨.node r (cs.map derive), .node r _ ?_ ?_, rfl, ?_⟩
    · refine List.map_injective_iff.mpr (Option.some_injective κ) ?_
      rw [← hkinds, List.map_map, List.map_map]
      exact List.map_congr_left fun c hc => (hsymbol c hc).symm
    · intro d hd
      obtain ⟨c, hc, rfl⟩ := List.mem_map.mp hd
      exact hvalid c hc
    · have hunset : types = .unset := htypes _ (Node.mem_nodes_self _)
      rw [tree_node hr, List.map_map, hunset, Node.new]
      congr 1
      exact (List.map_congr_left htree).trans (List.map_id cs)

/-- A start rule that begins with the start symbol derives nothing. -/
theorem symbol_ne_start (hg : g.Rooted) (hfirst : (g.rule g.first).lhs ∈ (g.rule g.first).rhs)
    {d : Derivation g} (hd : d.Valid) : d.symbol ≠ (g.rule g.first).lhs := by
  induction hd with
  | token t hn =>
    intro hs
    rw [symbol] at hs
    rw [hs, Grammar.isNonterminal_lhs] at hn
    cases hn
  | node r ds hrhs hds ih =>
    intro hs
    rw [hg r hs] at hrhs
    rw [← hrhs] at hfirst
    obtain ⟨d, hd, hsymbol⟩ := List.mem_map.mp hfirst
    exact ih d hd hsymbol

/-- The tokens of a derivation are terminals. -/
theorem terminal_of_mem_yield {d : Derivation g} (hd : d.Valid) :
    ∀ t ∈ d.yield, g.isNonterminal t.kind = false := by
  induction hd with
  | token t hn =>
    intro t' ht
    rw [yield, List.mem_singleton] at ht
    rw [ht]
    exact hn
  | node r ds hrhs hds ih =>
    intro t ht
    rw [yield, yieldAll_eq_flatMap, List.mem_flatMap] at ht
    obtain ⟨d, hd, ht⟩ := ht
    exact ih d hd t ht

/-- The derivation of a terminal is a token. -/
theorem eq_token {d : Derivation g} (hd : d.Valid) (hs : g.isNonterminal d.symbol = false) :
    ∃ t, d = .token t := by
  cases hd with
  | token t _ => exact ⟨t, rfl⟩
  | node r ds _ _ =>
    rw [symbol, Grammar.isNonterminal_lhs] at hs
    cases hs

/-- Under the start rule are the derivation of the start symbol over all tokens but the last, and the end
of input. -/
theorem children_of_first [Alphabet κ] {start : κ} {ts : List (Token κ)} {ds : List (Derivation g)}
    (hfirst : (g.rule g.first).rhs = [start, Alphabet.eof]) (hclosed : Chart.Closed ts)
    (hd : (Derivation.node g.first ds).Valid) (hyield : (Derivation.node g.first ds).yield = ts) :
    ∃ d t, ds = [d, .token t] ∧ d.Valid ∧ d.symbol = start ∧ d.yield = ts.dropLast := by
  obtain ⟨last, hlast, heof⟩ := hclosed
  -- the last token is of the derivation, so the end of input is a terminal
  have hterminal := terminal_of_mem_yield hd last (by rw [hyield]; exact List.mem_of_getLast? hlast)
  rw [heof] at hterminal
  cases hd with
  | node _ _ hrhs hds =>
    rw [hfirst] at hrhs
    obtain ⟨d, e, rfl⟩ : ∃ d e, ds = [d, e] := List.length_eq_two.mp (by simpa using congrArg List.length hrhs)
    simp only [List.map_cons, List.map_nil, List.cons.injEq, and_true] at hrhs
    obtain ⟨t, rfl⟩ := eq_token (hds e (by simp)) (by rw [hrhs.2]; exact hterminal)
    refine ⟨d, t, rfl, hds d (by simp), hrhs.1, ?_⟩
    simp only [yield, yieldAll, List.append_nil] at hyield
    rw [← hyield, List.dropLast_concat]

/-- The tree of the start rule. -/
theorem tree_first_spec [Alphabet κ] {start : κ} {ts : List (Token κ)} {ds : List (Derivation g)}
    (hg : g.Rooted) (hinner : ∀ r, r ≠ g.first → (g.rule g.first).lhs ∉ (g.rule r).rhs)
    (hfirst : (g.rule g.first).rhs = [start, Alphabet.eof]) (hclosed : Chart.Closed ts)
    (hd : (Derivation.node g.first ds).Valid) (hyield : (Derivation.node g.first ds).yield = ts) :
    (Derivation.node g.first ds).tree.Conforms g ∧ (Derivation.node g.first ds).tree.kind? = some start ∧
      (Derivation.node g.first ds).tree.leaves = ts.dropLast := by
  obtain ⟨d, t, rfl, hvalid, hstart, hdrop⟩ := children_of_first hfirst hclosed hd hyield
  have hsymbol : d.symbol ≠ (g.rule g.first).lhs := by
    intro hs
    refine symbol_ne_start hg ?_ hd rfl
    rw [hfirst, ← hs, hstart]
    simp
  rw [tree_first, ← hstart, ← hdrop]
  exact tree_spec hinner hvalid hsymbol

end Derivation

namespace Grammar

/-- The value of a parse is that of a derivation of the start symbol over all tokens. If no rule mentions
the start symbol, its tree conforms to the grammar and has all tokens but the last for leaves. -/
theorem parse_value {start : String} {specs : List RuleSpec} {g : Grammar String}
    (hg : ofSpecs start specs = .ok g) (resolver : Resolver String) (tokens : List (Token String))
    {d : Derivation g} (h : (g.parse resolver tokens).outcome = .ok d) :
    d.Valid ∧ d.symbol = "START" ∧ d.yield = Chart.withEnd tokens ∧
    (∀ (α : Type) (token : Token String → α) (list : List α → α) (reduce : Rule String → List α → α),
      d.Evaluates token list reduce (d.value token list reduce)) ∧
    ((∀ r, r ≠ g.first → "START" ∉ (g.rule r).rhs) →
      d.tree.Conforms g ∧ d.tree.kind? = some start ∧ d.tree.leaves = (Chart.withEnd tokens).dropLast ∧
      ((∀ t ∈ tokens, 0 < t.line) →
        ∀ n ∈ d.tree.nodes, n.line = (n.leaves.head?.map (·.line)).getD 0)) := by
  obtain ⟨rules, hrules, -, -⟩ := exists_rules_of_ofSpecs hg
  have hrule : g.rule g.first = ⟨"START", [start, "EOF"], "START", true⟩ := by subst hrules; rfl
  have hderives : ∃ ds, d = .node g.first ds ∧
      Chart.Derives (Chart.withEnd tokens) d (g.rule g.first).lhs 0 (Chart.withEnd tokens).length := by
    rcases parse_cases g resolver tokens with ⟨t, hout, _⟩ | ⟨_, ⟨halt, hout, _⟩ | ⟨ds, hout, hd⟩⟩
    · rw [hout] at h; cases h
    · rw [hout] at h; cases h
    · rw [hout] at h; cases h; exact ⟨ds, rfl, hd⟩
  obtain ⟨ds, rfl, hd⟩ := hderives
  have hyield := hd.yield
  rw [between_length] at hyield
  refine ⟨hd.valid, by rw [Derivation.symbol, hrule], hyield, ?_, fun hinner => ?_⟩
  · intro α token list reduce
    exact Derivation.evaluates_value token list reduce (by rw [hrule]; simp) hd.valid
  · obtain ⟨hconforms, hkind, hleaves⟩ := Derivation.tree_first_spec (rooted_ofSpecs hg)
      (by rw [hrule]; exact hinner) (by rw [hrule]; rfl) (Chart.closed_withEnd tokens) hd.valid hyield
    refine ⟨hconforms, hkind, hleaves, fun hlines n hn => Node.line_eq_head n fun t ht => ?_⟩
    have hmem := Node.leaves_subset hn ht
    rw [hleaves] at hmem
    exact hlines t (Chart.mem_of_mem_dropLast_withEnd hmem)

/-- Rules that vanish: the tree of one token has a node without leaves. -/
theorem parse_value_nullable :
    ∃ g, ofSpecs "S" [⟨"S ::= T S\nS ::=\nT ::= a", "s", true⟩] = .ok g ∧
      ∃ d, (g.parse .shortestRule [⟨"a", [], none, 3⟩]).outcome = .ok d ∧ d.tree.Conforms g ∧
        d.tree.leaves = [⟨"a", [], none, 3⟩] ∧
        ∀ n ∈ d.tree.nodes, n.line = (n.leaves.head?.map (·.line)).getD 0 := by
  have hg : ofSpecs "S" [⟨"S ::= T S\nS ::=\nT ::= a", "s", true⟩] = .ok
      (ofRules "S" [⟨"S", ["T", "S"], "s", true⟩, ⟨"S", [], "s", true⟩, ⟨"T", ["a"], "s", true⟩]) := by cbv
  have h : ((ofRules "S" [⟨"S", ["T", "S"], "s", true⟩, ⟨"S", [], "s", true⟩, ⟨"T", ["a"], "s", true⟩]).parse
      .shortestRule [⟨"a", [], none, 3⟩]).outcome = .ok (.node ⟨0, by decide⟩
        [.node ⟨1, by decide⟩ [.node ⟨3, by decide⟩ [.token ⟨"a", [], none, 3⟩], .node ⟨2, by decide⟩ []],
          .token ⟨"EOF", [], none, 3⟩]) := by cbv
  obtain ⟨-, -, -, -, htree⟩ := parse_value hg .shortestRule [⟨"a", [], none, 3⟩] h
  obtain ⟨hconforms, -, hleaves, hlines⟩ := htree (by decide)
  exact ⟨_, hg, _, h, hconforms, hleaves, hlines (by simp)⟩

end Grammar

end IrafCl
