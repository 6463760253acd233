import IrafCl.Proofs.Script.Reading

/-!
# Reading programs

The readers of statements and declarations never fail on a tree of the grammar either. So each tree of a
program has a header and a body (`exists_header`, `exists_body`), and what is known of the parts in the tree holds of
those in the body (`Stmt.Holds`).
-/

namespace IrafCl.Script

variable {n : Tree}

/-! ## Assignments -/

variable {J : Judgement}

/-- The parts of a target are judged. -/
def Target.Holds (J : Judgement) : Target → Prop
  | .name path => Lexicon.name.Matches path
  | .element path index => Lexicon.name.Matches path ∧ J.subscripts index

/-- The parts of an assignment are judged. -/
def Assignment.Holds (J : Judgement) (a : Assignment) : Prop := a.target.Holds J ∧ J.expr a.value

theorem exists_target (hk : n.kind? = some .lvalue) (hj : Judges J n) : ∃ t, target? n = some t ∧ t.Holds J := by
  obtain ⟨types, cs, rhs, rfl, hrhs, hkids⟩ := hj.grown.children hk rfl
  have hrhs : rhs ∈ [[.ident], [.ident, .lbracket, .exprList, .rbracket]] := hrhs
  simp only [List.mem_cons, List.not_mem_nil, or_false] at hrhs
  rcases hrhs with rfl | rfl
  · obtain ⟨c, rfl, hc⟩ := hkids.single
    obtain ⟨t, rfl, -, ht⟩ := Kid.name hc
    exact ⟨.name t.text, by simp [target?], ht⟩
  · obtain ⟨a, b, c, d, rfl, ha, hb, hc, hd⟩ := hkids.four
    obtain ⟨t, rfl, -, ht⟩ := Kid.name ha
    obtain ⟨es, hes, hindex⟩ := hj.subscripts c (Node.mem_nodes_of_mem_children (by simp [Node.children])) hc.1
    exact ⟨.element t.text es, by simp [target?, hes], ht, hindex⟩

/-- The operator of an assignment is one of those that the scanner knows. -/
theorem exists_assignOp {t : Token Symbol} (h : t.kind = .equals ∨ t.kind = .assignOp) (hlexed : Lexed t) :
    ∃ op, assignOp? t = some op := by
  rcases h with h | h
  · exact ⟨.set, by rw [assignOp?, if_pos h]⟩
  · rw [Lexed, h] at hlexed
    simp only [List.mem_cons, List.not_mem_nil, or_false] at hlexed
    unfold assignOp?
    rw [if_neg (by rw [h]; decide)]
    rcases hlexed with heq | heq | heq | heq | heq <;> rw [heq]
    · exact ⟨.add, rfl⟩
    · exact ⟨.sub, rfl⟩
    · exact ⟨.mul, rfl⟩
    · exact ⟨.append, rfl⟩
    · exact ⟨.div, rfl⟩

theorem exists_assignment (hk : n.kind? = some .assignment) (hj : Judges J n) : ∃ a, assignment? n = some a ∧ a.Holds J := by
  obtain ⟨types, cs, rhs, rfl, hrhs, hkids⟩ := hj.grown.children hk rfl
  obtain ⟨s, rfl, hs⟩ : ∃ s, rhs = [.lvalue, s, .expr] ∧ (s = .equals ∨ s = .assignOp) := by
    have hrhs : rhs ∈ [[.lvalue, .equals, .expr], [.lvalue, .assignOp, .expr]] := hrhs
    simp only [List.mem_cons, List.not_mem_nil, or_false] at hrhs
    rcases hrhs with rfl | rfl
    · exact ⟨_, rfl, .inl rfl⟩
    · exact ⟨_, rfl, .inr rfl⟩
  obtain ⟨a, b, c, rfl, ha, hb, hc⟩ := hkids.triple
  obtain ⟨tb, rfl, rfl, hlexed⟩ := Kid.leaf hb (by rcases hs with rfl | rfl <;> rfl) (by rcases hs with rfl | rfl <;> decide)
  obtain ⟨target, htarget, hjt⟩ := exists_target ha.1 (hj.of_mem_children (by simp [Node.children]))
  obtain ⟨op, hop⟩ := exists_assignOp hs hlexed
  obtain ⟨e, he, hje⟩ := hj.expr c (Node.mem_nodes_of_mem_children (by simp [Node.children])) hc.1
  exact ⟨⟨target, op, e⟩, by simp [assignment?, htarget, hop, he], hjt, hje⟩

theorem exists_optional {α : Type} {P : α → Prop} {k item : Symbol} {read : Tree → Option α} (h : n.kind? = some k ∧ Grown n)
    (hk : productions k = [[], [item]]) (hread : ∀ c ∈ n.children, c.kind? = some item → ∃ a, read c = some a ∧ P a) :
    ∃ a, optional? read n = some a ∧ ∀ x ∈ a, P x := by
  obtain ⟨types, cs, rhs, rfl, hrhs, hkids⟩ := h.2.children h.1
    (isInner_of_mem_productions (show [] ∈ productions k by rw [hk]; simp))
  rw [hk] at hrhs
  simp only [List.mem_cons, List.not_mem_nil, or_false] at hrhs
  rcases hrhs with rfl | rfl
  · obtain rfl := hkids.eq_nil
    exact ⟨none, rfl, by simp⟩
  · obtain ⟨c, rfl, hc⟩ := hkids.single
    obtain ⟨a, ha, hP⟩ := hread c (by simp [Node.children]) hc.1
    exact ⟨some a, by simp [optional?, ha], by simpa using hP⟩

/-! ## Statements -/

mutual

/-- The parts of a statement are judged. -/
def Stmt.Holds (J : Judgement) : Stmt → Prop
  | .empty | .leave | .next | .done | .jump _ => True
  | .labelled label _ body => Lexicon.name.Matches label ∧ body.Holds J
  | .assign a => a.Holds J
  | .pipeline calls => ∀ t ∈ calls, t.Holds J
  | .block body => Stmt.AllHold J body
  | .branch test yes => J.expr test ∧ yes.Holds J
  | .branchElse test yes no => J.expr test ∧ yes.Holds J ∧ no.Holds J
  | .loop test body => J.expr test ∧ body.Holds J
  | .forLoop first test step body =>
    (∀ a ∈ first, a.Holds J) ∧ (∀ e ∈ test, J.expr e) ∧ (∀ a ∈ step, a.Holds J) ∧ body.Holds J
  | .switch subject clauses => J.expr subject ∧ Clause.AllHold J clauses

def Stmt.AllHold (J : Judgement) : List Stmt → Prop
  | [] => True
  | s :: ss => s.Holds J ∧ Stmt.AllHold J ss

def Clause.AllHold (J : Judgement) : List Clause → Prop
  | [] => True
  | .case labels body :: rest =>
    (labels ≠ [] ∧ ∀ l ∈ labels, l.constant.IsLexed) ∧ body.Holds J ∧ Clause.AllHold J rest
  | .otherwise _ body :: rest => body.Holds J ∧ Clause.AllHold J rest

end

theorem Stmt.allHold_append {ss ss' : List Stmt} (h : Stmt.AllHold J ss) (h' : Stmt.AllHold J ss') :
    Stmt.AllHold J (ss ++ ss') := by
  induction ss with
  | nil => exact h'
  | cons s ss ih => exact ⟨h.1, ih h.2⟩

theorem Clause.allHold_append {cs cs' : List Clause} (h : Clause.AllHold J cs) (h' : Clause.AllHold J cs') :
    Clause.AllHold J (cs ++ cs') := by
  induction cs with
  | nil => exact h'
  | cons c cs ih =>
    cases c with
    | case labels body => exact ⟨h.1, h.2.1, ih h.2.2⟩
    | otherwise line body => exact ⟨h.1, ih h.2⟩

theorem exists_simple (hk : n.kind? = some .simpleStmt) (hj : Judges J n) : ∃ s, simple? n = some s ∧ s.Holds J := by
  obtain ⟨types, cs, rhs, rfl, hrhs, hkids⟩ := hj.grown.children hk rfl
  have hrhs : rhs ∈ [[.assignment], [.pipeline], [.kwBreak], [.kwNext], [.kwReturn], [.kwGoto, .ident]] := hrhs
  simp only [List.mem_cons, List.not_mem_nil, or_false] at hrhs
  rcases hrhs with rfl | rfl | rfl | rfl | rfl | rfl
  · obtain ⟨c, rfl, hc⟩ := hkids.single
    obtain ⟨a, ha, hja⟩ := exists_assignment hc.1 (hj.of_mem_children (by simp [Node.children]))
    obtain ⟨ct, ccs, rfl⟩ := Kid.branch hc rfl
    exact ⟨.assign a, by simp [simple?, Node.kind?, ha], hja⟩
  · obtain ⟨c, rfl, hc⟩ := hkids.single
    have hjc := hj.of_mem_children (m := c) (by simp [Node.children])
    obtain ⟨ts, hts, -, hall⟩ := exists_members .pipeline .taskCall fun x hx hk => exists_taskCall hk (hjc.of_mem_nodes hx)
    obtain ⟨ct, ccs, rfl⟩ := Kid.branch hc rfl
    exact ⟨.pipeline ts, by simp [simple?, Node.kind?, hts], hall⟩
  · obtain ⟨c, rfl, hc⟩ := hkids.single
    obtain ⟨t, rfl, ht, -⟩ := Kid.leaf hc rfl (by decide)
    exact ⟨.leave, by simp [simple?, ht], trivial⟩
  · obtain ⟨c, rfl, hc⟩ := hkids.single
    obtain ⟨t, rfl, ht, -⟩ := Kid.leaf hc rfl (by decide)
    exact ⟨.next, by simp [simple?, ht], trivial⟩
  · obtain ⟨c, rfl, hc⟩ := hkids.single
    obtain ⟨t, rfl, ht, -⟩ := Kid.leaf hc rfl (by decide)
    exact ⟨.done, by simp [simple?, ht], trivial⟩
  · obtain ⟨a, b, rfl, ha, hb⟩ := hkids.pair
    obtain ⟨ta, rfl, hta, -⟩ := Kid.leaf ha rfl (by decide)
    obtain ⟨tb, rfl, -⟩ := Kid.leaf hb rfl (by decide)
    exact ⟨.jump ta.line, by simp [simple?, hta], trivial⟩

/-- The kinds of statements with a body. -/
def Symbol.isControl : Symbol → Bool
  | .block | .ifStmt | .whileStmt | .forStmt | .switchStmt => true
  | _ => false

/-- What can be read off a node by the readers of statements. -/
structure ReadsStmt (J : Judgement) (n : Tree) : Prop where
  stmt : n.kind? = some .statement → ∃ s, stmt? n = some s ∧ s.Holds J
  control : ∀ k, n.kind? = some k → k.isControl = true → ∃ s, control? n = some s ∧ s.Holds J
  stmts : n.kind? = some .stmtList → ∃ ss, stmts? n = some ss ∧ Stmt.AllHold J ss
  clauses : n.kind? = some .caseList → ∃ cs, clauses? n = some cs ∧ Clause.AllHold J cs
  clause : n.kind? = some .caseClause → ∃ c, clause? n = some c ∧ Clause.AllHold J [c]

section
variable (hj : Judges J n) (ih : ∀ c ∈ n.children, ReadsStmt J c)
include hj ih

theorem exists_stmt_step (hk : n.kind? = some .statement) : ∃ s, stmt? n = some s ∧ s.Holds J := by
  obtain ⟨types, cs, rhs, rfl, hrhs, hkids⟩ := hj.grown.children hk rfl
  have hrhs : rhs ∈ [[.simpleStmt, .term], [.block], [.ifStmt], [.whileStmt], [.forStmt], [.switchStmt], [.semi],
    [.ident, .colon, .optNl, .statement]] := hrhs
  simp only [List.mem_cons, List.not_mem_nil, or_false] at hrhs
  have control {k : Symbol} (hkind : k.isControl = true) (hinner : k.isInner = true) (hkids : Kids [k] cs) :
      ∃ s, stmt? (.branch .statement types cs) = some s ∧ s.Holds J := by
    obtain ⟨c, rfl, hc⟩ := hkids.single
    obtain ⟨s, hs, hjs⟩ := (ih c (by simp [Node.children])).control k hc.1 hkind
    obtain ⟨ct, ccs, rfl⟩ := Kid.branch hc hinner
    exact ⟨s, by simp [stmt?.eq_def, hs], hjs⟩
  rcases hrhs with rfl | rfl | rfl | rfl | rfl | rfl | rfl | rfl
  · obtain ⟨a, b, rfl, ha, hb⟩ := hkids.pair
    obtain ⟨s, hs, hjs⟩ := exists_simple ha.1 (hj.of_mem_children (by simp [Node.children]))
    exact ⟨s, by simp [stmt?.eq_def, hs], hjs⟩
  · exact control rfl rfl hkids
  · exact control rfl rfl hkids
  · exact control rfl rfl hkids
  · exact control rfl rfl hkids
  · exact control rfl rfl hkids
  · obtain ⟨c, rfl, hc⟩ := hkids.single
    obtain ⟨t, rfl, ht, -⟩ := Kid.leaf hc rfl (by decide)
    exact ⟨.empty, by simp [stmt?.eq_def, ht], trivial⟩
  · obtain ⟨a, b, c, d, rfl, ha, hb, hc, hd⟩ := hkids.four
    obtain ⟨t, rfl, -, ht⟩ := Kid.name ha
    obtain ⟨s, hs, hjs⟩ := (ih d (by simp [Node.children])).stmt hd.1
    exact ⟨.labelled t.text t.line s, by rw [stmt?]; simp [hs], ht, hjs⟩

theorem exists_control_step {k : Symbol} (hk : n.kind? = some k) (hcontrol : k.isControl = true) :
    ∃ s, control? n = some s ∧ s.Holds J := by
  have expr {m : Tree} (hm : m ∈ n.children) := hj.expr m (Node.mem_nodes_of_mem_children hm)
  have assignment {m x : Tree} (hm : m ∈ n.children) (hx : x ∈ m.children) (hk : x.kind? = some .assignment) :=
    exists_assignment hk ((hj.of_mem_children hm).of_mem_children hx)
  cases k <;> cases hcontrol
  case block =>
    obtain ⟨types, cs, rhs, rfl, hrhs, hkids⟩ := hj.grown.children hk rfl
    have hrhs : rhs ∈ [[.lbrace, .stmtList, .rbrace, .optNl], [.lbrace, .stmtList, .simpleStmt, .rbrace, .optNl]] := hrhs
    simp only [List.mem_cons, List.not_mem_nil, or_false] at hrhs
    rcases hrhs with rfl | rfl
    · obtain ⟨a, b, c, d, rfl, ha, hb, hc, hd⟩ := hkids.four
      obtain ⟨ss, hss, hall⟩ := (ih b (by simp [Node.children])).stmts hb.1
      exact ⟨.block ss, by rw [control?]; simp [hss], hall⟩
    · obtain ⟨a, b, c, d, e, rfl, ha, hb, hc, hd, he⟩ := hkids.five
      obtain ⟨ss, hss, hall⟩ := (ih b (by simp [Node.children])).stmts hb.1
      obtain ⟨s, hs, hjs⟩ := exists_simple hc.1 (hj.of_mem_children (by simp [Node.children]))
      exact ⟨.block (ss ++ [s]), by rw [control?]; simp [hss, hs], Stmt.allHold_append hall ⟨hjs, trivial⟩⟩
  case ifStmt =>
    obtain ⟨types, cs, rhs, rfl, hrhs, hkids⟩ := hj.grown.children hk rfl
    have hrhs : rhs ∈ [[.kwIf, .lparen, .expr, .rparen, .optNl, .statement],
      [.kwIf, .lparen, .expr, .rparen, .optNl, .statement, .kwElse, .optNl, .statement]] := hrhs
    simp only [List.mem_cons, List.not_mem_nil, or_false] at hrhs
    rcases hrhs with rfl | rfl
    · obtain ⟨a, b, c, d, e, f, rfl, ha, hb, hc, hd, he, hf⟩ := hkids.six
      obtain ⟨x, hx, hjx⟩ := expr (m := c) (by simp [Node.children]) hc.1
      obtain ⟨s, hs, hjs⟩ := (ih f (by simp [Node.children])).stmt hf.1
      exact ⟨.branch x s, by rw [control?]; simp [hx, hs], hjx, hjs⟩
    · obtain ⟨a, _, rfl, ha, hkids⟩ := hkids.uncons
      obtain ⟨b, _, rfl, hb, hkids⟩ := hkids.uncons
      obtain ⟨c, _, rfl, hc, hkids⟩ := hkids.uncons
      obtain ⟨d, e, f, g, h, i, rfl, hd, he, hf, hg, hh, hi⟩ := hkids.six
      obtain ⟨x, hx, hjx⟩ := expr (m := c) (by simp [Node.children]) hc.1
      obtain ⟨s, hs, hjs⟩ := (ih f (by simp [Node.children])).stmt hf.1
      obtain ⟨s', hs', hjs'⟩ := (ih i (by simp [Node.children])).stmt hi.1
      exact ⟨.branchElse x s s', by rw [control?]; simp [hx, hs, hs'], hjx, hjs, hjs'⟩
  case whileStmt =>
    obtain ⟨types, cs, rhs, rfl, hrhs, hkids⟩ := hj.grown.children hk rfl
    have hrhs : rhs ∈ [[.kwWhile, .lparen, .expr, .rparen, .optNl, .statement]] := hrhs
    rw [List.mem_singleton] at hrhs
    subst hrhs
    obtain ⟨a, b, c, d, e, f, rfl, ha, hb, hc, hd, he, hf⟩ := hkids.six
    obtain ⟨x, hx, hjx⟩ := expr (m := c) (by simp [Node.children]) hc.1
    obtain ⟨s, hs, hjs⟩ := (ih f (by simp [Node.children])).stmt hf.1
    exact ⟨.loop x s, by rw [control?]; simp [hx, hs], hjx, hjs⟩
  case forStmt =>
    obtain ⟨types, cs, rhs, rfl, hrhs, hkids⟩ := hj.grown.children hk rfl
    have hrhs : rhs ∈ [[.kwFor, .lparen, .optAssign, .semi, .optExpr, .semi, .optAssign, .rparen, .optNl,
      .statement]] := hrhs
    rw [List.mem_singleton] at hrhs
    subst hrhs
    obtain ⟨a, _, rfl, ha, hkids⟩ := hkids.uncons
    obtain ⟨b, _, rfl, hb, hkids⟩ := hkids.uncons
    obtain ⟨c, _, rfl, hc, hkids⟩ := hkids.uncons
    obtain ⟨d, _, rfl, hd, hkids⟩ := hkids.uncons
    obtain ⟨e, f, g, h, i, j, rfl, he, hf, hg, hh, hi, hj'⟩ := hkids.six
    obtain ⟨x, hx, hjx⟩ := exists_optional hc rfl fun _ => assignment (m := c) (by simp [Node.children])
    obtain ⟨y, hy, hjy⟩ := exists_optional he rfl fun m hm hk => (hj.of_mem_children (m := e) (by simp [Node.children])).expr
      m (Node.mem_nodes_of_mem_children hm) hk
    obtain ⟨z, hz, hjz⟩ := exists_optional hg rfl fun _ => assignment (m := g) (by simp [Node.children])
    obtain ⟨s, hs, hjs⟩ := (ih j (by simp [Node.children])).stmt hj'.1
    exact ⟨.forLoop x y z s, by rw [control?]; simp [hx, hy, hz, hs], hjx, hjy, hjz, hjs⟩
  case switchStmt =>
    obtain ⟨types, cs, rhs, rfl, hrhs, hkids⟩ := hj.grown.children hk rfl
    have hrhs : rhs ∈ [[.kwSwitch, .lparen, .expr, .rparen, .optNl, .lbrace, .caseList, .rbrace, .optNl]] := hrhs
    rw [List.mem_singleton] at hrhs
    subst hrhs
    obtain ⟨a, _, rfl, ha, hkids⟩ := hkids.uncons
    obtain ⟨b, _, rfl, hb, hkids⟩ := hkids.uncons
    obtain ⟨c, _, rfl, hc, hkids⟩ := hkids.uncons
    obtain ⟨d, e, f, g, h, i, rfl, hd, he, hf, hg, hh, hi⟩ := hkids.six
    obtain ⟨x, hx, hjx⟩ := expr (m := c) (by simp [Node.children]) hc.1
    obtain ⟨l, hl, hall⟩ := (ih g (by simp [Node.children])).clauses hg.1
    exact ⟨.switch x l, by rw [control?]; simp [hx, hl], hjx, hall⟩

theorem exists_stmts_step (hk : n.kind? = some .stmtList) : ∃ ss, stmts? n = some ss ∧ Stmt.AllHold J ss := by
  obtain ⟨types, cs, rhs, rfl, hrhs, hkids⟩ := hj.grown.children hk rfl
  have hrhs : rhs ∈ [[], [.stmtList, .statement]] := hrhs
  simp only [List.mem_cons, List.not_mem_nil, or_false] at hrhs
  rcases hrhs with rfl | rfl
  · obtain rfl := hkids.eq_nil
    exact ⟨[], by rw [stmts?], trivial⟩
  · obtain ⟨a, b, rfl, ha, hb⟩ := hkids.pair
    obtain ⟨ss, hss, hall⟩ := (ih a (by simp [Node.children])).stmts ha.1
    obtain ⟨s, hs, hjs⟩ := (ih b (by simp [Node.children])).stmt hb.1
    exact ⟨ss ++ [s], by rw [stmts?]; simp [hss, hs], Stmt.allHold_append hall ⟨hjs, trivial⟩⟩

theorem exists_clauses_step (hk : n.kind? = some .caseList) : ∃ l, clauses? n = some l ∧ Clause.AllHold J l := by
  obtain ⟨types, cs, rhs, rfl, hrhs, hkids⟩ := hj.grown.children hk rfl
  have hrhs : rhs ∈ [[.caseClause], [.caseList, .caseClause]] := hrhs
  simp only [List.mem_cons, List.not_mem_nil, or_false] at hrhs
  rcases hrhs with rfl | rfl
  · obtain ⟨c, rfl, hc⟩ := hkids.single
    obtain ⟨x, hx, hjx⟩ := (ih c (by simp [Node.children])).clause hc.1
    exact ⟨[x], by rw [clauses?]; simp [hx], hjx⟩
  · obtain ⟨a, b, rfl, ha, hb⟩ := hkids.pair
    obtain ⟨l, hl, hall⟩ := (ih a (by simp [Node.children])).clauses ha.1
    obtain ⟨x, hx, hjx⟩ := (ih b (by simp [Node.children])).clause hb.1
    exact ⟨l ++ [x], by rw [clauses?]; simp [hl, hx], Clause.allHold_append hall hjx⟩

theorem exists_clause_step (hk : n.kind? = some .caseClause) : ∃ c, clause? n = some c ∧ Clause.AllHold J [c] := by
  obtain ⟨types, cs, rhs, rfl, hrhs, hkids⟩ := hj.grown.children hk rfl
  have hrhs : rhs ∈ [[.kwCase, .constList, .colon, .optNl, .statement], [.kwDefault, .colon, .optNl, .statement]] := hrhs
  simp only [List.mem_cons, List.not_mem_nil, or_false] at hrhs
  rcases hrhs with rfl | rfl
  · obtain ⟨a, b, c, d, e, rfl, ha, hb, hc, hd, he⟩ := hkids.five
    obtain ⟨l, hl, hlabels⟩ := exists_labels hb
    obtain ⟨s, hs, hjs⟩ := (ih e (by simp [Node.children])).stmt he.1
    exact ⟨.case l s, by rw [clause?]; simp [hl, hs], hlabels, hjs, trivial⟩
  · obtain ⟨a, b, c, d, rfl, ha, hb, hc, hd⟩ := hkids.four
    obtain ⟨t, rfl, -⟩ := Kid.leaf ha rfl (by decide)
    obtain ⟨s, hs, hjs⟩ := (ih d (by simp [Node.children])).stmt hd.1
    exact ⟨.otherwise t.line s, by rw [clause?]; simp [hs], hjs, trivial⟩

end

theorem readsStmt (hj : Judges J n) : ReadsStmt J n := by
  refine Grown.induction (P := fun n => Judges J n → ReadsStmt J n) (fun n _ ih hj => ?_) hj.grown hj
  have ih : ∀ c ∈ n.children, ReadsStmt J c := fun c hc => ih c hc (hj.of_mem_children hc)
  exact ⟨exists_stmt_step hj ih, fun k => exists_control_step hj ih, exists_stmts_step hj ih,
    exists_clauses_step hj ih, exists_clause_step hj ih⟩

/-! ## Declarations -/

theorem exists_declarator (h : n.kind? = some .varName ∧ Grown n) :
    ∃ d, declarator? n = some d ∧ Lexicon.name.Matches d.name := by
  obtain ⟨types, cs, rhs, rfl, hrhs, hkids⟩ := h.2.children h.1 rfl
  have hrhs : rhs ∈ [[.ident], [.star, .ident], [.ident, .lbracket, .integer, .rbracket]] := hrhs
  simp only [List.mem_cons, List.not_mem_nil, or_false] at hrhs
  rcases hrhs with rfl | rfl | rfl
  · obtain ⟨c, rfl, hc⟩ := hkids.single
    obtain ⟨t, rfl, -, ht⟩ := Kid.name hc
    exact ⟨.scalar t.text, by simp [declarator?], ht⟩
  · obtain ⟨a, b, rfl, ha, hb⟩ := hkids.pair
    obtain ⟨ta, rfl, -⟩ := Kid.leaf ha rfl (by decide)
    obtain ⟨tb, rfl, -, ht⟩ := Kid.name hb
    exact ⟨.list tb.text, by simp [declarator?], ht⟩
  · obtain ⟨a, b, c, d, rfl, ha, hb, hc, hd⟩ := hkids.four
    obtain ⟨ta, rfl, -, ht⟩ := Kid.name ha
    obtain ⟨tc, rfl, htc, -⟩ := Kid.leaf hc rfl (by decide)
    obtain ⟨size, hsize⟩ : ∃ size, Constant.ofToken? tc = some size := by simp [Constant.ofToken?, htc, ConstantKind.ofSymbol?]
    exact ⟨.array ta.text size, by simp [declarator?, hsize], ht⟩

theorem exists_optionItem (h : n.kind? = some .optItem ∧ Grown n) : ∃ i, optionItem? n = some i := by
  obtain ⟨types, cs, rhs, rfl, hrhs, hkids⟩ := h.2.children h.1 rfl
  have hrhs : rhs ∈ [[.ident, .equals, .initValue], [.initValue]] := hrhs
  simp only [List.mem_cons, List.not_mem_nil, or_false] at hrhs
  rcases hrhs with rfl | rfl
  · obtain ⟨a, b, c, rfl, ha, hb, hc⟩ := hkids.triple
    obtain ⟨ta, rfl, -⟩ := Kid.leaf ha rfl (by decide)
    obtain ⟨v, hv, -⟩ := exists_signedConstant hc
    simp [optionItem?, hv]
  · obtain ⟨c, rfl, hc⟩ := hkids.single
    obtain ⟨v, hv, -⟩ := exists_signedConstant hc
    simp [optionItem?, hv]

theorem exists_variable (h : n.kind? = some .declVar ∧ Grown n) :
    ∃ name declarator values, n.children.head? = some name ∧ declarator? name = some declarator ∧
      initialValues? n = some values ∧ Lexicon.name.Matches declarator.name := by
  obtain ⟨types, cs, rhs, rfl, hrhs, hkids⟩ := h.2.children h.1 rfl
  have hrhs : rhs ∈ [[.varName], [.varName, .equals, .initList]] := hrhs
  simp only [List.mem_cons, List.not_mem_nil, or_false] at hrhs
  rcases hrhs with rfl | rfl
  · obtain ⟨c, rfl, hc⟩ := hkids.single
    obtain ⟨d, hd, hname⟩ := exists_declarator hc
    exact ⟨c, d, none, rfl, hd, rfl, hname⟩
  · obtain ⟨a, b, c, rfl, ha, hb, hc⟩ := hkids.triple
    obtain ⟨d, hd, hname⟩ := exists_declarator ha
    obtain ⟨vs, hvs, -⟩ := exists_members .initList .initValue fun x hx hk =>
      exists_signedConstant ⟨hk, hc.2.of_mem_nodes hx⟩
    exact ⟨a, d, some vs, rfl, hd, by simp [initialValues?, hvs], hname⟩

theorem exists_optionItems (h : Grown n) (rest : List Tree) : ∃ is, optionItems? (n :: rest) = some is := by
  rw [optionItems?]
  cases hlist : firstOf? .optList n.children with
  | none => exact ⟨[], rfl⟩
  | some list =>
    have hgrown := h.of_mem_children (List.mem_of_find?_eq_some hlist)
    exact exists_list .optList .optItem hgrown fun _ => exists_optionItem

theorem exists_varDecl (h : n.kind? = some .declSpec ∧ Grown n) :
    ∃ v, varDecl? n = some v ∧ Lexicon.name.Matches v.declarator.name := by
  obtain ⟨types, cs, rhs, rfl, hrhs, hkids⟩ := h.2.children h.1 rfl
  have hrhs : rhs ∈ [[.declVar], [.declVar, .declOpts]] := hrhs
  simp only [List.mem_cons, List.not_mem_nil, or_false] at hrhs
  rcases hrhs with rfl | rfl
  · obtain ⟨c, rfl, hc⟩ := hkids.single
    obtain ⟨name, d, vs, hname, hd, hvs, hmatches⟩ := exists_variable hc
    exact ⟨⟨d, vs, [], (Node.branch Symbol.declSpec types [c]).line⟩, by simp [varDecl?, hname, hd, hvs, optionItems?], hmatches⟩
  · obtain ⟨a, b, rfl, ha, hb⟩ := hkids.pair
    obtain ⟨name, d, vs, hname, hd, hvs, hmatches⟩ := exists_variable ha
    obtain ⟨is, his⟩ := exists_optionItems hb.2 []
    exact ⟨⟨d, vs, is, (Node.branch Symbol.declSpec types [a, b]).line⟩, by simp [varDecl?, hname, hd, hvs, his], hmatches⟩

/-- The type of a declaration is that of a token, and its variables have names. -/
structure Declaration.Named (leaves : List (Token Symbol)) (d : Declaration) : Prop where
  type : ∃ t ∈ leaves, t.kind = .typeName ∧ d.type = t.value.getD []
  vars : ∀ v ∈ d.vars, Lexicon.name.Matches v.declarator.name

theorem Declaration.Named.of_mem_nodes {d : Declaration} {m : Tree} (h : d.Named m.leaves) (hm : m ∈ n.nodes) :
    d.Named n.leaves := by
  obtain ⟨t, ht, htype⟩ := h.type
  exact ⟨⟨t, Node.leaves_subset hm ht, htype⟩, h.vars⟩

theorem exists_declaration (h : n.kind? = some .declStmt ∧ Grown n) :
    ∃ d, declaration? n = some d ∧ d.Named n.leaves := by
  obtain ⟨types, cs, rhs, rfl, hrhs, hkids⟩ := h.2.children h.1 rfl
  have hrhs : rhs ∈ [[.typeName, .declList, .term]] := hrhs
  rw [List.mem_singleton] at hrhs
  subst hrhs
  obtain ⟨a, b, c, rfl, ha, hb, hc⟩ := hkids.triple
  obtain ⟨t, rfl, ht, -⟩ := Kid.leaf ha rfl (by decide)
  obtain ⟨vs, hvs, -, hnames⟩ := exists_members .declList .declSpec fun x hx hk => exists_varDecl ⟨hk, hb.2.of_mem_nodes hx⟩
  exact ⟨⟨t.value.getD [], vs⟩, by simp [declaration?, hvs], ⟨t, by simp [Node.leaves, Node.leavesOf], ht, rfl⟩, hnames⟩

theorem exists_declarations (list : Symbol) (h : Grown n) :
    ∃ ds, declarations? list n = some ds ∧ ∀ d ∈ ds, d.Named n.leaves := by
  obtain ⟨ds, hds, -, hall⟩ := exists_members list .declStmt fun x hx hk => by
    obtain ⟨d, hd, hnamed⟩ := exists_declaration ⟨hk, h.of_mem_nodes hx⟩
    exact ⟨d, hd, hnamed.of_mem_nodes hx⟩
  exact ⟨ds, hds, hall⟩

theorem exists_signature (h : n.kind? = some .procStmt ∧ Grown n) :
    ∃ s, signature? n = some s ∧ Lexicon.name.Matches s.name ∧ ∀ arg ∈ s.args, Lexicon.name.Matches arg.1 := by
  obtain ⟨types, cs, rhs, rfl, hrhs, hkids⟩ := h.2.children h.1 rfl
  obtain ⟨rest, rfl⟩ : ∃ rest, rhs = .kwProcedure :: .ident :: rest := by
    have hrhs : rhs ∈ [[.kwProcedure, .ident, .term], [.kwProcedure, .ident, .lparen, .rparen, .term],
      [.kwProcedure, .ident, .lparen, .procArgs, .rparen, .term]] := hrhs
    simp only [List.mem_cons, List.not_mem_nil, or_false] at hrhs
    rcases hrhs with rfl | rfl | rfl <;> exact ⟨_, rfl⟩
  obtain ⟨a, _, rfl, ha, hkids⟩ := hkids.uncons
  obtain ⟨b, cs, rfl, hb, hkids⟩ := hkids.uncons
  obtain ⟨t, rfl, ht, hname⟩ := Kid.leaf hb rfl (by decide)
  refine ⟨_, by rw [signature?], hname.name ht, fun arg harg => ?_⟩
  dsimp only at harg
  split at harg
  · next list hlist =>
    obtain ⟨x, hx, rfl⟩ := List.mem_map.mp harg
    obtain ⟨hkind, hmem⟩ := mem_members hx
    have hlistGrown : Grown list :=
      h.2.of_mem_children (List.mem_cons_of_mem _ (List.mem_cons_of_mem _ (List.mem_of_find?_eq_some hlist)))
    obtain ⟨token, rfl, htoken, hlexed⟩ := Kid.leaf ⟨hkind, hlistGrown.of_mem_nodes hmem⟩ rfl (by decide)
    exact hlexed.name htoken
  · cases harg

/-! ## Programs -/

/-- A program is a procedure with a body, or declarations with statements. -/
theorem exists_parts (h : n.kind? = some .program ∧ Grown n) :
    (∃ types bodyTypes procedure params a b locals body rest,
      n = .branch .program types [procedure, params, .branch .bodyBlock bodyTypes (a :: b :: locals :: body :: rest)] ∧
      (procedure.kind? = some .procStmt ∧ Grown procedure) ∧ Grown params ∧ Grown locals ∧
      (body.kind? = some .stmtList ∧ Grown body)) ∨
    ∃ types locals body, n = .branch .program types [locals, body] ∧ Grown locals ∧
      (body.kind? = some .stmtList ∧ Grown body) := by
  obtain ⟨types, cs, rhs, rfl, hrhs, hkids⟩ := h.2.children h.1 rfl
  have hrhs : rhs ∈ [[.procStmt, .paramDecls, .bodyBlock], [.localDecls, .stmtList]] := hrhs
  simp only [List.mem_cons, List.not_mem_nil, or_false] at hrhs
  rcases hrhs with rfl | rfl
  · obtain ⟨a, b, c, rfl, ha, hb, hc⟩ := hkids.triple
    obtain ⟨bodyTypes, ds, rhs, rfl, hrhs, hkids⟩ := hc.2.children hc.1 rfl
    have hrhs : rhs ∈ [[.kwBegin, .optNl, .localDecls, .stmtList, .kwEnd, .optNl]] := hrhs
    rw [List.mem_singleton] at hrhs
    subst hrhs
    obtain ⟨d, e, f, g, h, i, rfl, hd, he, hf, hg, hh, hi⟩ := hkids.six
    exact .inl ⟨_, _, _, _, _, _, _, _, _, rfl, ha, hb.2, hf.2, hg⟩
  · obtain ⟨a, b, rfl, ha, hb⟩ := hkids.pair
    exact .inr ⟨_, _, _, rfl, ha.2, hb⟩

/-- What a header declares has names, and types that are those of tokens. -/
structure Header.Named (leaves : List (Token Symbol)) (h : Header) : Prop where
  procedure : ∀ signature ∈ h.signature, Lexicon.name.Matches signature.name
  args : ∀ signature ∈ h.signature, ∀ arg ∈ signature.args, Lexicon.name.Matches arg.1
  declarations : ∀ d ∈ h.params ++ h.locals, d.Named leaves

theorem exists_header (h : n.kind? = some .program ∧ Grown n) :
    ∃ header, Header.ofTree? n = some header ∧ header.Named n.leaves := by
  rcases exists_parts h with
    ⟨types, bodyTypes, procedure, params, a, b, locals, body, rest, rfl, hprocedure, hparams, hlocals, _⟩ |
    ⟨types, locals, body, rfl, hlocals, _⟩
  · obtain ⟨s, hs, hname, hargs⟩ := exists_signature hprocedure
    obtain ⟨ps, hps, hpsNamed⟩ := exists_declarations .paramDecls hparams
    obtain ⟨ls, hls, hlsNamed⟩ := exists_declarations .localDecls hlocals
    refine ⟨⟨some s, ps, ls⟩, by simp [Header.ofTree?, hs, hps, hls], ?_, ?_, ?_⟩
    · rintro _ ⟨⟩
      exact hname
    · rintro _ ⟨⟩
      exact hargs
    · refine List.forall_mem_append.mpr ⟨fun d hd => (hpsNamed d hd).of_mem_nodes ?_, fun d hd => (hlsNamed d hd).of_mem_nodes ?_⟩
      · exact Node.mem_nodes_of_mem_children (by simp [Node.children])
      · exact Node.nodes_subset (Node.mem_nodes_of_mem_children (by simp [Node.children]))
          (Node.mem_nodes_of_mem_children (n := .branch .bodyBlock bodyTypes (a :: b :: locals :: body :: rest)) (by simp [Node.children]))
  · obtain ⟨ls, hls, hnamed⟩ := exists_declarations .localDecls hlocals
    exact ⟨⟨none, [], ls⟩, by simp [Header.ofTree?, hls], fun _ hsignature => absurd hsignature (Option.not_mem_none _),
      fun _ hsignature => absurd hsignature (Option.not_mem_none _),
      fun d hd => (hnamed d hd).of_mem_nodes (Node.mem_nodes_of_mem_children (by simp [Node.children]))⟩

/-- The body of a program, of whose statements holds what its nodes are judged by. -/
theorem exists_body (hk : n.kind? = some .program) (hj : Judges J n) : ∃ body, body? n = some body ∧ Stmt.AllHold J body := by
  rcases exists_parts ⟨hk, hj.grown⟩ with
    ⟨types, bodyTypes, procedure, params, a, b, locals, body, rest, rfl, _, _, _, hbody⟩ |
    ⟨types, locals, body, rfl, _, hbody⟩
  · have hblock := hj.of_mem_children (m := .branch .bodyBlock bodyTypes (a :: b :: locals :: body :: rest)) (by simp [Node.children])
    obtain ⟨ss, hss, hall⟩ := (readsStmt (hblock.of_mem_children (by simp [Node.children]))).stmts hbody.1
    exact ⟨ss, by simp [body?, hss], hall⟩
  · obtain ⟨ss, hss, hall⟩ := (readsStmt (hj.of_mem_children (by simp [Node.children]))).stmts hbody.1
    exact ⟨ss, by simp [body?, hss], hall⟩

end IrafCl.Script
