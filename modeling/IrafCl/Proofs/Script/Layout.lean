import IrafCl.Proofs.Script.Compile
import IrafCl.Proofs.Script.Soundness
import IrafCl.Proofs.Script.Statements

/-!
# The layout of generated code

A negation is printed in parentheses, so no expression begins with `not` (`unnegated_annotate`), and whatever is
appended can be written after a plus sign. With what is known of the expressions of a tree that has its types, and of
the texts of its redirections, every part of a statement is printed as Python has it (`judges_printing`). So the
statements of every compiled program are laid out as Python statements (`compile_layout`).
-/

namespace IrafCl.Script

open Python (isIdentifier notLevel signLevel Unnegated)
open Typing (typed both require?)

variable {c : Context} {n : Tree} {k : Symbol} {e : Expr} {scope : Scope}

/-! ## The first word of an expression -/

theorem unnegated_require {m : Nat} (types : Types) (hprinted : e.Printed c m) (h : Unnegated (e.lower c).text) :
    Unnegated ((e.require types).lower c).text := by
  unfold Expr.require
  split
  · exact h
  · cases hconv : conversion? types with
    | none => rwa [Expr.lower, hconv]
    | some fn => exact (printed_converted hconv hprinted).reads.unnegated (by decide)

/-- What is asked of a node does not make it begin with `not`. -/
theorem Settled.unnegated (h : Settled c n k e) (hn : Plain n) (hnot : Unnegated (e.lower c).text) {t : Option Ty}
    {e' : Expr} (he' : expr? (require? t n) = some e') : Unnegated (e'.lower c).text := by
  cases t with
  | none =>
    rw [require?, h.expr?_plain hn] at he'
    cases he'
    exact hnot
  | some t =>
    rw [require?, (h.require t).expr?_eq] at he'
    cases he'
    exact unnegated_require _ h.printed hnot

/-- A child of a node of a tree that has its types: what it is read as, and what that is once a type is asked of it. -/
structure Operand (c : Context) (scope : Scope) (n x : Tree) (s : Symbol) (asked : Option Ty) (alone e : Expr) : Prop where
  mem : x ∈ n.children
  kind : x.kind? = some s
  plain : Plain (Typing.annotate scope x)
  settled : Settled c (Typing.annotate scope x) s alone
  expr? : expr? (require? asked (Typing.annotate scope x)) = some e

/-- What a node that binds more loosely than a sign is read as: what its only child is, or an operation between two. -/
inductive LooseForm (c : Context) (scope : Scope) (n : Tree) (k : Symbol) (ty : Ty) : Expr → Prop where
  | pass {s : Symbol} {x : Tree} {e : Expr} (hs : s.isExpr = true) (hlevel : k.level ≤ s.level)
      (hx : Operand c scope n x s none e e) (hty : (Typing.annotate scope x).types.inferred = ty) : LooseForm c scope n k ty e
  | binary {l op r : Symbol} {tl tr : Option Ty} {x y : Tree} {a a' b b' : Expr} {o : BinaryOp} (hop : OpRule k l op r)
      (ho : BinaryOp.ofSymbol? ty op = some o) (htypes : Typing.OpTypes op ty tl tr) (hx : Operand c scope n x l tl a a')
      (hy : Operand c scope n y r tr b b') : LooseForm c scope n k ty (.binary o a' b')

theorem looseForm_annotate (hc : isIdentifier c.handle = true) (h : Grown n) (hk : n.kind? = some k) (hexpr : k.isExpr = true)
    (hlevel : k.level < signLevel) (he : Settled c (Typing.annotate scope n) k e) :
    LooseForm c scope n k (Typing.annotate scope n).types.inferred e := by
  obtain ⟨types, cs, rfl, hnode⟩ := h.exprNode hk hexpr
  have hraw : exprOf? k (typed scope k types (cs.map (Typing.annotate scope))).1
      (typed scope k types (cs.map (Typing.annotate scope))).2 = some e := by
    obtain ⟨types', cs', heq, hraw⟩ := he.raw
    rw [annotate_branch, Node.branch.injEq] at heq
    rw [heq.2.1, heq.2.2, hraw]
  have child {x : Tree} {s : Symbol} (hx : x ∈ cs) (hs : x.kind? = some s) (hexpr : s.isExpr = true) :
      ∃ e, Settled c (Typing.annotate scope x) s e ∧ Plain (Typing.annotate scope x) := by
    obtain ⟨hfacts, hplain⟩ := facts_annotate hc scope (h.of_mem_children hx)
    rw [Typing.kind?_annotate] at hplain
    obtain ⟨e, he⟩ := hfacts.expr s ((Typing.kind?_annotate scope x).trans hs) hexpr
    exact ⟨e, he, hplain s hs hexpr⟩
  cases hnode with
  | @pass _ s xt xcs hpass hs hle =>
    obtain ⟨e', he', hplain⟩ := child (x := .branch s xt xcs) (by simp) rfl hs
    rw [List.map_cons, List.map_nil, Typing.typed_pass hpass] at hraw
    have heq : some e = some e' := hraw.symm.trans (he'.expr?_plain hplain)
    cases heq
    refine .pass hs hle ⟨by simp [Node.children], rfl, hplain, he', he'.expr?_plain hplain⟩ ?_
    rw [annotate_branch scope k, List.map_cons, List.map_nil, Typing.typed_pass hpass]
    rfl
  | @binary _ l r t x z hop hx hz =>
    obtain ⟨a, ha, haplain⟩ := child (by simp) hx hop.isExpr.1
    obtain ⟨b, hb, hbplain⟩ := child (by simp) hz hop.isExpr.2
    obtain ⟨ty, tl, tr, htyped, htypes⟩ :=
      @Typing.typed_op scope types _ _ _ _ hop (Typing.annotate scope x) (Typing.annotate scope z) t rfl
    obtain ⟨a', ha', -⟩ := ha.wanted haplain tl
    obtain ⟨b', hb', -⟩ := hb.wanted hbplain tr
    obtain ⟨o, ho⟩ := Option.isSome_iff_exists.mp (hop.isSome ty)
    have hbinary : exprOf? k (both ty) [require? tl (Typing.annotate scope x), .leaf t, require? tr (Typing.annotate scope z)] =
        some (.binary o a' b') := exprOf?_binary k ho ha' hb'
    have htyped' : typed scope k types ([x, .leaf t, z].map (Typing.annotate scope)) =
        (both ty, [require? tl (Typing.annotate scope x), .leaf t, require? tr (Typing.annotate scope z)]) := htyped
    rw [htyped', hbinary, Option.some.injEq] at hraw
    subst hraw
    have hinferred : (Typing.annotate scope (.branch k types [x, .leaf t, z])).types.inferred = ty := by
      rw [annotate_branch, htyped']
      rfl
    rw [hinferred]
    exact .binary hop ho htypes ⟨by simp [Node.children], hx, haplain, ha, ha'⟩ ⟨by simp [Node.children], hz, hbplain, hb, hb'⟩
  -- the other forms bind as tightly as a sign or more
  | _ => exact absurd hlevel (by decide)

/-- What is asked of an operand keeps its level. -/
theorem Operand.printed {x : Tree} {s : Symbol} {asked : Option Ty} {alone : Expr} (h : Operand c scope n x s asked alone e) :
    e.Printed c s.level := by
  obtain ⟨e', he', hprinted, -⟩ := h.settled.wanted h.plain asked
  rw [h.expr?, Option.some.injEq] at he'
  rwa [he']

/-- No expression begins with `not`. -/
theorem unnegated_annotate (hc : isIdentifier c.handle = true) (h : Grown n) : ∀ k e, n.kind? = some k →
    k.isExpr = true → Settled c (Typing.annotate scope n) k e → Unnegated (e.lower c).text := by
  refine Grown.induction (P := fun n => ∀ k e, n.kind? = some k → k.isExpr = true →
    Settled c (Typing.annotate scope n) k e → Unnegated (e.lower c).text) (fun n hn ih k e hk hexpr he => ?_) h
  have operand {x : Tree} {s : Symbol} {asked : Option Ty} {alone e : Expr} (hs : s.isExpr = true)
      (h : Operand c scope n x s asked alone e) : Unnegated (e.lower c).text :=
    h.settled.unnegated h.plain (ih x h.mem s alone h.kind hs h.settled) h.expr?
  by_cases hlevel : notLevel < k.level
  · exact he.printed.reads.unnegated hlevel
  have hloose : k.level < signLevel := Nat.lt_of_le_of_lt (Nat.le_of_not_lt hlevel) (by decide)
  cases looseForm_annotate hc hn hk hexpr hloose he with
  | pass hs _ hx _ => exact operand hs hx
  | @binary _ _ _ _ _ _ _ _ _ _ _ o hop ho _ hx hy =>
    have hconcat : o ≠ .concat := by
      rintro rfl
      rw [(hop.level_concat ho).1] at hlevel
      exact hlevel (by decide)
    obtain ⟨hl, hr, -⟩ := hop.levels ho hconcat
    rw [Expr.lower, Code.Expr.text]
    exact (operand hop.isExpr.1 hx).binary (hx.printed.weaken hl).reads (hy.printed.weaken hr).reads

/-! ## The parts of statements -/

/-- An expression in a tree that has its types is a settled one of which a type may be asked. -/
theorem exists_settled_of_mem (hc : isIdentifier c.handle = true) (scope : Scope) (h : Grown n) {m : Tree}
    (hm : m ∈ (Typing.annotate scope n).nodes) (hk : m.kind? = some k) (hexpr : k.isExpr = true) :
    ∃ x asked e, Grown x ∧ x.kind? = some k ∧ m = require? asked (Typing.annotate scope x) ∧
      Plain (Typing.annotate scope x) ∧ Settled c (Typing.annotate scope x) k e := by
  obtain ⟨x, asked, hx, rfl, -⟩ := mem_nodes_annotate scope h hm
  have hkind : (Typing.annotate scope x).kind? = some k := by
    cases asked with
    | none => exact hk
    | some t => exact (Typing.kind?_require t _).symm.trans hk
  obtain ⟨hfacts, hplain⟩ := facts_annotate hc scope hx
  obtain ⟨e, he⟩ := hfacts.expr k hkind hexpr
  exact ⟨x, asked, e, hx, (Typing.kind?_annotate scope x).symm.trans hkind, rfl, hplain k hkind hexpr, he⟩

/-- In a tree that has its types, every part of a statement is printed as Python has it. -/
theorem judges_printing {source : Bytes} {t : Tree} (mode : Bytes) (htree : tree source = .ok t) (h : Grown t) :
    Judges (printing (.of scope mode)) (Typing.annotate scope t) where
  grown := Typing.grown_annotate scope h
  expr m hm hk := by
    have hhandle := isIdentifier_handle scope mode
    obtain ⟨x, asked, e, hx, hkind, rfl, hplain, he⟩ := exists_settled_of_mem hhandle scope h hm hk rfl
    obtain ⟨e', he', hprinted, -⟩ := he.wanted hplain asked
    have hnot := unnegated_annotate hhandle hx .expr e hkind rfl he
    exact ⟨e', he', hprinted, he.unnegated hplain hnot he'⟩
  subscripts m hm hk := (facts_of_mem (isIdentifier_handle scope mode) scope h m hm).list hk
  args m hm hk := (facts_of_mem (isIdentifier_handle scope mode) scope h m hm).args hk
  redirection token htoken hredirects := by
    have hkeys : ∀ text ∈ redirectionTexts, isIdentifier (redirectionKey text) = true := by decide
    rw [Typing.leaves_annotate] at htoken
    exact hkeys _ (redirected_of_mem_leaves htree token htoken hredirects)

/-! ## The theorem -/

/-- A text is refused, or compiled to the text of a preamble, of its statements and of its warnings. The text of the
statements is the print, at level 1, of well-formed Python statements of the same form, where a block that holds nothing
is a lone `pass`; every printed line is on a line of its own. Well-formed statements have expressions, targets and calls for
their parts and blocks that are not empty. Whether a `break` or `continue` stands in a loop, and whether the arguments of a
call agree with each other, is not part of it. -/
theorem compile_layout [Library] (st : Settings) (source : Bytes) : (∃ halt, (compile st source).outcome = .error halt) ∨
    ∃ u t scope body stmts p ps, (compile st source).outcome = .ok u ∧ tree source = .ok t ∧
      (declarations st t).2 = .ok scope ∧ body? (Typing.annotate scope t) = some body ∧
      (Stmt.lowerAll (.of scope st.mode) body).run .start = (stmts, p) ∧
      Code.written stmts = .ok (Code.unlines (Python.Stmt.printAll 1 ps)) ∧
      u.code = Code.unlines (preamble scope st.filename p.usesPackage) ++ Code.unlines (Python.Stmt.printAll 1 ps) ++
        Code.unlines (u.warnings.map warningLine) ∧
      Python.Stmt.areOk ps = true ∧ Code.Stmt.AllLaid stmts ps ∧ ∀ line ∈ Python.Stmt.printAll 1 ps, Python.OneLine line := by
  cases hu : (compile st source).outcome with
  | error halt => exact .inl ⟨halt, rfl⟩
  | ok u =>
    obtain ⟨t, scope, g, htree, ⟨hkind, hgrown⟩, hscope, hg, hcode, hunit⟩ := compile_eq_ok hu
    obtain ⟨body, hbody, hall⟩ := exists_body ((Typing.kind?_annotate scope t).trans hkind)
      (judges_printing st.mode htree hgrown)
    have hok := Stmt.areOk_lowerAll (isIdentifier_handle scope st.mode) body hall .start
    cases hrun : (Stmt.lowerAll (.of scope st.mode) body).run .start with
    | mk stmts p =>
    rw [hrun] at hok
    obtain ⟨ps, hps⟩ := Code.Stmt.exists_printAll 1 stmts hok
    have hprogram := program_annotate scope ⟨hkind, hgrown⟩
    have hworded := worded_body scope st.mode hprogram hbody .start
    rw [hrun] at hworded
    have hwritten : Code.written stmts = .ok (Code.unlines (Python.Stmt.printAll 1 ps)) := by
      rw [hps.print]
      exact Code.written_eq hworded
    refine .inr ⟨u, t, scope, body, stmts, p, ps, rfl, htree, hscope, hbody, hrun, hwritten, ?_, hps.ok, hps.laid,
      Python.Stmt.oneLine_printAll 1 ps hps.ok⟩
    have hwarnings : u.warnings = g.warnings := by rw [hunit]; rfl
    rw [hwarnings, hps.print]
    exact (code_generateTree hprogram hbody hrun hg hcode).2

end IrafCl.Script
