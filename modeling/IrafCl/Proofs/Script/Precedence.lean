import IrafCl.Proofs.Script.Printing
import IrafCl.Proofs.Script.Reading
import IrafCl.Proofs.Script.Typing

/-!
# Operators keep their operands

The levels of the CL grammar fit those of Python, except that a concatenation is printed as a sum. Its operands are
wanted as strings, and a sum of numbers gets a conversion there: so no sum of numbers is torn apart
(`Settled.joins`). It follows by induction on a tree of the grammar that every expression in it is printed as its
Python expression (`facts`).
-/

namespace IrafCl.Script

open Python (operandLevel signLevel isIdentifier)

/-! ## Types -/

namespace Typing

variable {scope : Scope} {types : Types}

theorem typed_pass {k : Symbol} (hk : k.isPass = true) (n : Tree) : typed scope k types [n] = (both (inferred n), [n]) := by
  cases k <;> first | rfl | cases hk

/-- The type of an operation between numbers. -/
theorem isNumeric_compose (l r : Ty) : (compose l r).1.isNumeric = true := by
  cases l <;> cases r <;> rfl

theorem isKnown_of_isNumeric {t : Ty} (h : t.isNumeric = true) : isKnown t = true ∧ t ≠ .string := by
  cases t <;> first | exact ⟨rfl, by decide⟩ | cases h

/-- The type of an operation is known, and it is a concatenation just if it is a string; then its operands are wanted
as strings. -/
structure OpTypes (op : Symbol) (t : Ty) (tl tr : Option Ty) : Prop where
  known : isKnown t = true
  string : t = .string → BinaryOp.ofSymbol? t op = some .concat
  operands : BinaryOp.ofSymbol? t op = some .concat → tl = some .string ∧ tr = some .string

theorem typed_op {k l op r : Symbol} (h : OpRule k l op r) (x y : Tree) {t : Token Symbol} (ht : t.kind = op) :
    ∃ ty tl tr, typed scope k types [x, .leaf t, y] = (both ty, [require? tl x, .leaf t, require? tr y]) ∧
      OpTypes op ty tl tr := by
  have arithmetic (hop : ∀ ty, ty ≠ .string → BinaryOp.ofSymbol? ty op ≠ some .concat) :
      ∃ ty tl tr, arithmetic x (.leaf t) y = (both ty, [require? tl x, .leaf t, require? tr y]) ∧ OpTypes op ty tl tr := by
    obtain ⟨hknown, hne⟩ := isKnown_of_isNumeric (isNumeric_compose (inferred x) (inferred y))
    exact ⟨_, _, _, rfl, hknown, fun heq => absurd heq hne, fun heq => absurd heq (hop _ hne)⟩
  have concat (hop : BinaryOp.ofSymbol? .string op = some .concat) : OpTypes op .string (some .string) (some .string) :=
    ⟨rfl, fun _ => hop, fun _ => ⟨rfl, rfl⟩⟩
  have bool (hop : BinaryOp.ofSymbol? .bool op ≠ some .concat) (tl tr : Option Ty) : OpTypes op .bool tl tr :=
    ⟨rfl, nofun, fun heq => absurd heq hop⟩
  cases h with
  | or => exact ⟨.bool, some .bool, some .bool, rfl, bool (by decide) _ _⟩
  | and => exact ⟨.bool, some .bool, some .bool, rfl, bool (by decide) _ _⟩
  | eq => exact ⟨.bool, none, none, rfl, bool (by decide) _ _⟩
  | ne => exact ⟨.bool, none, none, rfl, bool (by decide) _ _⟩
  | lt => exact ⟨.bool, none, none, rfl, bool (by decide) _ _⟩
  | le => exact ⟨.bool, none, none, rfl, bool (by decide) _ _⟩
  | gt => exact ⟨.bool, none, none, rfl, bool (by decide) _ _⟩
  | ge => exact ⟨.bool, none, none, rfl, bool (by decide) _ _⟩
  | concat => exact ⟨.string, some .string, some .string, rfl, concat rfl⟩
  | add =>
    rw [typed]
    split
    · exact ⟨.string, some .string, some .string, rfl, concat rfl⟩
    · exact arithmetic (by intro ty hty; simp [BinaryOp.ofSymbol?, hty])
  | sub =>
    have hop : ¬ (Node.kind? (Node.leaf t) = some .plus) := by simp [Node.kind?, ht]
    rw [typed]
    rw [if_neg (by simp [hop])]
    exact arithmetic (by intro ty _; simp [BinaryOp.ofSymbol?])
  | mul => exact arithmetic (by intro ty _; simp [BinaryOp.ofSymbol?])
  | div => exact arithmetic (by intro ty _; simp only [BinaryOp.ofSymbol?]; split <;> decide)
  | mod => exact arithmetic (by intro ty _; simp [BinaryOp.ofSymbol?])
  | pow => exact arithmetic (by intro ty _; simp [BinaryOp.ofSymbol?])

theorem typed_unary {op e : Tree} : ∃ ty te, typed scope .unary types [op, e] = (both ty, [op, require? te e]) ∧
    isKnown ty = true ∧ ty ≠ .string := by
  rw [typed]
  split
  · exact ⟨.bool, some .bool, rfl, rfl, by decide⟩
  split
  · next hnumeric => exact ⟨inferred e, none, rfl, isKnown_of_isNumeric hnumeric⟩
  · exact ⟨.float, some .float, rfl, rfl, by decide⟩

end Typing

/-! ## Levels -/

theorem level_le (k : Symbol) : k.level ≤ operandLevel := by
  cases k <;> decide

/-- The levels of the operands of a rule are those that its operator needs. -/
theorem OpRule.levels {k l op r : Symbol} (h : OpRule k l op r) {t : Ty} {o : BinaryOp}
    (ho : BinaryOp.ofSymbol? t op = some o) (hconcat : o ≠ .concat) :
    Python.left o.lower ≤ l.level ∧ Python.right o.lower ≤ r.level ∧ k.level ≤ Python.level o.lower := by
  cases h
  case add =>
    simp only [BinaryOp.ofSymbol?, Option.some.injEq] at ho
    split at ho
    · exact absurd ho.symm hconcat
    · subst ho; decide
  case div =>
    simp only [BinaryOp.ofSymbol?, Option.some.injEq] at ho
    split at ho
    · subst ho; decide
    · subst ho; decide
  case concat =>
    cases ho
    exact absurd rfl hconcat
  all_goals
    cases ho
    decide

/-- A concatenation stands between operands that bind at least as tightly as a sum. -/
theorem OpRule.level_concat {k l op r : Symbol} (h : OpRule k l op r) {t : Ty}
    (ho : BinaryOp.ofSymbol? t op = some .concat) : k.level = 4 ∧ 4 ≤ l.level ∧ 4 ≤ r.level := by
  cases h
  case add => decide
  case concat => decide
  case div =>
    simp only [BinaryOp.ofSymbol?, Option.some.injEq] at ho
    split at ho <;> cases ho
  all_goals cases ho

/-! ## Nodes -/

variable {c : Context} {n : Tree} {k : Symbol} {e : Expr}

/-- A node of an expression, without the conversion of its own, is printed as its Python expression, which is loose only
if the node may be. Where it is a string it can be joined to others, and where its type is not known it is a single
operand. -/
structure Settled (c : Context) (n : Tree) (k : Symbol) (e : Expr) : Prop where
  raw : ∃ types cs, n = .branch k types cs ∧ exprOf? k types cs = some e
  printed : e.Printed c k.level
  tight : Python.level .add < k.level → e.isLoose = false
  operand : isOperand e = true → e.Printed c operandLevel
  joins : 4 ≤ k.level → n.types.inferred = .string → Joins c e
  unknown : isKnown n.types.inferred = false → isOperand e = true

theorem Settled.expr?_eq (h : Settled c n k e) : expr? n = some (e.require n.types) := by
  obtain ⟨types, cs, rfl, he⟩ := h.raw
  rw [expr?, he]
  rfl

theorem exprOf?_require (k : Symbol) (inferred required required' : Ty) (cs : List Tree) :
    exprOf? k ⟨inferred, required⟩ cs = exprOf? k ⟨inferred, required'⟩ cs := by
  simp only [exprOf?.eq_def]

/-- What is required of a node from above does not matter for the node without its own conversion. -/
theorem Settled.require (h : Settled c n k e) (t : Ty) : Settled c (Typing.require t n) k e := by
  obtain ⟨types, cs, rfl, he⟩ := h.raw
  exact ⟨⟨_, cs, rfl, (exprOf?_require k _ _ _ cs).trans he⟩, h.printed, h.tight, h.operand, h.joins, h.unknown⟩

theorem Settled.printed_require (h : Settled c n k e) : (e.require n.types).Printed c k.level :=
  IrafCl.Script.printed_require n.types (level_le k) h.printed

theorem Settled.isIndex (h : Settled c n k e) : IsIndex c (e.require n.types) := by
  refine ⟨h.printed_require.weaken (Nat.zero_le _), fun hoperand => ?_⟩
  unfold Expr.require at hoperand ⊢
  split
  · next heq =>
    rw [if_pos heq] at hoperand
    exact h.operand hoperand
  · next hne =>
    rw [if_neg hne] at hoperand
    cases hoperand

/-- A node of which nothing but its own type is required. -/
def Plain (n : Tree) : Prop := n.types.required = n.types.inferred

theorem Settled.expr?_plain (h : Settled c n k e) (hn : Plain n) : expr? n = some e := by
  unfold Plain at hn
  rw [h.expr?_eq, Expr.require, if_pos hn]

/-- An operand of an operator that may ask for a type. -/
theorem Settled.wanted (h : Settled c n k e) (hn : Plain n) (t : Option Ty) :
    ∃ e', expr? (Typing.require? t n) = some e' ∧ e'.Printed c k.level ∧
      (t = some .string → 4 ≤ k.level → Joins c e') := by
  cases t with
  | none => exact ⟨e, h.expr?_plain hn, h.printed, nofun⟩
  | some t =>
    have hrequire := h.require t
    refine ⟨_, hrequire.expr?_eq, hrequire.printed_require, fun hstring hlevel => ?_⟩
    cases hstring
    refine joins_require ?_ h.printed (hrequire.joins hlevel) fun hunknown => hrequire.operand (hrequire.unknown hunknown)
    obtain ⟨types, cs, rfl, _⟩ := h.raw
    rfl

/-- An operand of its own. -/
theorem settled_operand {types : Types} {cs : List Tree} (he : exprOf? k types cs = some e) (hoperand : isOperand e = true)
    (hprinted : e.Printed c operandLevel) : Settled c (.branch k types cs) k e :=
  ⟨⟨types, cs, rfl, he⟩, hprinted.weaken (level_le k), fun _ => isLoose_of_isOperand hoperand, fun _ => hprinted,
    fun _ _ => joins_of_isOperand hprinted hoperand, fun _ => hoperand⟩

/-- An operation whose type is known. -/
theorem settled_operation {types : Types} {cs : List Tree} (he : exprOf? k types cs = some e) (hoperand : isOperand e = false)
    (hknown : isKnown types.inferred = true) (hprinted : e.Printed c k.level)
    (htight : Python.level .add < k.level → e.isLoose = false)
    (hjoins : types.inferred = .string → Joins c e) : Settled c (.branch k types cs) k e := by
  refine ⟨⟨types, cs, rfl, he⟩, hprinted, htight, fun h => ?_, fun _ => hjoins, fun h => ?_⟩
  · rw [hoperand] at h
    cases h
  · rw [show isKnown types.inferred = false from h] at hknown
    cases hknown

/-! ## Trees -/

/-- What is printed for the nodes of expressions, lists and arguments. -/
structure Facts (c : Context) (n : Tree) : Prop where
  expr : ∀ k, n.kind? = some k → k.isExpr = true → ∃ e, Settled c n k e
  list : n.kind? = some .exprList → ∃ es, exprList? n = some es ∧ es ≠ [] ∧ ∀ e ∈ es, IsIndex c e
  arg : n.kind? = some .callArg → ∃ a, arg? n = some a ∧ a.Printed c
  args : n.kind? = some .callArgs → ∃ as, args? n = some as ∧ ∀ a ∈ as, a.Printed c

section
variable {scope : Scope} {types : Types} {cs : List Tree} {rhs : List Symbol}

open Typing (typed both require?)

theorem settled_unary {b : Tree} {t : Token Symbol} {o : UnaryOp} (ho : UnaryOp.ofSymbol? t.kind = some o) (hb : Plain b)
    (he : Settled c b .unary e) :
    ∃ ty e', (typed scope .unary types [.leaf t, b]).1 = both ty ∧
      Settled c (.branch .unary (both ty) (typed scope .unary types [.leaf t, b]).2) .unary e' := by
  obtain ⟨ty, te, htyped, hknown, hstring⟩ := @Typing.typed_unary scope types (.leaf t) b
  obtain ⟨e', he', hprinted, _⟩ := he.wanted hb te
  rw [htyped]
  exact ⟨ty, .unary o e', rfl, settled_operation (exprOf?_unary ho he' _) rfl hknown (printed_unary o hprinted) (fun _ => rfl)
    fun h => absurd h hstring⟩

theorem settled_binary {l op r : Symbol} (hop : OpRule k l op r) {a b : Tree} {x y : Expr} {t : Token Symbol} (ht : t.kind = op)
    (ha : Plain a) (hx : Settled c a l x) (hb : Plain b) (hy : Settled c b r y) :
    ∃ ty e, (typed scope k types [a, .leaf t, b]).1 = both ty ∧
      Settled c (.branch k (both ty) (typed scope k types [a, .leaf t, b]).2) k e := by
  obtain ⟨ty, tl, tr, htyped, htypes⟩ := @Typing.typed_op scope types _ _ _ _ hop a b t ht
  obtain ⟨x', hx', hxp, hxj⟩ := hx.wanted ha tl
  obtain ⟨y', hy', hyp, hyj⟩ := hy.wanted hb tr
  obtain ⟨o, ho⟩ := Option.isSome_iff_exists.mp (hop.isSome ty)
  have hexpr : exprOf? k (both ty) [require? tl a, .leaf t, require? tr b] = some (.binary o x' y') :=
    exprOf?_binary k (ht ▸ ho) hx' hy'
  have hjoins (hconcat : o = .concat) : Joins c (.binary o x' y') := by
    subst hconcat
    obtain ⟨hk, hl, hr⟩ := hop.level_concat ho
    obtain ⟨htl, htr⟩ := htypes.operands ho
    exact (hxj htl hl).binary (hyj htr hr)
  rw [htyped]
  refine ⟨ty, _, rfl, settled_operation hexpr rfl htypes.known ?_ (fun htight => ?_) fun hstring => hjoins ?_⟩
  · by_cases hconcat : o = .concat
    · subst hconcat
      rw [(hop.level_concat ho).1]
      exact (hjoins rfl).printed
    · obtain ⟨hl, hr, hk⟩ := hop.levels ho hconcat
      exact (printed_binary hconcat (hxp.weaken hl) (hyp.weaken hr)).weaken hk
  · have hconcat : o ≠ .concat := by
      rintro rfl
      rw [(hop.level_concat ho).1] at htight
      exact absurd htight (by decide)
    rw [Expr.isLoose, decide_eq_false_iff_not, Nat.not_le]
    exact Nat.lt_of_lt_of_le htight (hop.levels ho hconcat).2.2
  · have hstring' := htypes.string hstring
    rw [ho] at hstring'
    cases hstring'
    rfl

/-- A node of an expression is settled once its children are. -/
theorem settled_of_node (hc : isIdentifier c.handle = true) (hnode : ExprNode k cs)
    (ih : ∀ n ∈ cs, Facts c n ∧ ∀ s, n.kind? = some s → s.isExpr = true → Plain n) :
    ∃ ty e, (typed scope k types cs).1 = both ty ∧ Settled c (.branch k (both ty) (typed scope k types cs).2) k e := by
  cases hnode with
  | @pass _ s own ccs hk hs hlevel =>
    obtain ⟨hfacts, hplain⟩ := ih (.branch s own ccs) (by simp)
    obtain ⟨e, he⟩ := hfacts.expr s rfl hs
    have hread := he.expr?_plain (hplain s rfl hs)
    rw [Typing.typed_pass hk]
    refine ⟨_, e, rfl, ⟨_, _, rfl, (exprOf?_pass ..).trans hread⟩, he.printed.weaken hlevel, fun h => ?_, he.operand,
      fun h => ?_, he.unknown⟩
    · exact he.tight (Nat.lt_of_lt_of_le h hlevel)
    · exact he.joins (h.trans hlevel)
  | constant ht hconstant =>
    exact ⟨_, _, rfl, settled_operand (exprOf?_constant hconstant) rfl (prints_constant (isLexed_ofToken ht hconstant))⟩
  | name ht => exact ⟨_, _, rfl, settled_operand exprOf?_name rfl (prints_reference hc ht)⟩
  | element ht hindex =>
    obtain ⟨es, hes, hne, hall⟩ := (ih _ (by simp)).1.list hindex
    exact ⟨_, _, rfl, settled_operand (exprOf?_element hes) rfl (printed_element hc ht hne hall)⟩
  | callNone _ ht => exact ⟨_, _, rfl, settled_operand exprOf?_callNone rfl (printed_call ht (by simp))⟩
  | call hkind ht hargs =>
    obtain ⟨as, has, hall⟩ := (ih _ (by simp)).1.args hargs
    exact ⟨_, _, rfl, settled_operand (exprOf?_call hkind has) rfl (printed_call ht hall)⟩
  | cast hkind hargs =>
    obtain ⟨as, has, hall⟩ := (ih _ (by simp)).1.args hargs
    exact ⟨_, _, rfl, settled_operand (exprOf?_cast hkind has) rfl (printed_cast hall)⟩
  | @paren _ _ own ccs =>
    obtain ⟨hfacts, hplain⟩ := ih (.branch .expr own ccs) (by simp)
    obtain ⟨e, he⟩ := hfacts.expr .expr rfl rfl
    exact ⟨_, _, rfl, settled_operand (exprOf?_paren (he.expr?_plain (hplain .expr rfl rfl))) rfl (printed_paren he.printed)⟩
  | @unary t o x ho hx =>
    obtain ⟨hfacts, hplain⟩ := ih x (by simp)
    obtain ⟨e, he⟩ := hfacts.expr .unary hx rfl
    exact settled_unary ho (hplain .unary hx rfl) he
  | @binary _ l r t x y hop hx hy =>
    obtain ⟨hl, hr⟩ := hop.isExpr
    obtain ⟨hfactsx, hplainx⟩ := ih x (by simp)
    obtain ⟨hfactsy, hplainy⟩ := ih y (by simp)
    obtain ⟨a, ha⟩ := hfactsx.expr l hx hl
    obtain ⟨b, hb⟩ := hfactsy.expr r hy hr
    exact settled_binary hop rfl (hplainx l hx hl) ha (hplainy r hy hr) hb

theorem Kids.annotate (scope : Scope) (h : Kids rhs cs) : Kids rhs (cs.map (Typing.annotate scope)) := by
  unfold Kids
  rw [List.forall₂_map_right_iff]
  refine h.imp fun s n hn => ⟨?_, Typing.grown_annotate scope hn.2⟩
  rw [Typing.kind?_annotate, hn.1]

theorem annotate_branch (scope : Scope) (k : Symbol) (types : Types) (cs : List Tree) :
    Typing.annotate scope (.branch k types cs) =
      .branch k (typed scope k types (cs.map (Typing.annotate scope))).1
        (typed scope k types (cs.map (Typing.annotate scope))).2 := by
  rw [Typing.annotate, Typing.annotateAll_eq_map]

theorem printed_flag (on : Bool) (line : Int) : (Expr.constant (.flag on line)).Printed c 0 :=
  (prints_constant (isLexed_flag on line)).weaken (by decide)

end

/-- Every node of a tree of the grammar is settled once the tree has its types. -/
theorem facts_annotate (hc : isIdentifier c.handle = true) (scope : Scope) (h : Grown n) :
    Facts c (Typing.annotate scope n) ∧
      ∀ k, (Typing.annotate scope n).kind? = some k → k.isExpr = true → Plain (Typing.annotate scope n) := by
  refine Grown.induction (P := fun n => Facts c (Typing.annotate scope n) ∧
    ∀ k, (Typing.annotate scope n).kind? = some k → k.isExpr = true → Plain (Typing.annotate scope n)) (fun n hn ih => ?_) h
  have hchildren : ∀ x ∈ n.children.map (Typing.annotate scope), Facts c x ∧ ∀ s, x.kind? = some s → s.isExpr = true → Plain x := by
    intro x hx
    obtain ⟨y, hy, rfl⟩ := List.mem_map.mp hx
    exact ih y hy
  have hexpr : ∀ k, n.kind? = some k → k.isExpr = true →
      ∃ e, Settled c (Typing.annotate scope n) k e ∧ Plain (Typing.annotate scope n) := by
    intro k hk hexpr
    obtain ⟨types, cs, rhs, rfl, hrhs, hkids⟩ := hn.children hk (isInner_of_isExpr hexpr)
    obtain ⟨ty, e, htype, he⟩ := settled_of_node hc (.of_kids hexpr hrhs (hkids.annotate scope)) hchildren
    rw [annotate_branch, htype]
    exact ⟨e, he, rfl⟩
  have hindex : ∀ x ∈ n.children.map (Typing.annotate scope), x.kind? = some .expr → ∃ e, expr? x = some e ∧ IsIndex c e := by
    intro x hx hk
    obtain ⟨e, he⟩ := (hchildren x hx).1.expr .expr hk rfl
    exact ⟨_, he.expr?_eq, he.isIndex⟩
  rw [Typing.kind?_annotate]
  refine ⟨⟨?_, ?_, ?_, ?_⟩, ?_⟩
  · intro k hk hk'
    rw [Typing.kind?_annotate] at hk
    obtain ⟨e, he, _⟩ := hexpr k hk hk'
    exact ⟨e, he⟩
  · intro hk
    rw [Typing.kind?_annotate] at hk
    obtain ⟨types, cs, rhs, rfl, hrhs, hkids⟩ := hn.children hk rfl
    rw [annotate_branch]
    refine exists_exprList (.of_exprList hrhs (hkids.annotate scope)) (fun x hx hk => ?_) hindex
    obtain ⟨es, hes, -, hall⟩ := (hchildren x hx).1.list hk
    exact ⟨es, hes, hall⟩
  · intro hk
    rw [Typing.kind?_annotate] at hk
    obtain ⟨types, cs, rhs, rfl, hrhs, hkids⟩ := hn.children hk rfl
    rw [annotate_branch]
    refine exists_arg (E := fun e => e.Printed c 0) (.of_kids hrhs (hkids.annotate scope)) (fun x hx hk => ?_) printed_flag
      fun _ _ hkey hprinted => ⟨hprinted, hkey⟩
    obtain ⟨e, he, hprinted, -⟩ := hindex x hx hk
    exact ⟨e, he, hprinted⟩
  · intro hk
    rw [Typing.kind?_annotate] at hk
    obtain ⟨types, cs, rhs, rfl, hrhs, hkids⟩ := hn.children hk rfl
    rw [annotate_branch]
    exact exists_args (.of_callArgs hrhs (hkids.annotate scope)) (fun x hx => (hchildren x hx).1.args)
      fun x hx => (hchildren x hx).1.arg
  · intro k hk hk'
    obtain ⟨e, _, hplain⟩ := hexpr k hk hk'
    exact hplain

/-- The readers of lists and arguments do not look at the types of a node. -/
theorem readers_eq (k : Symbol) (types types' : Types) (cs : List Tree) :
    exprList? (.branch k types cs) = exprList? (.branch k types' cs) ∧
      arg? (.branch k types cs) = arg? (.branch k types' cs) ∧ args? (.branch k types cs) = args? (.branch k types' cs) := by
  rcases cs with _ | ⟨x, _ | ⟨y, _ | ⟨z, _ | ⟨w, cs⟩⟩⟩⟩
  · exact ⟨rfl, rfl, rfl⟩
  · exact ⟨rfl, rfl, rfl⟩
  -- with more than one child, the reader of an argument looks at the first two
  all_goals
    refine ⟨rfl, ?_, rfl⟩
    cases x <;> cases y <;> rfl

theorem Facts.require (h : Facts c n) (t : Ty) : Facts c (Typing.require t n) := by
  cases n with
  | absent => exact h
  | leaf _ => exact h
  | branch k types cs =>
    refine ⟨fun k' hk hk' => ?_, fun hk => ?_, fun hk => ?_, fun hk => ?_⟩
    · obtain ⟨e, he⟩ := h.expr k' hk hk'
      exact ⟨e, he.require t⟩
    · obtain ⟨es, hes, hall⟩ := h.list hk
      exact ⟨es, (readers_eq k _ _ cs).1.trans hes, hall⟩
    · obtain ⟨a, ha, hprinted⟩ := h.arg hk
      exact ⟨a, (readers_eq k _ _ cs).2.1.trans ha, hprinted⟩
    · obtain ⟨as, has, hall⟩ := h.args hk
      exact ⟨as, (readers_eq k _ _ cs).2.2.trans has, hall⟩

/-- The nodes of a child of which a type may be asked. -/
theorem mem_nodes_require? {t : Option Ty} {m : Tree} (h : m ∈ (Typing.require? t n).nodes) :
    m = Typing.require? t n ∨ m ∈ n.nodes := by
  cases t with
  | none => exact .inr h
  | some t =>
    cases n with
    | absent => exact .inr h
    | leaf _ => exact .inr h
    | branch k types cs =>
      rcases List.mem_cons.mp h with rfl | h
      · exact .inl rfl
      · exact .inr (List.mem_cons_of_mem _ h)

/-- The nodes of a tree that has its types. -/
theorem facts_of_mem (hc : isIdentifier c.handle = true) (scope : Scope) (h : Grown n) :
    ∀ m ∈ (Typing.annotate scope n).nodes, Facts c m := by
  refine Grown.induction (P := fun n => ∀ m ∈ (Typing.annotate scope n).nodes, Facts c m) (fun n hn ih m hm => ?_) h
  have hroot := (facts_annotate hc scope hn).1
  cases n with
  | absent => rw [Typing.annotate, Node.nodes, List.mem_singleton] at hm; rwa [hm]
  | leaf t => rw [Typing.annotate, Node.nodes, List.mem_singleton] at hm; rwa [hm]
  | branch k types cs =>
    rw [annotate_branch] at hm hroot
    rw [Node.nodes, List.mem_cons, Node.nodesOf_eq_flatMap, List.mem_flatMap] at hm
    rcases hm with rfl | ⟨x, hx, hm⟩
    · exact hroot
    · obtain ⟨y, hy, t, rfl⟩ := (Typing.asked_typed scope k types _).of_mem hx
      obtain ⟨z, hz, rfl⟩ := List.mem_map.mp hy
      rcases mem_nodes_require? hm with rfl | hm
      · have hfacts := (facts_annotate hc scope (hn.of_mem_children hz)).1
        cases t with
        | none => exact hfacts
        | some t => exact hfacts.require t
      · exact ih z hz m hm

/-! ## Reading what is printed -/

/-- In a tree of the grammar that has its types, whatever the variables and the mode, the text of every expression is
read by Python as the same operator tree, up to parentheses and the nesting of concatenations. So is the text of an
argument after its keyword, without the parentheses around the whole of it, and the text of a subscript is read as
the index that is one less. That is how operators group their operands; it leaves open whether keywords and fields are
identifiers and whether a call may have such a list of arguments. -/
theorem read_text {scope : Scope} {t typed : Tree} (mode : Bytes) (ht : Grown t)
    (htyped : Typing.checkTypes scope t = .ok typed) (hn : n ∈ typed.nodes) :
    (∀ k, n.kind? = some k → k.isExpr = true → ∃ e, expr? n = some e ∧
      Python.read (e.lower (.of scope mode)).text = some (e.leftNested.meaning (.of scope mode))) ∧
    (n.kind? = some .callArg → ∃ key e, arg? n = some (.mk key e) ∧
      ((Arg.mk key e).lower (.of scope mode)).text =
        (key.elim [] fun key => Code.identifier key ++ Bytes.ofString "=") ++ Code.stripParens (e.lower (.of scope mode)).text ∧
      Python.read (Code.stripParens (e.lower (.of scope mode)).text) = some (e.leftNested.meaning (.of scope mode))) ∧
    (n.kind? = some .exprList → ∃ es, exprList? n = some es ∧ ∀ e ∈ es,
      Python.read (zeroBased e (e.lower (.of scope mode))).text =
        some (indexTree e (e.leftNested.meaning (.of scope mode)))) := by
  rw [Typing.checkTypes_eq scope ht] at htyped
  cases htyped
  have hfacts := facts_of_mem (isIdentifier_handle scope mode) scope ht n hn
  refine ⟨fun k hk hexpr => ?_, fun hk => ?_, fun hk => ?_⟩
  · obtain ⟨e, he⟩ := hfacts.expr k hk hexpr
    exact ⟨_, he.expr?_eq, he.printed_require.reads.read_eq⟩
  · obtain ⟨⟨key, e⟩, ha, hprinted⟩ := hfacts.arg hk
    refine ⟨key, e, ha, ?_, hprinted.1.bare.read_eq⟩
    rw [Arg.lower, Code.Arg.text]
    cases key <;> rfl
  · obtain ⟨es, hes, _, hall⟩ := hfacts.list hk
    refine ⟨es, hes, fun e he => ?_⟩
    have hindex := (prints_zeroBased (hall e he)).reads.read_eq
    rw [hindex, indexTree, constantIndex?_leftNested]
    rfl

/-- A minus sign before a string constant. -/
def minusString : Tree :=
  .branch .unary .unset [.leaf ⟨.minus, "-", none, 1⟩, .branch .unary .unset [.branch .powExpr .unset
    [.branch .primary .unset [.branch .constant .unset [.leaf ⟨.string, "'2'", some "2", 1⟩]]]]]

theorem grown_minusString : Grown minusString := grown_of_grows rfl

/-- The sign applies to the string as a number. -/
theorem read_text_minus : ∃ typed e, Typing.checkTypes .empty minusString = .ok typed ∧ expr? typed = some e ∧
    (e.lower (.of .empty "single")).text = "-iraf.real('2')" ∧
    Python.read "-iraf.real('2')" = some (.minus (.call (.path ["iraf", "real"]) [(none, .string "2")])) := by
  have htyped := Typing.checkTypes_eq .empty grown_minusString
  obtain ⟨e, he, hread⟩ := (read_text "single" grown_minusString htyped (Node.mem_nodes_self _)).1 .unary rfl rfl
  have hexpr : expr? (Typing.annotate .empty minusString) =
      some (.unary .minus (.convert ⟨.string, .float⟩ (.constant ⟨.string, "'2'", "2", 1⟩))) := rfl
  rw [hexpr, Option.some.injEq] at he
  subst he
  exact ⟨_, _, htyped, hexpr, rfl, hread⟩

end IrafCl.Script
