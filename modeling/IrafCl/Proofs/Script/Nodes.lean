import IrafCl.Proofs.Script.Constants
import IrafCl.Proofs.Script.Shape

/-!
# Nodes of expressions, arguments and lists

The children of a node are one for each symbol of a right-hand side. For the nodes of expressions (`ExprNode`), of
arguments (`ArgNode`) and of lists (`ListNode`) they are told apart here once, with the tokens among them at hand, and
beside each form stands what the readers make of it.
-/

namespace IrafCl.Script

variable {n : Tree}

/-- A child for a terminal is a token. -/
theorem Kid.leaf {s : Symbol} {c : Tree} (h : c.kind? = some s ∧ Grown c) (hs : s.isInner = false)
    (hstart : s ≠ .start) : ∃ t, c = .leaf t ∧ t.kind = s ∧ Lexed t := h.2.leaf h.1 hs hstart

/-- A child for a nonterminal is an inner node. -/
theorem Kid.branch {s : Symbol} {c : Tree} (h : c.kind? = some s ∧ Grown c) (hs : s.isInner = true) :
    ∃ types cs, c = .branch s types cs := by
  obtain ⟨types, cs, _, rfl, _⟩ := h.2.children h.1 hs
  exact ⟨types, cs, rfl⟩

/-- A child for a name is a token whose text is one. -/
theorem Kid.name {c : Tree} (h : c.kind? = some .ident ∧ Grown c) :
    ∃ t, c = .leaf t ∧ t.kind = .ident ∧ Lexicon.name.Matches t.text := by
  obtain ⟨t, rfl, hkind, ht⟩ := Kid.leaf h rfl (by decide)
  exact ⟨t, rfl, hkind, ht.name hkind⟩

/-- A token, and a node between the brackets behind it. -/
theorem Kids.bracketed {s l item r : Symbol} {cs : List Tree} (h : Kids [s, l, item, r] cs)
    (hs : s.isInner = false ∧ s ≠ .start) (hl : l.isInner = false ∧ l ≠ .start) (hr : r.isInner = false ∧ r ≠ .start) :
    ∃ t tl x tr, cs = [.leaf t, .leaf tl, x, .leaf tr] ∧ t.kind = s ∧ Lexed t ∧ x.kind? = some item := by
  obtain ⟨a, b, x, d, rfl, ha, hb, hx, hd⟩ := h.four
  obtain ⟨t, rfl, hkind, ht⟩ := Kid.leaf ha hs.1 hs.2
  obtain ⟨tl, rfl, -⟩ := Kid.leaf hb hl.1 hl.2
  obtain ⟨tr, rfl, -⟩ := Kid.leaf hd hr.1 hr.2
  exact ⟨t, tl, x, tr, rfl, hkind, ht, hx.1⟩

theorem isInner_of_isExpr {s : Symbol} (h : s.isExpr = true) : s.isInner = true := by
  cases s <;> first | rfl | cases h

theorem isInner_of_unaryOp {s : Symbol} (h : (UnaryOp.ofSymbol? s).isSome) : s.isInner = false ∧ s ≠ .start := by
  cases s <;> first | exact ⟨rfl, by decide⟩ | cases h

theorem isInner_of_binaryOp {s : Symbol} (h : (BinaryOp.ofSymbol? .int s).isSome) :
    s.isInner = false ∧ s ≠ .start := by
  cases s <;> first | exact ⟨rfl, by decide⟩ | cases h

theorem isInner_of_constantKind {s : Symbol} (h : (ConstantKind.ofSymbol? s).isSome) :
    s.isInner = false ∧ s ≠ .start := by
  cases s <;> first | exact ⟨rfl, by decide⟩ | cases h

/-! ## Expressions -/

/-- The children of a node of an expression, rule by rule. -/
inductive ExprNode : Symbol → List Tree → Prop where
  | pass {k s : Symbol} {types : Types} {cs : List Tree} (hk : k.isPass = true) (hs : s.isExpr = true)
      (hlevel : k.level ≤ s.level) : ExprNode k [.branch s types cs]
  | constant {t : Token Symbol} {c : Constant} (ht : Lexed t) (hc : Constant.ofToken? t = some c) :
      ExprNode .constant [.leaf t]
  | name {t : Token Symbol} (ht : Lexicon.name.Matches t.text) : ExprNode .identRef [.leaf t]
  | element {t l r : Token Symbol} {index : Tree} (ht : Lexicon.name.Matches t.text)
      (hindex : index.kind? = some .exprList) : ExprNode .arrayRef [.leaf t, .leaf l, index, .leaf r]
  | callNone {t l r : Token Symbol} (hkind : t.kind = .ident) (ht : Lexicon.name.Matches t.text) :
      ExprNode .funcCall [.leaf t, .leaf l, .leaf r]
  | call {t l r : Token Symbol} {args : Tree} (hkind : t.kind = .ident) (ht : Lexicon.name.Matches t.text)
      (hargs : args.kind? = some .callArgs) : ExprNode .funcCall [.leaf t, .leaf l, args, .leaf r]
  | cast {t l r : Token Symbol} {args : Tree} (hkind : t.kind = .typeName) (hargs : args.kind? = some .callArgs) :
      ExprNode .funcCall [.leaf t, .leaf l, args, .leaf r]
  | paren {l r : Token Symbol} {types : Types} {cs : List Tree} :
      ExprNode .parenExpr [.leaf l, .branch .expr types cs, .leaf r]
  | unary {t : Token Symbol} {o : UnaryOp} {x : Tree} (ho : UnaryOp.ofSymbol? t.kind = some o)
      (hx : x.kind? = some .unary) : ExprNode .unary [.leaf t, x]
  | binary {k l r : Symbol} {t : Token Symbol} {x y : Tree} (hop : OpRule k l t.kind r) (hx : x.kind? = some l)
      (hy : y.kind? = some r) : ExprNode k [x, .leaf t, y]

theorem ExprNode.of_kids {k : Symbol} {rhs : List Symbol} {cs : List Tree} (hexpr : k.isExpr = true) (hrhs : rhs ∈ productions k)
    (hkids : Kids rhs cs) : ExprNode k cs := by
  cases exprRule_of_mem hexpr hrhs with
  | pass hk hs hlevel =>
    obtain ⟨x, rfl, hx⟩ := hkids.single
    obtain ⟨types, cs, rfl⟩ := Kid.branch hx (isInner_of_isExpr hs)
    exact .pass hk hs hlevel
  | constant hs hkind =>
    obtain ⟨x, rfl, hx⟩ := hkids.single
    obtain ⟨t, rfl, rfl, ht⟩ := Kid.leaf hx hs (isInner_of_constantKind hkind).2
    obtain ⟨kind, hkind⟩ := Option.isSome_iff_exists.mp hkind
    exact .constant ht (by rw [Constant.ofToken?, hkind, Option.map_some])
  | name =>
    obtain ⟨x, rfl, hx⟩ := hkids.single
    obtain ⟨t, rfl, -, ht⟩ := Kid.name hx
    exact .name ht
  | element =>
    obtain ⟨t, l, index, r, rfl, hkind, ht, hindex⟩ := hkids.bracketed ⟨rfl, by decide⟩ ⟨rfl, by decide⟩ ⟨rfl, by decide⟩
    exact .element (ht.name hkind) hindex
  | callNone =>
    obtain ⟨x, l, r, rfl, hx, hl, hr⟩ := hkids.triple
    obtain ⟨t, rfl, hkind, ht⟩ := Kid.name hx
    obtain ⟨tl, rfl, -⟩ := Kid.leaf hl rfl (by decide)
    obtain ⟨tr, rfl, -⟩ := Kid.leaf hr rfl (by decide)
    exact .callNone hkind ht
  | call =>
    obtain ⟨t, l, args, r, rfl, hkind, ht, hargs⟩ := hkids.bracketed ⟨rfl, by decide⟩ ⟨rfl, by decide⟩ ⟨rfl, by decide⟩
    exact .call hkind (ht.name hkind) hargs
  | cast =>
    obtain ⟨t, l, args, r, rfl, hkind, -, hargs⟩ := hkids.bracketed ⟨rfl, by decide⟩ ⟨rfl, by decide⟩ ⟨rfl, by decide⟩
    exact .cast hkind hargs
  | paren =>
    obtain ⟨l, x, r, rfl, hl, hx, hr⟩ := hkids.triple
    obtain ⟨tl, rfl, -⟩ := Kid.leaf hl rfl (by decide)
    obtain ⟨types, cs, rfl⟩ := Kid.branch hx rfl
    obtain ⟨tr, rfl, -⟩ := Kid.leaf hr rfl (by decide)
    exact .paren
  | unary hop =>
    obtain ⟨op, x, rfl, hop', hx⟩ := hkids.pair
    obtain ⟨hinner, hstart⟩ := isInner_of_unaryOp hop
    obtain ⟨t, rfl, rfl, -⟩ := Kid.leaf hop' hinner hstart
    obtain ⟨o, ho⟩ := Option.isSome_iff_exists.mp hop
    exact .unary ho hx.1
  | binary hop =>
    obtain ⟨x, op, y, rfl, hx, hop', hy⟩ := hkids.triple
    obtain ⟨hinner, hstart⟩ := isInner_of_binaryOp (hop.isSome .int)
    obtain ⟨t, rfl, rfl, -⟩ := Kid.leaf hop' hinner hstart
    exact .binary hop hx.1 hy.1

theorem Grown.exprNode {k : Symbol} (h : Grown n) (hk : n.kind? = some k) (hexpr : k.isExpr = true) :
    ∃ types cs, n = .branch k types cs ∧ ExprNode k cs := by
  obtain ⟨types, cs, rhs, rfl, hrhs, hkids⟩ := h.children hk (isInner_of_isExpr hexpr)
  exact ⟨types, cs, rfl, ExprNode.of_kids hexpr hrhs hkids⟩

section
variable {types : Types} {t l r : Token Symbol} {x y : Tree} {e e' : Expr} {args : List Arg}

theorem exprOf?_pass (k s : Symbol) (own : Types) (cs : List Tree) :
    exprOf? k types [.branch s own cs] = expr? (.branch s own cs) := rfl

theorem exprOf?_constant {c : Constant} (h : Constant.ofToken? t = some c) :
    exprOf? .constant types [.leaf t] = some (.constant c) := by
  change (Constant.ofToken? t).map Expr.constant = _
  rw [h, Option.map_some]

theorem exprOf?_name : exprOf? .identRef types [.leaf t] = some (.name t.text) := rfl

/-- With brackets stand an element of an array, a conversion and a call. -/
theorem exprOf?_brackets (k : Symbol) : exprOf? k types [.leaf t, .leaf l, x, .leaf r] =
    if k = .arrayRef then (exprList? x).map (.element t.text)
    else if k = .funcCall then
      if t.kind = .typeName then (args? x).map (.cast t.text) else (args? x).map (.call t.text)
    else none := by
  simp only [exprOf?.eq_def]

theorem exprOf?_element {es : List Expr} (h : exprList? x = some es) :
    exprOf? .arrayRef types [.leaf t, .leaf l, x, .leaf r] = some (.element t.text es) := by
  rw [exprOf?_brackets, if_pos rfl, h, Option.map_some]

theorem exprOf?_callNone : exprOf? .funcCall types [.leaf t, .leaf l, .leaf r] = some (.call t.text []) := rfl

theorem exprOf?_call (hkind : t.kind = .ident) (h : args? x = some args) :
    exprOf? .funcCall types [.leaf t, .leaf l, x, .leaf r] = some (.call t.text args) := by
  rw [exprOf?_brackets, if_neg (by decide), if_pos rfl, hkind, if_neg (by decide), h, Option.map_some]

theorem exprOf?_cast (hkind : t.kind = .typeName) (h : args? x = some args) :
    exprOf? .funcCall types [.leaf t, .leaf l, x, .leaf r] = some (.cast t.text args) := by
  rw [exprOf?_brackets, if_neg (by decide), if_pos rfl, if_pos hkind, h, Option.map_some]

theorem exprOf?_paren {own : Types} {cs : List Tree} (h : expr? (.branch .expr own cs) = some e) :
    exprOf? .parenExpr types [.leaf l, .branch .expr own cs, .leaf r] = some (.paren e) := by
  change (expr? (.branch .expr own cs)).map Expr.paren = _
  rw [h, Option.map_some]

theorem exprOf?_unary {o : UnaryOp} (ho : UnaryOp.ofSymbol? t.kind = some o) (h : expr? x = some e) (k : Symbol) :
    exprOf? k types [.leaf t, x] = some (.unary o e) := by
  change (UnaryOp.ofSymbol? t.kind).bind (fun o => (expr? x).bind fun e => some (Expr.unary o e)) = _
  rw [ho, h]
  rfl

theorem exprOf?_binary (k : Symbol) {o : BinaryOp} (ho : BinaryOp.ofSymbol? types.inferred t.kind = some o)
    (hx : expr? x = some e) (hy : expr? y = some e') : exprOf? k types [x, .leaf t, y] = some (.binary o e e') := by
  cases x with
  | branch s own cs =>
    change (BinaryOp.ofSymbol? types.inferred t.kind).bind (fun o =>
      (expr? (.branch s own cs)).bind fun e => (expr? y).bind fun e' => some (Expr.binary o e e')) = _
    rw [ho, hx, hy]
    rfl
  | leaf _ => cases hx
  | absent => cases hx

end

/-! ## Arguments -/

/-- The children of a node of an argument. -/
inductive ArgNode : List Tree → Prop where
  | positional {x : Tree} (hx : x.kind? = some .expr) : ArgNode [x]
  | named {t eq : Token Symbol} {x : Tree} (ht : Lexicon.name.Matches t.text) (hx : x.kind? = some .expr) :
      ArgNode [.leaf t, .leaf eq, x]
  | flag {t sign : Token Symbol} {on : Bool} (ht : Lexicon.name.Matches t.text) (hsign : flag? sign.kind = some on) :
      ArgNode [.leaf t, .leaf sign]

/-- A name with a sign after it is a flag. -/
theorem exists_flag {cs : List Tree} (h : Kids [.ident, .plus] cs ∨ Kids [.ident, .minus] cs) :
    ∃ ta tb on, cs = [.leaf ta, .leaf tb] ∧ flag? tb.kind = some on ∧ Lexicon.name.Matches ta.text := by
  rcases h with hkids | hkids
  · obtain ⟨a, b, rfl, ha, hb⟩ := hkids.pair
    obtain ⟨ta, rfl, -, hname⟩ := Kid.name ha
    obtain ⟨tb, rfl, htb, -⟩ := Kid.leaf hb rfl (by decide)
    exact ⟨ta, tb, true, rfl, by rw [htb, flag?], hname⟩
  · obtain ⟨a, b, rfl, ha, hb⟩ := hkids.pair
    obtain ⟨ta, rfl, -, hname⟩ := Kid.name ha
    obtain ⟨tb, rfl, htb, -⟩ := Kid.leaf hb rfl (by decide)
    exact ⟨ta, tb, false, rfl, by rw [htb, flag?], hname⟩

theorem ArgNode.of_kids {rhs : List Symbol} {cs : List Tree} (hrhs : rhs ∈ productions .callArg) (hkids : Kids rhs cs) :
    ArgNode cs := by
  have hrhs : rhs ∈ [[.expr], [.ident, .equals, .expr], [.ident, .plus], [.ident, .minus]] := hrhs
  simp only [List.mem_cons, List.not_mem_nil, or_false] at hrhs
  rcases hrhs with rfl | rfl | hflag
  · obtain ⟨x, rfl, hx⟩ := hkids.single
    exact .positional hx.1
  · obtain ⟨a, b, x, rfl, ha, hb, hx⟩ := hkids.triple
    obtain ⟨t, rfl, -, ht⟩ := Kid.name ha
    obtain ⟨tb, rfl, -⟩ := Kid.leaf hb rfl (by decide)
    exact .named ht hx.1
  · obtain ⟨t, sign, on, rfl, hsign, ht⟩ := exists_flag (hflag.imp (fun h => h ▸ hkids) fun h => h ▸ hkids)
    exact .flag ht hsign

/-- An argument is read if its value is. Whatever holds of it holds on account of the value and of the keyword, if there
is one. -/
theorem exists_arg {E : Expr → Prop} {A : Arg → Prop} {k : Symbol} {types : Types} {cs : List Tree} (h : ArgNode cs)
    (hexpr : ∀ x ∈ cs, x.kind? = some .expr → ∃ e, expr? x = some e ∧ E e) (hflag : ∀ on line, E (.constant (.flag on line)))
    (harg : ∀ key e, (∀ name ∈ key, Lexicon.name.Matches name) → E e → A (.mk key e)) :
    ∃ a, arg? (.branch k types cs) = some a ∧ A a := by
  have keyed {name : Bytes} (hname : Lexicon.name.Matches name) : ∀ name' ∈ some name, Lexicon.name.Matches name' := by
    rintro _ ⟨⟩
    exact hname
  cases h with
  | positional hx =>
    obtain ⟨e, he, hE⟩ := hexpr _ (by simp) hx
    exact ⟨.mk none e, by simp [arg?.eq_def, he], harg none e nofun hE⟩
  | named ht hx =>
    obtain ⟨e, he, hE⟩ := hexpr _ (by simp) hx
    exact ⟨.mk (some _) e, by simp [arg?.eq_def, he], harg _ e (keyed ht) hE⟩
  | @flag t sign on ht hsign =>
    exact ⟨.mk (some t.text) (.constant (.flag on sign.line)), by simp [arg?, hsign], harg _ _ (keyed ht) (hflag on sign.line)⟩

/-! ## Lists -/

/-- The children of a node of a list: its only item, or a list with an item after it. -/
inductive ListNode (list item : Symbol) : List Tree → Prop where
  | one {x : Tree} (hx : x.kind? = some item ∧ Grown x) : ListNode list item [x]
  | more {xs x : Tree} {t : Token Symbol} (hxs : xs.kind? = some list) (ht : t.kind = .comma)
      (hx : x.kind? = some item ∧ Grown x) : ListNode list item [xs, .leaf t, x]

theorem ListNode.of_kids {list item : Symbol} {rhs : List Symbol} {cs : List Tree} (hrhs : rhs = [item] ∨ rhs = [list, .comma, item])
    (hkids : Kids rhs cs) : ListNode list item cs := by
  rcases hrhs with rfl | rfl
  · obtain ⟨x, rfl, hx⟩ := hkids.single
    exact .one hx
  · obtain ⟨xs, b, x, rfl, hxs, hb, hx⟩ := hkids.triple
    obtain ⟨t, rfl, ht, -⟩ := Kid.leaf hb rfl (by decide)
    exact .more hxs.1 ht hx

theorem ListNode.of_exprList {rhs : List Symbol} {cs : List Tree} (hrhs : rhs ∈ productions .exprList) (hkids : Kids rhs cs) :
    ListNode .exprList .expr cs := by
  have hrhs : rhs ∈ [[.expr], [.exprList, .comma, .expr]] := hrhs
  exact .of_kids (by simpa using hrhs) hkids

theorem ListNode.of_callArgs {rhs : List Symbol} {cs : List Tree} (hrhs : rhs ∈ productions .callArgs) (hkids : Kids rhs cs) :
    ListNode .callArgs .callArg cs := by
  have hrhs : rhs ∈ [[.callArg], [.callArgs, .comma, .callArg]] := hrhs
  exact .of_kids (by simpa using hrhs) hkids

section
variable {k : Symbol} {types : Types} {cs : List Tree}

/-- Subscripts are read if each of them is, and there is one at least. -/
theorem exists_exprList {E : Expr → Prop} (h : ListNode .exprList .expr cs)
    (hlist : ∀ x ∈ cs, x.kind? = some .exprList → ∃ es, exprList? x = some es ∧ ∀ e ∈ es, E e)
    (hexpr : ∀ x ∈ cs, x.kind? = some .expr → ∃ e, expr? x = some e ∧ E e) :
    ∃ es, exprList? (.branch k types cs) = some es ∧ es ≠ [] ∧ ∀ e ∈ es, E e := by
  cases h with
  | one hx =>
    obtain ⟨e, he, hE⟩ := hexpr _ (by simp) hx.1
    exact ⟨[e], by simp [exprList?, he], by simp, List.forall_mem_singleton.mpr hE⟩
  | more hxs _ hx =>
    obtain ⟨es, hes, hall⟩ := hlist _ (by simp) hxs
    obtain ⟨e, he, hE⟩ := hexpr _ (by simp) hx.1
    refine ⟨es ++ [e], by simp [exprList?, hes, he], by simp, ?_⟩
    exact List.forall_mem_append.mpr ⟨hall, List.forall_mem_singleton.mpr hE⟩

/-- Arguments are read if each of them is. -/
theorem exists_args {A : Arg → Prop} (h : ListNode .callArgs .callArg cs)
    (hargs : ∀ x ∈ cs, x.kind? = some .callArgs → ∃ as, args? x = some as ∧ ∀ a ∈ as, A a)
    (harg : ∀ x ∈ cs, x.kind? = some .callArg → ∃ a, arg? x = some a ∧ A a) :
    ∃ as, args? (.branch k types cs) = some as ∧ ∀ a ∈ as, A a := by
  cases h with
  | one hx =>
    obtain ⟨a, ha, hA⟩ := harg _ (by simp) hx.1
    exact ⟨[a], by simp [args?, ha], List.forall_mem_singleton.mpr hA⟩
  | more hxs _ hx =>
    obtain ⟨as, has, hall⟩ := hargs _ (by simp) hxs
    obtain ⟨a, ha, hA⟩ := harg _ (by simp) hx.1
    refine ⟨as ++ [a], by simp [args?, has, ha], ?_⟩
    exact List.forall_mem_append.mpr ⟨hall, List.forall_mem_singleton.mpr hA⟩

end

/-- An operand as an expression. -/
def operandTree (operand : Tree) : Tree :=
  [Symbol.expr, .orExpr, .andExpr, .cmpExpr, .concatExpr, .addExpr, .mulExpr, .unary, .powExpr, .primary].foldr
    (fun k t => .branch k .unset [t]) operand

end IrafCl.Script
