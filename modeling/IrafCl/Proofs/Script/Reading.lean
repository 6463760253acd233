import IrafCl.Proofs.Script.Nodes

/-!
# Reading expressions and tasks

Every reader finds in a tree of the grammar what it looks for. Expressions are read off by induction on the
tree, and the constants, names and keywords in them have texts that fit their kinds (`readsExpr`); the members of a list
are nodes of the tree, so a list is read if its members are (`exists_list`). Whatever is known of all the expressions, arguments and redirections of a tree (`Judges`) is known of
those in the tasks that are read from it.
-/

namespace IrafCl.Script

variable {n : Tree}

/-! ## What holds of all of an expression -/

mutual

/-- Something holds of an expression and of each expression in it. -/
def Expr.All (P : Expr → Prop) : Expr → Prop
  | .constant k => P (.constant k)
  | .name path => P (.name path)
  | .element path index => P (.element path index) ∧ Expr.AllOf P index
  | .call fn args => P (.call fn args) ∧ Arg.AllOf P args
  | .cast type args => P (.cast type args) ∧ Arg.AllOf P args
  | .paren e => P (.paren e) ∧ e.All P
  | .unary op e => P (.unary op e) ∧ e.All P
  | .binary op l r => P (.binary op l r) ∧ l.All P ∧ r.All P
  | .convert types e => P (.convert types e) ∧ e.All P

def Expr.AllOf (P : Expr → Prop) : List Expr → Prop
  | [] => True
  | e :: es => e.All P ∧ Expr.AllOf P es

def Arg.AllOf (P : Expr → Prop) : List Arg → Prop
  | [] => True
  | .mk _ e :: as => e.All P ∧ Arg.AllOf P as

end

/-- The keyword of an argument. -/
def Arg.key : Arg → Option Bytes
  | .mk key _ => key

/-- The value of an argument. -/
def Arg.value : Arg → Expr
  | .mk _ e => e

variable {P : Expr → Prop}

theorem Expr.allOf_iff {es : List Expr} : Expr.AllOf P es ↔ ∀ e ∈ es, e.All P := by
  induction es with
  | nil => simp [Expr.AllOf]
  | cons e es ih => rw [Expr.AllOf, ih, List.forall_mem_cons]

theorem Arg.allOf_iff {as : List Arg} : Arg.AllOf P as ↔ ∀ a ∈ as, a.value.All P := by
  induction as with
  | nil => simp [Arg.AllOf]
  | cons a as ih =>
    obtain ⟨key, e⟩ := a
    rw [Arg.AllOf, ih, List.forall_mem_cons]
    rfl

/-! ## Words -/

/-- An argument has no keyword, or one that is a name. -/
def Arg.Named (a : Arg) : Prop := ∀ name ∈ a.key, Lexicon.name.Matches name

/-- The constants, names and keywords that an expression has besides its parts have texts that fit their kinds. -/
def Expr.IsLexed : Expr → Prop
  | .constant k => k.IsLexed
  | .name path | .element path _ => Lexicon.name.Matches path
  | .call fn args => Lexicon.name.Matches fn ∧ ∀ a ∈ args, a.Named
  | .cast _ args => ∀ a ∈ args, a.Named
  | _ => True

/-- The keyword of an argument is a name, and what its value is made of has texts that fit their kinds. -/
def Arg.IsLexed (a : Arg) : Prop := a.Named ∧ a.value.All Expr.IsLexed

/-! ## Expressions -/

/-- What the readers of expressions make of a node: its constants, names and keywords have texts that fit their kinds. -/
structure ReadsExpr (n : Tree) : Prop where
  expr : ∀ k, n.kind? = some k → k.isExpr = true → ∃ e, expr? n = some e ∧ e.All Expr.IsLexed
  list : n.kind? = some .exprList → ∃ es, exprList? n = some es ∧ ∀ e ∈ es, e.All Expr.IsLexed
  arg : n.kind? = some .callArg → ∃ a, arg? n = some a ∧ a.IsLexed
  args : n.kind? = some .callArgs → ∃ as, args? n = some as ∧ ∀ a ∈ as, a.IsLexed

theorem isLexed_flag (on : Bool) (line : Int) : (Constant.flag on line).IsLexed := by
  cases on
  · exact .inr rfl
  · exact .inl rfl

theorem all_require {types : Types} {e : Expr} (h : e.All Expr.IsLexed) : (e.require types).All Expr.IsLexed := by
  unfold Expr.require
  split
  · exact h
  · exact ⟨trivial, h⟩

theorem exists_exprOf {k : Symbol} (types : Types) {cs : List Tree} (hnode : ExprNode k cs) (ih : ∀ c ∈ cs, ReadsExpr c) :
    ∃ e, exprOf? k types cs = some e ∧ e.All Expr.IsLexed := by
  cases hnode with
  | pass _ hs =>
    obtain ⟨e, he, hlexed⟩ := (ih _ (List.mem_singleton_self _)).expr _ rfl hs
    exact ⟨e, (exprOf?_pass ..).trans he, hlexed⟩
  | constant ht hc => exact ⟨_, exprOf?_constant hc, isLexed_ofToken ht hc⟩
  | name ht => exact ⟨_, exprOf?_name, ht⟩
  | element ht hindex =>
    obtain ⟨es, hes, hall⟩ := (ih _ (by simp)).list hindex
    exact ⟨_, exprOf?_element hes, ht, Expr.allOf_iff.mpr hall⟩
  | callNone _ ht => exact ⟨_, exprOf?_callNone, ⟨ht, nofun⟩, trivial⟩
  | call hkind ht hargs =>
    obtain ⟨as, has, hall⟩ := (ih _ (by simp)).args hargs
    exact ⟨_, exprOf?_call hkind has, ⟨ht, fun a ha => (hall a ha).1⟩, Arg.allOf_iff.mpr fun a ha => (hall a ha).2⟩
  | cast hkind hargs =>
    obtain ⟨as, has, hall⟩ := (ih _ (by simp)).args hargs
    exact ⟨_, exprOf?_cast hkind has, fun a ha => (hall a ha).1, Arg.allOf_iff.mpr fun a ha => (hall a ha).2⟩
  | @paren _ _ own ccs =>
    obtain ⟨e, he, hlexed⟩ := (ih (.branch .expr own ccs) (by simp)).expr .expr rfl rfl
    exact ⟨_, exprOf?_paren he, trivial, hlexed⟩
  | unary ho hx =>
    obtain ⟨e, he, hlexed⟩ := (ih _ (by simp)).expr .unary hx rfl
    exact ⟨_, exprOf?_unary ho he _, trivial, hlexed⟩
  | binary hop hx hy =>
    obtain ⟨hl, hr⟩ := hop.isExpr
    obtain ⟨e, he, hlexed⟩ := (ih _ (by simp)).expr _ hx hl
    obtain ⟨e', he', hlexed'⟩ := (ih _ (by simp)).expr _ hy hr
    obtain ⟨o, ho⟩ := Option.isSome_iff_exists.mp (hop.isSome types.inferred)
    exact ⟨_, exprOf?_binary k ho he he', trivial, hlexed, hlexed'⟩

theorem readsExpr (h : Grown n) : ReadsExpr n := by
  refine h.induction fun n hn ih => ⟨?_, ?_, ?_, ?_⟩
  · intro k hk hexpr
    obtain ⟨types, cs, rfl, hnode⟩ := hn.exprNode hk hexpr
    obtain ⟨e, he, hlexed⟩ := exists_exprOf types hnode ih
    exact ⟨e.require types, by simp [expr?, he], all_require hlexed⟩
  · intro hk
    obtain ⟨types, cs, rhs, rfl, hrhs, hkids⟩ := hn.children hk rfl
    obtain ⟨es, hes, -, hall⟩ := exists_exprList (.of_exprList hrhs hkids) (fun x hx => (ih x hx).list)
      fun x hx hk => (ih x hx).expr .expr hk rfl
    exact ⟨es, hes, hall⟩
  · intro hk
    obtain ⟨types, cs, rhs, rfl, hrhs, hkids⟩ := hn.children hk rfl
    exact exists_arg (.of_kids hrhs hkids) (fun x hx hk => (ih x hx).expr .expr hk rfl) isLexed_flag
      fun _ _ hkey hlexed => ⟨hkey, hlexed⟩
  · intro hk
    obtain ⟨types, cs, rhs, rfl, hrhs, hkids⟩ := hn.children hk rfl
    exact exists_args (.of_callArgs hrhs hkids) (fun x hx => (ih x hx).args) fun x hx => (ih x hx).arg

/-! ## Lists -/

theorem Grown.of_mem_nodes {m : Tree} (h : Grown n) : m ∈ n.nodes → Grown m := by
  refine Grown.induction (P := fun n => m ∈ n.nodes → Grown m) (fun n hn ih hm => ?_) h
  cases n with
  | absent => rw [Node.nodes, List.mem_singleton] at hm; rwa [hm]
  | leaf t => rw [Node.nodes, List.mem_singleton] at hm; rwa [hm]
  | branch k types cs =>
    rw [Node.nodes, List.mem_cons, Node.nodesOf_eq_flatMap, List.mem_flatMap] at hm
    rcases hm with rfl | ⟨c, hc, hm⟩
    · exact hn
    · exact ih c hc hm

mutual

theorem mem_members {list item : Symbol} : ∀ {t c : Tree}, c ∈ members list item t → c.kind? = some item ∧ c ∈ t.nodes
  | .absent, c, h => by cases h
  | .leaf t, c, h => by cases h
  | .branch k types cs, c, h => by
    rw [members] at h
    split at h
    · obtain ⟨hkind, hmem⟩ := mem_membersOf h
      exact ⟨hkind, List.mem_cons_of_mem _ hmem⟩
    · cases h

theorem mem_membersOf {list item : Symbol} :
    ∀ {cs : List Tree} {c : Tree}, c ∈ membersOf list item cs → c.kind? = some item ∧ c ∈ Node.nodesOf cs
  | [], c, h => by cases h
  | d :: cs, c, h => by
    rw [membersOf] at h
    rcases List.mem_append.mp h with h | h
    · split at h
      · next hkind =>
        rw [List.mem_singleton] at h
        subst h
        exact ⟨hkind, List.mem_append_left _ (Node.mem_nodes_self c)⟩
      · obtain ⟨hkind, hmem⟩ := mem_members h
        exact ⟨hkind, List.mem_append_left _ hmem⟩
    · obtain ⟨hkind, hmem⟩ := mem_membersOf h
      exact ⟨hkind, List.mem_append_right _ hmem⟩

end

theorem exists_mapM {α β : Type} {P : β → Prop} {f : α → Option β} {as : List α} (h : ∀ a ∈ as, ∃ b, f a = some b ∧ P b) :
    ∃ bs, as.mapM f = some bs ∧ bs.length = as.length ∧ ∀ b ∈ bs, P b := by
  induction as with
  | nil => exact ⟨[], rfl, rfl, nofun⟩
  | cons a as ih =>
    obtain ⟨b, hb, hP⟩ := h a (by simp)
    obtain ⟨bs, hbs, hlength, hall⟩ := ih fun a' ha' => h a' (by simp [ha'])
    exact ⟨b :: bs, by simp [List.mapM_cons, hb, hbs], by simp [hlength], List.forall_mem_cons.mpr ⟨hP, hall⟩⟩

/-- A list is read if its members are, and has as many members. -/
theorem exists_members {α : Type} {P : α → Prop} (list item : Symbol) {read : Tree → Option α}
    (hread : ∀ c ∈ n.nodes, c.kind? = some item → ∃ a, read c = some a ∧ P a) :
    ∃ as, (members list item n).mapM read = some as ∧ as.length = (members list item n).length ∧ ∀ a ∈ as, P a := by
  refine exists_mapM fun c hc => ?_
  obtain ⟨hkind, hmem⟩ := mem_members hc
  exact hread c hmem hkind

/-- A list is read if all that can be its members are. -/
theorem exists_list {α : Type} (list item : Symbol) {read : Tree → Option α} (h : Grown n)
    (hread : ∀ c, c.kind? = some item ∧ Grown c → ∃ a, read c = some a) :
    ∃ as, (members list item n).mapM read = some as := by
  obtain ⟨as, has, -⟩ := exists_members (P := fun _ => True) list item fun c hc hkind => by
    obtain ⟨a, ha⟩ := hread c ⟨hkind, h.of_mem_nodes hc⟩
    exact ⟨a, ha, trivial⟩
  exact ⟨as, has⟩

/-! ## Constants -/

theorem exists_constant (h : n.kind? = some .constant ∧ Grown n) : ∃ k, constant? n = some k ∧ k.IsLexed := by
  obtain ⟨types, cs, rfl, hnode⟩ := h.2.exprNode h.1 rfl
  cases hnode with
  | constant ht hc => exact ⟨_, by simp [constant?, hc], isLexed_ofToken ht hc⟩
  | pass hk => cases hk
  | binary hop => cases hop

theorem exists_signedConstant (h : n.kind? = some .initValue ∧ Grown n) :
    ∃ c, signedConstant? n = some c ∧ c.constant.IsLexed := by
  obtain ⟨types, cs, rhs, rfl, hrhs, hkids⟩ := h.2.children h.1 rfl
  have hrhs : rhs ∈ [[.constant], [.minus, .constant], [.plus, .constant]] := hrhs
  simp only [List.mem_cons, List.not_mem_nil, or_false] at hrhs
  rcases hrhs with rfl | rfl | rfl
  · obtain ⟨c, rfl, hc⟩ := hkids.single
    obtain ⟨k, hk, hlexed⟩ := exists_constant hc
    exact ⟨⟨none, k, k.line⟩, by simp [signedConstant?, hk], hlexed⟩
  · obtain ⟨a, c, rfl, ha, hc⟩ := hkids.pair
    obtain ⟨ta, rfl, hta, -⟩ := Kid.leaf ha rfl (by decide)
    obtain ⟨k, hk, hlexed⟩ := exists_constant hc
    exact ⟨⟨some .minus, k, ta.line⟩, by simp [signedConstant?, hta, Sign.ofSymbol?, hk], hlexed⟩
  · obtain ⟨a, c, rfl, ha, hc⟩ := hkids.pair
    obtain ⟨ta, rfl, hta, -⟩ := Kid.leaf ha rfl (by decide)
    obtain ⟨k, hk, hlexed⟩ := exists_constant hc
    exact ⟨⟨some .plus, k, ta.line⟩, by simp [signedConstant?, hta, Sign.ofSymbol?, hk], hlexed⟩

/-- The labels of a case: one at least. -/
theorem exists_labels (h : n.kind? = some .constList ∧ Grown n) :
    ∃ ls, (members .constList .initValue n).mapM signedConstant? = some ls ∧ ls ≠ [] ∧ ∀ l ∈ ls, l.constant.IsLexed := by
  have hsome : (members .constList .initValue n).length ≠ 0 := by
    obtain ⟨types, cs, rhs, rfl, hrhs, hkids⟩ := h.2.children h.1 rfl
    have hrhs : rhs ∈ [[.initValue], [.constList, .comma, .initValue]] := hrhs
    simp only [List.mem_cons, List.not_mem_nil, or_false] at hrhs
    rcases hrhs with rfl | rfl
    · obtain ⟨c, rfl, hc⟩ := hkids.single
      simp [members, membersOf, hc.1]
    · obtain ⟨a, b, c, rfl, -, -, hc⟩ := hkids.triple
      simp [members, membersOf, hc.1]
  obtain ⟨ls, hls, hlength, hall⟩ := exists_members .constList .initValue fun c hc hk =>
    exists_signedConstant ⟨hk, h.2.of_mem_nodes hc⟩
  refine ⟨ls, hls, ?_, hall⟩
  rintro rfl
  exact hsome hlength.symm

/-! ## Judgements -/

/-- What is to be shown of the parts of statements: of expressions, subscripts, arguments and the texts of redirections. It
holds of constants, alone or as arguments. -/
structure Judgement where
  expr : Expr → Prop
  subscripts : List Expr → Prop
  arg : Arg → Prop
  redirection : Bytes → Prop
  constant : ∀ k : Constant, k.IsLexed → expr (.constant k)
  constantArg : ∀ (key : Option Bytes) (k : Constant), (∀ name ∈ key, Lexicon.name.Matches name) → k.IsLexed →
    arg (.mk key (.constant k))

/-- A judgement holds of what the nodes of a tree are read as. -/
structure Judges (J : Judgement) (n : Tree) : Prop where
  grown : Grown n
  expr : ∀ m ∈ n.nodes, m.kind? = some .expr → ∃ e, expr? m = some e ∧ J.expr e
  subscripts : ∀ m ∈ n.nodes, m.kind? = some .exprList → ∃ es, exprList? m = some es ∧ J.subscripts es
  args : ∀ m ∈ n.nodes, m.kind? = some .callArgs → ∃ as, args? m = some as ∧ ∀ a ∈ as, J.arg a
  redirection : ∀ t ∈ n.leaves, t.kind.redirects = true → J.redirection t.text

variable {J : Judgement}

theorem Judges.of_mem_nodes {m : Tree} (h : Judges J n) (hm : m ∈ n.nodes) : Judges J m where
  grown := h.grown.of_mem_nodes hm
  expr x hx := h.expr x (Node.nodes_subset hm hx)
  subscripts x hx := h.subscripts x (Node.nodes_subset hm hx)
  args x hx := h.args x (Node.nodes_subset hm hx)
  redirection t ht := h.redirection t (Node.leaves_subset hm ht)

theorem Judges.of_mem_children {m : Tree} (h : Judges J n) (hm : m ∈ n.children) : Judges J m :=
  h.of_mem_nodes (Node.mem_nodes_of_mem_children hm)

/-- The judgement that says nothing. -/
def Judgement.any : Judgement :=
  ⟨fun _ => True, fun _ => True, fun _ => True, fun _ => True, fun _ _ => trivial, fun _ _ _ _ => trivial⟩

theorem judges_any (h : Grown n) : Judges .any n where
  grown := h
  expr m hm hk := by
    obtain ⟨e, he, -⟩ := (readsExpr (h.of_mem_nodes hm)).expr .expr hk rfl
    exact ⟨e, he, trivial⟩
  subscripts m hm hk := by
    obtain ⟨es, hes, -⟩ := (readsExpr (h.of_mem_nodes hm)).list hk
    exact ⟨es, hes, trivial⟩
  args m hm hk := by
    obtain ⟨as, has, -⟩ := (readsExpr (h.of_mem_nodes hm)).args hk
    exact ⟨as, has, fun _ _ => trivial⟩
  redirection _ _ _ := trivial

/-! ## Tasks -/

theorem exists_word (h : (n.kind? = some .constant ∨ n.kind? = some .cmdWord) ∧ Grown n) :
    ∃ k, wordExpr? n = some (.constant k) ∧ k.IsLexed := by
  obtain ⟨hk | hk, hn⟩ := h
  · obtain ⟨k, hconstant, hlexed⟩ := exists_constant ⟨hk, hn⟩
    obtain ⟨types, cs, rhs, rfl, hrhs, hkids⟩ := hn.children hk rfl
    refine ⟨k, ?_, hlexed⟩
    unfold constant? at hconstant
    split at hconstant
    · next kind types t heq =>
      cases heq
      rw [if_pos rfl] at hconstant
      simp [wordExpr?, constant?, hconstant]
    · cases hconstant
  · obtain ⟨types, cs, rhs, rfl, hrhs, hkids⟩ := hn.children hk rfl
    have hrhs : rhs ∈ [[.ident]] := hrhs
    rw [List.mem_singleton] at hrhs
    subst hrhs
    obtain ⟨c, rfl, hc⟩ := hkids.single
    obtain ⟨t, rfl, -⟩ := Kid.leaf hc rfl (by decide)
    exact ⟨.word t.text t.line, by simp [wordExpr?], trivial⟩

theorem exists_cmdArg (h : n.kind? = some .cmdArg ∧ Grown n) :
    ∃ key k, cmdArg? n = some (.mk key (.constant k)) ∧ (∀ name ∈ key, Lexicon.name.Matches name) ∧ k.IsLexed := by
  obtain ⟨types, cs, rhs, rfl, hrhs, hkids⟩ := h.2.children h.1 rfl
  have hrhs : rhs ∈ [[.constant], [.cmdWord], [.ident, .equals, .constant], [.ident, .equals, .cmdWord],
    [.ident, .plus], [.ident, .minus]] := hrhs
  simp only [List.mem_cons, List.not_mem_nil, or_false] at hrhs
  have positional {c : Tree} (hc : (c.kind? = some .constant ∨ c.kind? = some .cmdWord) ∧ Grown c) :
      ∃ key k, cmdArg? (.branch .cmdArg types [c]) = some (.mk key (.constant k)) ∧
        (∀ name ∈ key, Lexicon.name.Matches name) ∧ k.IsLexed := by
    obtain ⟨k, hk, hlexed⟩ := exists_word hc
    exact ⟨none, k, by simp [cmdArg?, hk], nofun, hlexed⟩
  have named {a b c : Tree} (ha : a.kind? = some .ident ∧ Grown a)
      (hc : (c.kind? = some .constant ∨ c.kind? = some .cmdWord) ∧ Grown c) :
      ∃ key k, cmdArg? (.branch .cmdArg types [a, b, c]) = some (.mk key (.constant k)) ∧
        (∀ name ∈ key, Lexicon.name.Matches name) ∧ k.IsLexed := by
    obtain ⟨ta, rfl, -, hta⟩ := Kid.name ha
    obtain ⟨k, hk, hlexed⟩ := exists_word hc
    refine ⟨some ta.text, k, by simp [cmdArg?, hk], ?_, hlexed⟩
    rintro _ ⟨⟩
    exact hta
  have flag (hflag : Kids [.ident, .plus] cs ∨ Kids [.ident, .minus] cs) :
      ∃ key k, cmdArg? (.branch .cmdArg types cs) = some (.mk key (.constant k)) ∧
        (∀ name ∈ key, Lexicon.name.Matches name) ∧ k.IsLexed := by
    obtain ⟨ta, tb, on, rfl, hflag, hname⟩ := exists_flag hflag
    refine ⟨some ta.text, .flag on tb.line, by simp [cmdArg?, hflag], ?_, isLexed_flag on tb.line⟩
    rintro _ ⟨⟩
    exact hname
  rcases hrhs with rfl | rfl | rfl | rfl | rfl | rfl
  · obtain ⟨c, rfl, hc⟩ := hkids.single
    exact positional ⟨.inl hc.1, hc.2⟩
  · obtain ⟨c, rfl, hc⟩ := hkids.single
    exact positional ⟨.inr hc.1, hc.2⟩
  · obtain ⟨a, b, c, rfl, ha, hb, hc⟩ := hkids.triple
    exact named ha ⟨.inl hc.1, hc.2⟩
  · obtain ⟨a, b, c, rfl, ha, hb, hc⟩ := hkids.triple
    exact named ha ⟨.inr hc.1, hc.2⟩
  · exact flag (.inl hkids)
  · exact flag (.inr hkids)

theorem exists_redirectTarget (hk : n.kind? = some .redirTarget) (hj : Judges J n) :
    ∃ e, redirectTarget? n = some e ∧ J.expr e := by
  obtain ⟨types, cs, rhs, rfl, hrhs, hkids⟩ := hj.grown.children hk rfl
  have hrhs : rhs ∈ [[.string], [.ident], [.lparen, .expr, .rparen]] := hrhs
  simp only [List.mem_cons, List.not_mem_nil, or_false] at hrhs
  rcases hrhs with rfl | rfl | rfl
  · obtain ⟨c, rfl, hc⟩ := hkids.single
    obtain ⟨t, rfl, ht, -⟩ := Kid.leaf hc rfl (by decide)
    refine ⟨.constant ⟨.string, t.text, t.value.getD [], t.line⟩, ?_, J.constant _ trivial⟩
    simp [redirectTarget?, Constant.ofToken?, ht, ConstantKind.ofSymbol?]
  · obtain ⟨c, rfl, hc⟩ := hkids.single
    obtain ⟨t, rfl, ht, -⟩ := Kid.leaf hc rfl (by decide)
    exact ⟨.constant (.word t.text t.line), by simp [redirectTarget?, ht], J.constant _ trivial⟩
  · obtain ⟨a, b, c, rfl, ha, hb, hc⟩ := hkids.triple
    obtain ⟨e, he, hje⟩ := hj.expr b (Node.mem_nodes_of_mem_children (by simp [Node.children])) hb.1
    exact ⟨e, by simp [redirectTarget?, he], hje⟩

/-- The parts of a redirection are judged. -/
def Redirection.Holds (J : Judgement) (r : Redirection) : Prop := J.redirection r.op ∧ J.expr r.file

theorem exists_redirection (hk : n.kind? = some .redir) (hj : Judges J n) : ∃ r, redirection? n = some r ∧ r.Holds J := by
  obtain ⟨types, cs, rhs, rfl, hrhs, hkids⟩ := hj.grown.children hk rfl
  obtain ⟨s, rfl, hs, hredirects⟩ : ∃ s, rhs = [s, .redirTarget] ∧ (s.isInner = false ∧ s ≠ .start) ∧ s.redirects = true := by
    have hrhs : rhs ∈ [[.gt, .redirTarget], [.lt, .redirTarget], [.redirOp, .redirTarget]] := hrhs
    simp only [List.mem_cons, List.not_mem_nil, or_false] at hrhs
    rcases hrhs with rfl | rfl | rfl <;> exact ⟨_, rfl, ⟨rfl, by decide⟩, rfl⟩
  obtain ⟨a, b, rfl, ha, hb⟩ := hkids.pair
  obtain ⟨t, rfl, rfl, -⟩ := Kid.leaf ha hs.1 hs.2
  obtain ⟨e, he, hje⟩ := exists_redirectTarget hb.1 (hj.of_mem_children (by simp [Node.children]))
  refine ⟨⟨t.text, e⟩, by simp [redirection?, he], hj.redirection t ?_ hredirects, hje⟩
  simp [Node.leaves, Node.leavesOf]

/-- The parts of a task call are judged. -/
structure TaskCall.Holds (J : Judgement) (t : TaskCall) : Prop where
  task : Lexicon.name.Matches t.task
  args : ∀ a ∈ t.args, J.arg a
  redirections : ∀ r ∈ t.redirections, r.Holds J

theorem exists_redirections (hj : Judges J n) : ∃ rs, redirections? n = some rs ∧ ∀ r ∈ rs, r.Holds J := by
  obtain ⟨rs, hrs, -, hall⟩ := exists_members .redirs .redir fun c hc hk => exists_redirection hk (hj.of_mem_nodes hc)
  exact ⟨rs, hrs, hall⟩

theorem exists_taskCall (hk : n.kind? = some .taskCall) (hj : Judges J n) : ∃ t, taskCall? n = some t ∧ t.Holds J := by
  obtain ⟨types, cs, rhs, rfl, hrhs, hkids⟩ := hj.grown.children hk rfl
  have hrhs : rhs ∈ [[.ident, .lparen, .rparen, .redirs], [.ident, .lparen, .callArgs, .rparen, .redirs],
    [.ident, .cmdArgs, .redirs]] := hrhs
  simp only [List.mem_cons, List.not_mem_nil, or_false] at hrhs
  rcases hrhs with rfl | rfl | rfl
  · obtain ⟨a, b, c, d, rfl, ha, hb, hc, hd⟩ := hkids.four
    obtain ⟨t, rfl, -, ht⟩ := Kid.name ha
    obtain ⟨rs, hrs, hall⟩ := exists_redirections (hj.of_mem_children (m := d) (by simp [Node.children]))
    exact ⟨⟨t.text, [], rs⟩, by simp [taskCall?, hrs], ht, by simp, hall⟩
  · obtain ⟨a, b, c, d, e, rfl, ha, hb, hc, hd, he⟩ := hkids.five
    obtain ⟨t, rfl, -, ht⟩ := Kid.name ha
    obtain ⟨as, has, hargs⟩ := hj.args c (Node.mem_nodes_of_mem_children (by simp [Node.children])) hc.1
    obtain ⟨rs, hrs, hall⟩ := exists_redirections (hj.of_mem_children (m := e) (by simp [Node.children]))
    exact ⟨⟨t.text, as, rs⟩, by simp [taskCall?, has, hrs], ht, hargs, hall⟩
  · obtain ⟨a, b, c, rfl, ha, hb, hc⟩ := hkids.triple
    obtain ⟨t, rfl, -, ht⟩ := Kid.name ha
    obtain ⟨as, has, -, hargs⟩ := exists_members (P := J.arg) .cmdArgs .cmdArg fun x hx hk => by
      obtain ⟨key, k, hread, hkey, hlexed⟩ := exists_cmdArg ⟨hk, hb.2.of_mem_nodes hx⟩
      exact ⟨_, hread, J.constantArg key k hkey hlexed⟩
    obtain ⟨rs, hrs, hall⟩ := exists_redirections (hj.of_mem_children (m := c) (by simp [Node.children]))
    exact ⟨⟨t.text, as, rs⟩, by simp [taskCall?, has, hrs], ht, hargs, hall⟩

end IrafCl.Script
