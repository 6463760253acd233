import IrafCl.Proofs.Script.Layout

/-!
# What assignments assign

The value of an assignment and the value that a target is updated by are read as a whole. Appending is written out as a
sum whose right operand has no parentheses: so Python adds the first operand of a loose value to the target before
anything else is done (`addBefore`). The whole value is appended just if it binds more tightly than a sum. Where the
target is a string, the strings that the value joins are joined to it one by one (`read_assignment`).
-/

namespace IrafCl.Script

open Python (isIdentifier operandLevel signLevel)
open Code (Prints)
open Typing (require? nameType)

variable {c : Context} {n : Tree} {k : Symbol} {e : Expr} {scope : Scope}

/-! ## After a plus sign -/

/-- What is read where an expression and a plus sign stand before another expression: they go to the first operand of
operators that bind no more tightly than a sum. -/
def addBefore (x : Expr) : Expr → Expr
  | .binary op l r => if Python.level op.lower ≤ Python.level .add then .binary op (addBefore x l) r
    else .binary .concat x (.binary op l r)
  | .convert types e => if (conversion? types).isNone then addBefore x e else .binary .concat x (.convert types e)
  | e => .binary .concat x e

theorem isLoose_leftNested : ∀ e : Expr, e.leftNested.isLoose = e.isLoose
  | .binary op l r => by
    rw [Expr.leftNested]
    split
    · next hop =>
      obtain ⟨a, b, heq⟩ := concatenate_eq l.leftNested r.leftNested
      rw [heq, hop]
      rfl
    · rfl
  | .convert types e => by rw [Expr.leftNested, Expr.isLoose, Expr.isLoose, isLoose_leftNested e]
  | .constant _ => rfl
  | .name _ => rfl
  | .element _ _ => rfl
  | .call _ _ => rfl
  | .cast _ _ => rfl
  | .paren _ => rfl
  | .unary _ _ => rfl

/-- What binds more tightly than a sum is added as a whole. -/
theorem meaning_addBefore (x e : Expr) (h : e.isLoose = false) :
    (addBefore x e).meaning c = .binary .add (x.meaning c) (e.meaning c) := by
  induction e using addBefore.induct with
  | case1 op l r hop => rw [Expr.isLoose, decide_eq_true hop] at h; cases h
  | case2 op l r hop => rw [addBefore, if_neg hop, Expr.meaning]; rfl
  | case3 types e hconv ih =>
    rw [Expr.isLoose, hconv, Bool.true_and] at h
    rw [addBefore, if_pos hconv, ih h, Expr.meaning, Option.isNone_iff_eq_none.mp hconv]
  | case4 types e hconv => rw [addBefore, if_neg hconv, Expr.meaning]; rfl
  | case5 e hbinary hconvert => rw [addBefore.eq_3 x e hbinary hconvert, Expr.meaning]; rfl

theorem addBefore_concatenate (x l r : Expr) : addBefore x (concatenate l r) = concatenate (addBefore x l) r := by
  induction r using concatenate.induct with
  | case1 a b ih => rw [concatenate, addBefore, if_pos (by decide), ih, concatenate]
  | case2 r hr => rw [concatenate.eq_2 l r hr, addBefore, if_pos (by decide), concatenate.eq_2 _ r hr]

/-- After a plus sign an expression is read with what stands before it at its first operand. -/
def Appends (c : Context) (n : Nat) (e : Expr) : Prop :=
  ∀ (s : Bytes) (x : Expr), Prints 4 s (x.meaning c) →
    Prints (min n 4) (s ++ " + " ++ (e.lower c).text) ((addBefore x e.leftNested).meaning c)

theorem Appends.weaken {m n : Nat} (h : Appends c m e) (hle : n ≤ m) : Appends c n e := fun s x hx =>
  (h s x hx).weaken (by omega)

theorem appends_of_printed (h : e.Printed c 5) (htight : e.isLoose = false) (m : Nat) : Appends c m e := by
  intro s x hx
  rw [meaning_addBefore x e.leftNested ((isLoose_leftNested e).trans htight)]
  have hleft : Prints (Python.left .add) s (x.meaning c) := hx
  have hright : Prints (Python.right .add) (e.lower c).text (e.leftNested.meaning c) := h
  have hbinary := hleft.binary hright
  have htext : s ++ " " ++ Code.BinaryOp.text .add ++ " " ++ (e.lower c).text = s ++ " + " ++ (e.lower c).text := by
    simp only [List.append_assoc]
    rfl
  rw [htext] at hbinary
  exact hbinary.weaken (Nat.min_le_right _ _)

theorem appends_require {m m' : Nat} (types : Types) (hprinted : e.Printed c m') (h : Appends c m e) :
    Appends c m (e.require types) := by
  unfold Expr.require
  split
  · exact h
  · cases hconv : conversion? types with
    | some fn =>
      refine appends_of_printed ((printed_converted hconv hprinted).weaken (by decide)) ?_ m
      rw [Expr.isLoose, hconv]
      rfl
    | none =>
      intro s x hx
      have hsame := h s x hx
      rwa [Expr.lower, hconv, Expr.leftNested, addBefore, if_pos (by rw [hconv]; rfl)]

theorem Settled.appends (h : Settled c n k e) (hn : Plain n) (happends : Appends c k.level e) {asked : Option Ty} {e' : Expr}
    (he' : expr? (require? asked n) = some e') : Appends c k.level e' := by
  cases asked with
  | none =>
    rw [require?, h.expr?_plain hn] at he'
    cases he'
    exact happends
  | some t =>
    rw [require?, (h.require t).expr?_eq] at he'
    cases he'
    exact appends_require _ h.printed happends

/-- An operand that is wanted as a string can be joined to others. -/
theorem Operand.joins {x : Tree} {s : Symbol} {alone : Expr} (h : Operand c scope n x s (some .string) alone e)
    (hs : 4 ≤ s.level) : Joins c e := by
  obtain ⟨e', he', -, hjoins⟩ := h.settled.wanted h.plain (some .string)
  rw [h.expr?, Option.some.injEq] at he'
  rw [he']
  exact hjoins rfl hs

/-- A string can be appended before other strings. -/
theorem Appends.concat {l r : Expr} (hl : Appends c 4 l) (hr : Joins c r) : Appends c 4 (.binary .concat l r) := by
  intro s x hx
  have htext : s ++ " + " ++ ((Expr.binary .concat l r).lower c).text = s ++ " + " ++ (l.lower c).text ++ " + " ++ (r.lower c).text := by
    rw [Expr.lower, Code.Expr.text]
    simp only [List.append_assoc]
    rfl
  rw [htext, Expr.leftNested, if_pos rfl, addBefore_concatenate]
  exact hr.after _ _ (hl s x hx)

/-- An operation whose operator is looser than a sum takes the sum as its left operand. -/
theorem Appends.binary {o : BinaryOp} {l r : Expr} (hconcat : o ≠ .concat) (ho : Python.level o.lower ≤ Python.level .add)
    (hl : Appends c (Python.left o.lower) l) (hr : r.Printed c (Python.right o.lower)) :
    Appends c (Python.level o.lower) (.binary o l r) := by
  intro s x hx
  have hleft : Python.left o.lower ≤ 4 := Python.left_le_add (Nat.not_le.mpr (Nat.lt_succ_of_le ho))
  have hbinary := ((hl s x hx).weaken (by omega : Python.left o.lower ≤ _)).binary hr
  have htext : s ++ " + " ++ ((Expr.binary o l r).lower c).text =
      s ++ " + " ++ (l.lower c).text ++ " " ++ o.lower.text ++ " " ++ (r.lower c).text := by
    rw [Expr.lower, Code.Expr.text]
    simp only [List.append_assoc]
  rw [htext, Expr.leftNested, if_neg hconcat, addBefore, if_pos ho, Expr.meaning]
  exact hbinary.weaken (Nat.min_le_left _ _)

/-- Every expression can be written after a plus sign. -/
theorem appends_annotate (hc : isIdentifier c.handle = true) (h : Grown n) : ∀ k e, n.kind? = some k →
    k.isExpr = true → Settled c (Typing.annotate scope n) k e → Appends c k.level e := by
  refine Grown.induction (P := fun n => ∀ k e, n.kind? = some k → k.isExpr = true →
    Settled c (Typing.annotate scope n) k e → Appends c k.level e) (fun n hn ih k e hk hexpr he => ?_) h
  have operand {x : Tree} {s : Symbol} {asked : Option Ty} {alone e : Expr} (hs : s.isExpr = true)
      (h : Operand c scope n x s asked alone e) : Appends c s.level e :=
    h.settled.appends h.plain (ih x h.mem s alone h.kind hs h.settled) h.expr?
  by_cases htight : Python.level .add < k.level
  · exact appends_of_printed (he.printed.weaken htight) (he.tight htight) k.level
  have hloose : k.level < signLevel := Nat.lt_of_le_of_lt (Nat.le_of_not_lt htight) (by decide)
  cases looseForm_annotate hc hn hk hexpr hloose he with
  | pass hs hle hx _ => exact (operand hs hx).weaken hle
  | @binary l op r tl tr _ _ _ _ _ _ o hop ho htypes hx hy =>
    have hleft := operand hop.isExpr.1 hx
    by_cases hconcat : o = .concat
    · subst hconcat
      obtain ⟨hk, hl, hr⟩ := hop.level_concat ho
      obtain ⟨-, rfl⟩ := htypes.operands ho
      rw [hk]
      exact (hleft.weaken hl).concat (hy.joins hr)
    · obtain ⟨hl, hr, hk⟩ := hop.levels ho hconcat
      by_cases hlevel : Python.level o.lower ≤ Python.level .add
      · exact ((hleft.weaken hl).binary hconcat hlevel (hy.printed.weaken hr)).weaken hk
      · refine appends_of_printed ((printed_binary hconcat (hx.printed.weaken hl) (hy.printed.weaken hr)).weaken ?_) ?_ _
        · exact Nat.lt_of_not_le hlevel
        · rw [Expr.isLoose, decide_eq_false hlevel]

/-! ## Strings -/

/-- The first of the strings that an expression joins binds more tightly than a sum. -/
def Expr.StartsTight (e : Expr) : Prop := ∀ first ∈ e.strings.head?, first.isLoose = false

theorem startsTight_of_not_loose (h : e.isLoose = false) : e.StartsTight := by
  have hne : ∀ l r, e ≠ .binary .concat l r := by
    rintro l r rfl
    cases h
  rw [Expr.StartsTight, Expr.strings.eq_2 e hne]
  rintro _ ⟨⟩
  exact h

theorem strings_ne_nil (e : Expr) : e.strings ≠ [] := by
  induction e using Expr.strings.induct with
  | case1 l r ihl ihr => rw [Expr.strings]; exact List.append_ne_nil_of_left_ne_nil ihl _
  | case2 e he => rw [Expr.strings.eq_2 e he]; exact List.cons_ne_nil e []

theorem startsTight_concat {l r : Expr} : (Expr.binary .concat l r).StartsTight ↔ l.StartsTight := by
  rw [Expr.StartsTight, Expr.strings, List.head?_append_of_ne_nil _ (strings_ne_nil l), Expr.StartsTight]

theorem Expr.StartsTight.leftNested (h : e.StartsTight) : e.leftNested.StartsTight := by
  intro first hfirst
  rw [strings_leftNested, List.head?_map] at hfirst
  obtain ⟨x, hx, rfl⟩ := Option.mem_map.mp hfirst
  rw [isLoose_leftNested]
  exact h x hx

/-- Where the first string binds more tightly than a sum, strings are added to what stands before one by one. -/
theorem Expr.StartsTight.meaning_addBefore (h : e.StartsTight) (x : Expr) :
    (addBefore x e).meaning c = (concatenate x e).meaning c := by
  induction e using concatenate.induct with
  | case1 a b ih =>
    rw [addBefore, if_pos (by decide), concatenate, Expr.meaning, Expr.meaning, ih (startsTight_concat.mp h)]
  | case2 e he =>
    rw [Expr.StartsTight, Expr.strings.eq_2 e he] at h
    rw [concatenate.eq_2 x e he, Expr.meaning]
    exact IrafCl.Script.meaning_addBefore x e (h e rfl)

/-- What is wanted as a string starts with one: it is converted, is an operand, or is a string itself. -/
theorem Settled.startsTight (h : Settled c n k e) (hstring : n.types.inferred = .string → e.StartsTight) {e' : Expr}
    (he' : expr? (require? (some .string) n) = some e') : e'.StartsTight := by
  have hrequire := h.require .string
  have hrequired : (Typing.require .string n).types.required = .string := by
    obtain ⟨types, cs, rfl, -⟩ := h.raw
    rfl
  have hinferred : (Typing.require .string n).types.inferred = n.types.inferred := by
    obtain ⟨types, cs, rfl, -⟩ := h.raw
    rfl
  rw [require?, hrequire.expr?_eq, Option.some.injEq] at he'
  subst he'
  unfold Expr.require
  split
  · next heq => exact hstring (hinferred.symm.trans (heq.symm.trans hrequired))
  · next hne =>
    refine startsTight_of_not_loose ?_
    rw [Expr.isLoose]
    cases hconv : conversion? (Typing.require .string n).types with
    | some fn => rfl
    | none =>
      rw [isLoose_of_isOperand (hrequire.unknown (isKnown_of_unconverted hrequired hne hconv)), Bool.and_false]

/-- Every expression that is a string starts with one. -/
theorem startsTight_annotate (hc : isIdentifier c.handle = true) (h : Grown n) : ∀ k e, n.kind? = some k →
    k.isExpr = true → Settled c (Typing.annotate scope n) k e → (Typing.annotate scope n).types.inferred = .string →
    e.StartsTight := by
  refine Grown.induction (P := fun n => ∀ k e, n.kind? = some k → k.isExpr = true →
    Settled c (Typing.annotate scope n) k e → (Typing.annotate scope n).types.inferred = .string → e.StartsTight)
    (fun n hn ih k e hk hexpr he hstring => ?_) h
  by_cases htight : Python.level .add < k.level
  · exact startsTight_of_not_loose (he.tight htight)
  have hloose : k.level < signLevel := Nat.lt_of_le_of_lt (Nat.le_of_not_lt htight) (by decide)
  cases looseForm_annotate hc hn hk hexpr hloose he with
  | pass hs _ hx hty => exact ih _ hx.mem _ _ hx.kind hs hx.settled (hty.trans hstring)
  | @binary l op r tl tr _ _ _ _ _ _ o hop ho htypes hx hy =>
    have hconcat := htypes.string hstring
    rw [ho, Option.some.injEq] at hconcat
    subst hconcat
    obtain ⟨rfl, -⟩ := htypes.operands ho
    exact startsTight_concat.mpr (hx.settled.startsTight (ih _ hx.mem _ _ hx.kind hop.isExpr.1 hx.settled) hx.expr?)

/-! ## What is added to a loose value -/

theorem sizeOf_lt_addBefore (x e : Expr) : sizeOf (x.meaning c) < sizeOf ((addBefore x e).meaning c) := by
  induction e using addBefore.induct with
  | case1 op l r hop ih =>
    rw [addBefore, if_pos hop, Expr.meaning, Python.Tree.binary.sizeOf_spec]
    omega
  | case2 op l r hop => rw [addBefore, if_neg hop, Expr.meaning, Python.Tree.binary.sizeOf_spec]; omega
  | case3 types e hconv ih => rwa [addBefore, if_pos hconv]
  | case4 types e hconv => rw [addBefore, if_neg hconv, Expr.meaning, Python.Tree.binary.sizeOf_spec]; omega
  | case5 e hbinary hconvert => rw [addBefore.eq_3 x e hbinary hconvert, Expr.meaning, Python.Tree.binary.sizeOf_spec]; omega

/-- What is added before a loose expression is only a part of the first operand of its operator. -/
theorem addBefore_of_loose (x : Expr) (h : e.isLoose = true) :
    ∃ o l r, (addBefore x e).meaning c = .binary o l r ∧ sizeOf (x.meaning c) < sizeOf l := by
  induction e using addBefore.induct with
  | case1 op l r hop ih =>
    refine ⟨op.lower, (addBefore x l).meaning c, r.meaning c, ?_, sizeOf_lt_addBefore x l⟩
    rw [addBefore, if_pos hop, Expr.meaning]
  | case2 op l r hop => rw [Expr.isLoose, decide_eq_false hop] at h; cases h
  | case3 types e hconv ih =>
    rw [Expr.isLoose, hconv, Bool.true_and] at h
    rw [addBefore, if_pos hconv]
    exact ih h
  | case4 types e hconv => rw [Expr.isLoose, Bool.and_eq_true] at h; exact absurd h.1 hconv
  | case5 e hbinary hconvert =>
    rw [Expr.isLoose.eq_3 e hbinary hconvert] at h
    cases h

/-- The whole of an expression is added just if it binds more tightly than a sum. -/
theorem meaning_addBefore_iff (x e : Expr) :
    (addBefore x e).meaning c = .binary .add (x.meaning c) (e.meaning c) ↔ e.isLoose = false := by
  refine ⟨fun heq => ?_, meaning_addBefore x e⟩
  cases hloose : e.isLoose with
  | false => rfl
  | true =>
    obtain ⟨o, l, r, hbinary, hlt⟩ := addBefore_of_loose (c := c) x hloose
    rw [heq, Python.Tree.binary.injEq] at hbinary
    rw [hbinary.2.1] at hlt
    exact absurd hlt (Nat.lt_irrefl _)

/-! ## Assignments -/

/-- What is printed for the parts of assignments: a value can be appended to a target. -/
def appending (c : Context) : Judgement where
  expr e := e.Printed c 0 ∧ Appends c 0 e
  subscripts es := es ≠ [] ∧ ∀ e ∈ es, IsIndex c e
  arg a := a.Printed c
  redirection _ := True
  constant k hk := by
    have hprints : (Expr.constant k).Printed c operandLevel := prints_constant hk
    exact ⟨hprints.weaken (by decide), appends_of_printed (hprints.weaken (by decide)) rfl 0⟩
  constantArg _ _ := printed_constantArg

/-- In a tree that has its types, every value can be appended. -/
theorem judges_appending {t : Tree} (mode : Bytes) (h : Grown t) :
    Judges (appending (.of scope mode)) (Typing.annotate scope t) where
  grown := Typing.grown_annotate scope h
  expr m hm hk := by
    have hhandle := isIdentifier_handle scope mode
    obtain ⟨x, asked, e, hx, hkind, rfl, hplain, he⟩ := exists_settled_of_mem hhandle scope h hm hk rfl
    obtain ⟨e', he', hprinted, -⟩ := he.wanted hplain asked
    exact ⟨e', he', hprinted, he.appends hplain (appends_annotate hhandle hx .expr e hkind rfl he) he'⟩
  subscripts m hm hk := (facts_of_mem (isIdentifier_handle scope mode) scope h m hm).list hk
  args m hm hk := (facts_of_mem (isIdentifier_handle scope mode) scope h m hm).args hk
  redirection _ _ _ := trivial

/-- The parts of an assignment in a tree that has its types are printed as Python has them. -/
theorem printed_assignment {t : Tree} (mode : Bytes) (h : Grown t) (hn : n ∈ (Typing.annotate scope t).nodes)
    (hk : n.kind? = some .assignment) : ∃ a, assignment? n = some a ∧
      Prints operandLevel (a.target.lower (.of scope mode)).text (a.target.expr.leftNested.meaning (.of scope mode)) ∧
      a.value.Printed (.of scope mode) 0 ∧ Appends (.of scope mode) 0 a.value := by
  obtain ⟨a, ha, htarget, hvalue, happends⟩ := exists_assignment hk ((judges_appending mode h).of_mem_nodes hn)
  have hprinted := printed_target (isIdentifier_handle scope mode) (fun _ hes => hes) htarget
  unfold Expr.Printed at hprinted
  rw [Target.lower_expr] at hprinted
  exact ⟨a, ha, hprinted, hvalue, happends⟩

/-- The operator by which an assignment updates its target, if it has one. -/
def Assignment.operator (scope : Scope) (a : Assignment) : Option Code.BinaryOp :=
  match a.op with
  | .set | .append => none
  | .add => some .add
  | .sub => some .sub
  | .mul => some .mul
  | .div => some (if nameType scope a.target.path = .int then .floorDiv else .div)

/-- Python reads a statement as one that assigns a value to a target, or updates the target by an operator and the value. -/
def Assigns : Code.Stmt → Python.Tree → Option Code.BinaryOp → Python.Tree → Prop
  | .assign t v, target, none, value => Python.read t.text = some target ∧ Python.read v.text = some value
  | .update t o v, target, some op, value =>
    Python.read t.text = some target ∧ o = op ∧ Python.read v.text = some value
  | _, _, _, _ => False

theorem assigns_lower {a : Assignment} {target value : Python.Tree} (hop : a.op ≠ .append)
    (htarget : Python.read (a.target.lower c).text = some target) (hvalue : Python.read (a.value.lower c).text = some value) :
    Assigns (a.lower c) target (a.operator c.scope) value := by
  obtain ⟨t, op, v⟩ := a
  cases op with
  | append => exact absurd rfl hop
  | set => exact ⟨htarget, hvalue⟩
  | add => exact ⟨htarget, rfl, hvalue⟩
  | sub => exact ⟨htarget, rfl, hvalue⟩
  | mul => exact ⟨htarget, rfl, hvalue⟩
  | div => exact ⟨htarget, rfl, hvalue⟩

/-- Appending assigns a sum in which the value has no parentheses. -/
theorem assigns_lower_append {a : Assignment} {target sum : Python.Tree} (hop : a.op = .append)
    (htarget : Python.read (a.target.lower c).text = some target)
    (hsum : Python.read ((a.target.lower c).text ++ " + " ++ (a.value.lower c).text) = some sum) :
    Assigns (a.lower c) target none sum := by
  have htext : (Code.Expr.binary .add (a.target.lower c) (a.value.lower c)).text =
      (a.target.lower c).text ++ " + " ++ (a.value.lower c).text := by
    rw [Code.Expr.text]
    simp only [List.append_assoc]
    rfl
  rw [Assignment.lower, hop]
  exact ⟨htarget, htext ▸ hsum⟩

/-- A value that is assigned to a string starts with one. -/
theorem startsTight_of_string {a : Assignment} {asked : Option Ty} (mode : Bytes) (h : Grown n) (hk : n.kind? = some .assignment)
    (ha : assignment? (require? asked (Typing.annotate scope n)) = some a) (hstring : nameType scope a.target.path = .string) :
    a.value.StartsTight := by
  have hhandle := isIdentifier_handle scope mode
  obtain ⟨value, hvalue, hkind, -, he⟩ := assignment?_annotate h hk ha
  rw [wanted?, hstring] at he
  obtain ⟨e, hsettled⟩ := (facts_annotate hhandle scope hvalue).1.expr .expr ((Typing.kind?_annotate scope value).trans hkind) rfl
  exact hsettled.startsTight (startsTight_annotate hhandle hvalue .expr e hkind rfl hsettled) he

/-- In a tree of the grammar that has its types, every assignment is printed as one to its target. It assigns the whole
value, or updates the target by the operator and the whole value. Appending assigns a sum, which is that of the target
and the whole value just if the value binds more tightly than a sum. Where the value starts with a string, and it does
if the target is one, the strings of the value are joined to the target one by one. -/
theorem read_assignment {t typed : Tree} (mode : Bytes) (ht : Grown t) (htyped : Typing.checkTypes scope t = .ok typed)
    (hn : n ∈ typed.nodes) (hk : n.kind? = some .assignment) : ∃ a target value, assignment? n = some a ∧
      target = a.target.expr.leftNested.meaning (.of scope mode) ∧ target.isAssignable = true ∧
      value = a.value.leftNested.meaning (.of scope mode) ∧
      (a.op ≠ .append → Assigns (a.lower (.of scope mode)) target (a.operator scope) value) ∧
      (a.op = .append → ∃ sum, Assigns (a.lower (.of scope mode)) target none sum ∧
        sum = (addBefore a.target.expr.leftNested a.value.leftNested).meaning (.of scope mode) ∧
        (sum = .binary .add target value ↔ a.value.isLoose = false) ∧
        (a.value.StartsTight → sum = (concatenate a.target.expr.leftNested a.value.leftNested).meaning (.of scope mode)) ∧
        (nameType scope a.target.path = .string → a.value.StartsTight)) := by
  rw [Typing.checkTypes_eq scope ht] at htyped
  cases htyped
  obtain ⟨x, asked, hx, rfl, -⟩ := mem_nodes_annotate scope ht hn
  have hkind : x.kind? = some .assignment := by
    rw [← Typing.kind?_annotate scope x]
    cases asked with
    | none => exact hk
    | some ty => exact (Typing.kind?_require ty _).symm.trans hk
  obtain ⟨a, ha, htarget, hvalue, happends⟩ := printed_assignment mode ht hn hk
  refine ⟨a, _, _, ha, rfl, isAssignable_target _ a.target, rfl, fun hop => ?_, fun hop => ?_⟩
  · exact assigns_lower hop htarget.reads.read_eq hvalue.reads.read_eq
  · have hsum := (happends _ _ (htarget.weaken (by decide))).reads.read_eq
    refine ⟨_, assigns_lower_append hop htarget.reads.read_eq hsum, rfl, ?_, fun htight => ?_, fun hstring => ?_⟩
    · rw [meaning_addBefore_iff, isLoose_leftNested]
    · exact htight.leftNested.meaning_addBefore _
    · exact startsTight_of_string mode hx hkind ha hstring

/-- An integer as one side of a comparison. -/
def integerTree (digits : Bytes) : Tree :=
  .branch .concatExpr .unset [.branch .addExpr .unset [.branch .mulExpr .unset [.branch .unary .unset
    [.branch .powExpr .unset [.branch .primary .unset [.branch .constant .unset [.leaf ⟨.integer, digits, none, 1⟩]]]]]]]

/-- Appends the comparison of two numbers to a name. -/
def appendsTest (name : Bytes) : Tree :=
  .branch .assignment .unset [.branch .lvalue .unset [.leaf ⟨.ident, name, none, 1⟩], .leaf ⟨.assignOp, "//=", none, 1⟩,
    .branch .expr .unset [.branch .orExpr .unset [.branch .andExpr .unset [.branch .cmpExpr .unset
      [integerTree "1", .leaf ⟨.eqEq, "==", none, 1⟩, integerTree "2"]]]]]

/-- The scope of a script that declares nothing. -/
def scriptScope : Scope := Scope.supply { Scope.empty with procedure := Scope.scriptName [] }

/-- To a name that is a string, the comparison is appended as a whole: there is a call around it. -/
theorem read_assignment_string : ∃ typed a, Typing.checkTypes scriptScope (appendsTest "mode") = .ok typed ∧
    assignment? typed = some a ∧
    (a.lower (.of scriptScope "al")).lines 0 = ["Vars.mode = Vars.mode + iraf.bool2str(1 == 2)"] ∧
    Assigns (a.lower (.of scriptScope "al")) (.path ["Vars", "mode"]) none (.binary .add (.path ["Vars", "mode"])
      (.call (.path ["iraf", "bool2str"]) [(none, .binary .eq (.number "1") (.number "2"))])) := by
  have hgrown : Grown (appendsTest "mode") := grown_of_grows rfl
  have htyped := Typing.checkTypes_eq scriptScope hgrown
  obtain ⟨a, target, value, ha, rfl, -, rfl, -, happend⟩ :=
    read_assignment "al" hgrown htyped (Node.mem_nodes_self _) rfl
  have hassignment : assignment? (Typing.annotate scriptScope (appendsTest "mode")) = some ⟨.name "mode", .append,
      .convert ⟨.bool, .string⟩ (.binary .eq (.constant ⟨.integer, "1", [], 1⟩) (.constant ⟨.integer, "2", [], 1⟩))⟩ := rfl
  rw [hassignment, Option.some.injEq] at ha
  subst ha
  obtain ⟨sum, hsum, -, hwhole, -⟩ := happend rfl
  rw [hwhole.mpr rfl] at hsum
  exact ⟨_, _, htyped, hassignment, rfl, hsum⟩

/-- To a name that is not declared, only the first number is added. -/
theorem not_appends_test : ∃ typed a sum, Typing.checkTypes scriptScope (appendsTest "msg") = .ok typed ∧
    assignment? typed = some a ∧ a.op = .append ∧
    (a.lower (.of scriptScope "al")).lines 0 = ["taskObj.msg = taskObj.msg + 1 == 2"] ∧
    Assigns (a.lower (.of scriptScope "al")) (.path ["taskObj", "msg"]) none sum ∧
    sum = .binary .eq (.binary .add (.path ["taskObj", "msg"]) (.number "1")) (.number "2") ∧
    sum ≠ .binary .add (.path ["taskObj", "msg"]) (a.value.leftNested.meaning (.of scriptScope "al")) := by
  have hgrown : Grown (appendsTest "msg") := grown_of_grows rfl
  obtain ⟨a, ha, htarget, -, happends⟩ := printed_assignment "al" hgrown (Node.mem_nodes_self _) rfl
  have hassignment : assignment? (Typing.annotate scriptScope (appendsTest "msg")) = some ⟨.name "msg", .append,
      .binary .eq (.constant ⟨.integer, "1", [], 1⟩) (.constant ⟨.integer, "2", [], 1⟩)⟩ := rfl
  rw [hassignment, Option.some.injEq] at ha
  subst ha
  have hsum := (happends _ _ (htarget.weaken (by decide))).reads.read_eq
  exact ⟨_, _, _, Typing.checkTypes_eq scriptScope hgrown, hassignment, rfl, rfl,
    assigns_lower_append rfl htarget.reads.read_eq hsum, rfl, by rintro ⟨⟩⟩

end IrafCl.Script
