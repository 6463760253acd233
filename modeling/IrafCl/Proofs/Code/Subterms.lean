import IrafCl.Code.Stmt

/-!
# Expressions in generated code

What holds of an expression and of each expression in it, as deep as it may be (`Expr.All`), and what holds of each
expression in some statements (`Stmt.All`). A call that is a statement is an expression like any other call.
-/

namespace IrafCl.Code

mutual

/-- Something holds of an expression and of each expression in it. -/
def Expr.All (P : Expr → Prop) : Expr → Prop
  | .number digits => P (.number digits)
  | .int n => P (.int n)
  | .string s => P (.string s)
  | .path ids => P (.path ids)
  | .field owner param field => P (.field owner param field)
  | .call fn args => P (.call fn args) ∧ Arg.AllOf P args
  | .subscript base index => P (.subscript base index) ∧ base.All P ∧ Expr.AllOf P index
  | .before e => P (.before e) ∧ e.All P
  | .paren e => P (.paren e) ∧ e.All P
  | .not e => P (.not e) ∧ e.All P
  | .minus e => P (.minus e) ∧ e.All P
  | .plus e => P (.plus e) ∧ e.All P
  | .binary op l r => P (.binary op l r) ∧ l.All P ∧ r.All P
  | .oneOf e choices => P (.oneOf e choices) ∧ e.All P ∧ Expr.AllOf P choices

def Expr.AllOf (P : Expr → Prop) : List Expr → Prop
  | [] => True
  | e :: es => e.All P ∧ Expr.AllOf P es

def Arg.AllOf (P : Expr → Prop) : List Arg → Prop
  | [] => True
  | .mk _ _ e :: as => e.All P ∧ Arg.AllOf P as

end

/-- The keyword of an argument. -/
def Arg.key : Arg → Option Bytes
  | .mk key _ _ => key

/-- The value of an argument. -/
def Arg.value : Arg → Expr
  | .mk _ _ e => e

variable {P : Expr → Prop}

theorem Expr.allOf_iff {es : List Expr} : Expr.AllOf P es ↔ ∀ e ∈ es, e.All P := by
  induction es with
  | nil => simp [Expr.AllOf]
  | cons e es ih => rw [Expr.AllOf, ih, List.forall_mem_cons]

theorem Arg.allOf_iff {as : List Arg} : Arg.AllOf P as ↔ ∀ a ∈ as, a.value.All P := by
  induction as with
  | nil => simp [Arg.AllOf]
  | cons a as ih =>
    obtain ⟨key, bare, e⟩ := a
    rw [Arg.AllOf, ih, List.forall_mem_cons]
    rfl

theorem Arg.allOf_append {as as' : List Arg} : Arg.AllOf P (as ++ as') ↔ Arg.AllOf P as ∧ Arg.AllOf P as' := by
  rw [Arg.allOf_iff, Arg.allOf_iff, Arg.allOf_iff, List.forall_mem_append]

mutual

/-- Something holds of each expression in a statement. -/
def Stmt.All (P : Expr → Prop) : Stmt → Prop
  | .assign target value => target.All P ∧ value.All P
  | .update target _ value => target.All P ∧ value.All P
  | .call _ fn args => (Expr.call fn args).All P
  | .delete _ | .leave | .next | .done => True
  | .loop test body => test.All P ∧ Stmt.AllOf P body
  | .choose test body rest => test.All P ∧ Stmt.AllOf P body ∧ rest.All P

def Stmt.AllOf (P : Expr → Prop) : List Stmt → Prop
  | [] => True
  | s :: ss => s.All P ∧ Stmt.AllOf P ss

def Chain.All (P : Expr → Prop) : Chain → Prop
  | .none => True
  | .elseIf test body rest => test.All P ∧ Stmt.AllOf P body ∧ rest.All P
  | .otherwise body => Stmt.AllOf P body

end

theorem Stmt.allOf_append {ss ss' : List Stmt} : Stmt.AllOf P (ss ++ ss') ↔ Stmt.AllOf P ss ∧ Stmt.AllOf P ss' := by
  induction ss with
  | nil => simp [Stmt.AllOf]
  | cons s ss ih => rw [List.cons_append, Stmt.AllOf, ih, Stmt.AllOf, and_assoc]

end IrafCl.Code
