import IrafCl.Proofs.Code.Subterms
import IrafCl.Proofs.Script.Programs
import IrafCl.Script.Lowering.Expr

/-!
# Expressions in scripts

Every constant, name and keyword that is read from a tree has a text that fits its kind, wherever it stands
(`judges_lexed`). A name becomes a dotted name or a field, and it begins with one of four owners (`owned_reference`).
-/

namespace IrafCl.Script

/-- The constants, names and keywords of a script have texts that fit their kinds. -/
def Judgement.lexed : Judgement where
  expr e := e.All Expr.IsLexed
  subscripts es := Expr.AllOf Expr.IsLexed es
  arg a := a.IsLexed
  redirection _ := True
  constant _ hk := hk
  constantArg _ _ hkey hk := ⟨hkey, hk⟩

theorem judges_lexed {n : Tree} (h : Grown n) : Judges .lexed n where
  grown := h
  expr m hm hk := (readsExpr (h.of_mem_nodes hm)).expr .expr hk rfl
  subscripts m hm hk := by
    obtain ⟨es, hes, hall⟩ := (readsExpr (h.of_mem_nodes hm)).list hk
    exact ⟨es, hes, Expr.allOf_iff.mpr hall⟩
  args m hm hk := (readsExpr (h.of_mem_nodes hm)).args hk
  redirection _ _ _ := trivial

/-! ## Names -/

/-- A dotted name or a field, with what it begins with. -/
inductive Owned (owner : Bytes) : Code.Expr → Prop where
  | path (ids : List Bytes) : Owned owner (.path (owner :: ids))
  | field (ids : List Bytes) (param name : Bytes) : Owned owner (.field (owner :: ids) param name)

variable {c : Context}

/-- A name begins with the variables, the running task, the registry of tasks or the end of a file. -/
theorem owned_reference (c : Context) (path : Bytes) :
    (∃ owner ∈ [varsObject, c.handle, taskRegistry, Bytes.ofString "EOF"], Owned owner (c.reference path)) ∧
      ∃ owner ∈ [varsObject, c.handle, taskRegistry, Bytes.ofString "EOF"], Owned owner (c.array path) := by
  have hdeclared (parts : List Bytes) : Owned varsObject (Context.declaredName parts) := by
    unfold Context.declaredName
    split
    · split
      · exact .field [] _ _
      · exact .path _
    · exact .path _
  have hfree (parts : List Bytes) :
      ∃ owner ∈ [varsObject, c.handle, taskRegistry, Bytes.ofString "EOF"], Owned owner (c.freeName parts) := by
    unfold Context.freeName
    split
    · next name _ =>
      split
      · next heq =>
        subst heq
        exact ⟨_, by simp, .path []⟩
      · exact ⟨_, by simp, .path _⟩
    · split
      · exact ⟨c.handle, by simp, .field [] _ _⟩
      · exact ⟨taskRegistry, by simp, .path _⟩
    · split
      · exact ⟨taskRegistry, by simp, .field _ _ _⟩
      · exact ⟨taskRegistry, by simp, .path _⟩
    · exact ⟨taskRegistry, by simp, .path _⟩
  unfold Context.reference Context.array
  dsimp only
  split
  · exact ⟨⟨_, by simp, hdeclared _⟩, ⟨varsObject, by simp, .path _⟩⟩
  · exact ⟨hfree _, hfree _⟩

end IrafCl.Script
