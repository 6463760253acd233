import IrafCl.Proofs.Code.Printing
import IrafCl.Proofs.Code.Subterms
import IrafCl.Proofs.Python.Quoting

/-!
# The words of generated code

An expression is worded if the names and numbers that it has of its own are those of Python, and its keywords are made of
the bytes of words (`Expr.Worded`); strings may be any. Operators and brackets are visible, and so is whatever a string
is written as: the text of an expression that is worded in all its parts has no control byte in it
(`Expr.visible_text`).
-/

namespace IrafCl.Code

open Python (isVisible isWordByte Numeral)

/-- A text without control bytes. -/
def Visible (s : Bytes) : Prop := ∀ b ∈ s, isVisible b = true

instance (s : Bytes) : Decidable (Visible s) := List.decidableBAll _ s

variable {s t : Bytes}

theorem visible_append : Visible (s ++ t) ↔ Visible s ∧ Visible t := List.forall_mem_append

theorem Visible.append (hs : Visible s) (ht : Visible t) : Visible (s ++ t) := visible_append.mpr ⟨hs, ht⟩

theorem Visible.zero_not_mem (h : Visible s) : 0 ∉ s := by
  intro hmem
  cases h 0 hmem

theorem visible_join {sep : Bytes} (hsep : Visible sep) {texts : List Bytes} (h : ∀ text ∈ texts, Visible text) :
    Visible (Bytes.join sep texts) := by
  match texts, h with
  | [], _ => exact nofun
  | [text], h => rw [Bytes.join_singleton]; exact h text (by simp)
  | text :: next :: texts, h =>
    rw [Bytes.join_cons_cons]
    exact (h text (by simp)).append (hsep.append (visible_join hsep fun x hx => h x (by simp [hx])))

/-! ## Words -/

theorem visible_word (h : ∀ b ∈ s, isWordByte b = true) : Visible s := fun b hb =>
  Bytes.imp_byte isWordByte isVisible (by decide) (h b hb)

theorem visible_numeral (h : Numeral s) : Visible s := fun b hb =>
  Bytes.imp_byte (fun b => isWordByte b || Python.isSign b) isVisible (by decide) (h.bytes b hb)

theorem IsPath.visible {ids : List Bytes} (h : IsPath ids) : Visible (dotted ids) := visible_word h.isWordByte

theorem visible_ofInt (i : Int) : Visible (Bytes.ofInt i) := by
  cases i with
  | ofNat n => exact visible_numeral (Python.numeral_ofNat n)
  | negSucc n => exact List.forall_mem_cons.mpr ⟨by decide, visible_numeral (Python.numeral_ofNat (n + 1))⟩

/-- Taking parentheses off adds nothing. -/
theorem stripParens_subset (s : Bytes) : stripParens s ⊆ s := by
  fun_induction stripParens s with
  | case1 s _ ih => exact fun b hb => List.drop_subset 1 s (List.dropLast_subset _ (ih hb))
  | case2 s => exact List.Subset.refl s

/-! ## Expressions -/

/-- The keywords of some arguments are made of the bytes of words. -/
def Keyed (args : List Arg) : Prop := ∀ a ∈ args, ∀ key ∈ a.key, ∀ b ∈ key, isWordByte b = true

/-- The names, numbers and keywords that an expression has besides its parts are such as Python has. -/
def Expr.Worded : Expr → Prop
  | .number digits => Numeral digits
  | .path ids => IsPath ids
  | .field owner param name => IsPath owner ∧ (∀ b ∈ param, isWordByte b = true) ∧ ∀ b ∈ name, isWordByte b = true
  | .call fn args => IsPath fn ∧ Keyed args
  | _ => True

/-- Whether an expression has no name and no number of its own. -/
def Expr.isBare : Expr → Bool
  | .number _ | .path _ | .field _ _ _ | .call _ _ => false
  | _ => true

theorem Expr.worded_of_isBare {e : Expr} (h : e.isBare = true) : e.Worded := by
  cases e <;> trivial

theorem visible_op (op : BinaryOp) : Visible op.text := by cases op <;> decide

theorem visible_argText {key : Option Bytes} (hkey : ∀ k ∈ key, ∀ b ∈ k, isWordByte b = true) (bare : Bool) (h : Visible s) :
    Visible (argText key bare s) := by
  have hvalue : Visible (if bare then stripParens s else s) := by
    split
    · exact fun b hb => h b (stripParens_subset s hb)
    · exact h
  unfold argText
  cases key with
  | none => exact hvalue
  | some k => exact ((visible_word (hkey k rfl)).append (by decide)).append hvalue

mutual

/-- The text of an expression has no control byte in it. -/
theorem Expr.visible_text : ∀ (e : Expr), e.All Expr.Worded → Visible e.text
  | .number digits, h => by
    have hdigits : Numeral digits := h
    exact visible_numeral hdigits
  | .int n, _ => visible_ofInt n
  | .string s, _ => Python.isVisible_quoted s
  | .path ids, h => by
    have hids : IsPath ids := h
    exact hids.visible
  | .field owner param name, h => by
    have howner : IsPath owner := h.1
    simp only [Expr.text, visible_append]
    exact ⟨⟨⟨⟨howner.visible, by decide⟩, visible_word h.2.1⟩, by decide⟩, visible_word h.2.2⟩
  | .call fn args, h => by
    have hfn : IsPath fn := h.1.1
    simp only [Expr.text, visible_append]
    exact ⟨⟨⟨hfn.visible, by decide⟩, visible_join (by decide) (Arg.visible_texts args h.2 h.1.2)⟩, by decide⟩
  | .subscript base index, h => by
    simp only [Expr.text, visible_append]
    exact ⟨⟨⟨base.visible_text h.2.1, by decide⟩, visible_join (by decide) (Expr.visible_texts index h.2.2)⟩, by decide⟩
  | .before e, h => by
    rw [Expr.text]
    exact (e.visible_text h.2).append (by decide)
  | .paren e, h => by
    simp only [Expr.text, visible_append]
    exact ⟨⟨by decide, e.visible_text h.2⟩, by decide⟩
  | .not e, h => by
    rw [Expr.text]
    exact Visible.append (by decide) (e.visible_text h.2)
  | .minus e, h => by
    rw [Expr.text]
    exact Visible.append (by decide) (e.visible_text h.2)
  | .plus e, h => by
    rw [Expr.text]
    exact Visible.append (by decide) (e.visible_text h.2)
  | .binary op l r, h => by
    simp only [Expr.text, visible_append]
    exact ⟨⟨⟨⟨l.visible_text h.2.1, by decide⟩, visible_op op⟩, by decide⟩, r.visible_text h.2.2⟩
  | .oneOf e choices, h => by
    simp only [Expr.text, visible_append]
    exact ⟨⟨⟨e.visible_text h.2.1, by decide⟩, visible_join (by decide) (Expr.visible_texts choices h.2.2)⟩, by decide⟩

theorem Expr.visible_texts : ∀ (es : List Expr), Expr.AllOf Expr.Worded es → ∀ text ∈ Expr.texts es, Visible text
  | [], _ => nofun
  | e :: es, h => List.forall_mem_cons.mpr ⟨e.visible_text h.1, Expr.visible_texts es h.2⟩

theorem Arg.visible_texts : ∀ (as : List Arg), Arg.AllOf Expr.Worded as → Keyed as →
    ∀ text ∈ Arg.texts as, Visible text
  | [], _, _ => nofun
  | .mk _ bare e :: as, h, hkeys => by
    obtain ⟨hkey, hkeys⟩ := List.forall_mem_cons.mp hkeys
    rw [Arg.texts, Arg.text]
    exact List.forall_mem_cons.mpr ⟨visible_argText hkey bare (e.visible_text h.1), Arg.visible_texts as h.2 hkeys⟩

end

end IrafCl.Code
