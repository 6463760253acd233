import IrafCl.Proofs.Python.Reads

/-!
# Sums before an expression

A plus sign may be written before any expression that does not begin with `not`: what binds more tightly than a sum
is added, and a looser operator takes the sum as its left operand (`Derives.after`).
-/

namespace IrafCl.Python

open Code (BinaryOp)

variable {n : Nat} {ts : List Tok} {e : Tree}

theorem Derives.head?_append (h : Derives n ts e) (more : List Tok) : (ts ++ more).head? = ts.head? := by
  obtain ⟨t, ht, -⟩ := h.begins.head
  rw [List.head?_append, ht]
  rfl

/-- Only what binds as loosely as `not` may begin with it. -/
theorem Derives.head?_ne_not (h : Derives n ts e) (hn : notLevel < n) : ts.head? ≠ some .not := by
  induction h with
  | weaken hle _ ih => exact ih (Nat.lt_of_lt_of_le hn hle)
  | number _ => exact nofun
  | string _ => exact nofun
  | path _ _ => exact nofun
  | paren _ _ => exact nofun
  | field he _ ih => rw [he.head?_append]; exact ih (by decide)
  | call hf _ _ ih => rw [List.append_assoc, hf.head?_append]; exact ih (by decide)
  | index he _ _ _ _ ih => rw [List.append_assoc, he.head?_append]; exact ih (by decide)
  | not _ _ => exact absurd hn (by decide)
  | minus _ _ => exact nofun
  | plus _ _ => exact nofun
  | binary o hx _ ih => rw [hx.head?_append]; exact ih (Nat.lt_of_lt_of_le hn (level_le_left o))

/-- What binds more tightly than a sum is added as a whole. -/
theorem Derives.add {before : List Tok} {x : Tree} (hx : Derives operandLevel before x) (h : Derives n ts e)
    (hn : right .add ≤ n) : Derives (min n (level .add)) (before ++ .op .add :: ts) (.binary .add x e) :=
  .weaken (Nat.min_le_right _ _) (.binary .add (.weaken (by decide) hx) (.weaken hn h))

/-- The operators that bind no more tightly than a sum take one on their left. -/
theorem left_le_add {o : BinaryOp} (h : ¬ right .add ≤ level o) : left o ≤ level .add := by
  cases o <;> first | decide | exact absurd (by decide) h

theorem Derives.after {before : List Tok} {x : Tree} (hx : Derives operandLevel before x) (h : Derives n ts e)
    (hnot : ts.head? ≠ some .not) : ∃ e', Derives (min n (level .add)) (before ++ .op .add :: ts) e' := by
  induction h with
  | @weaken n m _ _ hle _ ih =>
    obtain ⟨e', he'⟩ := ih hnot
    exact ⟨e', .weaken (by omega) he'⟩
  | number digits => exact ⟨_, hx.add (.number digits) (by decide)⟩
  | string body => exact ⟨_, hx.add (.string body) (by decide)⟩
  | path ids hids => exact ⟨_, hx.add (.path ids hids) (by decide)⟩
  | paren he _ => exact ⟨_, hx.add (.paren he) (by decide)⟩
  | field he name _ => exact ⟨_, hx.add (.field he name) (by decide)⟩
  | call hf ps hps _ => exact ⟨_, hx.add (.call hf ps hps) (by decide)⟩
  | index he ps hne hkeys hps _ => exact ⟨_, hx.add (.index he ps hne hkeys hps) (by decide)⟩
  | not _ _ => exact absurd rfl hnot
  | minus he _ => exact ⟨_, hx.add (.minus he) (by decide)⟩
  | plus he _ => exact ⟨_, hx.add (.plus he) (by decide)⟩
  | @binary o a b _ _ hl hr ih =>
    by_cases hlevel : right .add ≤ level o
    · exact ⟨_, hx.add (.binary o hl hr) hlevel⟩
    · rw [hl.head?_append] at hnot
      obtain ⟨e', he'⟩ := ih hnot
      rw [Nat.min_eq_left (left_le_add hlevel)] at he'
      have hbinary := Derives.binary o he' hr
      rw [List.append_assoc, List.cons_append] at hbinary
      exact ⟨_, .weaken (Nat.min_le_left _ _) hbinary⟩

/-! ## Texts -/

theorem Spells.operator {s s' : Bytes} {ts ts' : List Tok} (hs : Spells s ts) (o : BinaryOp) (hs' : Spells s' ts') :
    Spells (s ++ " " ++ o.text ++ " " ++ s') (ts ++ .op o :: ts') := by
  have htext : s ++ " " ++ o.text ++ " " ++ s' = s ++ (" " ++ o.text ++ " " ++ s') := by simp only [List.append_assoc]
  rw [htext]
  exact hs.between (b := 32) (marks_op o) (by decide) hs'

/-- A text does not begin with `not`. -/
def Unnegated (s : Bytes) : Prop := (lex s).bind List.head? ≠ some .not

theorem Reads.unnegated {s : Bytes} (h : Reads n s e) (hn : notLevel < n) : Unnegated s := by
  obtain ⟨ts, hs, he⟩ := h
  rw [Unnegated, hs.lex_eq]
  exact he.head?_ne_not hn

/-- An operation begins as its left operand does. -/
theorem Unnegated.binary {o : BinaryOp} {s s' : Bytes} {x y : Tree} (h : Unnegated s) (hx : Reads (left o) s x)
    (hy : Reads (right o) s' y) : Unnegated (s ++ " " ++ o.text ++ " " ++ s') := by
  obtain ⟨ts, hs, hx⟩ := hx
  obtain ⟨ts', hs', -⟩ := hy
  rw [Unnegated, hs.lex_eq] at h
  rw [Unnegated, (hs.operator o hs').lex_eq]
  show (ts ++ _).head? ≠ _
  rw [hx.head?_append]
  exact h

/-- A sum of an operand and an expression that does not begin with `not`. -/
theorem Reads.after {s s' : Bytes} {x : Tree} (hx : Reads operandLevel s x) (h : Reads n s' e) (hnot : Unnegated s') :
    ∃ e', Reads 0 (s ++ " " ++ BinaryOp.text .add ++ " " ++ s') e' := by
  obtain ⟨ts, hs, hx⟩ := hx
  obtain ⟨ts', hs', he⟩ := h
  rw [Unnegated, hs'.lex_eq] at hnot
  obtain ⟨e', he'⟩ := hx.after he hnot
  exact ⟨e', _, hs.operator .add hs', .weaken (Nat.zero_le _) he'⟩

end IrafCl.Python
