import IrafCl.Code.Name

/-!
# Names that become one identifier

Spelling out the dollar signs and marking the keywords are both done without a look at other names, so two names may become
the same identifier. They do just if they are the same once their dollar signs are spelled out, or one of them is then a
keyword and the other that keyword with the mark (`identifier_eq_iff`). A name without these capitals is that of no other
name (`eq_of_identifier`).
-/

namespace IrafCl.Code

/-- A name with its dollar signs spelled out. -/
def expanded (name : Bytes) : Bytes := Bytes.substitute (Bytes.ascii '$') "DOLLAR" name

variable {a b : Bytes}

theorem identifier_of_mem (h : expanded a ∈ keywords) : identifier a = "PY" ++ expanded a := by
  unfold identifier
  dsimp only
  exact if_pos (List.contains_iff_mem.mpr h)

theorem identifier_of_not_mem (h : expanded a ∉ keywords) : identifier a = expanded a := by
  unfold identifier
  dsimp only
  exact if_neg fun hmem => h (List.contains_iff_mem.mp hmem)

/-- All but the dollar signs of a name is kept. -/
theorem mem_identifier_of_mem {name : Bytes} {b : UInt8} (hb : b ≠ Bytes.ascii '$') (h : b ∈ name) : b ∈ identifier name := by
  have hexpanded : b ∈ expanded name := List.mem_flatMap.mpr ⟨b, h, by rw [if_neg hb]; exact List.mem_singleton_self b⟩
  by_cases hmem : expanded name ∈ keywords
  · rw [identifier_of_mem hmem]
    exact List.mem_append_right _ hexpanded
  · rwa [identifier_of_not_mem hmem]

/-- A keyword with the mark is no keyword. -/
theorem marked_not_mem {k : Bytes} (h : k ∈ keywords) : ("PY" ++ k : Bytes) ∉ keywords := by
  have hmarked : ∀ k ∈ keywords, ("PY" ++ k : Bytes) ∉ keywords := by decide
  exact hmarked k h

/-- No identifier is a keyword. -/
theorem identifier_not_mem (name : Bytes) : identifier name ∉ keywords := by
  by_cases h : expanded name ∈ keywords
  · rw [identifier_of_mem h]
    exact marked_not_mem h
  · rwa [identifier_of_not_mem h]

/-- Two names become one identifier if their dollar signs are all that they differ in, or the mark of a keyword is. -/
theorem identifier_eq_iff : identifier a = identifier b ↔ expanded a = expanded b ∨
    expanded a ∈ keywords ∧ expanded b = "PY" ++ expanded a ∨ expanded b ∈ keywords ∧ expanded a = "PY" ++ expanded b := by
  by_cases ha : expanded a ∈ keywords <;> by_cases hb : expanded b ∈ keywords
  · have hmarked := marked_not_mem ha
    have hmarked' := marked_not_mem hb
    rw [identifier_of_mem ha, identifier_of_mem hb, List.append_cancel_left_eq]
    refine ⟨.inl, ?_⟩
    rintro (h | ⟨-, h⟩ | ⟨-, h⟩)
    · exact h
    · exact absurd (h ▸ hb) hmarked
    · exact absurd (h ▸ ha) hmarked'
  · rw [identifier_of_mem ha, identifier_of_not_mem hb]
    refine ⟨fun h => .inr (.inl ⟨ha, h.symm⟩), ?_⟩
    rintro (h | ⟨-, h⟩ | ⟨h, -⟩)
    · exact absurd (h ▸ ha) hb
    · exact h.symm
    · exact absurd h hb
  · rw [identifier_of_not_mem ha, identifier_of_mem hb]
    refine ⟨fun h => .inr (.inr ⟨hb, h⟩), ?_⟩
    rintro (h | ⟨h, -⟩ | ⟨-, h⟩)
    · exact absurd (h ▸ hb) ha
    · exact absurd h ha
    · exact h
  · rw [identifier_of_not_mem ha, identifier_of_not_mem hb]
    exact ⟨.inl, fun h => h.elim id fun h => h.elim (fun h => absurd h.1 ha) fun h => absurd h.1 hb⟩

example : identifier "in" = identifier "PYin" := by decide

theorem expanded_of_not_mem {name : Bytes} (h : Bytes.ascii '$' ∉ name) : expanded name = name := by
  induction name with
  | nil => rfl
  | cons b name ih =>
    rw [List.mem_cons, not_or] at h
    rw [expanded, Bytes.substitute, List.flatMap_cons, if_neg (Ne.symm h.1), List.singleton_append]
    exact congrArg (b :: ·) (ih h.2)

/-- An identifier without the capitals that a name may be given is that of the same name only. -/
theorem eq_of_identifier (hD : Bytes.ascii 'D' ∉ b) (hP : Bytes.ascii 'P' ∉ b) (h : identifier a = b) : a = b := by
  subst h
  by_cases ha : expanded a ∈ keywords
  · rw [identifier_of_mem ha] at hP
    exact absurd (List.mem_append_left _ (by decide)) hP
  rw [identifier_of_not_mem ha] at hD ⊢
  by_cases hdollar : Bytes.ascii '$' ∈ a
  · refine absurd (List.mem_flatMap.mpr ⟨_, hdollar, ?_⟩) hD
    rw [if_pos rfl]
    decide
  · exact (expanded_of_not_mem hdollar).symm

end IrafCl.Code
