import IrafCl.Proofs.Code.Parens
import IrafCl.Proofs.Python.Spelling

/-!
# Quoted texts are one literal

Whatever a text holds, it is written as one string literal that has the text for its value (`quoted_isLiteral`). A quote
of the kind that opens the literal stands inside only where a backslash escapes it, so the literal goes on to its last
byte, and every byte of it is visible.
-/

namespace IrafCl.Python

open Code (escape quoted backslash)

variable {q : UInt8}

/-- Whether the byte after some bytes of a literal is escaped: a backslash that is not escaped itself stands before it. -/
def escapesNext (before : Bytes) : Bool := before.foldl (fun escaped b => b == backslash && !escaped) false

/-- Whether a byte is no control byte. -/
def isVisible (b : UInt8) : Bool := 32 ≤ b && b ≠ 127

theorem eq_of_isQuote (hq : isQuote q = true) : q = Code.singleQuote ∨ q = Code.doubleQuote := by
  simpa [isQuote] using hq

/-! ## One byte -/

/-- After a byte is written, nothing is escaped. -/
theorem escapesNext_escape_append (hq : isQuote q = true) (b : UInt8) (rest : Bytes) :
    escapesNext (escape q b ++ rest) = escapesNext rest := by
  have hdigits : ∀ digits : Bytes, (∀ d ∈ digits, d ≠ backslash ∧ d ≠ q) → escapesNext (digits ++ rest) = escapesNext rest := by
    intro digits h
    induction digits with
    | nil => rfl
    | cons d digits ih =>
      rw [List.forall_mem_cons] at h
      rw [← ih h.2, escapesNext, List.cons_append, List.foldl_cons, beq_eq_false_iff_ne.mpr h.1.1]
      rfl
  rcases Code.escape_cases (eq_of_isQuote hq) b with ⟨c, digits, heq, hplain⟩ | ⟨heq, hslash, hquote⟩
  · rw [heq, ← hdigits digits hplain]
    simp [escapesNext]
  · rw [heq]
    exact hdigits [b] (List.forall_mem_singleton.mpr ⟨hslash, hquote⟩)

/-- The quote stands in what a byte is written as only behind its backslash. -/
theorem escapesNext_of_escape (hq : isQuote q = true) {b : UInt8} {before after : Bytes}
    (h : escape q b = before ++ q :: after) : escapesNext before = true := by
  have hslash : backslash ≠ q := by rintro rfl; cases hq
  rcases Code.escape_cases (eq_of_isQuote hq) b with ⟨c, digits, heq, hplain⟩ | ⟨heq, -, hquote⟩
  · rw [heq] at h
    match before, h with
    | [], h => exact absurd (List.cons.inj h).1 hslash
    | [x], h =>
      rw [← (List.cons.inj h).1]
      rfl
    | _ :: _ :: before, h =>
      have hmem : q ∈ digits := by
        rw [(List.cons.inj (List.cons.inj h).2).2]
        simp
      exact absurd rfl (hplain q hmem).2
  · rw [heq] at h
    have hmem : q ∈ [b] := by rw [h]; simp
    exact absurd (List.mem_singleton.mp hmem).symm hquote

theorem isVisible_escape (hq : isQuote q = true) (b : UInt8) : ∀ d ∈ escape q b, isVisible d = true := by
  rw [← List.all_eq_true]
  rcases eq_of_isQuote hq with rfl | rfl
  · exact Bytes.imp_byte (fun _ => true) (fun b => (escape Code.singleQuote b).all isVisible) (by decide) rfl
  · exact Bytes.imp_byte (fun _ => true) (fun b => (escape Code.doubleQuote b).all isVisible) (by decide) rfl

/-! ## A whole text -/

theorem escapesNext_body (hq : isQuote q = true) (s : Bytes) : escapesNext (s.flatMap (escape q)) = false := by
  induction s with
  | nil => rfl
  | cons b s ih => rw [List.flatMap_cons, escapesNext_escape_append hq, ih]

/-- Every quote in the body of a literal is escaped. -/
theorem escapesNext_of_body (hq : isQuote q = true) {after : Bytes} : ∀ {s before : Bytes},
    s.flatMap (escape q) = before ++ q :: after → escapesNext before = true
  | [], before, h => by simp at h
  | b :: s, before, h => by
    rw [List.flatMap_cons] at h
    rcases List.append_eq_append_iff.mp h with ⟨before', rfl, hrest⟩ | ⟨behind, hescape, hrest⟩
    · rw [escapesNext_escape_append hq]
      exact escapesNext_of_body hq hrest
    · cases behind with
      | nil =>
        rw [List.append_nil] at hescape
        rw [← hescape, ← List.append_nil (escape q b), escapesNext_escape_append hq]
        exact escapesNext_of_body hq hrest.symm
      | cons c behind =>
        cases (List.cons.inj hrest).1
        exact escapesNext_of_escape hq hescape

/-- Every byte of a literal is visible. -/
theorem isVisible_quoted (s : Bytes) : ∀ b ∈ quoted s, isVisible b = true := by
  have hq := isQuote_quoteFor s
  have hopen : isVisible (Code.quoteFor s) = true := by rcases eq_of_isQuote hq with h | h <;> rw [h] <;> rfl
  intro b hb
  rw [quoted, List.mem_append, List.mem_cons, List.mem_singleton] at hb
  rcases hb with (rfl | hb) | rfl
  · exact hopen
  · obtain ⟨c, -, hb⟩ := List.mem_flatMap.mp hb
    exact isVisible_escape hq c b hb
  · exact hopen

/-- A text is written as one string literal: an opening quote, bytes in which a quote of its kind is always escaped, and the
closing quote, all of them visible. What stands after the opening quote is read to its end, and has the text for its value. -/
theorem quoted_isLiteral (s : Bytes) : ∃ q body, isQuote q = true ∧ quoted s = q :: (body ++ [q]) ∧
    (∀ before after, body ++ [q] = before ++ q :: after → (escapesNext before = false ↔ after = [])) ∧
    (∀ b ∈ quoted s, 32 ≤ b ∧ b ≠ 127) ∧
    stringBody? q (body ++ [q]) = some (s, (body ++ [q]).length) ∧ lex (quoted s) = some [.string s] := by
  have hq := isQuote_quoteFor s
  generalize hquote : Code.quoteFor s = q at hq
  have hquoted : quoted s = q :: (s.flatMap (escape q) ++ [q]) := by rw [quoted, hquote]; rfl
  have hbody := escapesNext_body hq s
  refine ⟨q, s.flatMap (escape q), hq, hquoted, fun before after h => ?_, ?_, ?_, (spells_string s).lex_eq⟩
  · rcases List.eq_nil_or_concat after with rfl | ⟨after, c, rfl⟩
    · rw [← (List.append_inj' h rfl).1]
      simp [hbody]
    · rw [List.concat_eq_append, ← List.cons_append, ← List.append_assoc] at h
      simp [escapesNext_of_body hq (List.append_inj' h rfl).1]
  · intro b hb
    simpa [isVisible] using isVisible_quoted s b hb
  · rw [stringBody?_flatMap hq [] s]
    simp

end IrafCl.Python
