import IrafCl.Code.Expr
import IrafCl.Proofs.Text.Bytes

/-!
# Parentheses around a text

A balanced text leaves the scan for parentheses as it found it (`Neutral`), and quotes hide what is between
them. So the parentheses around a whole neutral text are seen as such (`stripParens_paren`), and those
that close before the end are not (`stripParens_append`).
-/

namespace IrafCl.Code

/-- Scanning a text inside parentheses changes nothing. -/
def Neutral (s : Bytes) : Prop :=
  ∀ (depth : Int) (rest : Bytes), 1 ≤ depth → closesAtEnd depth none false (s ++ rest) = closesAtEnd depth none false rest

/-- A byte that the scan takes no notice of. -/
def isPlain (b : UInt8) : Bool := b ≠ singleQuote && b ≠ doubleQuote && b ≠ openParen && b ≠ closeParen

theorem neutral_nil : Neutral [] := fun _ _ _ => rfl

theorem Neutral.append {a b : Bytes} (ha : Neutral a) (hb : Neutral b) : Neutral (a ++ b) := by
  intro depth rest hdepth
  rw [List.append_assoc, ha depth _ hdepth, hb depth rest hdepth]

theorem closesAtEnd_plain {b : UInt8} (h : isPlain b = true) (depth : Int) (rest : Bytes) :
    closesAtEnd depth none false (b :: rest) = closesAtEnd depth none false rest := by
  simp only [isPlain, ne_eq, decide_not, Bool.and_eq_true, Bool.not_eq_true', decide_eq_false_iff_not] at h
  obtain ⟨⟨⟨hsingle, hdouble⟩, hopen⟩, hclose⟩ := h
  simp [closesAtEnd, hsingle, hdouble, hopen, hclose]

theorem neutral_plain {s : Bytes} (h : s.all isPlain = true) : Neutral s := by
  intro depth rest hdepth
  rw [List.all_eq_true] at h
  induction s with
  | nil => rfl
  | cons b s ih =>
    rw [List.cons_append, closesAtEnd_plain (h b (by simp)), ih fun c hc => h c (by simp [hc])]

theorem closesAtEnd_openParen (depth : Int) (rest : Bytes) :
    closesAtEnd depth none false (openParen :: rest) = closesAtEnd (depth + 1) none false rest := rfl

theorem closesAtEnd_closeParen (depth : Int) (rest : Bytes) :
    closesAtEnd depth none false (closeParen :: rest) =
      if depth - 1 = 0 && !rest.isEmpty then false else closesAtEnd (depth - 1) none false rest := rfl

theorem Neutral.paren {s : Bytes} (h : Neutral s) : Neutral ("(" ++ s ++ ")") := by
  intro depth rest hdepth
  have htext : "(" ++ s ++ ")" ++ rest = openParen :: (s ++ closeParen :: rest) := by
    rw [List.append_assoc, List.append_assoc]
    rfl
  have hne : depth ≠ 0 := by omega
  rw [htext, closesAtEnd_openParen, h _ _ (by omega), closesAtEnd_closeParen, Int.add_sub_cancel, if_neg (by simp [hne])]

/-! ## Strings -/

theorem closesAtEnd_quoted {q b : UInt8} (hslash : b ≠ backslash) (hq : b ≠ q) (depth : Int) (rest : Bytes) :
    closesAtEnd depth (some q) false (b :: rest) = closesAtEnd depth (some q) false rest := by
  simp [closesAtEnd, hslash, hq]

/-- A byte between quotes is written as an escape or as itself. The digits of an escape are neither quotes nor backslashes. -/
theorem escape_cases {q : UInt8} (hq : q = singleQuote ∨ q = doubleQuote) (b : UInt8) :
    (∃ c digits, escape q b = backslash :: c :: digits ∧ ∀ d ∈ digits, d ≠ backslash ∧ d ≠ q) ∨
      escape q b = [b] ∧ b ≠ backslash ∧ b ≠ q := by
  have hdigit : ∀ n, Bytes.hexDigit n ≠ backslash ∧ Bytes.hexDigit n ≠ q := by
    have hall : ∀ n < 16, Bytes.ascii (Nat.digitChar n) ≠ backslash ∧ Bytes.ascii (Nat.digitChar n) ≠ singleQuote ∧
        Bytes.ascii (Nat.digitChar n) ≠ doubleQuote := by decide
    intro n
    obtain ⟨hslash, hsingle, hdouble⟩ := hall (n % 16) (Nat.mod_lt _ (by decide))
    rcases hq with rfl | rfl
    · exact ⟨hslash, hsingle⟩
    · exact ⟨hslash, hdouble⟩
  unfold escape
  split
  · exact .inl ⟨_, _, rfl, List.forall_mem_nil _⟩
  next hplain =>
    split
    · exact .inl ⟨_, _, rfl, List.forall_mem_nil _⟩
    split
    · exact .inl ⟨_, _, rfl, List.forall_mem_nil _⟩
    split
    · exact .inl ⟨_, _, rfl, List.forall_mem_nil _⟩
    split
    · refine .inl ⟨_, _, rfl, fun d hd => ?_⟩
      simp only [Bytes.hexByte, List.mem_cons, List.not_mem_nil, or_false] at hd
      rcases hd with rfl | rfl <;> exact hdigit _
    · simp only [Bool.or_eq_true, decide_eq_true_eq, not_or] at hplain
      exact .inr ⟨rfl, hplain.2, hplain.1⟩

theorem closesAtEnd_escape {q : UInt8} (hq : q = singleQuote ∨ q = doubleQuote) (depth : Int) (b : UInt8) (rest : Bytes) :
    closesAtEnd depth (some q) false (escape q b ++ rest) = closesAtEnd depth (some q) false rest := by
  have hdigits : ∀ digits : Bytes, (∀ d ∈ digits, d ≠ backslash ∧ d ≠ q) →
      closesAtEnd depth (some q) false (digits ++ rest) = closesAtEnd depth (some q) false rest := by
    intro digits h
    induction digits with
    | nil => rfl
    | cons d digits ih =>
      rw [List.forall_mem_cons] at h
      rw [List.cons_append, closesAtEnd_quoted h.1.1 h.1.2, ih h.2]
  rcases escape_cases hq b with ⟨c, digits, heq, hplain⟩ | ⟨heq, hslash, hquote⟩
  · rw [heq]
    exact hdigits digits hplain
  · rw [heq]
    exact closesAtEnd_quoted hslash hquote depth rest

theorem neutral_quoted (s : Bytes) : Neutral (quoted s) := by
  intro depth rest hdepth
  have hq : quoteFor s = singleQuote ∨ quoteFor s = doubleQuote := by
    unfold quoteFor
    split
    · exact .inr rfl
    · exact .inl rfl
  unfold quoted
  generalize quoteFor s = q at hq
  have hbody : ∀ body : Bytes, closesAtEnd depth (some q) false (body.flatMap (escape q) ++ q :: rest) =
      closesAtEnd depth none false rest := by
    intro body
    induction body with
    | nil => rcases hq with rfl | rfl <;> rfl
    | cons b body ih => rw [List.flatMap_cons, List.append_assoc, closesAtEnd_escape hq, ih]
  have hopen : closesAtEnd depth none false (q :: (s.flatMap (escape q) ++ q :: rest)) =
      closesAtEnd depth (some q) false (s.flatMap (escape q) ++ q :: rest) := by
    rcases hq with rfl | rfl <;> rfl
  rw [List.cons_append, List.cons_append, List.append_assoc, List.singleton_append, hopen, hbody]

/-! ## Enclosing parentheses -/

/-- The first byte of a text is no parenthesis, or the parenthesis is closed. -/
def Headed (s : Bytes) : Prop :=
  (∃ b rest, s = b :: rest ∧ b ≠ openParen) ∨ ∃ a rest, s = openParen :: (a ++ closeParen :: rest) ∧ Neutral a

theorem Headed.append {s : Bytes} (h : Headed s) (t : Bytes) : Headed (s ++ t) := by
  rcases h with ⟨b, rest, rfl, hb⟩ | ⟨a, rest, rfl, ha⟩
  · exact .inl ⟨b, rest ++ t, rfl, hb⟩
  · exact .inr ⟨a, rest ++ t, by simp, ha⟩

theorem stripParens_of_not {s : Bytes} (h : isEnclosed s = false) : stripParens s = s := by
  rw [stripParens, if_neg (by rw [h]; decide)]

theorem stripParens_of_head {b : UInt8} (h : b ≠ openParen) (rest : Bytes) : stripParens (b :: rest) = b :: rest := by
  refine stripParens_of_not ?_
  simp [isEnclosed, h]

/-- Parentheses that close before the end of a text stay. -/
theorem stripParens_append {s t : Bytes} (h : Headed s) (ht : t ≠ []) : stripParens (s ++ t) = s ++ t := by
  rcases h with ⟨b, rest, rfl, hb⟩ | ⟨a, rest, rfl, ha⟩
  · exact stripParens_of_head hb _
  · refine stripParens_of_not ?_
    have htext : openParen :: (a ++ closeParen :: rest) ++ t = openParen :: (a ++ closeParen :: (rest ++ t)) := by simp
    have hcloses : closesAtEnd 0 none false (openParen :: (a ++ closeParen :: (rest ++ t))) = false := by
      rw [closesAtEnd_openParen, ha _ _ (by decide), closesAtEnd_closeParen, if_pos (by simp [ht])]
    rw [htext, isEnclosed, hcloses, Bool.and_false]

/-- Parentheses around the whole of a text go. -/
theorem stripParens_paren {s : Bytes} (h : Neutral s) : stripParens ("(" ++ s ++ ")") = stripParens s := by
  have htext : "(" ++ s ++ ")" = openParen :: (s ++ [closeParen]) := by
    rw [List.append_assoc]
    rfl
  have hcloses : closesAtEnd 0 none false (openParen :: (s ++ [closeParen])) = true := by
    rw [closesAtEnd_openParen, h _ _ (by decide)]
    rfl
  have henclosed : isEnclosed (openParen :: (s ++ [closeParen])) = true := by
    simp [isEnclosed, hcloses, List.getLast?_cons]
  rw [htext, stripParens, if_pos henclosed, List.drop_one, List.tail_cons, List.dropLast_concat]

end IrafCl.Code
