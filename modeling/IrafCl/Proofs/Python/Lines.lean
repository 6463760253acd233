import IrafCl.Proofs.Python.Statements

/-!
# The lines that Python sees

Python ends a line at a line feed, at a carriage return, or at one right after the other (`physicalLines`). What follows
a line feed changes nothing in the lines before it (`physicalLines_unlines_append`), and printed lines are the lines that
Python sees just if there is no other end in one of them (`physicalLines_below`).
-/

namespace IrafCl.Python

/-- The lines of a text, after what is in the current one so far. A line feed right after a carriage return does not end
another line. -/
def linesFrom (returned : Bool) (line : Bytes) : Bytes → List Bytes
  | [] => if line.isEmpty then [] else [line]
  | b :: rest =>
    if b = 13 then line :: linesFrom true [] rest
    else if b = 10 then (if returned then linesFrom false [] rest else line :: linesFrom false [] rest)
    else linesFrom false (line ++ [b]) rest

/-- The lines of a text as Python has them, without their ends. -/
def physicalLines (s : Bytes) : List Bytes := linesFrom false [] s

variable {line s : Bytes}

/-- Nothing that follows a line feed changes the lines before. -/
theorem linesFrom_append (returned : Bool) (line s rest : Bytes) :
    linesFrom returned line (s ++ 10 :: rest) = linesFrom returned line (s ++ [10]) ++ physicalLines rest := by
  induction s generalizing returned line with
  | nil => cases returned <;> simp [linesFrom, physicalLines]
  | cons b s ih =>
    simp only [List.cons_append, linesFrom]
    split
    · rw [ih, List.cons_append]
    split
    · split
      · exact ih false []
      · rw [ih, List.cons_append]
    · exact ih false (line ++ [b])

theorem physicalLines_append (s rest : Bytes) :
    physicalLines (s ++ [10] ++ rest) = physicalLines (s ++ [10]) ++ physicalLines rest := by
  rw [List.append_assoc]
  exact linesFrom_append false [] s rest

theorem unlines_cons (line : Bytes) (lines : List Bytes) : Code.unlines (line :: lines) = line ++ [10] ++ Code.unlines lines := rfl

/-- What follows printed lines changes nothing in the lines before. -/
theorem physicalLines_unlines_append (lines : List Bytes) (rest : Bytes) :
    physicalLines (Code.unlines lines ++ rest) = physicalLines (Code.unlines lines) ++ physicalLines rest := by
  induction lines with
  | nil => rfl
  | cons line lines ih =>
    rw [unlines_cons, List.append_assoc (line ++ [10]), physicalLines_append, physicalLines_append, ih, List.append_assoc]

theorem linesFrom_oneLine (returned : Bool) (h : OneLine s) (hs : s ≠ []) : linesFrom returned line (s ++ [10]) = [line ++ s] := by
  induction s generalizing returned line with
  | nil => exact absurd rfl hs
  | cons b s ih =>
    rw [oneLine_cons] at h
    rw [List.cons_append, linesFrom, if_neg h.1.2, if_neg h.1.1]
    cases s with
    | nil => simp [linesFrom]
    | cons c s => rw [ih false h.2 (List.cons_ne_nil c s), List.append_assoc, List.singleton_append]

/-- A printed line that has no other end in it is one line. -/
theorem physicalLines_of_oneLine (h : OneLine s) : physicalLines (s ++ [10]) = [s] := by
  cases s with
  | nil => rfl
  | cons b s => exact linesFrom_oneLine false h (List.cons_ne_nil b s)

theorem oneLine_of_mem_linesFrom (returned : Bool) (hline : OneLine line) : ∀ l ∈ linesFrom returned line s, OneLine l := by
  have hnil : OneLine [] := List.forall_mem_nil _
  induction s generalizing returned line with
  | nil =>
    rw [linesFrom]
    split
    · exact List.forall_mem_nil _
    · exact List.forall_mem_singleton.mpr hline
  | cons b s ih =>
    rw [linesFrom]
    split
    · exact List.forall_mem_cons.mpr ⟨hline, ih true hnil⟩
    split
    · split
      · exact ih false hnil
      · exact List.forall_mem_cons.mpr ⟨hline, ih false hnil⟩
    · next hreturn hfeed =>
      exact ih false (oneLine_append.mpr ⟨hline, List.forall_mem_singleton.mpr ⟨hfeed, hreturn⟩⟩)

/-- No line that Python sees has an end in it. -/
theorem oneLine_of_mem_physicalLines {l : Bytes} (h : l ∈ physicalLines s) : OneLine l :=
  oneLine_of_mem_linesFrom false (List.forall_mem_nil _) l h

/-- Printed lines below others are the lines they were printed from just if there is no other end in them. -/
theorem physicalLines_below {head lines : List Bytes} :
    physicalLines (Code.unlines head ++ Code.unlines lines) = physicalLines (Code.unlines head) ++ lines ↔
      ∀ line ∈ lines, OneLine line := by
  rw [physicalLines_unlines_append, List.append_cancel_left_eq]
  constructor
  · intro h line hline
    rw [← h] at hline
    exact oneLine_of_mem_physicalLines hline
  · intro h
    induction lines with
    | nil => rfl
    | cons line lines ih =>
      rw [List.forall_mem_cons] at h
      rw [unlines_cons, physicalLines_append, physicalLines_of_oneLine h.1, ih h.2, List.singleton_append]

end IrafCl.Python
