import IrafCl.Pattern.Reader
import IrafCl.Scanner

/-!
# Pattern tables from text

A table is given as rows with the expressions as text and a fallback row. Names must be identifiers
and differ, expressions must be readable, and the fallback must have one. Rows are checked in order
and the first fault is reported.
-/

namespace IrafCl.Scanner

variable {σ κ : Type}

/-- Checks a row against the names before it and reads its expression. Group names are collected, for
a later row of that name is shadowed by the group. -/
def readRow (names groups : List String) (row : Row σ κ) :
    Except Failure (Pattern σ κ × List String) :=
  if !isName row.name then .error (.plain ("invalid pattern name " ++ (row.name : Bytes).quote))
  else if names.contains row.name then
    .error (.plain ("duplicate pattern name " ++ (row.name : Bytes).quote))
  else match Regex.ofString? row.regex with
    | none => .error (.plain ("pattern " ++ row.name))
    | some (regex, inner) =>
      .ok (⟨row.name, regex, row.handler, groups.contains row.name⟩, inner)

/-- Reads rows in order, given the names and groups of the rows before. -/
def readRows (names groups : List String) :
    List (Row σ κ) → Except Failure (List (Pattern σ κ))
  | [] => .ok []
  | row :: rows => do
    let (pattern, inner) ← readRow names groups row
    let more ← readRows (row.name :: names) (inner ++ groups) rows
    return pattern :: more

/-- The scanner of a table. -/
def ofRows (rows : List (Row σ κ)) (fallback : Row σ κ) : Except Halt (Scanner σ κ) :=
  match Contract.precondition.check (fallback.regex ≠ "") "fallback pattern must have a regexp" with
  | .error v => .error (.violation v)
  | .ok () => match readRows [] [] (rows ++ [fallback]) with
    | .error f => .error (.failure f)
    | .ok patterns => .ok ⟨patterns⟩

end IrafCl.Scanner
