import IrafCl.Text.Bytes

/-!
# Line breaking

A call that is a statement is broken at its arguments when a line would grow beyond 78 columns. The
first argument stays with the head of the call, no argument is split, and a line ends only where the
next piece would not fit. Continuation lines stand one level deeper; a level is a tab of eight columns.
-/

namespace IrafCl.Code

/-- Lines as text. -/
def unlines (lines : List Bytes) : Bytes := lines.flatMap fun line => line ++ [10]

/-- The columns of a line. -/
def lineWidth : Nat := 78

/-- The columns of one level of indentation. -/
def tabWidth : Nat := 8

/-- The arguments with the punctuation that follows each: a comma, and after the last one the closing
parenthesis. -/
def pieces : List Bytes → List Bytes
  | [] => []
  | [a] => [a ++ ")"]
  | a :: b :: rest => (a ++ ",") :: pieces (b :: rest)

/-- Fills lines with pieces. `line` is the line so far, which starts at column `start`; later lines start
at column `next`. -/
def fill (start next : Nat) (line : Bytes) : List Bytes → List Bytes
  | [] => [line]
  | p :: ps =>
    if lineWidth < start + line.length + 1 + p.length then line :: fill next next p ps
    else fill start next (line ++ " " ++ p) ps

/-- The lines of a call at a level of indentation, without their indentation. -/
def callLines (level : Nat) (head : Bytes) (args : List Bytes) : List Bytes :=
  match pieces args with
  | [] => [head ++ ")"]
  | p :: ps => fill (level * tabWidth) ((level + 1) * tabWidth) (head ++ p) ps

end IrafCl.Code
