import IrafCl.Code.Expr
import IrafCl.Code.Layout

/-!
# Statements of generated code

Statements are a tree of simple statements, `while` blocks and `if` chains, printed one tab deeper at
each level. A block that holds nothing is printed as a lone `pass`, so every block of the text has a
statement. The continuation lines of a broken call stand one level deeper than its first line.
-/

namespace IrafCl.Code

mutual

/-- A statement. A call may bind its result to names. -/
inductive Stmt where
  | assign (target value : Expr)
  | update (target : Expr) (op : BinaryOp) (value : Expr)
  | call (names : List Bytes) (fn : List Bytes) (args : List Arg)
  | delete (name : Bytes)
  | leave
  | next
  | done
  | loop (test : Expr) (body : List Stmt)
  | choose (test : Expr) (body : List Stmt) (rest : Chain)

/-- What follows the first block of an `if`. -/
inductive Chain where
  | none
  | elseIf (test : Expr) (body : List Stmt) (rest : Chain)
  | otherwise (body : List Stmt)

end

/-- A line at a level of indentation. -/
def indented (level : Nat) (line : Bytes) : Bytes := List.replicate level 9 ++ line

/-- The head of a call: the names it binds and the function. -/
def callHead (names fn : List Bytes) : Bytes :=
  (if names.isEmpty then [] else (Bytes.join ", " names ++ " = " : Bytes)) ++ dotted fn ++ "("

/-- The lines of a call with their indentation. -/
def indentedCall (level : Nat) (names fn : List Bytes) (args : List Arg) : List Bytes :=
  match callLines level (callHead names fn) (Arg.texts args) with
  | [] => []
  | first :: rest => indented level first :: rest.map (indented (level + 1))

/-- The lines of a block, given those of its statements: one that holds nothing says so. -/
def blockLines (level : Nat) (lines : List Bytes) : List Bytes :=
  if lines.isEmpty then [indented level "pass"] else lines

mutual

/-- The lines of a statement. -/
def Stmt.lines (level : Nat) : Stmt → List Bytes
  | .assign target value => [indented level (target.text ++ " = " ++ value.text)]
  | .update target op value => [indented level (target.text ++ " " ++ op.text ++ "= " ++ value.text)]
  | .call names fn args => indentedCall level names fn args
  | .delete name => [indented level ("del " ++ name)]
  | .leave => [indented level "break"]
  | .next => [indented level "continue"]
  | .done => [indented level "return"]
  | .loop test body =>
    indented level ("while " ++ test.text ++ ":") ::
      blockLines (level + 1) (Stmt.allLines (level + 1) body)
  | .choose test body rest =>
    indented level ("if " ++ test.text ++ ":") ::
      (blockLines (level + 1) (Stmt.allLines (level + 1) body) ++ rest.lines level)

/-- The lines of statements one after the other. -/
def Stmt.allLines (level : Nat) : List Stmt → List Bytes
  | [] => []
  | s :: ss => s.lines level ++ Stmt.allLines level ss

/-- The lines of the rest of an `if`. -/
def Chain.lines (level : Nat) : Chain → List Bytes
  | .none => []
  | .elseIf test body rest =>
    indented level ("elif " ++ test.text ++ ":") ::
      (blockLines (level + 1) (Stmt.allLines (level + 1) body) ++ rest.lines level)
  | .otherwise body =>
    indented level "else:" :: blockLines (level + 1) (Stmt.allLines (level + 1) body)

end

end IrafCl.Code
