import IrafCl.Text.Bytes
import IrafCl.Tree.Node

/-!
# Abstract syntax of the command language

What a script says, without its punctuation. Expressions carry the conversions that the type pass asks
for as nodes of their own, so that nothing after the reader looks at types again. A bare word in
command mode is a string constant, and `name+` and `name-` are the keyword arguments `yes` and `no`.
-/

namespace IrafCl.Script

/-- The kinds of constants. -/
inductive ConstantKind where
  | integer
  | float
  | octal
  | hex
  | sexagesimal
  | string
  | bool
  | undefined
  deriving DecidableEq, Repr

/-- A constant: its lexeme, the decoded body of a string, and its line. -/
structure Constant where
  kind : ConstantKind
  text : Bytes
  body : Bytes
  line : Int
  deriving DecidableEq, Repr

/-- A string constant that is written without quotes. -/
def Constant.word (text : Bytes) (line : Int) : Constant := ⟨.string, text, text, line⟩

/-- A truth value constant. -/
def Constant.flag (on : Bool) (line : Int) : Constant := ⟨.bool, if on then "yes" else "no", [], line⟩

inductive Sign where
  | plus
  | minus
  deriving DecidableEq, Repr

/-- A constant with an optional sign, as declarations and case labels have them. -/
structure SignedConstant where
  sign : Option Sign
  constant : Constant
  line : Int
  deriving DecidableEq, Repr

/-! ## Expressions -/

inductive UnaryOp where
  | minus
  | plus
  | not
  deriving DecidableEq, Repr

/-- Binary operators; `intDiv` is a division of integers. -/
inductive BinaryOp where
  | or | and
  | eq | ne | lt | le | gt | ge
  | concat | add | sub | mul | div | intDiv | mod | pow
  deriving DecidableEq, Repr

mutual

/-- An expression. -/
inductive Expr where
  | constant (c : Constant)
  | name (path : Bytes)
  | element (path : Bytes) (index : List Expr)
  | call (fn : Bytes) (args : List Arg)
  | cast (type : Bytes) (args : List Arg)
  | paren (e : Expr)
  | unary (op : UnaryOp) (e : Expr)
  | binary (op : BinaryOp) (l r : Expr)
  | convert (types : Types) (e : Expr)

/-- An argument, with the keyword it is given under. -/
inductive Arg where
  | mk (key : Option Bytes) (value : Expr)

end

/-! ## Statements -/

/-- What an assignment writes to: a variable or an array element. -/
inductive Target where
  | name (path : Bytes)
  | element (path : Bytes) (index : List Expr)

def Target.path : Target → Bytes
  | .name p => p
  | .element p _ => p

inductive AssignOp where
  | set
  | add
  | sub
  | mul
  | div
  | append
  deriving DecidableEq, Repr

structure Assignment where
  target : Target
  op : AssignOp
  value : Expr

/-- A redirection: its operator and the file it names. -/
structure Redirection where
  op : Bytes
  file : Expr

structure TaskCall where
  task : Bytes
  args : List Arg
  redirections : List Redirection

mutual

/-- A statement. Lines are kept where messages need them. -/
inductive Stmt where
  | empty
  | labelled (label : Bytes) (line : Int) (body : Stmt)
  | assign (a : Assignment)
  | pipeline (calls : List TaskCall)
  | leave
  | next
  | done
  | jump (line : Int)
  | block (body : List Stmt)
  | branch (test : Expr) (yes : Stmt)
  | branchElse (test : Expr) (yes no : Stmt)
  | loop (test : Expr) (body : Stmt)
  | forLoop (first : Option Assignment) (test : Option Expr) (step : Option Assignment) (body : Stmt)
  | switch (subject : Expr) (clauses : List Clause)

/-- A clause of a switch. -/
inductive Clause where
  | case (labels : List SignedConstant) (body : Stmt)
  | otherwise (line : Int) (body : Stmt)

end

/-! ## Declarations -/

/-- The name of a declared variable: a list, an array with a size, or a scalar. -/
inductive Declarator where
  | scalar (name : Bytes)
  | list (name : Bytes)
  | array (name : Bytes) (size : Constant)

def Declarator.name : Declarator → Bytes
  | .scalar n | .list n | .array n _ => n

/-- What stands between the braces of a declaration. -/
inductive OptionItem where
  | value (v : SignedConstant)
  | named (key : Bytes) (v : SignedConstant) (line : Int)

/-- The declaration of one variable. -/
structure VarDecl where
  declarator : Declarator
  values : Option (List SignedConstant)
  options : List OptionItem
  line : Int

/-- A declaration statement. -/
structure Declaration where
  type : Bytes
  vars : List VarDecl

/-- The signature of a procedure; every argument with its line. -/
structure Signature where
  name : Bytes
  args : List (Bytes × Int)

/-- What a program declares. -/
structure Header where
  signature : Option Signature
  params : List Declaration
  locals : List Declaration

/-- A program. -/
structure Program where
  header : Header
  body : List Stmt

end IrafCl.Script
