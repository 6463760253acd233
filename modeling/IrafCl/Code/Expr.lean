import IrafCl.Code.Name
import IrafCl.Code.Quoted

/-!
# Expressions of generated code

The part of Python's expressions that generated code uses. Parentheses are nodes of the tree: a printed
expression has exactly those that its tree has, so whether the text reads back as the tree is a matter
of the tree alone. Only an argument may lose the parentheses around the whole of it, and those are taken
off its text: quotes in the text hide the parentheses between them.
-/

namespace IrafCl.Code

/-- Binary operators. -/
inductive BinaryOp where
  | or | and
  | eq | ne | lt | le | gt | ge
  | add | sub | mul | div | floorDiv | mod | pow
  deriving DecidableEq, Repr

def BinaryOp.text : BinaryOp → Bytes
  | .or => "or"
  | .and => "and"
  | .eq => "=="
  | .ne => "!="
  | .lt => "<"
  | .le => "<="
  | .gt => ">"
  | .ge => ">="
  | .add => "+"
  | .sub => "-"
  | .mul => "*"
  | .div => "/"
  | .floorDiv => "//"
  | .mod => "%"
  | .pow => "**"

mutual

/-- An expression. `number` is a numeric literal as it is written, `path` a dotted name, `field` a
field of a parameter that its owner looks up, and `before e` the index `e-1`. -/
inductive Expr where
  | number (digits : Bytes)
  | int (n : Int)
  | string (s : Bytes)
  | path (ids : List Bytes)
  | field (owner : List Bytes) (param field : Bytes)
  | call (fn : List Bytes) (args : List Arg)
  | subscript (base : Expr) (index : List Expr)
  | before (e : Expr)
  | paren (e : Expr)
  | not (e : Expr)
  | minus (e : Expr)
  | plus (e : Expr)
  | binary (op : BinaryOp) (l r : Expr)
  | oneOf (e : Expr) (choices : List Expr)

/-- An argument, with its keyword if it has one. A `bare` one is written without the parentheses around
the whole of its value. -/
inductive Arg where
  | mk (key : Option Bytes) (bare : Bool) (value : Expr)

end

/-- The name of a single identifier. -/
def Expr.name (id : Bytes) : Expr := .path [id]

/-- A positional argument. -/
def Arg.positional (e : Expr) : Arg := .mk none false e

/-- A keyword argument. -/
def Arg.keyword (key : Bytes) (e : Expr) : Arg := .mk (some key) false e

/-! ## Parentheses around a text -/

def openParen : UInt8 := 40

def closeParen : UInt8 := 41

/-- Whether the parentheses of a text are closed at its end and not before. Inside a string, which ends
with the given quote, parentheses do not count, and the byte after a backslash is `escaped`. -/
def closesAtEnd (depth : Int) (quote : Option UInt8) (escaped : Bool) : Bytes → Bool
  | [] => depth = 0
  | b :: rest =>
    if escaped then closesAtEnd depth quote false rest
    else match quote with
      | some q =>
        if b = backslash then closesAtEnd depth quote true rest
        else closesAtEnd depth (if b = q then none else quote) false rest
      | none =>
        if b = singleQuote || b = doubleQuote then closesAtEnd depth (some b) false rest
        else if b = openParen then closesAtEnd (depth + 1) none false rest
        else if b = closeParen then
          if depth - 1 = 0 && !rest.isEmpty then false else closesAtEnd (depth - 1) none false rest
        else closesAtEnd depth none false rest

/-- Whether a pair of parentheses encloses the whole of a text. -/
def isEnclosed (s : Bytes) : Bool :=
  2 ≤ s.length && s.head? = some openParen && s.getLast? = some closeParen && closesAtEnd 0 none false s

/-- The text without the parentheses that enclose the whole of it. -/
def stripParens (s : Bytes) : Bytes := if isEnclosed s then stripParens (s.drop 1).dropLast else s
termination_by s.length
decreasing_by
  rename_i h
  simp only [isEnclosed, Bool.and_eq_true, decide_eq_true_eq] at h
  simp only [List.length_dropLast, List.length_drop]
  omega

/-! ## Texts -/

/-- The value of an argument after its keyword. -/
def argText (key : Option Bytes) (bare : Bool) (value : Bytes) : Bytes :=
  (match key with
    | none => []
    | some key => key ++ "=") ++ if bare then stripParens value else value

mutual

/-- The text of an expression. -/
def Expr.text : Expr → Bytes
  | .number digits => digits
  | .int n => Bytes.ofInt n
  | .string s => quoted s
  | .path ids => dotted ids
  | .field owner param field => dotted owner ++ ".getParObject('" ++ param ++ "')." ++ field
  | .call fn args => dotted fn ++ "(" ++ Bytes.join ", " (Arg.texts args) ++ ")"
  | .subscript base index => base.text ++ "[" ++ Bytes.join ", " (Expr.texts index) ++ "]"
  | .before e => e.text ++ "-1"
  | .paren e => "(" ++ e.text ++ ")"
  | .not e => "not " ++ e.text
  | .minus e => "-" ++ e.text
  | .plus e => "+" ++ e.text
  | .binary op l r => l.text ++ " " ++ op.text ++ " " ++ r.text
  | .oneOf e choices => e.text ++ " in (" ++ Bytes.join ", " (Expr.texts choices) ++ ",)"

def Expr.texts : List Expr → List Bytes
  | [] => []
  | e :: es => e.text :: Expr.texts es

/-- The text of an argument. -/
def Arg.text : Arg → Bytes
  | .mk key bare e => argText key bare e.text

def Arg.texts : List Arg → List Bytes
  | [] => []
  | a :: as => a.text :: Arg.texts as

end

end IrafCl.Code
