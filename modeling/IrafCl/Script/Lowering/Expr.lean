import IrafCl.Code.Expr
import IrafCl.Script.Scope

/-!
# Expressions in generated code

An expression becomes one of the same operator tree. Declared names are read from the parameter list of
the procedure and other names from the running task, or, in single mode, from the registry of all tasks.
Subscripts count from zero. A conversion becomes a call of the function that closes the gap between the
two types; where there is none the operand stays as it is.
-/

namespace IrafCl.Script

/-- What the meaning of names depends on: the declared ones, and where all others are looked up. -/
structure Context where
  scope : Scope
  handle : Bytes

/-- The context of a program. -/
def Context.of (scope : Scope) (mode : Bytes) : Context :=
  ⟨scope, if mode = "single" then "iraf" else taskParam⟩

/-! ## Constants -/

/-- Digits without leading zeros. -/
def stripZeros (digits : Bytes) : Bytes :=
  match digits.dropWhile (· == Bytes.ascii '0') with
  | [] => "0"
  | ds => ds

/-- A part of a sexagesimal constant. -/
def sexagesimalPart (part : Bytes) : Code.Arg :=
  .positional (.number (if part.contains (Bytes.ascii '.') then part else stripZeros part))

/-- A constant as a literal. -/
def Constant.lower (c : Constant) : Code.Expr :=
  match c.kind with
  | .integer => .number (stripZeros c.text)
  | .octal => .number ("0o" ++ stripZeros c.text.dropLast)
  | .hex => .number ("0x" ++ c.text.dropLast)
  | .float => .number (exponentMark 'E' c.text)
  | .sexagesimal =>
    .call ["iraf", "clSexagesimal"] ((Bytes.pieces (Bytes.ascii ':') c.text).map sexagesimalPart)
  | .string => .string c.body
  | .bool | .undefined => .name c.text

/-- A constant with its sign. -/
def SignedConstant.lower (c : SignedConstant) : Code.Expr :=
  match c.sign with
  | none => c.constant.lower
  | some .plus => .plus c.constant.lower
  | some .minus => .minus c.constant.lower

/-! ## Names -/

/-- Whether the last part of a dotted name is a field of a parameter. -/
def isField (name : Bytes) : Bool := (Bytes.ofString "p_").isPrefixOf name

/-- The identifiers of a dotted name under an owner. -/
def under (owner : Bytes) (parts : List Bytes) : Code.Expr := .path (owner :: parts.map Code.identifier)

/-- The name of the object that holds the declared variables. -/
def varsObject : Bytes := "Vars"

def taskRegistry : Bytes := "iraf"

namespace Context

def isDeclared (c : Context) (name : Bytes) : Bool := (c.scope.lookup? name).isSome

/-- A name whose first part is declared. -/
def declaredName : List Bytes → Code.Expr
  | [name, field] => if isField field then .field [varsObject] name field else under varsObject [name, field]
  | parts => under varsObject parts

/-- A name whose first part is not declared. -/
def freeName (c : Context) (parts : List Bytes) : Code.Expr :=
  match parts.reverse with
  | [name] => if name = "EOF" then .name name else under c.handle [name]
  | [field, param] =>
    if isField field then .field [c.handle] param field else under taskRegistry parts
  | field :: param :: owner =>
    if isField field then .field (taskRegistry :: owner.reverse.map Code.identifier) param field
    else under taskRegistry parts
  | [] => under taskRegistry parts

/-- A reference to a name. -/
def reference (c : Context) (path : Bytes) : Code.Expr :=
  let parts := Code.parts path
  if c.isDeclared (parts.headD []) then declaredName parts else c.freeName parts

/-- The array that a subscript applies to. -/
def array (c : Context) (path : Bytes) : Code.Expr :=
  let parts := Code.parts path
  if c.isDeclared (parts.headD []) then under varsObject parts else c.freeName parts

end Context

/-! ## Operators -/

def BinaryOp.lower : BinaryOp → Code.BinaryOp
  | .or => .or
  | .and => .and
  | .eq => .eq
  | .ne => .ne
  | .lt => .lt
  | .le => .le
  | .gt => .gt
  | .ge => .ge
  | .concat => .add
  | .add => .add
  | .sub => .sub
  | .mul => .mul
  | .div => .div
  | .intDiv => .floorDiv
  | .mod => .mod
  | .pow => .pow

/-- The function that turns a value of one type into another. -/
def conversion? (t : Types) : Option (List Bytes) :=
  match t.required, t.inferred with
  | .int, .float | .int, .string | .int, .bool => some ["iraf", "integer"]
  | .float, .int => some ["float"]
  | .float, .string | .float, .bool => some ["iraf", "real"]
  | .string, .int | .string, .float => some ["str"]
  | .string, .bool => some ["iraf", "bool2str"]
  | .bool, .int | .bool, .float | .bool, .string => some ["iraf", "boolean"]
  | _, _ => none

/-- The function that a type name stands for. -/
def castFunction (type : Bytes) : List Bytes :=
  if type = "int" then ["iraf", "integer"]
  else if type = "real" || type = "double" then ["iraf", "real"]
  else if type = "bool" then ["iraf", "boolean"]
  else ["str"]

/-- The functions that take their output variables by name. -/
def scanFunctions : List Bytes := ["scan", "scanf", "fscan", "fscanf"]

/-- The function of a task or an intrinsic. -/
def functionPath (name : Bytes) : List Bytes := taskRegistry :: (Code.parts name).map Code.identifier

/-! ## Subscripts -/

/-- The value of a subscript that is an integer constant. -/
def constantIndex? : Expr → Option Int
  | .constant c => if c.kind = .integer then (Reading.int? 10 c.text).map Int64.toInt else none
  | _ => none

/-- Whether an expression is a single operand. -/
def isOperand : Expr → Bool
  | .constant _ | .name _ | .element _ _ | .call _ _ | .cast _ _ | .paren _ => true
  | _ => false

/-- The subscript of an element, given the expression that is lowered to `lowered`: subscripts of CL
count from one. -/
def zeroBased (e : Expr) (lowered : Code.Expr) : Code.Expr :=
  match constantIndex? e with
  | some n => .int (n - 1)
  | none => .before (if isOperand e then lowered else .paren lowered)

/-! ## Expressions -/

/-- The name of an argument that is nothing but a name. -/
def plainName? : Arg → Option Bytes
  | .mk none (.name path) => some path
  | _ => none

mutual

/-- The expression in generated code. -/
def Expr.lower (c : Context) : Expr → Code.Expr
  | .constant k => k.lower
  | .name path => c.reference path
  | .element path index => .subscript (c.array path) (Expr.lowerIndices c index)
  | .call fn args =>
    if args.isEmpty then .call (functionPath fn) []
    else if scanFunctions.contains fn then
      .call (functionPath fn) (.positional (.call ["locals"] []) :: Arg.lowerScanned c args)
    else .call (functionPath fn) (Arg.lowerAll c args)
  | .cast type args => .call (castFunction type) (Arg.lowerAll c args)
  | .paren e => .paren (e.lower c)
  | .unary .not e => .paren (.not (e.lower c))
  | .unary .minus e => .minus (e.lower c)
  | .unary .plus e => .plus (e.lower c)
  | .binary op l r => .binary op.lower (l.lower c) (r.lower c)
  | .convert types e =>
    match conversion? types with
    | some fn => .call fn [.positional (e.lower c)]
    | none => e.lower c

def Expr.lowerIndices (c : Context) : List Expr → List Code.Expr
  | [] => []
  | e :: es => zeroBased e (e.lower c) :: Expr.lowerIndices c es

/-- The argument in generated code, without parentheses around the whole of it. -/
def Arg.lower (c : Context) : Arg → Code.Arg
  | .mk key e => .mk (key.map Code.identifier) true (e.lower c)

def Arg.lowerAll (c : Context) : List Arg → List Code.Arg
  | [] => []
  | a :: as => a.lower c :: Arg.lowerAll c as

/-- The arguments of a scanning function: a plain name is passed as text. -/
def Arg.lowerScanned (c : Context) : List Arg → List Code.Arg
  | [] => []
  | a :: as =>
    (match plainName? a with
      | some path => .positional (.string (c.reference path).text)
      | none => a.lower c) :: Arg.lowerScanned c as

end

end IrafCl.Script
