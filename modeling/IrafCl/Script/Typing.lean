import IrafCl.Script.Reader
import IrafCl.Script.Scope

/-!
# The types of expressions

The type pass goes over a syntax tree from the bottom up. Each expression node gets the type its
expression has, and the type its surroundings need; the two start out equal, and an operator or an
assignment above may ask for another one. Anything of unknown type is `undefined` and adapts: next to a
number it is wanted as that number's type.
-/

namespace IrafCl.Script

namespace Typing

/-- The type of what a declared type holds. -/
def declaredType (type : Bytes) : Ty :=
  if type.isEmpty then .undefined
  else match TypeClass.ofType type with
    | .int => .int
    | .float => .float
    | .bool => .bool
    | .any => .undefined
    | .string => .string

/-- The intrinsic functions by result type. -/
def intFunctions : List Bytes :=
  ["nint", "mod", "strlen", "stridx", "strldx", "strstr", "fscan", "fscanf", "scan", "scanf", "radix"]

def floatFunctions : List Bytes :=
  ["sin", "cos", "tan", "asin", "acos", "atan", "atan2", "exp", "log", "log10", "sqrt", "frac", "abs",
    "min", "max", "dsin", "dcos", "dtan", "deg", "rad"]

def stringFunctions : List Bytes :=
  ["str", "substr", "envget", "mktemp", "osfn", "clktime", "cltime", "upper", "lower", "trim", "triml",
    "trimr", "path"]

def boolFunctions : List Bytes :=
  ["access", "defpac", "defpar", "deftask", "defvar", "imaccess", "isindef"]

/-- The result type of a function. -/
def functionType (fn : Bytes) : Ty :=
  if intFunctions.contains fn then .int
  else if floatFunctions.contains fn then .float
  else if stringFunctions.contains fn then .string
  else if boolFunctions.contains fn then .bool
  else .undefined

/-- The type of a field of a parameter of the given type. -/
def fieldType (type field : Bytes) : Ty :=
  if field = "p_value" || field = "p_min" || field = "p_max" then declaredType type
  else if field = "p_length" then .int
  else if (["p_name", "p_type", "p_mode", "p_prompt", "p_enum", "p_xtype"] : List Bytes).contains field then
    .string
  else .undefined

/-- The type of a name, which may be dotted. -/
def nameType (scope : Scope) (path : Bytes) : Ty :=
  if path = nargsParam then .int
  else match Bytes.pieces (Bytes.ascii '.') path with
    | [name] => match scope.lookup? name with
      | some v => declaredType v.type
      | none => .undefined
    | [name, field] => match scope.lookup? name with
      | some v => fieldType v.type field
      | none => .undefined
    | _ => .undefined

/-- The type of a constant. -/
def constantType : Symbol → Ty
  | .integer | .octal | .hex => .int
  | .float | .sexagesimal => .float
  | .string => .string
  | .bool => .bool
  | _ => .undefined

/-- The same type both ways. -/
def both (t : Ty) : Types := ⟨t, t⟩

/-- Asks for a type. -/
def require (t : Ty) : Tree → Tree
  | .branch k types cs => .branch k ⟨types.inferred, t⟩ cs
  | n => n

def inferred (n : Tree) : Ty := n.types.inferred

/-- The type of an arithmetic operation and the types it asks of its operands: two numbers keep their
types, an operand of another type is wanted as its partner's type, and without any number both are
wanted as floating-point numbers. -/
def compose (l r : Ty) : Ty × Option Ty × Option Ty :=
  if l.isNumeric && r.isNumeric then (if l = r then l else .float, none, none)
  else if l.isNumeric then (l, none, some l)
  else if r.isNumeric then (r, some r, none)
  else (.float, some .float, some .float)

/-- Asks for a type if there is one to ask for. -/
def require? (t : Option Ty) (n : Tree) : Tree :=
  match t with
  | some t => require t n
  | none => n

/-- An arithmetic operation. -/
def arithmetic (l op r : Tree) : Types × List Tree :=
  let (t, tl, tr) := compose (inferred l) (inferred r)
  (both t, [require? tl l, op, require? tr r])

/-- An operation whose operands are wanted as one type, which is also its own. -/
def uniform (t : Ty) (l op r : Tree) : Types × List Tree := (both t, [require t l, op, require t r])

/-- The types of a node and its children, once the children have theirs. -/
def typed (scope : Scope) (kind : Symbol) (types : Types) (cs : List Tree) : Types × List Tree :=
  let same (n : Tree) : Types × List Tree := (both (inferred n), cs)
  match kind with
  | .constant => (both ((cs.head?.bind Node.kind?).elim .undefined constantType), cs)
  | .identRef | .arrayRef => (both ((cs.head?.map Node.text).elim .undefined (nameType scope)), cs)
  | .funcCall =>
    match cs with
    | .leaf fn :: _ =>
      (both (if fn.kind = .typeName then declaredType fn.text else functionType fn.text), cs)
    | _ => (types, cs)
  | .parenExpr =>
    match cs with
    | [_, e, _] => same e
    | _ => (types, cs)
  | .primary | .expr =>
    match cs with
    | [e] => same e
    | _ => (types, cs)
  | .orExpr | .andExpr =>
    match cs with
    | [e] => same e
    | [l, op, r] => uniform .bool l op r
    | _ => (types, cs)
  | .cmpExpr =>
    match cs with
    | [e] => same e
    | [_, _, _] => (both .bool, cs)
    | _ => (types, cs)
  | .concatExpr =>
    match cs with
    | [e] => same e
    | [l, op, r] => uniform .string l op r
    | _ => (types, cs)
  | .addExpr =>
    match cs with
    | [e] => same e
    | [l, op, r] =>
      if op.kind? = some .plus && (inferred l = .string || inferred r = .string) then
        uniform .string l op r
      else arithmetic l op r
    | _ => (types, cs)
  | .mulExpr | .powExpr =>
    match cs with
    | [e] => same e
    | [l, op, r] => arithmetic l op r
    | _ => (types, cs)
  | .unary =>
    match cs with
    | [e] => same e
    | [op, e] =>
      if op.kind? = some .not then (both .bool, [op, require .bool e])
      else if (inferred e).isNumeric then (both (inferred e), cs)
      else (both .float, [op, require .float e])
    | _ => (types, cs)
  | .assignment =>
    match cs with
    | [target, op, value] =>
      match (target.children.head?.map Node.text).elim .undefined (nameType scope) with
      | .undefined => (types, cs)
      | t => (types, [target, op, require t value])
    | _ => (types, cs)
  | _ => (types, cs)

mutual

/-- The tree with the types of its expressions. -/
def annotate (scope : Scope) : Tree → Tree
  | .absent => .absent
  | .leaf t => .leaf t
  | .branch k types cs =>
    let (types, cs) := typed scope k types (annotateAll scope cs)
    .branch k types cs

def annotateAll (scope : Scope) : List Tree → List Tree
  | [] => []
  | c :: cs => annotate scope c :: annotateAll scope cs

end

/-! ## The pass -/

/-- The positions of the children that the types of a node depend on. A node of several kinds stands for
its child if it has only one. -/
def operands (kind : Symbol) (count : Nat) : List Int :=
  match kind with
  | .constant | .identRef | .arrayRef | .funcCall | .primary | .expr => [0]
  | .parenExpr => [1]
  | .orExpr | .andExpr | .concatExpr | .mulExpr | .powExpr => if count = 1 then [0] else [0, 2]
  | .addExpr => if count = 1 then [0] else [0, 1, 2]
  | .cmpExpr => if count = 1 then [0] else []
  | .unary => if count = 1 then [0] else [0, 1]
  | _ => []

/-- Whether an assignment has its target, and its value if the target has a type to ask for. -/
def hasTarget (scope : Scope) (n : Tree) : Bool :=
  match (n.child? 0).bind fun target => target.child? 0 with
  | some name => nameType scope name.text = .undefined || (n.child? 2).isSome
  | none => false

mutual

/-- Whether every node of a tree has the children that its types depend on. -/
def isComplete (scope : Scope) : Tree → Bool
  | .branch k types cs =>
    let n : Tree := .branch k types cs
    areComplete scope cs && (operands k cs.length).all (fun i => (n.child? i).isSome) &&
      (k ≠ .assignment || hasTarget scope n)
  | _ => true

def areComplete (scope : Scope) : List Tree → Bool
  | [] => true
  | c :: cs => isComplete scope c && areComplete scope cs

end

/-- The type pass. Looking at a child that is not there is a violation. -/
def checkTypes (scope : Scope) (t : Tree) : Except Violation Tree :=
  if isComplete scope t then .ok (annotate scope t) else .error .absentNode

end Typing

end IrafCl.Script
