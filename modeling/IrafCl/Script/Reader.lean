import IrafCl.Script.Symbol
import IrafCl.Script.Syntax

/-!
# From syntax trees to abstract syntax

Every reader looks at the shape of a node: its kind and its children. A node with a single child stands
for the child, an operator between two children for a binary expression, and left-recursive nodes for
lists. A reader answers nothing for a tree that no rule of the grammar has made.
-/

namespace IrafCl.Script

/-- A syntax tree of CL. -/
abbrev Tree := Node Symbol

/-! ## Constants -/

def ConstantKind.ofSymbol? : Symbol → Option ConstantKind
  | .integer => some .integer
  | .float => some .float
  | .octal => some .octal
  | .hex => some .hex
  | .sexagesimal => some .sexagesimal
  | .string => some .string
  | .bool => some .bool
  | .undefined => some .undefined
  | _ => none

/-- The constant of a token. -/
def Constant.ofToken? (t : Token Symbol) : Option Constant :=
  (ConstantKind.ofSymbol? t.kind).map fun kind => ⟨kind, t.text, t.value.getD [], t.line⟩

/-- The constant under a `constant` node. -/
def constant? : Tree → Option Constant
  | .branch k _ [.leaf t] => if k = .constant then Constant.ofToken? t else none
  | _ => none

def Sign.ofSymbol? : Symbol → Option Sign
  | .plus => some .plus
  | .minus => some .minus
  | _ => none

/-- A constant with an optional sign. -/
def signedConstant? : Tree → Option SignedConstant
  | .branch _ _ [c] => (constant? c).map fun c => ⟨none, c, c.line⟩
  | .branch _ _ [.leaf t, c] => do
    let sign ← Sign.ofSymbol? t.kind
    let c ← constant? c
    return ⟨some sign, c, t.line⟩
  | _ => none

/-! ## Lists -/

mutual

/-- The nodes of kind `item` in a left-recursive list of kind `list`, in source order. -/
def members (list item : Symbol) : Tree → List Tree
  | .branch k _ cs => if k = list then membersOf list item cs else []
  | _ => []

def membersOf (list item : Symbol) : List Tree → List Tree
  | [] => []
  | c :: cs => (if c.kind? = some item then [c] else members list item c) ++ membersOf list item cs

end

/-- The first of some nodes with the given kind. -/
def firstOf? (kind : Symbol) (cs : List Tree) : Option Tree := cs.find? fun c => c.kind? = some kind

/-! ## Expressions -/

def UnaryOp.ofSymbol? : Symbol → Option UnaryOp
  | .minus => some .minus
  | .plus => some .plus
  | .not => some .not
  | _ => none

/-- The operator between two operands. A sum of type string is a concatenation, and a quotient of type
integer an integer division. -/
def BinaryOp.ofSymbol? (result : Ty) : Symbol → Option BinaryOp
  | .orOr => some .or
  | .andAnd => some .and
  | .eqEq => some .eq
  | .ne => some .ne
  | .lt => some .lt
  | .le => some .le
  | .gt => some .gt
  | .ge => some .ge
  | .concat => some .concat
  | .plus => some (if result = .string then .concat else .add)
  | .minus => some .sub
  | .star => some .mul
  | .slash => some (if result = .int then .intDiv else .div)
  | .percent => some .mod
  | .pow => some .pow
  | _ => none

/-- Puts a conversion around an expression whose types differ. -/
def Expr.require (types : Types) (e : Expr) : Expr :=
  if types.required = types.inferred then e else .convert types e

/-- The flag that a sign after a name sets. -/
def flag? : Symbol → Option Bool
  | .plus => some true
  | .minus => some false
  | _ => none

mutual

/-- The expression of a node. -/
def expr? : Tree → Option Expr
  | .branch k types cs => (exprOf? k types cs).map (Expr.require types)
  | _ => none

/-- The expression of a node with the given children. -/
def exprOf? (k : Symbol) (types : Types) : List Tree → Option Expr
  | [.leaf t] =>
    if k = .constant then (Constant.ofToken? t).map .constant
    else if k = .identRef then some (.name t.text)
    else none
  | [e] => expr? e
  | [.leaf t, e] => do
    let op ← UnaryOp.ofSymbol? t.kind
    let e ← expr? e
    return .unary op e
  | [.leaf a, .leaf _, .leaf _] => if k = .funcCall then some (.call a.text []) else none
  | [l, .leaf op, r] => do
    let op ← BinaryOp.ofSymbol? types.inferred op.kind
    let l ← expr? l
    let r ← expr? r
    return .binary op l r
  | [_, e, _] => if k = .parenExpr then (expr? e).map .paren else none
  | [.leaf a, .leaf _, e, .leaf _] =>
    if k = .arrayRef then (exprList? e).map (.element a.text)
    else if k = .funcCall then
      if a.kind = .typeName then (args? e).map (.cast a.text) else (args? e).map (.call a.text)
    else none
  | _ => none

/-- The expressions of an `expr_list` node. -/
def exprList? : Tree → Option (List Expr)
  | .branch _ _ [e] => do
    let e ← expr? e
    return [e]
  | .branch _ _ [es, _, e] => do
    let es ← exprList? es
    let e ← expr? e
    return es ++ [e]
  | _ => none

/-- The argument of a `call_arg` node. -/
def arg? : Tree → Option Arg
  | .branch _ _ [e] => (expr? e).map (.mk none)
  | .branch _ _ [.leaf key, .leaf sign] => (flag? sign.kind).map fun on =>
    .mk (some key.text) (.constant (.flag on sign.line))
  | .branch _ _ [.leaf key, _, e] => (expr? e).map (.mk (some key.text))
  | _ => none

/-- The arguments of a `call_args` node. -/
def args? : Tree → Option (List Arg)
  | .branch _ _ [a] => do
    let a ← arg? a
    return [a]
  | .branch _ _ [as, _, a] => do
    let as ← args? as
    let a ← arg? a
    return as ++ [a]
  | _ => none

end

/-! ## Tasks -/

/-- An argument in command mode: a constant or a bare word. -/
def wordExpr? : Tree → Option Expr
  | .branch k t [.leaf w] =>
    if k = .cmdWord then some (.constant (.word w.text w.line))
    else (constant? (.branch k t [.leaf w])).map .constant
  | _ => none

def cmdArg? : Tree → Option Arg
  | .branch _ _ [w] => (wordExpr? w).map (.mk none)
  | .branch _ _ [.leaf key, .leaf sign] => (flag? sign.kind).map fun on =>
    .mk (some key.text) (.constant (.flag on sign.line))
  | .branch _ _ [.leaf key, _, w] => (wordExpr? w).map (.mk (some key.text))
  | _ => none

/-- The file of a redirection: a string, a bare word, or an expression in parentheses. -/
def redirectTarget? : Tree → Option Expr
  | .branch _ _ [.leaf t] =>
    if t.kind = .ident then some (.constant (.word t.text t.line))
    else (Constant.ofToken? t).map .constant
  | .branch _ _ [_, e, _] => expr? e
  | _ => none

def redirection? : Tree → Option Redirection
  | .branch _ _ [.leaf op, file] => (redirectTarget? file).map fun file => ⟨op.text, file⟩
  | _ => none

def redirections? (t : Tree) : Option (List Redirection) := (members .redirs .redir t).mapM redirection?

def taskCall? : Tree → Option TaskCall
  | .branch _ _ [.leaf name, args, redirs] => do
    let args ← (members .cmdArgs .cmdArg args).mapM cmdArg?
    let redirs ← redirections? redirs
    return ⟨name.text, args, redirs⟩
  | .branch _ _ [.leaf name, _, _, redirs] => do
    let redirs ← redirections? redirs
    return ⟨name.text, [], redirs⟩
  | .branch _ _ [.leaf name, _, args, _, redirs] => do
    let args ← args? args
    let redirs ← redirections? redirs
    return ⟨name.text, args, redirs⟩
  | _ => none

/-! ## Statements -/

def target? : Tree → Option Target
  | .branch _ _ [.leaf name] => some (.name name.text)
  | .branch _ _ [.leaf name, _, index, _] => (exprList? index).map (.element name.text)
  | _ => none

/-- The operator of an assignment. -/
def assignOp? (t : Token Symbol) : Option AssignOp :=
  if t.kind = .equals then some .set
  else if t.text = "+=" then some .add
  else if t.text = "-=" then some .sub
  else if t.text = "*=" then some .mul
  else if t.text = "/=" then some .div
  else if t.text = "//=" then some .append
  else none

def assignment? : Tree → Option Assignment
  | .branch _ _ [target, .leaf op, value] => do
    let target ← target? target
    let op ← assignOp? op
    let value ← expr? value
    return ⟨target, op, value⟩
  | _ => none

/-- A node that may be empty. -/
def optional? {α : Type} (read : Tree → Option α) : Tree → Option (Option α)
  | .branch _ _ [] => some none
  | .branch _ _ [c] => (read c).map some
  | _ => none

/-- A statement without a body of its own. -/
def simple? : Tree → Option Stmt
  | .branch _ _ [.leaf t] =>
    match t.kind with
    | .kwBreak => some .leave
    | .kwNext => some .next
    | .kwReturn => some .done
    | _ => none
  | .branch _ _ [.leaf t, .leaf _] => if t.kind = .kwGoto then some (.jump t.line) else none
  | .branch _ _ [c] =>
    if c.kind? = some .assignment then (assignment? c).map .assign
    else ((members .pipeline .taskCall c).mapM taskCall?).map .pipeline
  | _ => none

mutual

/-- The statement of a `statement` node. -/
def stmt? : Tree → Option Stmt
  | .branch _ _ [.leaf t] => if t.kind = .semi then some .empty else none
  | .branch _ _ [c] => control? c
  | .branch _ _ [c, _] => simple? c
  | .branch _ _ [.leaf label, _, _, body] => (stmt? body).map (.labelled label.text label.line)
  | _ => none

/-- The statement of a node with a body. -/
def control? : Tree → Option Stmt
  | .branch .block _ [_, body, _, _] => (stmts? body).map .block
  | .branch .block _ [_, body, last, _, _] => do
    let body ← stmts? body
    let last ← simple? last
    return .block (body ++ [last])
  | .branch .ifStmt _ [_, _, test, _, _, yes] => do
    let test ← expr? test
    let yes ← stmt? yes
    return .branch test yes
  | .branch .ifStmt _ [_, _, test, _, _, yes, _, _, no] => do
    let test ← expr? test
    let yes ← stmt? yes
    let no ← stmt? no
    return .branchElse test yes no
  | .branch .whileStmt _ [_, _, test, _, _, body] => do
    let test ← expr? test
    let body ← stmt? body
    return .loop test body
  | .branch .forStmt _ [_, _, first, _, test, _, step, _, _, body] => do
    let first ← optional? assignment? first
    let test ← optional? expr? test
    let step ← optional? assignment? step
    let body ← stmt? body
    return .forLoop first test step body
  | .branch .switchStmt _ [_, _, subject, _, _, _, list, _, _] => do
    let subject ← expr? subject
    let list ← clauses? list
    return .switch subject list
  | _ => none

/-- The statements of a `stmt_list` node. -/
def stmts? : Tree → Option (List Stmt)
  | .branch _ _ [] => some []
  | .branch _ _ [before, s] => do
    let before ← stmts? before
    let s ← stmt? s
    return before ++ [s]
  | _ => none

/-- The clauses of a `case_list` node. -/
def clauses? : Tree → Option (List Clause)
  | .branch _ _ [c] => do
    let c ← clause? c
    return [c]
  | .branch _ _ [before, c] => do
    let before ← clauses? before
    let c ← clause? c
    return before ++ [c]
  | _ => none

def clause? : Tree → Option Clause
  | .branch _ _ [_, labels, _, _, body] => do
    let labels ← (members .constList .initValue labels).mapM signedConstant?
    let body ← stmt? body
    return .case labels body
  | .branch _ _ [.leaf word, _, _, body] => (stmt? body).map (.otherwise word.line)
  | _ => none

end

/-! ## Declarations -/

def declarator? : Tree → Option Declarator
  | .branch _ _ [.leaf name] => some (.scalar name.text)
  | .branch _ _ [.leaf _, .leaf name] => some (.list name.text)
  | .branch _ _ [.leaf name, _, .leaf size, _] => (Constant.ofToken? size).map (.array name.text)
  | _ => none

def optionItem? : Tree → Option OptionItem
  | .branch _ _ [v] => (signedConstant? v).map .value
  | .branch _ _ [.leaf key, _, v] => (signedConstant? v).map fun v => .named key.text v key.line
  | _ => none

/-- The initial values after the name of a variable. -/
def initialValues? : Tree → Option (Option (List SignedConstant))
  | .branch _ _ [_] => some none
  | .branch _ _ [_, _, values] => ((members .initList .initValue values).mapM signedConstant?).map some
  | _ => none

/-- The options between braces. -/
def optionItems? : List Tree → Option (List OptionItem)
  | [] => some []
  | opts :: _ =>
    match firstOf? .optList opts.children with
    | none => some []
    | some list => (members .optList .optItem list).mapM optionItem?

def varDecl? : Tree → Option VarDecl
  | .branch k t (var :: opts) => do
    let name ← var.children.head?
    let declarator ← declarator? name
    let values ← initialValues? var
    let options ← optionItems? opts
    return ⟨declarator, values, options, (Node.branch k t (var :: opts)).line⟩
  | _ => none

def declaration? : Tree → Option Declaration
  | .branch _ _ [.leaf type, vars, _] => do
    let vars ← (members .declList .declSpec vars).mapM varDecl?
    return ⟨type.value.getD [], vars⟩
  | _ => none

/-- The declarations in a list of the given kind. -/
def declarations? (list : Symbol) (t : Tree) : Option (List Declaration) :=
  (members list .declStmt t).mapM declaration?

def signature? : Tree → Option Signature
  | .branch _ _ (_ :: .leaf name :: rest) =>
    let args := match firstOf? .procArgs rest with
      | some list => (members .procArgs .ident list).map fun a => (a.text, a.line)
      | none => []
    some ⟨name.text, args⟩
  | _ => none

/-- What a program declares. -/
def Header.ofTree? : Tree → Option Header
  | .branch _ _ [procedure, params, .branch _ _ (_ :: _ :: locals :: _)] => do
    let signature ← signature? procedure
    let params ← declarations? .paramDecls params
    let locals ← declarations? .localDecls locals
    return ⟨some signature, params, locals⟩
  | .branch _ _ [locals, _] => do
    let locals ← declarations? .localDecls locals
    return ⟨none, [], locals⟩
  | _ => none

/-- What a program does. -/
def body? : Tree → Option (List Stmt)
  | .branch _ _ [_, _, .branch _ _ (_ :: _ :: _ :: body :: _)] => stmts? body
  | .branch _ _ [_, body] => stmts? body
  | _ => none

/-- The program of a syntax tree. -/
def Program.ofTree? (t : Tree) : Option Program := do
  let header ← Header.ofTree? t
  let body ← body? t
  return ⟨header, body⟩

end IrafCl.Script
