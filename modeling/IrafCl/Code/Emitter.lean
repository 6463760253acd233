import IrafCl.Code.Stmt
import IrafCl.Contract

/-!
# Writing code

Code is written statement by statement. The emitter keeps the level of indentation, whether anything
was written at each level, so that a block which holds nothing can say so, and a stack of buffers: the
arguments of a call are captured in a buffer of their own before the call is written. What stands for a
comma between them is looked up in a table, where each call puts its own separator while its arguments are
captured; the arguments of a task call are captured with a zero byte between them, and cut apart there. When
all is written the level must be back where it began and one buffer must be left.
-/

namespace IrafCl.Code

/-! ## Tokens as texts -/

/-- The texts that types of tokens are written as. -/
abbrev Translation := List (Bytes × Bytes)

namespace Translation

/-- Has a type written as a text. -/
def set (type text : Bytes) : Translation → Translation
  | [] => [(type, text)]
  | (other, old) :: rest => if other = type then (type, text) :: rest else (other, old) :: set type text rest

/-- Has a type written as no text. -/
def delete (type : Bytes) : Translation → Translation
  | [] => []
  | (other, old) :: rest => if other = type then rest else (other, old) :: delete type rest

/-- The text of a type: nothing if there is none. -/
def text (t : Translation) (type : Bytes) : Bytes := (t.lookup type).getD []

end Translation

/-- The type of commas. -/
def comma : Bytes := "COMMA"

/-- The byte between the arguments of a task call, until they are cut apart. -/
def argSep : UInt8 := 0

/-! ## Emitters -/

/-- What has been written so far. The active buffer is the first, and a buffer has its latest piece
first. -/
structure Emitter where
  out : List (List Bytes)
  indent : Nat
  emitted : List Bool
  translate : Translation

namespace Emitter

/-- Nothing is written yet. -/
def start : Emitter := ⟨[[]], 0, [], [(comma, ", ")]⟩

/-- The text of a buffer. -/
def textOf (buffer : List Bytes) : Bytes := buffer.reverse.flatten

/-- Writes to the active buffer. -/
def write (e : Emitter) (s : Bytes) : Emitter :=
  match e.out with
  | [] => e
  | top :: below => { e with out := (s :: top) :: below }

/-- Writes a line at a level. -/
def writeLine (e : Emitter) (level : Nat) (s : Bytes) : Emitter := e.write (indented level s ++ [10])

/-- Writes one statement at the current level. Its further lines stand one level deeper. -/
def line (e : Emitter) (first : Bytes) (rest : List Bytes) : Emitter :=
  let e := rest.foldl (fun e s => e.writeLine (e.indent + 1) s) (e.writeLine e.indent first)
  { e with emitted := e.emitted.set e.indent true }

/-- Goes to a level, where nothing is written yet. -/
def push (e : Emitter) (level : Nat) : Emitter :=
  { e with
    indent := level
    emitted := (e.emitted ++ List.replicate (level + 1 - e.emitted.length) false).set level false }

/-- Goes back to the level before; a level where nothing was written says so. -/
def pop (e : Emitter) : Emitter :=
  let e := if e.emitted.getD e.indent false then e else e.line "pass" []
  { e with indent := e.indent - 1 }

/-- Writes a head and, one level deeper, a body. -/
def suite (e : Emitter) (head : Bytes) (body : Emitter → Emitter) : Emitter :=
  let e := e.line head []
  (body (e.push (e.indent + 1))).pop

/-- What is written to a fresh buffer, which is dropped again. -/
def capture (e : Emitter) (body : Emitter → Emitter) : Bytes × Emitter :=
  let e := body { e with out := [] :: e.out }
  (textOf (e.out.headD []), { e with out := e.out.tail })

/-- Runs a body while a type of tokens is written as a text. After it the type is written as before. -/
def withTranslation {α : Type} (e : Emitter) (type text : Bytes) (body : Emitter → α × Emitter) : α × Emitter :=
  let before := e.translate.lookup type
  let (a, e) := body { e with translate := e.translate.set type text }
  match before with
  | some text => (a, { e with translate := e.translate.set type text })
  | none => (a, { e with translate := e.translate.delete type })

/-- What a body writes to a fresh buffer while commas are written as a separator. -/
def captureArgs (e : Emitter) (sep : Bytes) (body : Emitter → Emitter) : Bytes × Emitter :=
  e.withTranslation comma sep fun e => e.capture body

end Emitter

mutual

/-- The text of an expression, with the arguments of its calls captured. -/
def Expr.render : Expr → Emitter → Bytes × Emitter
  | .number digits, e => (digits, e)
  | .int n, e => (Bytes.ofInt n, e)
  | .string s, e => (quoted s, e)
  | .path ids, e => (dotted ids, e)
  | .field owner param field, e => (dotted owner ++ ".getParObject('" ++ param ++ "')." ++ field, e)
  | .call fn args, e =>
    let (body, e) := e.captureArgs ", " (Arg.writeAll args)
    (dotted fn ++ "(" ++ body ++ ")", e)
  | .subscript base index, e =>
    let (base, e) := base.render e
    let (index, e) := Expr.renderAll index e
    (base ++ "[" ++ Bytes.join ", " index ++ "]", e)
  | .before x, e =>
    let (x, e) := x.render e
    (x ++ "-1", e)
  | .paren x, e =>
    let (x, e) := x.render e
    ("(" ++ x ++ ")", e)
  | .not x, e =>
    let (x, e) := x.render e
    ("not " ++ x, e)
  | .minus x, e =>
    let (x, e) := x.render e
    ("-" ++ x, e)
  | .plus x, e =>
    let (x, e) := x.render e
    ("+" ++ x, e)
  | .binary op l r, e =>
    let (l, e) := l.render e
    let (r, e) := r.render e
    (l ++ " " ++ op.text ++ " " ++ r, e)
  | .oneOf x choices, e =>
    let (x, e) := x.render e
    let (choices, e) := Expr.renderAll choices e
    (x ++ " in (" ++ Bytes.join ", " choices ++ ",)", e)

def Expr.renderAll : List Expr → Emitter → List Bytes × Emitter
  | [], e => ([], e)
  | x :: xs, e =>
    let (x, e) := x.render e
    let (xs, e) := Expr.renderAll xs e
    (x :: xs, e)

/-- The text of an argument. -/
def Arg.render : Arg → Emitter → Bytes × Emitter
  | .mk key bare x, e =>
    let (x, e) := x.render e
    (argText key bare x, e)

/-- Writes arguments, and between them what commas are written as. -/
def Arg.writeAll : List Arg → Emitter → Emitter
  | [], e => e
  | a :: as, e =>
    let (text, e) := a.render e
    let e := e.write text
    if as.isEmpty then e else Arg.writeAll as (e.write (e.translate.text comma))

end

/-- The texts of the arguments of a task call, cut apart. -/
def Arg.cutAll (args : List Arg) (e : Emitter) : List Bytes × Emitter :=
  if args.isEmpty then ([], e)
  else
    let (text, e) := e.captureArgs [argSep] (Arg.writeAll args)
    (Bytes.pieces argSep text, e)

mutual

/-- Writes a statement. -/
def Stmt.emit : Stmt → Emitter → Emitter
  | .assign target value, e =>
    let (target, e) := target.render e
    let (value, e) := value.render e
    e.line (target ++ " = " ++ value) []
  | .update target op value, e =>
    let (target, e) := target.render e
    let (value, e) := value.render e
    e.line (target ++ " " ++ op.text ++ "= " ++ value) []
  | .call names fn args, e =>
    let (args, e) := Arg.cutAll args e
    match callLines e.indent (callHead names fn) args with
    | [] => e
    | first :: rest => e.line first rest
  | .delete name, e => e.line ("del " ++ name) []
  | .leave, e => e.line "break" []
  | .next, e => e.line "continue" []
  | .done, e => e.line "return" []
  | .loop test body, e =>
    let (test, e) := test.render e
    e.suite ("while " ++ test ++ ":") (Stmt.emitAll body)
  | .choose test body rest, e =>
    let (test, e) := test.render e
    rest.emit (e.suite ("if " ++ test ++ ":") (Stmt.emitAll body))

/-- Writes statements one after the other. -/
def Stmt.emitAll : List Stmt → Emitter → Emitter
  | [], e => e
  | s :: ss, e => Stmt.emitAll ss (s.emit e)

/-- Writes the rest of an `if`. -/
def Chain.emit : Chain → Emitter → Emitter
  | .none, e => e
  | .elseIf test body rest, e =>
    let (test, e) := test.render e
    rest.emit (e.suite ("elif " ++ test ++ ":") (Stmt.emitAll body))
  | .otherwise body, e => e.suite "else:" (Stmt.emitAll body)

end

/-- The level of the statements of a function. -/
def bodyLevel : Nat := 1

/-- The emitter after the statements of a function. -/
def Emitter.after (stmts : List Stmt) : Emitter := Stmt.emitAll stmts (start.push bodyLevel)

/-- The text of the statements of a function, once the emitter is found in order. -/
def written (stmts : List Stmt) : Except Violation Bytes := do
  let e := Emitter.after stmts
  Contract.postcondition.check (e.indent = bodyLevel) ("unbalanced indentation: " ++ Bytes.ofNat e.indent)
  Contract.postcondition.check (e.out.length = 1)
    ("unreleased capture buffers: " ++ Bytes.ofInt ((e.out.length : Int) - 1))
  return e.out.flatMap Emitter.textOf

end IrafCl.Code
