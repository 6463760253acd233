import IrafCl.Code.Emitter
import IrafCl.Log
import IrafCl.Script.Lowering.Stmt
import IrafCl.Script.Preamble
import IrafCl.Script.Rules

/-!
# Compiled units

Compiling goes from the text to the syntax tree, then to its declarations, its types and its generated
code. What the reader refuses ends the compilation at once; faults found while lowering are reported
together. Warnings never stop it: they are listed in the unit and written as comments below the code.
-/

namespace IrafCl.Script

/-- A compiled program. -/
structure CompiledUnit where
  code : Bytes
  filename : Bytes
  procedure : Bytes
  isProcedure : Bool
  params : ParamList
  locals : List Variable
  warnings : List Bytes
  deriving DecidableEq, Repr

/-! ## Generated code -/

/-- A warning as a comment line. -/
def warningLine (w : Bytes) : Bytes := "# Warning: " ++ Bytes.substitute 10 " " w

/-- What generation gives: the warnings in any case, and code or faults. -/
structure Generated where
  warnings : List Bytes
  code : Except Failure Bytes

/-- The generated code of a program body. -/
def generate (st : Settings) (scope : Scope) (body : List Stmt) : Except Violation Generated := do
  let (stmts, p) := (Stmt.lowerAll (.of scope st.mode) body).run .start
  let text ← Code.written stmts
  let warnings := scope.warnings ++ p.warnings
  return {
    warnings
    code :=
      if p.failures.isEmpty then
        .ok (Code.unlines (preamble scope st.filename p.usesPackage) ++ text ++
          Code.unlines (warnings.map warningLine))
      else .error (.join .generation p.failures) }

/-! ## Compilation -/

/-- A result with the log records that were written on the way to it. -/
structure Logged (α : Type) where
  log : List Log.Record
  outcome : Except Halt α

/-- The attributes that every record of a compilation carries. -/
def Settings.attrs (st : Settings) : List (Bytes × Bytes) := [("file", st.filename), ("mode", st.mode)]

/-- A record of a compilation. -/
def Settings.record (st : Settings) (level : Log.Level) (message : Bytes) (attrs : List (Bytes × Bytes)) :
    Log.Record :=
  ⟨level, message, st.attrs ++ attrs⟩

/-- The declarations of a syntax tree. A tree that no rule has made is a defect of the parser. -/
def declarations [Library] (st : Settings) (t : Tree) : List (Bytes × Failure) × Except Halt Scope :=
  match Header.ofTree? t with
  | none => ([], .error (.violation .absentNode))
  | some h =>
    let (notes, scope) := Scope.ofHeader st h
    (notes, scope.mapError .failure)

/-- The generated code of a syntax tree whose types are known. -/
def generateTree (st : Settings) (scope : Scope) (t : Tree) : Except Halt Generated :=
  match body? t with
  | none => .error (.violation .absentNode)
  | some body => (generate st scope body).mapError .violation

/-- The record about a default that could not be checked. -/
def noteRecord (note : Bytes × Failure) : Log.Record :=
  ⟨.debug, "default validation skipped", [("variable", note.1), ("error", note.2.text)]⟩

/-- The record about a warning. -/
def warningRecord (scope : Scope) (w : Bytes) : Log.Record :=
  ⟨.warn, w, [("procedure", scope.procedure)]⟩

/-- The unit of a program. -/
def CompiledUnit.of (st : Settings) (scope : Scope) (warnings : List Bytes) (code : Bytes) : CompiledUnit :=
  ⟨code, st.filename, scope.procedure, scope.isProcedure, scope.params, scope.locals.vars, warnings⟩

/-- Compiles a syntax tree with its declarations. -/
def compileScoped (st : Settings) (scope : Scope) (t : Tree) : Logged CompiledUnit :=
  match (Typing.checkTypes scope t).mapError .violation >>= generateTree st scope with
  | .error h => ⟨[], .error h⟩
  | .ok g => ⟨g.warnings.map (warningRecord scope),
      match g.code with
      | .ok code => .ok (.of st scope g.warnings code)
      | .error f => .error (.failure f)⟩

/-- Compiles a syntax tree. -/
def compileTree [Library] (st : Settings) (t : Tree) : Logged CompiledUnit :=
  let (notes, scope) := declarations st t
  let noteLog := notes.map noteRecord
  match scope with
  | .error h => ⟨noteLog, .error h⟩
  | .ok scope =>
    let collected := st.record .debug "collected variables" [("procedure", scope.procedure),
      ("params", Bytes.ofNat scope.params.length), ("locals", Bytes.ofNat scope.locals.length)]
    let r := compileScoped st scope t
    ⟨noteLog ++ collected :: r.log, r.outcome⟩

/-- Compiles the text of a program. -/
def compile [Library] (st : Settings) (source : Bytes) : Logged CompiledUnit :=
  match tree source with
  | .error h => ⟨[], .error h⟩
  | .ok t =>
    let r := compileTree st t
    ⟨st.record .debug "parsed" [("statements", Bytes.ofNat t.children.length)] :: r.log, r.outcome⟩

end IrafCl.Script
