import IrafCl.Code.Stmt
import IrafCl.Script.Lowering.Expr
import IrafCl.Script.Typing

/-!
# Statements in generated code

A `for` becomes its first assignment and a `while` that ends with the step. A `switch` becomes an `if`
chain over a temporary, with the default clause last wherever it stands. The stages of a pipeline are
calls that hand their output on through named temporaries. Labels are dropped with a warning; `goto` and
a second default clause are faults, which are gathered over the whole program.
-/

namespace IrafCl.Script

/-- What lowering has used up and found so far. -/
structure Progress where
  pipes : Nat
  switches : Nat
  usesPackage : Bool
  warnings : List Bytes
  failures : List Failure

def Progress.start : Progress := ⟨0, 0, false, [], []⟩

/-- A step of lowering. -/
abbrev Lower := StateM Progress

/-- The message with its line when that is known. -/
def atLineText (message : Bytes) (line : Int) : Bytes :=
  if 0 < line then message ++ " (line " ++ Bytes.ofInt line ++ ")" else message

def warn (message : Bytes) (line : Int) : Lower Unit :=
  modify fun p => { p with warnings := p.warnings ++ [atLineText message line] }

def fault (message : Bytes) (line : Int) : Lower Unit :=
  modify fun p => { p with failures := p.failures ++ [.atLine .syntactic line message] }

/-- A temporary that no other pipeline stage uses. -/
def freshPipe : Lower Bytes := do
  let n := (← get).pipes + 1
  modify fun p => { p with pipes := n }
  return "Pipe" ++ Bytes.ofNat n

/-- A temporary that no other switch uses. -/
def freshSwitch : Lower Bytes := do
  let n := (← get).switches + 1
  modify fun p => { p with switches := n }
  return "SwitchVal" ++ Bytes.ofNat n

/-! ## Assignments -/

def Target.lower (c : Context) : Target → Code.Expr
  | .name path => c.reference path
  | .element path index => .subscript (c.array path) (Expr.lowerIndices c index)

/-- An assignment. Appending is written out, and the quotient of an integer variable is an integer. -/
def Assignment.lower (c : Context) (a : Assignment) : Code.Stmt :=
  let target := a.target.lower c
  let value := a.value.lower c
  match a.op with
  | .set => .assign target value
  | .append => .assign target (.binary .add target value)
  | .add => .update target .add value
  | .sub => .update target .sub value
  | .mul => .update target .mul value
  | .div =>
    .update target (if Typing.nameType c.scope a.target.path = .int then .floorDiv else .div) value

/-! ## Tasks -/

/-- The tasks that go by another name. -/
def taskPath (task : Bytes) : List Bytes :=
  if task = "print" then ["iraf", "clPrint"]
  else if task = "printf" then ["iraf", "clPrintf"]
  else if task = "cd" then ["iraf", "clChdir"]
  else if task = "error" then ["iraf", "clError"]
  else functionPath task

/-- The keyword of a redirection. -/
def redirectionKey (op : Bytes) : Bytes :=
  if op = ">" then "Stdout"
  else if op = ">>" then "StdoutAppend"
  else if op = "<" then "Stdin"
  else if op = ">&" then "Stderr"
  else if op = ">>&" then "StderrAppend"
  else if op = ">G" then "StdoutG"
  else if op = ">>G" then "StdoutAppendG"
  else if op = ">I" then "StdoutI"
  else if op = ">>I" then "StdoutAppendI"
  else if op = ">P" then "StdoutP"
  else if op = ">>P" then "StdoutAppendP"
  else []

def Redirection.lower (c : Context) (r : Redirection) : Code.Arg :=
  .keyword (redirectionKey r.op) (r.file.lower c)

/-- The names of the enclosing package and of its binary path. -/
def packageNames : List Bytes := ["PkgName", "PkgBinary"]

namespace TaskCall

/-- Whether a task is told about the enclosing package. -/
def usesPackage (t : TaskCall) : Bool := t.task = "task" || t.task = "package" || t.task = "redefine"

/-- The keyword arguments about the enclosing package. -/
def packageArgs (t : TaskCall) : List Code.Arg :=
  if t.usesPackage then packageNames.map fun n => .keyword n (.name n) else []

/-- A task call that binds its result to names and takes further arguments. A package definition binds
the names of the package whatever else is asked for. -/
def lower (c : Context) (names : List Bytes) (extra : List Code.Arg) (t : TaskCall) : Code.Stmt :=
  .call (if t.task = "package" then packageNames else names) (taskPath t.task)
    (Arg.lowerAll c t.args ++ t.redirections.map (Redirection.lower c) ++ t.packageArgs ++ extra)

end TaskCall

/-- The argument that reads what the stage before has written. -/
def inputArgs : Option Bytes → List Code.Arg
  | some pipe => [.keyword "Stdin" (.name pipe)]
  | none => []

/-- The statement that drops a temporary after its use. -/
def dropPipe : Option Bytes → List Code.Stmt
  | some pipe => [.delete pipe]
  | none => []

def notePackage (t : TaskCall) : Lower Unit :=
  modify fun p => { p with usesPackage := p.usesPackage || t.usesPackage }

/-- The stages of a pipeline. The first of them reads from `input`. -/
def lowerStages (c : Context) (input : Option Bytes) : List TaskCall → Lower (List Code.Stmt)
  | [] => return []
  | [t] => do
    notePackage t
    return t.lower c [] (inputArgs input) :: dropPipe input
  | t :: next :: rest => do
    let pipe ← freshPipe
    notePackage t
    let later ← lowerStages c (some pipe) (next :: rest)
    return t.lower c [pipe] (inputArgs input ++ [.keyword "Stdout" (.number "1")]) ::
      (dropPipe input ++ later)

/-! ## Control -/

/-- Whether a statement is itself an `if`. -/
def isBranch : Stmt → Bool
  | .branch _ _ | .branchElse _ _ _ => true
  | _ => false

/-- What follows an `if` for an else branch: an `if` that is the whole branch goes on with the chain. -/
def elseChain (folds : Bool) (body : List Code.Stmt) : Code.Chain :=
  match folds, body with
  | true, [.choose test yes rest] => .elseIf test yes rest
  | _, body => .otherwise body

/-- A case: its test and its statements. -/
abbrev Case := Code.Expr × List Code.Stmt

/-- The rest of a chain over the given cases. -/
def caseChain (otherwise : Option (List Code.Stmt)) : List Case → Code.Chain
  | [] => match otherwise with
    | some body => .otherwise body
    | none => .none
  | (test, body) :: cases => .elseIf test body (caseChain otherwise cases)

/-- The cases of a switch in order, then the default. Without any case the default always runs. -/
def switchChain (otherwise : Option (List Code.Stmt)) : List Case → List Code.Stmt
  | [] => match otherwise with
    | some body => [.choose (.number "1") body .none]
    | none => []
  | (test, body) :: cases => [.choose test body (caseChain otherwise cases)]

def isDefault : Clause → Bool
  | .otherwise _ _ => true
  | .case _ _ => false

mutual

/-- The statements in generated code. -/
def Stmt.lower (c : Context) : Stmt → Lower (List Code.Stmt)
  | .empty => return []
  | .labelled label line body => do
    warn ("label '" ++ label ++ "' ignored") line
    body.lower c
  | .assign a => return [a.lower c]
  | .pipeline calls => lowerStages c none calls
  | .leave => return [.leave]
  | .next => return [.next]
  | .done => return [.done]
  | .jump line => do
    fault "GOTO is not supported" line
    return []
  | .block body => Stmt.lowerAll c body
  | .branch test yes => do
    let yes ← yes.lower c
    return [.choose (test.lower c) yes .none]
  | .branchElse test yes no => do
    let yes ← yes.lower c
    let rest ← no.lower c
    return [.choose (test.lower c) yes (elseChain (isBranch no) rest)]
  | .loop test body => do
    let body ← body.lower c
    return [.loop (test.lower c) body]
  | .forLoop first test step body => do
    let body ← body.lower c
    let test := match test with
      | some e => e.lower c
      | none => .number "1"
    return first.toList.map (Assignment.lower c) ++
      [.loop test (body ++ step.toList.map (Assignment.lower c))]
  | .switch subject clauses => do
    let temporary ← freshSwitch
    let cases ← Clause.lowerCases c (.name temporary) false clauses
    let otherwise ← Clause.lowerDefault c clauses
    return .assign (.name temporary) (subject.lower c) :: switchChain otherwise cases

def Stmt.lowerAll (c : Context) : List Stmt → Lower (List Code.Stmt)
  | [] => return []
  | s :: ss => do
    let first ← s.lower c
    let rest ← Stmt.lowerAll c ss
    return first ++ rest

/-- The cases of a switch. `seen` says that there was a default clause before. -/
def Clause.lowerCases (c : Context) (subject : Code.Expr) (seen : Bool) : List Clause → Lower (List Case)
  | [] => return []
  | .case labels body :: rest => do
    let body ← body.lower c
    let cases ← Clause.lowerCases c subject seen rest
    return (.oneOf subject (labels.map SignedConstant.lower), body) :: cases
  | .otherwise line _ :: rest => do
    if seen then fault "multiple default clauses in switch" line
    Clause.lowerCases c subject true rest

/-- The last default clause of a switch. -/
def Clause.lowerDefault (c : Context) : List Clause → Lower (Option (List Code.Stmt))
  | [] => return none
  | .case _ _ :: rest => Clause.lowerDefault c rest
  | .otherwise _ body :: rest =>
    if rest.any isDefault then Clause.lowerDefault c rest
    else do
      let body ← body.lower c
      return some body

end

end IrafCl.Script
