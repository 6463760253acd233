import IrafCl.Text.Bytes

/-!
# Failures

A stage that cannot go on answers with a failure. Most failures are reports: a kind, a message and,
when it is known, a source line. A report may name the failure that caused it, a plain failure may be
put into context, and several failures may be joined. `find?` looks for the first report from the
outside in, and `isKind` follows causes from one report to the next.
-/

namespace IrafCl

namespace Failure

/-- What went wrong, by the stage that noticed. -/
inductive Kind where
  | lexical
  | syntactic
  | ambiguous
  | conversion
  | generation
  | unknown
  deriving DecidableEq, Repr

/-- The five kinds that stages report. -/
def Kind.all : List Kind := [.lexical, .syntactic, .ambiguous, .conversion, .generation]

/-- The kinds by number; other numbers have no kind of their own. -/
def Kind.ofInt : Int → Kind
  | 0 => .lexical
  | 1 => .syntactic
  | 2 => .ambiguous
  | 3 => .conversion
  | 4 => .generation
  | _ => .unknown

def Kind.name : Kind → String
  | .lexical => "LexicalError"
  | .syntactic => "SyntaxError"
  | .ambiguous => "AmbiguityError"
  | .conversion => "ConversionError"
  | .generation => "GenerationError"
  | .unknown => "Error"

/-- A report of a stage. A line that is not positive is unknown. -/
structure Report where
  kind : Kind
  message : Bytes
  line : Int
  deriving DecidableEq, Repr

/-- The message, with the line when it is known. -/
def Report.text (r : Report) : Bytes :=
  if 0 < r.line then r.message ++ " (line " ++ Bytes.ofInt r.line ++ ")" else r.message

end Failure

open Failure in
/-- A failure with its causes. -/
inductive Failure where
  | plain (text : Bytes)
  | report (what : Report)
  | caused (what : Report) (cause : Failure)
  | context (text : Bytes) (inner : Failure)
  | joined (parts : List Failure)
  deriving Repr

namespace Failure

/-- A report without a cause. -/
def atLine (kind : Kind) (line : Int) (message : Bytes) : Failure := .report ⟨kind, message, line⟩

mutual

/-- The text of a failure. -/
def text : Failure → Bytes
  | .plain t => t
  | .report r => r.text
  | .caused r _ => r.text
  | .context t inner => t ++ ": " ++ inner.text
  | .joined parts => Bytes.join "\n" (texts parts)

def texts : List Failure → List Bytes
  | [] => []
  | f :: rest => f.text :: texts rest

end

mutual

/-- The first report from the outside in, with its cause. -/
def find? : Failure → Option (Report × Option Failure)
  | .plain _ => none
  | .report r => some (r, none)
  | .caused r cause => some (r, some cause)
  | .context _ inner => inner.find?
  | .joined parts => findFirst? parts

def findFirst? : List Failure → Option (Report × Option Failure)
  | [] => none
  | f :: rest => match f.find? with
    | some found => some found
    | none => findFirst? rest

end

mutual

/-- Whether a report of the given kind is reached from the first report through causes. -/
def isKind (k : Kind) : Failure → Bool
  | .plain _ => false
  | .report r => r.kind == k
  | .caused r cause => r.kind == k || cause.isKind k
  | .context _ inner => inner.isKind k
  | .joined parts => isKindFirst k parts

/-- As `isKind`, for the first member that holds a report. -/
def isKindFirst (k : Kind) : List Failure → Bool
  | [] => false
  | f :: rest => if f.find?.isSome then f.isKind k else isKindFirst k rest

end

/-- The kinds a failure is of. -/
def kinds (f : Failure) : List Kind := Kind.all.filter f.isKind

/-- The failure directly behind this one. -/
def unwrap? : Failure → Option Failure
  | .caused _ cause => some cause
  | .context _ inner => some inner
  | _ => none

/-- Gives the first report a line, unless it has one or the line is unknown. What stood around that
report is dropped. -/
def withLine (f : Failure) (line : Int) : Failure :=
  match f.find? with
  | none => f
  | some (r, cause) =>
    if 0 < r.line || line ≤ 0 then f
    else match cause with
      | none => .report { r with line }
      | some c => .caused { r with line } c

/-- One report for several failures: their texts on a line each, with no line of its own. -/
def join (kind : Kind) (fs : List Failure) : Failure :=
  .caused ⟨kind, Bytes.join "\n" (texts fs), 0⟩ (.joined fs)

end Failure

end IrafCl
