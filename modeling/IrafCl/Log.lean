import IrafCl.Text.Quoted
import IrafCl.Text.Blank

/-!
# Log lines

The stages leave log records behind: a level, a message and named values. A record is written on one
line as `key=value` pairs. A value is quoted when it is empty or holds a space, an equals sign, a
double quote or anything that cannot be printed; a lone backslash does not force quotes.
-/

namespace IrafCl.Log

inductive Level where
  | debug
  | info
  | warn
  | error
  deriving DecidableEq, Repr

def Level.name : Level → Bytes
  | .debug => "DEBUG"
  | .info => "INFO"
  | .warn => "WARN"
  | .error => "ERROR"

/-- The order of the levels by weight. -/
def Level.weight : Level → Nat
  | .debug => 0
  | .info => 1
  | .warn => 2
  | .error => 3

/-- One log record. -/
structure Record where
  level : Level
  message : Bytes
  attrs : List (Bytes × Bytes)
  deriving DecidableEq, Repr

/-- Whether one element of a value forces quotes. -/
def forcesQuotes : Scalar → Bool
  | .stray _ => true
  | .char c =>
    let n := c.toNat
    if n < 0x80 then n ≤ 0x20 || c == '=' || c == '"'
    else n == 0xFFFD || isBlank n || !isPrintable n

/-- A value as it is written after its key. -/
def value (s : Bytes) : Bytes :=
  if s.isEmpty || s.scalars.any forcesQuotes then s.quote else s

/-- The line of a record, without its newline. -/
def Record.line (r : Record) : Bytes :=
  let attrs : Bytes := r.attrs.flatMap fun (key, v) => (" " ++ key ++ "=" ++ value v : Bytes)
  "level=" ++ r.level.name ++ " msg=" ++ value r.message ++ attrs

/-- The records that reach a log of the given level. -/
def atLeast (level : Level) (rs : List Record) : List Record :=
  rs.filter fun r => level.weight ≤ r.level.weight

end IrafCl.Log
