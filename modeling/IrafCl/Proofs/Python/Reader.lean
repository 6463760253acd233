import IrafCl.Code.Expr

/-!
# Reading Python expressions

How Python groups the text of an expression: as tokens, and these as a tree, by the precedence and
associativity of its operators. Only what expressions of generated code are made of is read; any other
text has no reading. A dotted name is one token. The keyword of an argument and the field after a call are
taken as they stand, all other names must be identifiers. Which arguments a call may have is not asked here: an argument
without a keyword behind one that has one, or a keyword given twice, is read like any other list of arguments.
-/

namespace IrafCl.Python

open Code (BinaryOp)

inductive Tok where
  | number (digits : Bytes)
  | string (body : Bytes)
  | path (ids : List Bytes)
  | op (o : BinaryOp)
  | not
  | openParen
  | closeParen
  | openBracket
  | closeBracket
  | comma
  | dot
  | equals
  deriving DecidableEq, Repr

/-- An expression without its parentheses. The arguments of a call may have keywords. -/
inductive Tree where
  | number (digits : Bytes)
  | string (body : Bytes)
  | path (ids : List Bytes)
  | field (e : Tree) (name : Bytes)
  | call (fn : Tree) (args : List (Option (List Bytes) × Tree))
  | index (e : Tree) (index : List Tree)
  | not (e : Tree)
  | minus (e : Tree)
  | plus (e : Tree)
  | binary (op : BinaryOp) (l r : Tree)

/-! ## Numbers -/

def isExponentMark (b : UInt8) : Bool := b = Bytes.ascii 'e' || b = Bytes.ascii 'E'

def isSign (b : UInt8) : Bool := b = Bytes.ascii '+' || b = Bytes.ascii '-'

def isOctalDigit (b : UInt8) : Bool := 48 ≤ b && b ≤ 55

def isHexDigit (b : UInt8) : Bool := (Bytes.hexValue? b).isSome

/-- Digits that are a decimal integer: only zero begins with a zero. -/
def isInteger (ds : Bytes) : Bool := !ds.isEmpty && (ds.head? ≠ some 48 || ds.all (· = 48))

/-- What follows the digits of a number: nothing, or an exponent. -/
def isExponent : Bytes → Bool
  | [] => true
  | mark :: rest =>
    let digits := if rest.head?.any isSign then rest.drop 1 else rest
    isExponentMark mark && !digits.isEmpty && digits.all Bytes.isDigit

/-- Whether a text is a decimal number. -/
def isDecimal (s : Bytes) : Bool :=
  let whole := s.takeWhile Bytes.isDigit
  match s.dropWhile Bytes.isDigit with
  | [] => isInteger whole
  | 46 :: rest =>
    let fraction := rest.takeWhile Bytes.isDigit
    !(whole ++ fraction).isEmpty && isExponent (rest.dropWhile Bytes.isDigit)
  | rest => !whole.isEmpty && isExponent rest

/-- Whether a text is a number. -/
def isNumber : Bytes → Bool
  | 48 :: 120 :: digits => !digits.isEmpty && digits.all isHexDigit
  | 48 :: 111 :: digits => !digits.isEmpty && digits.all isOctalDigit
  | s => isDecimal s

/-! ## Tokens -/

/-- The bytes that words begin with. -/
def isWordStart (b : UInt8) : Bool :=
  Bytes.isLower b || Bytes.isUpper b || b == Bytes.ascii '_' || b == Bytes.ascii '$'

/-- The bytes that words and numbers are made of. -/
def isWordByte (b : UInt8) : Bool := isWordStart b || Bytes.isDigit b || b == Bytes.ascii '.'

def isQuote (b : UInt8) : Bool := b = Code.singleQuote || b = Code.doubleQuote

/-- The operators that are words, and names. -/
def wordToken (w : Bytes) : Tok :=
  if w = "or" then .op .or
  else if w = "and" then .op .and
  else if w = "not" then .not
  else .path (Bytes.pieces (Bytes.ascii '.') w)

/-- The bytes of a number. A sign belongs to it after the exponent mark of a decimal number. -/
def numberRun (decimal marked : Bool) : Bytes → Bytes
  | [] => []
  | b :: rest =>
    if isWordByte b then b :: numberRun decimal (decimal && isExponentMark b) rest
    else if marked && isSign b then b :: numberRun decimal false rest
    else []

/-- The character that an escape stands for. -/
def unescape? (b : UInt8) : Option UInt8 :=
  if b = Bytes.ascii 'n' then some 10
  else if b = Bytes.ascii 't' then some 9
  else if b = Bytes.ascii 'r' then some 13
  else if b = Code.backslash || isQuote b then some b
  else none

/-- The body of a string after its opening quote, and its length with the closing quote. -/
def stringBody? (quote : UInt8) : Bytes → Option (Bytes × Nat)
  | [] => none
  | [b] => if b = quote then some ([], 1) else none
  | b :: c :: rest =>
    if b = quote then some ([], 1)
    else if b = 10 || b = 13 then none
    else if b ≠ Code.backslash then (stringBody? quote (c :: rest)).map fun (body, n) => (b :: body, n + 1)
    else if c ≠ Bytes.ascii 'x' then do
      let v ← unescape? c
      let (body, n) ← stringBody? quote rest
      return (v :: body, n + 2)
    else match rest with
      | h :: l :: rest => do
        let high ← Bytes.hexValue? h
        let low ← Bytes.hexValue? l
        let (body, n) ← stringBody? quote rest
        return (UInt8.ofNat (16 * high + low) :: body, n + 4)
      | _ => none

/-- The other operators and the brackets, the longest first. -/
def symbols : List (Bytes × Tok) := [
  ("==", .op .eq), ("!=", .op .ne), ("<=", .op .le), (">=", .op .ge), ("**", .op .pow), ("//", .op .floorDiv),
  ("<", .op .lt), (">", .op .gt), ("+", .op .add), ("-", .op .sub), ("*", .op .mul), ("/", .op .div),
  ("%", .op .mod), ("(", .openParen), (")", .closeParen), ("[", .openBracket), ("]", .closeBracket),
  (",", .comma), (".", .dot), ("=", .equals)]

/-- What begins with a byte: perhaps a token, and how many more bytes belong to it. A word before a quote
would be the mark of another kind of string, and three quotes begin a longer one. -/
def token? (b : UInt8) (rest : Bytes) : Option (Option Tok × Nat) :=
  if b = 32 then some (none, 0)
  else if isWordStart b then
    let more := rest.takeWhile isWordByte
    if (rest.dropWhile isWordByte).head?.any isQuote then none else some (some (wordToken (b :: more)), more.length)
  else if Bytes.isDigit b || (b = Bytes.ascii '.' && rest.head?.any Bytes.isDigit) then
    let decimal := b ≠ 48 || rest.head? ≠ some 120
    let run := numberRun decimal false (b :: rest)
    if isNumber run then some (some (.number run), run.length - 1) else none
  else if isQuote b then
    if rest.take 2 = [b, b] then none else (stringBody? b rest).map fun (body, n) => (some (.string body), n)
  else (symbols.find? fun (s, _) => s.isPrefixOf (b :: rest)).map fun (s, t) => (some t, s.length - 1)

/-- The tokens of a text whose first `skip` bytes belong to the token before. -/
def lexAfter : Nat → Bytes → Option (List Tok)
  | _, [] => some []
  | skip + 1, _ :: rest => lexAfter skip rest
  | 0, b :: rest => match token? b rest with
    | some (t, more) => (lexAfter more rest).map (t.toList ++ ·)
    | none => none

/-- The tokens of a text. -/
def lex (s : Bytes) : Option (List Tok) := lexAfter 0 s

/-! ## Precedence -/

/-- How tightly an operator binds. Signs are at level 6 and `not` is at level 2; operands, calls and
subscripts are at level 8. -/
def level : BinaryOp → Nat
  | .or => 0
  | .and => 1
  | .eq | .ne | .lt | .le | .gt | .ge => 3
  | .add | .sub => 4
  | .mul | .div | .floorDiv | .mod => 5
  | .pow => 7

/-- The lowest level of a left operand. Operators of one level associate to the left, but comparisons are
not operands of each other. -/
def left : BinaryOp → Nat
  | .eq | .ne | .lt | .le | .gt | .ge => 4
  | .pow => 8
  | o => level o

/-- The lowest level of a right operand; a power may have one with a sign. -/
def right : BinaryOp → Nat
  | .pow => 6
  | o => level o + 1

def notLevel : Nat := 2

def signLevel : Nat := 6

def operandLevel : Nat := 8

/-- Whether a text is a name that Python does not keep for itself. -/
def isIdentifier (id : Bytes) : Bool :=
  !id.isEmpty && !id.head?.any Bytes.isDigit && !Code.keywords.contains id &&
    id.all fun b => Bytes.isLower b || Bytes.isUpper b || Bytes.isDigit b || b == Bytes.ascii '_'

/-- The keyword before an argument. -/
def keyOf : List Tok → Option (List Bytes) × List Tok
  | .path ids :: .equals :: rest => (some ids, rest)
  | ts => (none, ts)

mutual

/-- Reads an expression of at least the given level, as long as it goes. -/
def expr : Nat → Nat → List Tok → Option (Tree × List Tok)
  | 0, _, _ => none
  | fuel + 1, least, ts => do
    let (e, own, rest) ← operand fuel least ts
    climb fuel least e own rest
termination_by structural fuel => fuel

/-- Reads what stands before the first operator between two operands, with its level. -/
def operand : Nat → Nat → List Tok → Option (Tree × Nat × List Tok)
  | 0, _, _ => none
  | _ + 1, _, .number digits :: rest => some (.number digits, operandLevel, rest)
  | _ + 1, _, .string body :: rest => some (.string body, operandLevel, rest)
  | _ + 1, _, .path ids :: rest => if ids.all isIdentifier then some (.path ids, operandLevel, rest) else none
  | fuel + 1, _, .openParen :: rest =>
    match expr fuel 0 rest with
    | some (e, .closeParen :: rest) => some (e, operandLevel, rest)
    | _ => none
  | fuel + 1, least, .not :: rest =>
    if least ≤ notLevel then (expr fuel notLevel rest).map fun (e, rest) => (.not e, notLevel, rest) else none
  | fuel + 1, least, .op .sub :: rest =>
    if least ≤ signLevel then (expr fuel signLevel rest).map fun (e, rest) => (.minus e, signLevel, rest) else none
  | fuel + 1, least, .op .add :: rest =>
    if least ≤ signLevel then (expr fuel signLevel rest).map fun (e, rest) => (.plus e, signLevel, rest) else none
  | _ + 1, _, _ => none
termination_by structural fuel => fuel

/-- Goes on after an expression of the given level with whatever applies to it. -/
def climb : Nat → Nat → Tree → Nat → List Tok → Option (Tree × List Tok)
  | 0, _, _, _, _ => none
  | fuel + 1, least, e, own, .op o :: rest =>
    if least ≤ level o && left o ≤ own then do
      let (r, rest) ← expr fuel (right o) rest
      climb fuel least (.binary o e r) (level o) rest
    else some (e, .op o :: rest)
  | fuel + 1, least, e, own, .openParen :: rest =>
    if operandLevel ≤ own then do
      let (args, rest) ← args fuel rest
      climb fuel least (.call e args) operandLevel rest
    else some (e, .openParen :: rest)
  | fuel + 1, least, e, own, .openBracket :: rest =>
    if operandLevel ≤ own then do
      let (index, rest) ← items fuel .closeBracket rest
      if index.all (·.1.isNone) then climb fuel least (.index e (index.map (·.2))) operandLevel rest else none
    else some (e, .openBracket :: rest)
  | fuel + 1, least, e, own, .dot :: .path [name] :: rest =>
    if operandLevel ≤ own then climb fuel least (.field e name) operandLevel rest
    else some (e, .dot :: .path [name] :: rest)
  | _ + 1, _, e, _, ts => some (e, ts)
termination_by structural fuel => fuel

/-- Reads the arguments of a call and its closing parenthesis. -/
def args : Nat → List Tok → Option (List (Option (List Bytes) × Tree) × List Tok)
  | 0, _ => none
  | _ + 1, .closeParen :: rest => some ([], rest)
  | fuel + 1, ts => items fuel .closeParen ts
termination_by structural fuel => fuel

/-- Reads expressions up to a closing bracket, with commas between them and perhaps keywords before them. -/
def items : Nat → Tok → List Tok → Option (List (Option (List Bytes) × Tree) × List Tok)
  | 0, _, _ => none
  | fuel + 1, close, ts => do
    let (key, ts) := keyOf ts
    let (e, rest) ← expr fuel 0 ts
    match rest with
    | .comma :: rest => do
      let (more, rest) ← items fuel close rest
      return ((key, e) :: more, rest)
    | t :: rest => if t = close then some ([(key, e)], rest) else none
    | [] => none
termination_by structural fuel => fuel

end

/-- The expression that a text is read as. -/
def read (s : Bytes) : Option Tree := do
  let ts ← lex s
  match expr (4 * ts.length + 4) 0 ts with
  | some (e, []) => some e
  | _ => none

end IrafCl.Python
