import IrafCl.Contract
import IrafCl.Log
import IrafCl.Pattern.Regex
import IrafCl.Token

/-!
# Scanners

A scanner is an ordered table of named patterns. At each position the first pattern with a match
takes the lexeme, and its handler decides whether a token comes of it; nothing is ever skipped in
search of a match. Handlers see the line and offset of the lexeme, the token emitted last, and data of
their own that lives as long as the scan. A scan fails where no pattern matches, where the match is
empty, and where a handler refuses the lexeme.
-/

namespace IrafCl

/-- What a handler sees of the scan. -/
structure Moment (σ κ : Type) where
  data : σ
  last : Option (Token κ)
  line : Nat
  offset : Nat

/-- Turns a lexeme into new data and perhaps a token, or refuses it with a message. -/
abbrev Handler (σ κ : Type) := Moment σ κ → Bytes → Except Bytes (σ × Option (Token κ))

/-- A named pattern. Lexemes of a pattern without a handler give no token. A shadowed pattern lost its
name to a group inside an earlier one, so a match cannot be credited to it. -/
structure Pattern (σ κ : Type) where
  name : Bytes
  regex : Regex
  handler : Option (Handler σ κ)
  shadowed : Bool := false

/-- A lexeme as the log shows it. -/
structure Lexeme where
  pattern : Bytes
  text : Bytes
  line : Nat
  deriving DecidableEq, Repr

def Lexeme.record (l : Lexeme) : Log.Record :=
  ⟨.debug, "lexeme", [("pattern", l.pattern), ("text", l.text), ("line", Bytes.ofNat l.line)]⟩

/-- An ordered pattern table, the fallback last. -/
structure Scanner (σ κ : Type) where
  patterns : List (Pattern σ κ)

/-- A scan: the lexemes accepted, and the tokens or the reason why the scan stopped. -/
structure Scan (κ : Type) where
  lexemes : List Lexeme
  outcome : Except Halt (List (Token κ))

namespace Scan

variable {κ : Type}

/-- A scan that stops before any further lexeme. -/
def stop (h : Halt) : Scan κ := ⟨[], .error h⟩

/-- A scan that fails at a line. -/
def fail (line : Nat) (message : Bytes) : Scan κ :=
  stop (.failure (.atLine .lexical line message))

/-- The scan with one more lexeme in front. -/
def after (l : Lexeme) (s : Scan κ) : Scan κ := { s with lexemes := l :: s.lexemes }

/-- The log of a scan. -/
def log (s : Scan κ) : List Log.Record := s.lexemes.map Lexeme.record

end Scan

namespace Scanner

variable {σ κ : Type}

/-- How far a scan has come; the tokens are in reverse order. -/
structure Progress (σ κ : Type) where
  data : σ
  tokens : List (Token κ)
  line : Nat
  offset : Nat

def Progress.moment (p : Progress σ κ) : Moment σ κ := ⟨p.data, p.tokens.head?, p.line, p.offset⟩

/-- The progress after a lexeme. -/
def Progress.advance (p : Progress σ κ) (text : Bytes) (data : σ) (token : Option (Token κ)) :
    Progress σ κ :=
  ⟨data, token.toList ++ p.tokens, p.line + text.newlines, p.offset + text.length⟩

/-- The first pattern that matches at the beginning of a text, with the length of its match. -/
def lexeme? : List (Pattern σ κ) → Bytes → Option (Pattern σ κ × Nat)
  | [], _ => none
  | p :: ps, text => match p.regex.matchLength? text with
    | some n => some (p, n)
    | none => lexeme? ps text

/-- What a pattern makes of its lexeme. A token stands on the line of the lexeme, whatever its handler says. -/
def react (p : Pattern σ κ) (m : Moment σ κ) (text : Bytes) : Except Bytes (σ × Option (Token κ)) :=
  match p.handler with
  | none => .ok (m.data, none)
  | some h => (h m text).map fun (data, token) => (data, token.map fun t => { t with line := m.line })

/-- The number of bytes that a message about an unmatched text shows. -/
def excerptLength : Nat := 10

/-- The message where no pattern matches. -/
def noLexeme (offset : Nat) (text : Bytes) : Bytes :=
  "no lexeme matches at offset " ++ Bytes.ofNat offset ++ " near " ++
    Bytes.quote (text.take excerptLength)

/-- Scans a text whose first `skip` bytes belong to the lexeme before. -/
def scanAfter (s : Scanner σ κ) : Nat → Progress σ κ → Bytes → Scan κ
  | _, p, [] => ⟨[], .ok p.tokens.reverse⟩
  | skip + 1, p, _ :: rest => scanAfter s skip p rest
  | 0, p, b :: rest =>
    match lexeme? s.patterns (b :: rest) with
    | none => .fail p.line (noLexeme p.offset (b :: rest))
    | some (_, 0) => .fail p.line (noLexeme p.offset (b :: rest))
    | some (pattern, n + 1) =>
      if pattern.shadowed then
        .stop (.violation (.broken .invariant "a match must belong to some pattern"))
      else
        let text := (b :: rest).take (n + 1)
        match react pattern p.moment text with
        | .error message => .fail p.line message
        | .ok (data, token) =>
          (scanAfter s n (p.advance text data token) rest).after ⟨pattern.name, text, p.line⟩

/-- Scans a text from its beginning, with fresh data. -/
def scan (s : Scanner σ κ) (data : σ) (text : Bytes) : Scan κ :=
  s.scanAfter 0 ⟨data, [], 1, 0⟩ text

/-! ## Tables with expressions as text -/

/-- A row of a table whose expression is still text. -/
structure Row (σ κ : Type) where
  name : String
  regex : String
  handler : Option (Handler σ κ)

/-- Pattern names are a letter or underscore followed by letters, digits and underscores. -/
def isName (name : String) : Bool :=
  match name.toList with
  | [] => false
  | c :: cs => (c.isAlpha || c == '_') && cs.all fun c => c.isAlphanum || c == '_'

end Scanner

end IrafCl
