import IrafCl.Text.Quoted

/-!
# Tokens

A token is a lexeme with the grammar symbol it stands for. Symbols belong to an alphabet, which has a
name for each of them and reserves two: the symbol that every grammar starts from and the one that
closes the input. To the parser a token is its symbol; text and value travel along.
-/

namespace IrafCl

/-- A type of grammar symbols with their names and the two reserved ones. -/
class Alphabet (κ : Type) where
  name : κ → String
  start : κ
  eof : κ

/-- Symbols that are their own names. -/
instance : Alphabet String where
  name := id
  start := "START"
  eof := "EOF"

/-- A token: its symbol, the lexeme, a decoded form where there is one, and the line it stands on. -/
structure Token (κ : Type) where
  kind : κ
  text : Bytes
  value : Option Bytes
  line : Int
  deriving DecidableEq, Repr

namespace Token

variable {κ : Type}

/-- The same token with its symbol mapped. -/
def mapKind {ι : Type} (f : κ → ι) (t : Token κ) : Token ι := ⟨f t.kind, t.text, t.value, t.line⟩

/-- Whether two tokens are interchangeable to a parser. -/
def sameKind [DecidableEq κ] (a b : Token κ) : Bool := a.kind = b.kind

/-- The symbol's name, with the lexeme when it says more. -/
def describe [Alphabet κ] (t : Token κ) : Bytes :=
  let name : Bytes := Alphabet.name t.kind
  if t.text.isEmpty || t.text = name then name else name ++ "(" ++ t.text.quote ++ ")"

end Token

end IrafCl
