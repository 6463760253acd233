import IrafCl.Text.Bytes

/-!
# String literals in generated code

A text is written between single quotes, or between double quotes when it holds single quotes and no
double quote. The quote in use and the backslash are escaped, and so is every control byte; other bytes
stand as they are.
-/

namespace IrafCl.Code

def singleQuote : UInt8 := 39

def doubleQuote : UInt8 := 34

def backslash : UInt8 := 92

/-- The quote that a text is written between. -/
def quoteFor (s : Bytes) : UInt8 :=
  if s.contains singleQuote && !s.contains doubleQuote then doubleQuote else singleQuote

/-- One byte between quotes. -/
def escape (quote b : UInt8) : Bytes :=
  if b = quote || b = backslash then [backslash, b]
  else if b = 10 then [backslash, Bytes.ascii 'n']
  else if b = 9 then [backslash, Bytes.ascii 't']
  else if b = 13 then [backslash, Bytes.ascii 'r']
  else if b < 32 || b = 127 then backslash :: Bytes.ascii 'x' :: Bytes.hexByte b
  else [b]

/-- A text as a string literal. -/
def quoted (s : Bytes) : Bytes :=
  let q := quoteFor s
  q :: s.flatMap (escape q) ++ [q]

end IrafCl.Code
