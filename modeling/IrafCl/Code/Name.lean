import IrafCl.Text.Bytes

/-!
# Names in generated code

A CL name becomes a Python identifier: a dollar sign is spelled out, and a name that is a Python
keyword gets a capital mark in front of it.
-/

namespace IrafCl.Code

/-- The words that Python keeps for itself. -/
def keywords : List Bytes :=
  (["False", "None", "True", "and", "as", "assert", "async", "await", "break", "class", "continue", "def",
    "del", "elif", "else", "except", "exec", "finally", "for", "from", "global", "if", "import", "in",
    "is", "lambda", "nonlocal", "not", "or", "pass", "print", "raise", "return", "try", "while", "with",
    "yield"] : List String).map Bytes.ofString

/-- The identifier for a CL name without dots. -/
def identifier (name : Bytes) : Bytes :=
  let name := Bytes.substitute (Bytes.ascii '$') "DOLLAR" name
  if keywords.contains name then "PY" ++ name else name

/-- The parts of a dotted CL name. -/
def parts (path : Bytes) : List Bytes := Bytes.pieces (Bytes.ascii '.') path

/-- Identifiers joined by dots. -/
def dotted (ids : List Bytes) : Bytes := Bytes.join "." ids

end IrafCl.Code
