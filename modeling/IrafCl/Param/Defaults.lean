import IrafCl.Library

/-!
# Checking defaults

Each initial value of a variable is checked against the constraints of its declaration, and what is wrong with it is
reported.
-/

namespace IrafCl

namespace Variable

/-- The name of an element in messages. -/
def elementName (v : Variable) (i : Nat) : Bytes :=
  if v.isArray then v.name ++ "[" ++ Bytes.ofNat (i + 1) ++ "]" else v.name

/-- The message about one initial value. -/
def checkElement [Library] (v : Variable) (s : Schema) (value : Value) (i : Nat) : List Bytes :=
  if value.isOpen then []
  else match Library.mismatch? s value with
    | none => []
    | some found =>
      ["default value " ++ value.text ++ " of '" ++ v.elementName i ++ "' is invalid: " ++ found.reason]

/-- Checks every initial value against the constraints of the declaration. -/
def checkDefaults [Library] (v : Variable) : Except Failure (List Bytes) :=
  let s := Schema.ofVariable v
  if !s.isConstrained then .ok []
  else match s.badBound? with
    | some b =>
      .error (.context ("schema for " ++ v.name)
        (.plain ("json: invalid number literal " ++ b.text.quote)))
    | none => .ok (v.values.zipIdx.flatMap fun (value, i) => v.checkElement s value i)

end Variable

end IrafCl
