import IrafCl.Param.Variable

/-!
# Constraints on defaults

The type and the options of a declaration constrain its values: a base type, bounds, choices and a
greatest length. A bound that is no finite number cannot be checked at all.
-/

namespace IrafCl

/-- The base types of constrained values. -/
inductive BaseType where
  | integer
  | number
  | boolean
  | string
  deriving DecidableEq, Repr

def BaseType.name : BaseType → String
  | .integer => "integer"
  | .number => "number"
  | .boolean => "boolean"
  | .string => "string"

/-- The constraints on one value. -/
structure Schema where
  base : Option BaseType
  minimum : Option Value
  maximum : Option Value
  choices : List Bytes
  maxLength : Option Int64
  deriving DecidableEq, Repr

namespace Schema

/-- The base type of a class. -/
def baseOf : TypeClass → Option BaseType
  | .int => some .integer
  | .float => some .number
  | .bool => some .boolean
  | .string => some .string
  | .any => none

/-- The constraints of a declaration. -/
def ofVariable (v : Variable) : Schema :=
  let cls := TypeClass.ofType v.type
  match baseOf cls with
  | none => ⟨none, none, none, [], none⟩
  | some base =>
    let bound (b : Value) : Option Value := if b.isNumeric then some b else none
    { base := some base
      minimum := bound v.options.min
      maximum := bound v.options.max
      choices := if cls = .string then v.choices else []
      maxLength := if cls = .string && 0 < v.options.length then some v.options.length else none }

/-- Whether there is anything to check beyond the base type. -/
def isConstrained (s : Schema) : Bool :=
  s.minimum.isSome || s.maximum.isSome || !s.choices.isEmpty || s.maxLength.isSome

/-- Whether a number can be compared. -/
def isFinite : Value → Bool
  | .float x => x.isFinite
  | v => v.isNumeric

/-- The first bound that is no finite number; the greater one is looked at first. -/
def badBound? (s : Schema) : Option Value :=
  ([s.maximum, s.minimum].filterMap id).find? fun v => !isFinite v

end Schema

end IrafCl
