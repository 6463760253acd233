import IrafCl.Param.Value

/-!
# Variables

A variable is a declared parameter or local: its name and type, a mode, the initial values and the
options of its declaration. Two declarations differ in what callers see: type, mode, shape and initial
values.
-/

namespace IrafCl

/-- The optional attributes of a declaration. Choices are separated by vertical bars. -/
structure Options where
  min : Value
  max : Value
  prompt : Bytes
  choices : Bytes
  length : Int64
  deriving DecidableEq, Repr

namespace Options

def empty : Options := ⟨.none, .none, [], [], 0⟩

/-- The names of the options that a declaration may give. -/
def names : List Bytes := ["mode", "min", "max", "prompt", "enum", "length"]

end Options

/-- A variable. A size of 0 is a scalar, and a missing list of initial values differs from an empty
one only where variables are stored. -/
structure Variable where
  name : Bytes
  type : Bytes
  mode : Bytes
  arraySize : Int64
  initial : Option (List Value)
  isList : Bool
  options : Options
  deriving DecidableEq, Repr

namespace Variable

/-- A scalar with a type, a mode and nothing else. -/
def scalar (name type mode : Bytes) : Variable := ⟨name, type, mode, 0, none, false, .empty⟩

def isArray (v : Variable) : Bool := 0 < v.arraySize

/-- The initial values. -/
def values (v : Variable) : List Value := v.initial.getD []

/-- The first initial value. -/
def default (v : Variable) : Value := v.values.headD .none

/-- The choices that the value is restricted to. -/
def choices (v : Variable) : List Bytes :=
  if v.options.choices.isEmpty then [] else Bytes.pieces (Bytes.ascii '|') v.options.choices

def valuesText (vs : List Value) : Bytes := Bytes.join ", " (vs.map Value.text)

/-- Whether two lists hold the same values. -/
def sameValues : List Value → List Value → Bool
  | [], [] => true
  | v :: vs, w :: ws => v.same w && sameValues vs ws
  | _, _ => false

def flagText (b : Bool) : Bytes := if b then "true" else "false"

/-- How another declaration differs from this one. -/
def diff (v w : Variable) : List Bytes :=
  let entry (differs : Bool) (text : Bytes) : List Bytes := if differs then [text] else []
  entry (v.type ≠ w.type) ("type " ++ v.type ++ " vs " ++ w.type) ++
  entry (v.mode ≠ w.mode) ("mode " ++ v.mode.quote ++ " vs " ++ w.mode.quote) ++
  entry (v.arraySize ≠ w.arraySize)
    ("array size " ++ Bytes.ofInt v.arraySize.toInt ++ " vs " ++ Bytes.ofInt w.arraySize.toInt) ++
  entry (v.isList ≠ w.isList) ("list flag " ++ flagText v.isList ++ " vs " ++ flagText w.isList) ++
  entry (!sameValues v.values w.values)
    ("value [" ++ valuesText v.values ++ "] vs [" ++ valuesText w.values ++ "]")

/-- The variable as a CL declaration. -/
def text (v : Variable) : Bytes :=
  let size : Bytes := if v.isArray then "[" ++ Bytes.ofInt v.arraySize.toInt ++ "]" else []
  let init : Bytes := if v.default = .none then [] else " = " ++ valuesText v.values
  let mode : Bytes := if v.mode.isEmpty then [] else " \x7bmode=" ++ v.mode.quote ++ "\x7d"
  v.type ++ " " ++ (if v.isList then "*" else "") ++ v.name ++ size ++ init ++ mode

end Variable

end IrafCl
