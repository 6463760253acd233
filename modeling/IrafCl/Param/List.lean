import IrafCl.Param.Variable

/-!
# Parameter lists

A parameter list keeps variables in order under unique names. `add` refuses a name that is taken,
`set` replaces in place or appends, `remove` closes the gap. Two lists are compared name by name.
-/

namespace IrafCl

/-- An ordered list of variables with unique names. -/
structure ParamList where
  vars : List Variable
  deriving DecidableEq, Repr

namespace ParamList

def empty : ParamList := ⟨[]⟩

def names (p : ParamList) : List Bytes := p.vars.map (·.name)

def length (p : ParamList) : Nat := p.vars.length

/-- The variable with a name. -/
def get? (p : ParamList) (name : Bytes) : Option Variable := p.vars.find? fun v => v.name = name

def has (p : ParamList) (name : Bytes) : Bool := (p.get? name).isSome

/-- Appends a variable. -/
def append (p : ParamList) (v : Variable) : ParamList := ⟨p.vars ++ [v]⟩

/-- Replaces the variable of the same name in its place, or appends. -/
def set (p : ParamList) (v : Variable) : ParamList :=
  if p.has v.name then ⟨p.vars.map fun w => if w.name = v.name then v else w⟩ else p.append v

/-- Appends a variable whose name is free. -/
def add (p : ParamList) (v : Variable) : Except Failure ParamList :=
  if p.has v.name then .error (.plain ("parameter " ++ v.name.quote ++ " already defined"))
  else .ok (p.append v)

/-- Removes the variable with a name. -/
def remove (p : ParamList) (name : Bytes) : ParamList := ⟨p.vars.filter fun v => v.name ≠ name⟩

/-- Sets variables one after the other. -/
def setAll (p : ParamList) (vs : List Variable) : ParamList := vs.foldl set p

/-- The list of some variables; a later one replaces an earlier one of its name. -/
def ofVars (vs : List Variable) : ParamList := empty.setAll vs

/-- What one list says about a variable of the other. -/
def compareOne (q : ParamList) (v : Variable) : List Bytes :=
  match q.get? v.name with
  | none => ["parameter '" ++ v.name ++ "' is not in the other list"]
  | some w => (v.diff w).map fun d => "parameter '" ++ v.name ++ "' differs: " ++ d

/-- The differences between two lists: those of the first in order, then what only the second has. -/
def compare (p q : ParamList) : List Bytes :=
  p.vars.flatMap q.compareOne ++
    (q.vars.filter fun w => !p.has w.name).map fun w =>
      ("parameter '" ++ w.name ++ "' is only in the other list" : Bytes)

end ParamList

end IrafCl
