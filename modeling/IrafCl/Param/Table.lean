import IrafCl.Param.List
import Std.Data.HashMap

/-!
# Indexed parameter lists

The form in which a parameter list is stored: the variables in order, and an index from names to positions. Every
operation goes by the index and keeps it up by hand; a removal moves the variables behind the gap and enters them anew.
Two tables are compared by looking up the names of each in the other.
-/

namespace IrafCl

/-- A parameter list with an index of its names. -/
structure ParamTable where
  vars : List Variable
  index : Std.HashMap Bytes Nat

/-- What is done to a parameter list. A clone takes the place of the list. -/
inductive ParamOp where
  | add (v : Variable)
  | set (v : Variable)
  | remove (name : Bytes)
  | clone

/-- What a comparison has to say about a name: that only the first list has it, how its variables differ, or that only
the second list has it. -/
inductive ParamReport where
  | missing (name : Bytes)
  | differs (name how : Bytes)
  | extra (name : Bytes)
  deriving DecidableEq, Repr

namespace ParamReport

/-- The name that is reported on. -/
def name : ParamReport → Bytes
  | .missing name | .differs name _ | .extra name => name

/-- The report as a line. -/
def text : ParamReport → Bytes
  | .missing name => "parameter '" ++ name ++ "' is not in the other list"
  | .differs name how => "parameter '" ++ name ++ "' differs: " ++ how
  | .extra name => "parameter '" ++ name ++ "' is only in the other list"

end ParamReport

namespace ParamTable

def empty : ParamTable := ⟨[], ∅⟩

def names (t : ParamTable) : List Bytes := t.vars.map (·.name)

def length (t : ParamTable) : Nat := t.vars.length

/-- The variable at the position of a name. -/
def get? (t : ParamTable) (name : Bytes) : Option Variable := t.index[name]? >>= fun i => t.vars[i]?

def has (t : ParamTable) (name : Bytes) : Bool := t.index.contains name

/-- Appends a variable and enters its name. -/
def append (t : ParamTable) (v : Variable) : ParamTable := ⟨t.vars ++ [v], t.index.insert v.name t.vars.length⟩

/-- Appends a variable, or fails if its name is taken. -/
def add (t : ParamTable) (v : Variable) : ParamTable × Option Failure :=
  if t.has v.name then (t, some (.plain ("parameter " ++ v.name.quote ++ " already defined")))
  else (t.append v, none)

/-- Replaces the variable at the position of a name, or appends. -/
def set (t : ParamTable) (v : Variable) : ParamTable :=
  match t.index[v.name]? with
  | some i => { t with vars := t.vars.set i v }
  | none => t.append v

/-- Enters variables that stand from a position on. -/
def enter : Nat → List Variable → Std.HashMap Bytes Nat → Std.HashMap Bytes Nat
  | _, [], index => index
  | i, v :: vs, index => enter (i + 1) vs (index.insert v.name i)

/-- Removes the variable at the position of a name, and tells whether there was one. -/
def remove (t : ParamTable) (name : Bytes) : ParamTable × Bool :=
  match t.index[name]? with
  | some i =>
    let vars := t.vars.eraseIdx i
    (⟨vars, enter i (vars.drop i) (t.index.erase name)⟩, true)
  | none => (t, false)

/-- The table of some variables; a later one replaces an earlier one of its name. -/
def ofVars (vs : List Variable) : ParamTable := vs.foldl set empty

/-- A table of its own with the same variables. -/
def clone (t : ParamTable) : ParamTable := ofVars t.vars

/-- What there is to say about a variable of another table. -/
def reportsOn (t : ParamTable) (v : Variable) : List ParamReport :=
  match t.get? v.name with
  | none => [.missing v.name]
  | some w => (v.diff w).map (.differs v.name)

/-- The reports on two tables: on the variables of the first in order, then on what only the second has. -/
def reports (t u : ParamTable) : List ParamReport :=
  t.vars.flatMap u.reportsOn ++ (u.vars.filter fun w => !t.has w.name).map fun w => .extra w.name

/-- The differences between two tables. -/
def compare (t u : ParamTable) : List Bytes := (t.reports u).map ParamReport.text

/-- The table after an operation. -/
def step (t : ParamTable) : ParamOp → ParamTable
  | .add v => (t.add v).1
  | .set v => t.set v
  | .remove name => (t.remove name).1
  | .clone => t.clone

end ParamTable

end IrafCl
