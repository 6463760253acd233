import IrafCl.Code.Name
import IrafCl.Code.Quoted
import IrafCl.Script.Scope

/-!
# The head of generated code

Generated code starts with its imports and one function whose formal parameters are those of the
procedure, each with its default. The function then rebuilds the parameter list: one entry for each
parameter and each local variable, with what was declared about it.
-/

namespace IrafCl

/-- A value as a literal. A floating-point number is never written like an integer. -/
def Value.literal : Value → Bytes
  | .int n => Bytes.ofInt n.toInt
  | .float x =>
    let t := x.text
    if t.any fun b => ([46, 101, 69, 110, 78] : Bytes).contains b then t else t ++ ".0"
  | .string s => Code.quoted s
  | .bool b => if b then "yes" else "no"
  | .undefined => "INDEF"
  | .none | .unknown => "None"

/-- The default of a variable as a literal. -/
def Variable.defaultLiteral (v : Variable) : Bytes :=
  if v.isArray then "[" ++ Bytes.join ", " (v.values.map Value.literal) ++ "]" else v.default.literal

namespace Script

def imports : List Bytes :=
  ["from pyraf import iraf",
    "from pyraf.irafpar import makeIrafPar, IrafParList",
    "from stsci.tools.irafglobals import *",
    "from pyraf.pyrafglobals import *"]

/-- The formal parameters of the function with their defaults. -/
def formals (s : Scope) : List (Bytes × Bytes) :=
  let task : Bytes × Bytes := (taskParam, "None")
  s.params.vars.map (fun v => (Code.identifier v.name, v.defaultLiteral)) ++ [task]

/-- The first line of the function. -/
def functionLine (s : Scope) : Bytes :=
  "def " ++ Code.identifier s.procedure ++ "(" ++
    Bytes.join ", " ((formals s).map fun (name, default) => (name ++ "=" ++ default : Bytes)) ++ "):"

/-- What a declaration says about a variable, as keyword arguments. -/
def attributes (v : Variable) : List (Bytes × Bytes) :=
  let some? (given : Bool) (key text : Bytes) : List (Bytes × Bytes) := if given then [(key, text)] else []
  some? true "datatype" (Code.quoted v.type) ++
  some? true "name" (Code.quoted v.name) ++
  some? v.isArray "array_size" ("(" ++ Bytes.ofInt v.arraySize.toInt ++ ",)") ++
  some? v.isList "list_flag" "1" ++
  some? (!v.mode.isEmpty) "mode" (Code.quoted v.mode) ++
  some? (v.options.min ≠ .none) "min" v.options.min.literal ++
  some? (v.options.max ≠ .none) "max" v.options.max.literal ++
  some? (!v.options.choices.isEmpty) "enum" (Code.quoted v.options.choices) ++
  some? (!v.options.prompt.isEmpty) "prompt" (Code.quoted v.options.prompt) ++
  some? (0 < v.options.length) "length" (Bytes.ofInt v.options.length.toInt)

/-- The line that enters a variable with the given value into the parameter list. -/
def paramLine (value : Bytes) (v : Variable) : Bytes :=
  let args := value :: (attributes v).map fun (key, text) => (key ++ "=" ++ text : Bytes)
  "\tVars.addParam(makeIrafPar(" ++ Bytes.join ", " args ++ "))"

/-- The line that starts the parameter list. A program without a file goes by its procedure. -/
def listLine (s : Scope) (filename : Bytes) : Bytes :=
  "\tVars = IrafParList(" ++ taskParam ++ ", " ++ Code.quoted s.procedure ++ ", " ++
    Code.quoted (if filename.isEmpty then s.procedure else filename) ++ ")"

/-- The lines before the statements. -/
def preamble (s : Scope) (filename : Bytes) (usesPackage : Bool) : List Bytes :=
  imports ++ [[], functionLine s, [], listLine s filename] ++
  s.params.vars.map (fun v => paramLine (Code.identifier v.name) v) ++
  s.locals.vars.map (fun v => paramLine v.defaultLiteral v) ++
  (if usesPackage then [[], "\tPkgName = iraf.curpack(); PkgBinary = iraf.curPkgbinary()"] else []) ++
  [[]]

end Script

end IrafCl
