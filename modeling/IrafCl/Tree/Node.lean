import IrafCl.Contract
import IrafCl.Derivation

/-!
# Syntax trees

A syntax tree has tokens for leaves; an inner node is tagged with a symbol and carries the two types
that the type pass writes. The line of an inner node is that of its first child with a known line. A
place of a tree may be empty, which the parser never makes; looking into an empty place is a violation.
-/

namespace IrafCl

/-- The types of expressions. Anything of unknown type is `undefined`. -/
inductive Ty where
  | unset
  | int
  | float
  | string
  | bool
  | undefined
  deriving DecidableEq, Repr

namespace Ty

def name : Ty → String
  | .unset => "unset"
  | .int => "int"
  | .float => "float"
  | .string => "string"
  | .bool => "bool"
  | .undefined => "indef"

def isNumeric : Ty → Bool
  | .int | .float => true
  | _ => false

/-- The types by number. -/
def ofInt? : Int → Option Ty
  | 0 => some .unset
  | 1 => some .int
  | 2 => some .float
  | 3 => some .string
  | 4 => some .bool
  | 5 => some .undefined
  | _ => none

end Ty

/-- The type an expression has, and the type its surroundings need. -/
structure Types where
  inferred : Ty
  required : Ty
  deriving DecidableEq, Repr

/-- Before the type pass. -/
def Types.unset : Types := ⟨.unset, .unset⟩

/-- A syntax tree. -/
inductive Node (κ : Type) where
  | absent
  | leaf (token : Token κ)
  | branch (kind : κ) (types : Types) (children : List (Node κ))

instance {κ : Type} : Inhabited (Node κ) := ⟨.absent⟩

namespace Node

variable {κ : Type}

/-- An inner node that the type pass has not seen. -/
def new (kind : κ) (children : List (Node κ)) : Node κ := .branch kind .unset children

def kind? : Node κ → Option κ
  | .absent => none
  | .leaf t => some t.kind
  | .branch k _ _ => some k

def types : Node κ → Types
  | .branch _ t _ => t
  | _ => .unset

def children : Node κ → List (Node κ)
  | .branch _ _ cs => cs
  | _ => []

def isLeaf : Node κ → Bool
  | .leaf _ => true
  | _ => false

/-- The lexeme of a leaf. -/
def text : Node κ → Bytes
  | .leaf t => t.text
  | _ => []

mutual

/-- The line of a node, 0 when it is unknown. -/
def line : Node κ → Int
  | .absent => 0
  | .leaf t => t.line
  | .branch _ _ cs => firstLine cs

def firstLine : List (Node κ) → Int
  | [] => 0
  | c :: cs =>
    let l := c.line
    if 0 < l then l else firstLine cs

end

/-- The child at a position. -/
def child? (n : Node κ) (i : Int) : Option (Node κ) :=
  if i < 0 then none
  else match n.children[i.toNat]? with
    | some .absent => none
    | c => c

/-- The first of some nodes with the given kind. -/
def findIn? [DecidableEq κ] (k : κ) : List (Node κ) → Except Violation (Option (Node κ))
  | [] => .ok none
  | c :: cs => match c.kind? with
    | none => .error .absentNode
    | some k' => if k' = k then .ok (some c) else findIn? k cs

/-- The first child of the given kind. -/
def find? [DecidableEq κ] (n : Node κ) (k : κ) : Except Violation (Option (Node κ)) :=
  findIn? k n.children

mutual

/-- The tree with its kinds mapped. -/
def mapKind {ι : Type} (f : κ → ι) : Node κ → Node ι
  | .absent => .absent
  | .leaf t => .leaf (t.mapKind f)
  | .branch k t cs => .branch (f k) t (mapKinds f cs)

def mapKinds {ι : Type} (f : κ → ι) : List (Node κ) → List (Node ι)
  | [] => []
  | c :: cs => c.mapKind f :: mapKinds f cs

end

mutual

/-- The lines of all nodes, each node before its children. -/
def allLines : Node κ → List Int
  | .absent => []
  | .leaf t => [t.line]
  | .branch k t cs => (Node.branch k t cs).line :: allLinesOf cs

def allLinesOf : List (Node κ) → List Int
  | [] => []
  | c :: cs => c.allLines ++ allLinesOf cs

end

/-! ## Dumps -/

mutual

def hasAbsent : Node κ → Bool
  | .absent => true
  | .leaf _ => false
  | .branch _ _ cs => anyAbsent cs

def anyAbsent : List (Node κ) → Bool
  | [] => false
  | c :: cs => c.hasAbsent || anyAbsent cs

end

variable [Alphabet κ]

/-- The two types of an annotated node. -/
def typesText (t : Types) : Bytes :=
  if t.inferred = .unset then []
  else " [" ++ Bytes.ofString t.inferred.name ++ "->" ++ Bytes.ofString t.required.name ++ "]"

/-- The lexeme of a leaf, unless it is the name of the kind. -/
def lexemeText (t : Token κ) : Bytes :=
  if t.text = Bytes.ofString (Alphabet.name t.kind) then [] else " " ++ t.text.quote

/-- One line of a dump, two blanks deeper at each level, written before the rest of the text. -/
def dumpLine (depth : Nat) (kind : κ) (note rest : Bytes) : Bytes :=
  List.replicate (2 * depth) (Bytes.ascii ' ') ++
    (Bytes.ofString (Alphabet.name kind) ++ (note ++ Bytes.ascii '\n' :: rest))

mutual

/-- One line for each node, each node before its children, and then the rest of the text. -/
def dumpOnto (depth : Nat) : Node κ → Bytes → Bytes
  | .absent, rest => rest
  | .leaf t, rest => dumpLine depth t.kind (lexemeText t) rest
  | .branch k t cs, rest => dumpLine depth k (typesText t) (dumpAllOnto (depth + 1) cs rest)

def dumpAllOnto (depth : Nat) : List (Node κ) → Bytes → Bytes
  | [], rest => rest
  | c :: cs, rest => c.dumpOnto depth (dumpAllOnto depth cs rest)

end

/-- The tree as indented text. -/
def dump (n : Node κ) : Except Violation Bytes :=
  if n.hasAbsent then .error .absentNode else .ok (n.dumpOnto 0 [])

end Node

/-- The syntax tree of a derivation: a node for each rule, a leaf for each token. -/
def Derivation.tree {κ : Type} {g : Grammar κ} (d : Derivation g) : Node κ :=
  d.eval .leaf fun r children => .new r.lhs children

end IrafCl
