import IrafCl.Tree.Node

/-!
# Walks

A walk visits the nodes of a tree and calls handlers by kind. Top-down, a handler runs before the
children and may skip them together with the exit handler of the node; bottom-up, it runs after them.
Empty places are passed over. A walk is described by the calls it makes.
-/

namespace IrafCl

/-- What a handler says about the children of its node. -/
inductive Action where
  | descend
  | skip
  deriving DecidableEq, Repr

/-- The handlers of a walk: on entering a kind, for kinds without a handler, and on leaving. -/
structure Walker (κ : Type) where
  enter : κ → Option Action
  otherwise : Option Action
  exit : κ → Bool

/-- A handler call. -/
inductive Visit (κ : Type) where
  | enter (kind : κ) (text : Bytes)
  | exit (kind : κ)

namespace Walker

variable {κ : Type} (w : Walker κ)

/-- The handler that a kind is given to. -/
def handler? (k : κ) : Option Action := (w.enter k).or w.otherwise

/-- The call on entering a node, if any. -/
def entering (k : κ) (text : Bytes) : List (Visit κ) :=
  if (w.handler? k).isSome then [.enter k text] else []

def leaving (k : κ) : List (Visit κ) := if w.exit k then [.exit k] else []

mutual

/-- The calls of a walk from the top down. -/
def preorder : Node κ → List (Visit κ)
  | .absent => []
  | .leaf t =>
    w.entering t.kind t.text ++ if w.handler? t.kind = some .skip then [] else w.leaving t.kind
  | .branch k _ cs =>
    w.entering k [] ++ if w.handler? k = some .skip then [] else preorderAll cs ++ w.leaving k

/-- The calls of top-down walks one after the other. -/
def preorderAll : List (Node κ) → List (Visit κ)
  | [] => []
  | c :: cs => preorder c ++ preorderAll cs

end

mutual

/-- The calls of a walk from the bottom up. -/
def postorder : Node κ → List (Visit κ)
  | .absent => []
  | .leaf t => w.entering t.kind t.text
  | .branch k _ cs => postorderAll cs ++ w.entering k []

def postorderAll : List (Node κ) → List (Visit κ)
  | [] => []
  | c :: cs => postorder c ++ postorderAll cs

end

end Walker

end IrafCl
