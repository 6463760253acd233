import IrafCl.Proofs.Script.Constants
import IrafCl.Proofs.Script.Names

/-!
# The Python expression of a CL expression

Every operator of a CL expression becomes the Python operator of the same meaning, between the same operands
(`Expr.meaning`): parentheses vanish, a conversion is a call on exactly the operand it is for, and subscripts
count from zero. A concatenation is printed without parentheses around its operands, so of several ones in a row
the left ones come first (`Expr.leftNested`).
-/

namespace IrafCl.Script

/-! ## Operator trees -/

def UnaryOp.tree (op : UnaryOp) (e : Python.Tree) : Python.Tree :=
  match op with
  | .minus => .minus e
  | .plus => .plus e
  | .not => .not e

/-- An integer, which may be negative. -/
def intTree : Int → Python.Tree
  | .ofNat n => .number (Bytes.ofNat n)
  | .negSucc n => .minus (.number (Bytes.ofNat (n + 1)))

/-- The index that a subscript becomes: one less, which is computed if it is an integer constant. -/
def indexTree (e : Expr) (value : Python.Tree) : Python.Tree :=
  match constantIndex? e with
  | some n => intTree (n - 1)
  | none => .binary .sub value (.number "1")

/-- The names in the keyword of an argument. -/
def keyNames (key : Bytes) : List Bytes := Code.parts (Code.identifier key)

mutual

/-- The Python expression with the same operator tree. -/
def Expr.meaning (c : Context) : Expr → Python.Tree
  | .constant k => k.tree
  | .name path => referenceTree (c.reference path)
  | .element path index => .index (referenceTree (c.array path)) (Expr.indices c index)
  | .call fn args =>
    .call (.path (functionPath fn))
      (if args.isEmpty then []
      else if scanFunctions.contains fn then (none, .call (.path ["locals"]) []) :: Arg.scannedMeanings c args
      else Arg.meanings c args)
  | .cast type args => .call (.path (castFunction type)) (Arg.meanings c args)
  | .paren e => e.meaning c
  | .unary op e => op.tree (e.meaning c)
  | .binary op l r => .binary op.lower (l.meaning c) (r.meaning c)
  | .convert types e =>
    match conversion? types with
    | some fn => .call (.path fn) [(none, e.meaning c)]
    | none => e.meaning c

def Expr.indices (c : Context) : List Expr → List Python.Tree
  | [] => []
  | e :: es => indexTree e (e.meaning c) :: Expr.indices c es

/-- The keyword and the value of an argument. -/
def Arg.meaning (c : Context) : Arg → Option (List Bytes) × Python.Tree
  | .mk key e => (key.map keyNames, e.meaning c)

def Arg.meanings (c : Context) : List Arg → List (Option (List Bytes) × Python.Tree)
  | [] => []
  | a :: as => a.meaning c :: Arg.meanings c as

/-- The arguments of a scanning function: a plain name is passed as text. -/
def Arg.scannedMeanings (c : Context) : List Arg → List (Option (List Bytes) × Python.Tree)
  | [] => []
  | a :: as =>
    (match plainName? a with
      | some path => (none, .string (c.reference path).text)
      | none => a.meaning c) :: Arg.scannedMeanings c as

end

/-! ## Concatenations -/

/-- Puts a string before the first one of a concatenation. -/
def concatenate (l : Expr) : Expr → Expr
  | .binary .concat a b => .binary .concat (concatenate l a) b
  | r => .binary .concat l r

mutual

/-- The expression with its concatenations nested to the left. -/
def Expr.leftNested : Expr → Expr
  | .constant k => .constant k
  | .name path => .name path
  | .element path index => .element path (Expr.leftNestedAll index)
  | .call fn args => .call fn (Arg.leftNestedAll args)
  | .cast type args => .cast type (Arg.leftNestedAll args)
  | .paren e => .paren e.leftNested
  | .unary op e => .unary op e.leftNested
  | .binary op l r => if op = .concat then concatenate l.leftNested r.leftNested else .binary op l.leftNested r.leftNested
  | .convert types e => .convert types e.leftNested

def Expr.leftNestedAll : List Expr → List Expr
  | [] => []
  | e :: es => e.leftNested :: Expr.leftNestedAll es

def Arg.leftNested : Arg → Arg
  | .mk key e => .mk key e.leftNested

def Arg.leftNestedAll : List Arg → List Arg
  | [] => []
  | a :: as => a.leftNested :: Arg.leftNestedAll as

end

/-- Concatenation is associative once it is nested to the left. -/
theorem concatenate_assoc (l a b : Expr) : concatenate l (concatenate a b) = concatenate (concatenate l a) b := by
  induction b using concatenate.induct with
  | case1 x y ih => simp only [concatenate, ih]
  | case2 b hb => rw [concatenate.eq_2 a b hb, concatenate, concatenate.eq_2 _ b hb]

theorem concatenate_eq (l r : Expr) : ∃ a b, concatenate l r = .binary .concat a b := by
  induction r using concatenate.induct with
  | case1 x y _ => exact ⟨_, _, by rw [concatenate]⟩
  | case2 r hr => exact ⟨l, r, concatenate.eq_2 l r hr⟩

/-- The strings that a concatenation joins. -/
def Expr.strings : Expr → List Expr
  | .binary .concat l r => l.strings ++ r.strings
  | e => [e]

theorem strings_concatenate (l r : Expr) : (concatenate l r).strings = l.strings ++ r.strings := by
  induction r using concatenate.induct with
  | case1 x y ih => rw [concatenate, Expr.strings, ih, Expr.strings, List.append_assoc]
  | case2 r hr => rw [concatenate.eq_2 l r hr, Expr.strings]

/-- Nesting to the left only moves parentheses: the same strings are joined in the same order. -/
theorem strings_leftNested (e : Expr) : e.leftNested.strings = e.strings.map Expr.leftNested := by
  induction e using Expr.strings.induct with
  | case1 l r ihl ihr =>
    rw [Expr.leftNested, if_pos rfl, strings_concatenate, ihl, ihr, Expr.strings, List.map_append]
  | case2 e he =>
    have hne : ∀ l r, e.leftNested ≠ .binary .concat l r := by
      intro l r heq
      cases e with
      | binary op x y =>
        rw [Expr.leftNested] at heq
        split at heq
        · next hop => exact he x y (by rw [hop])
        · next hop => exact hop (by cases heq; rfl)
      | _ => cases heq
    rw [Expr.strings.eq_2 e he, Expr.strings.eq_2 _ hne, List.map_singleton]

/-- Nesting does not change what kind of subscript an expression is. -/
theorem constantIndex?_leftNested (e : Expr) : constantIndex? e.leftNested = constantIndex? e := by
  cases e with
  | binary op l r =>
    rw [Expr.leftNested]
    split
    · obtain ⟨a, b, heq⟩ := concatenate_eq l.leftNested r.leftNested
      rw [heq]
      rfl
    · rfl
  | _ => rfl

theorem plainName?_leftNested (a : Arg) : plainName? a.leftNested = plainName? a := by
  obtain ⟨key, e⟩ := a
  cases e with
  | binary op l r =>
    rw [Arg.leftNested, Expr.leftNested]
    split
    · obtain ⟨x, y, heq⟩ := concatenate_eq l.leftNested r.leftNested
      rw [heq]
      cases key <;> rfl
    · cases key <;> rfl
  | _ => cases key <;> rfl

theorem isEmpty_leftNestedAll (as : List Arg) : (Arg.leftNestedAll as).isEmpty = as.isEmpty := by
  cases as <;> rfl

end IrafCl.Script
