import IrafCl.Text.Scalar

/-!
# Regular expressions

A regular expression is matched from a position onwards. `ends` lists every position where a match
can stop, in order of preference: the first alternative before the second, a greedy repetition longest
first. The match is the first of them. The list is also what the matching relation says: a text is
matched in full when the end of the text is in it.
-/

namespace IrafCl

/-- A set of code points: the ranges, or everything outside them. -/
structure CharClass where
  ranges : List (Nat × Nat)
  negated : Bool := false
  deriving DecidableEq, Repr

namespace CharClass

def contains (cls : CharClass) (code : Nat) : Bool :=
  (cls.ranges.any fun (lo, hi) => lo ≤ code && code ≤ hi) != cls.negated

/-- The class of one character. -/
def single (c : Char) : CharClass := ⟨[(c.toNat, c.toNat)], false⟩

/-- The characters from `a` to `b`. -/
def range (a b : Char) : Nat × Nat := (a.toNat, b.toNat)

/-- The given characters. -/
def of (cs : List Char) : CharClass := ⟨cs.map fun c => (c.toNat, c.toNat), false⟩

/-- Every character but the given ones. -/
def except (cs : List Char) : CharClass := ⟨cs.map fun c => (c.toNat, c.toNat), true⟩

/-- Every character but the newline. -/
def anyButNewline : CharClass := except ['\n']

def digits : CharClass := ⟨[range '0' '9'], false⟩

end CharClass

/-- A regular expression. -/
inductive Regex where
  | empty
  | one (cls : CharClass)
  | wordBoundary (isBoundary : Bool)
  | textStart
  | textEnd
  | seq (a b : Regex)
  | alt (a b : Regex)
  | star (a : Regex) (greedy : Bool)
  | plus (a : Regex) (greedy : Bool)
  | optional (a : Regex) (greedy : Bool)
  deriving DecidableEq, Repr

/-- A position in a text: the byte before it, if any, and the text after it. -/
structure Cursor where
  before : Option UInt8
  rest : Bytes
  deriving DecidableEq, Repr

namespace Cursor

/-- Letters, digits and the underscore of ASCII. -/
def isWordByte (b : UInt8) : Bool :=
  Bytes.isDigit b || Bytes.isLower b || Bytes.isUpper b || b == 95

/-- Whether a word ends or begins at the position. -/
def atWordBoundary (c : Cursor) : Bool :=
  c.before.any isWordByte != c.rest.head?.any isWordByte

/-- The position after one element of a class. -/
def step? (cls : CharClass) (c : Cursor) : Option Cursor :=
  match c.rest with
  | [] => none
  | b :: bs =>
    let s := Scalar.first b bs
    if cls.contains s.code then some ⟨some b, bs.drop (s.width - 1)⟩ else none

end Cursor

namespace Regex

/-- Repeats a step as long as it makes progress, in order of preference. A round that matches nothing
ends the repetition. -/
def repeatEnds (greedy : Bool) (step : Cursor → List Cursor) : Nat → Cursor → List Cursor
  | 0, c => [c]
  | fuel + 1, c =>
    let more := (step c).flatMap fun d =>
      if d.rest.length < c.rest.length then repeatEnds greedy step fuel d else [d]
    if greedy then more ++ [c] else c :: more

/-- Every position where a match from `c` can stop, the preferred one first. -/
def ends : Regex → Cursor → List Cursor
  | .empty, c => [c]
  | .one cls, c => (c.step? cls).toList
  | .wordBoundary isBoundary, c => if c.atWordBoundary == isBoundary then [c] else []
  | .textStart, c => if c.before.isNone then [c] else []
  | .textEnd, c => if c.rest.isEmpty then [c] else []
  | .seq a b, c => (a.ends c).flatMap b.ends
  | .alt a b, c => a.ends c ++ b.ends c
  | .star a greedy, c => repeatEnds greedy a.ends c.rest.length c
  | .plus a greedy, c =>
    (a.ends c).flatMap fun d =>
      if d.rest.length < c.rest.length then repeatEnds greedy a.ends d.rest.length d else [d]
  | .optional a greedy, c => if greedy then a.ends c ++ [c] else c :: a.ends c

/-- The length of the preferred match at the beginning of a text. -/
def matchLength? (r : Regex) (text : Bytes) : Option Nat :=
  (r.ends ⟨none, text⟩).head?.map fun c => text.length - c.rest.length

/-- Whether a whole text is matched. -/
def matchesAll (r : Regex) (text : Bytes) : Bool :=
  (r.ends ⟨none, text⟩).any fun c => c.rest.isEmpty

/-! ## Building expressions -/

/-- One after the other. -/
def concat : List Regex → Regex
  | [] => .empty
  | [r] => r
  | r :: rs => .seq r (concat rs)

/-- The first that matches. -/
def choice : List Regex → Regex
  | [] => .empty
  | [r] => r
  | r :: rs => .alt r (choice rs)

/-- A literal text. -/
def text (s : String) : Regex := concat (s.toList.map fun c => .one (CharClass.single c))

/-- Zero or more, as many as possible. -/
def many (r : Regex) : Regex := .star r true

/-- One or more, as many as possible. -/
def many1 (r : Regex) : Regex := .plus r true

/-- Zero or one, one if possible. -/
def opt (r : Regex) : Regex := .optional r true

end Regex

end IrafCl
