import IrafCl.Grammar.Basic

/-!
# What a symbol can begin with

`nullable` is the set of nonterminals that derive the empty string, and `firstSets` gives for each
nonterminal the terminals that a string derived from it can begin with. Both are least fixed points,
reached by repeating a monotone step; a chain of steps never needs to be longer than the number of
rules. From them follow the lookaheads that prediction is filtered by.
-/

namespace IrafCl

/-- For each rule, in order, the terminals before which it may be tried. -/
abbrev Lookaheads (κ : Type) := Array (List κ)

/-- For each nonterminal the terminals found so far. -/
abbrev FirstSets (κ : Type) := List (κ × List κ)

namespace Grammar

variable {κ : Type} [DecidableEq κ]

/-- Repeats a step until nothing changes, at most `fuel` times. -/
def settle {α : Type} [DecidableEq α] (step : α → α) : Nat → α → α
  | 0, a => a
  | fuel + 1, a => if step a = a then a else settle step fuel (step a)

/-- The union of two sets, the new elements at the end. -/
def union (a b : List κ) : List κ := a ++ b.filter fun x => !a.contains x

/-- The nonterminals with a rule whose symbols are all in `known`. -/
def nullableStep (g : Grammar κ) (known : List κ) : List κ :=
  g.nonterminals.filter fun s =>
    g.rules.any fun r => r.lhs = s && r.rhs.all fun x => known.contains x

/-- The nonterminals that derive the empty string. -/
def nullable (g : Grammar κ) : List κ := settle g.nullableStep (g.rules.size + 1) []

/-- The set of a nonterminal. -/
def FirstSets.of (sets : FirstSets κ) (s : κ) : List κ :=
  ((sets.find? fun (t, _) => t = s).map (·.2)).getD []

/-- The terminals that a sequence of symbols can begin with. -/
def sequenceFirst (g : Grammar κ) (nullable : List κ) (sets : FirstSets κ) : List κ → List κ
  | [] => []
  | s :: rest =>
    if !g.isNonterminal s then [s]
    else if nullable.contains s then union (FirstSets.of sets s) (sequenceFirst g nullable sets rest)
    else FirstSets.of sets s

/-- Adds to each set what the rules of its nonterminal can begin with. -/
def firstStep (g : Grammar κ) (nullable : List κ) (sets : FirstSets κ) : FirstSets κ :=
  sets.map fun (s, set) =>
    (s, g.rules.foldl (fun set r =>
      if r.lhs = s then union set (g.sequenceFirst nullable sets r.rhs).eraseDups else set) set)

/-- The terminals that strings of each nonterminal can begin with. -/
def firstSets (g : Grammar κ) : FirstSets κ :=
  settle (g.firstStep g.nullable) (g.rules.size + 1) (g.nonterminals.map fun s => (s, []))

/-- The lookaheads of all rules: what a right-hand side can begin with, and every terminal of the
grammar if it can vanish. -/
def lookaheads (g : Grammar κ) : Lookaheads κ :=
  let nullable := g.nullable
  let sets := g.firstSets
  let terminals := g.terminals
  g.rules.map fun r =>
    let first := g.sequenceFirst nullable sets r.rhs
    if r.rhs.all fun s => nullable.contains s then union first terminals else first

/-- The rules of a nonterminal that may be tried before a terminal, in order. -/
def candidates (g : Grammar κ) (table : Lookaheads κ) (s t : κ) : List g.Index :=
  g.indices.filter fun i => (g.rule i).lhs = s && table[i.val]?.any fun first => first.contains t

end Grammar

end IrafCl
