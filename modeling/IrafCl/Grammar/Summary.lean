import IrafCl.Grammar.First

/-!
# Facts about a grammar, by name

What a grammar answers about its symbols when symbols are names: the sorted terminals, the sorted
first set of a symbol (the empty name stands for the empty string), and the rules that may be tried
before a terminal.
-/

namespace IrafCl.Grammar

/-- Names in ascending order. -/
def sortNames (names : List String) : List String := names.mergeSort fun a b => !decide (b < a)

/-- The terminals in ascending order. -/
def terminalNames (g : Grammar String) : List String := sortNames g.terminals

/-- The first set of a symbol in ascending order. -/
def firstNames (g : Grammar String) (s : String) : List String :=
  if g.isNonterminal s then
    (if g.nullable.contains s then [""] else []) ++ sortNames (FirstSets.of g.firstSets s)
  else [s]

/-- The rules of a nonterminal that may be tried before a terminal. -/
def candidateRules (g : Grammar String) (s t : String) : List (Rule String) :=
  (g.candidates g.lookaheads s t).map g.rule

/-- The same grammar with its symbols replaced by their names. -/
def named {κ : Type} [Alphabet κ] (g : Grammar κ) : Grammar String where
  rules := g.rules.map fun r =>
    ⟨Alphabet.name r.lhs, r.rhs.map Alphabet.name, r.name, r.reduces⟩
  nonempty := by simpa using g.nonempty

end IrafCl.Grammar
