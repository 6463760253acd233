import IrafCl.Token

/-!
# Grammars

A grammar is a non-empty list of rules; the first one is the synthetic start rule, whose right-hand
side is the start symbol followed by the end of input. A symbol is a nonterminal exactly when it is
the left-hand side of some rule. Rules are told apart by their position, so two rules may read the
same.
-/

namespace IrafCl

/-- A rule of a grammar. `reduces` tells whether the value of the rule is built from the values of its
children, or is just the list of them. -/
structure Rule (κ : Type) where
  lhs : κ
  rhs : List κ
  name : String
  reduces : Bool
  deriving DecidableEq, Repr

/-- The rule in grammar notation. -/
def Rule.text {κ : Type} [Alphabet κ] (r : Rule κ) : Bytes :=
  Bytes.join " " ((Alphabet.name r.lhs : Bytes) :: "::=" :: r.rhs.map fun s => Bytes.ofString (Alphabet.name s))

/-- A list of rules, the start rule first. -/
structure Grammar (κ : Type) where
  rules : Array (Rule κ)
  nonempty : 0 < rules.size

namespace Grammar

variable {κ : Type}

/-- The grammar with the given start symbol and rules. -/
def ofRules [Alphabet κ] (start : κ) (rules : List (Rule κ)) : Grammar κ where
  rules := (⟨Alphabet.start, [start, Alphabet.eof], Alphabet.name (Alphabet.start : κ), true⟩ :: rules).toArray
  nonempty := by simp

/-- The number of a rule. -/
abbrev Index (g : Grammar κ) := Fin g.rules.size

/-- The start rule. -/
def first (g : Grammar κ) : g.Index := ⟨0, g.nonempty⟩

/-- The rule with a number. -/
def rule (g : Grammar κ) (i : g.Index) : Rule κ := g.rules[i]

/-- The numbers of all rules, in order. -/
def indices (g : Grammar κ) : List g.Index := List.finRange g.rules.size

variable [DecidableEq κ]

/-- Whether a symbol is the left-hand side of some rule. -/
def isNonterminal (g : Grammar κ) (s : κ) : Bool := g.rules.any fun r => r.lhs = s

/-- The nonterminals, each once, in the order of their first rule. -/
def nonterminals (g : Grammar κ) : List κ := (g.rules.toList.map (·.lhs)).eraseDups

/-- The symbols of right-hand sides that have no rules, each once. -/
def terminals (g : Grammar κ) : List κ :=
  ((g.rules.toList.flatMap (·.rhs)).filter fun s => !g.isNonterminal s).eraseDups

end Grammar

end IrafCl
