import IrafCl.Chart

/-!
# Derivations

A derivation is a tree of rules over tokens. It is read off a chart backwards, from the accepting item
and from right to left: a terminal before the dot is the token before the position, and for a
nonterminal one of the links is followed. Where several links can be followed a resolver chooses.
Items that are being derived already are not followed again, which keeps cyclic grammars finite.
-/

namespace IrafCl

variable {κ : Type}

/-- A derivation: a token, or a rule with the derivations of its right-hand side. -/
inductive Derivation (g : Grammar κ) where
  | token (t : Token κ)
  | node (rule : g.Index) (children : List (Derivation g))

namespace Derivation

variable {g : Grammar κ} {α : Type}

mutual

/-- Evaluates a derivation from its leaves up. The start rule stands for its first child. -/
def eval (token : Token κ → α) (node : Rule κ → List α → α) : Derivation g → α
  | .token t => token t
  | .node rule children =>
    let values := evalAll token node children
    if rule = g.first then values.headD (node (g.rule rule) []) else node (g.rule rule) values

def evalAll (token : Token κ → α) (node : Rule κ → List α → α) : List (Derivation g) → List α
  | [] => []
  | d :: ds => d.eval token node :: evalAll token node ds

end

/-- The value of a derivation, where the values of the children of a rule are reduced, or listed if the
rule has no reduction. -/
def value (token : Token κ → α) (list : List α → α) (reduce : Rule κ → List α → α) (d : Derivation g) : α :=
  d.eval token fun r values => if r.reduces then reduce r values else list values

end Derivation

/-! ## Choosing -/

/-- One way a nonterminal could have been completed: the rule, and where it began and ended. -/
structure Candidate (κ : Type) where
  rule : Rule κ
  origin : Nat
  state : Nat

/-- Answers with the position of the chosen candidate, or with a reason not to choose. -/
abbrev Resolver (κ : Type) := List (Candidate κ) → Except Bytes Int

namespace Resolver

/-- The position of the first candidate for which `better` holds against all before it. -/
def bestFrom (better : Candidate κ → Candidate κ → Bool) (best : Candidate κ) (position next : Nat) :
    List (Candidate κ) → Nat
  | [] => position
  | c :: rest =>
    if better c best then bestFrom better c next (next + 1) rest
    else bestFrom better best position (next + 1) rest

def best (better : Candidate κ → Candidate κ → Bool) : List (Candidate κ) → Nat
  | [] => 0
  | c :: rest => bestFrom better c 0 1 rest

/-- Prefers the fewest symbols on the right-hand side; the first of equals. -/
def shortestRule : Resolver κ := fun cs =>
  .ok (best (fun c b => c.rule.rhs.length < b.rule.rhs.length) cs)

/-- Prefers the most symbols on the right-hand side; the first of equals. -/
def longestRule : Resolver κ := fun cs =>
  .ok (best (fun c b => b.rule.rhs.length < c.rule.rhs.length) cs)

/-- Takes the last candidate. -/
def last : Resolver κ := fun cs => .ok ((cs.length : Int) - 1)

/-- Always gives the same answer. -/
def always (answer : Except Bytes Int) : Resolver κ := fun _ => answer

end Resolver

/-- A question that was put to the resolver, and its answer. -/
structure Choice (κ : Type) where
  candidates : List (Candidate κ)
  answer : Except Bytes Int

/-- The failure when no link can be chosen. -/
def ambiguity [Alphabet κ] (cs : List (Candidate κ)) (cause : Bytes) : Halt :=
  let names : Bytes := Bytes.join " | " (cs.map fun c => c.rule.text)
  .failure (.caused ⟨.ambiguous, "ambiguous parse between " ++ names ++ ": " ++ cause, 0⟩ (.plain cause))

namespace Chart

variable {g : Grammar κ}

/-- A step of reading a chart backwards: it may stop, and it remembers the choices made. -/
abbrev Reading (κ : Type) := ExceptT Halt (StateM (List (Choice κ)))

def broken {α : Type} (contract : Contract) (text : Bytes) : Reading κ α :=
  throw (.violation (.broken contract text))

def candidate (state : Nat) (it : Item g) : Candidate κ := ⟨g.rule it.rule, it.origin, state⟩

variable [DecidableEq κ]

/-- The completed items over which an item was advanced in the set at a position. -/
def linksOf (chart : Chart g) (it : Item g) (state : Nat) : List (Item g) :=
  match chart.sets[state]? with
  | some set => (set.links.filter fun (advanced, _) => advanced = it).map (·.2)
  | none => []

variable [Alphabet κ]

/-- Chooses among links the one to follow; those in `active` are being derived already. -/
def choose (resolver : Resolver κ) (active : List (Item g × Nat)) (state : Nat) (links : List (Item g)) :
    Reading κ (Item g) := do
  let usable := links.filter fun it => !active.contains (it, state)
  match links, usable with
  | [], _ => broken .invariant "advanced item must have a back-pointer"
  | _, [] => throw (ambiguity (links.map (candidate state)) "cyclic derivation")
  | _, [it] => return it
  | _, _ =>
    let cs := usable.map (candidate state)
    let answer := resolver cs
    modify (⟨cs, answer⟩ :: ·)
    match answer with
    | .error cause => throw (ambiguity cs cause)
    | .ok n =>
      match if n < 0 then none else usable[n.toNat]? with
      | some it => return it
      | none =>
        throw (ambiguity cs ("resolver chose " ++ Bytes.ofInt n ++ " of " ++
          Bytes.ofNat usable.length ++ " candidates"))

/-- Derives the symbols before the dot of an item, given in reverse, up to a position. The answer is
the position where they begin and their derivations, those given appended. -/
def walk (chart : Chart g) (tokens : Array (Token κ)) (resolver : Resolver κ)
    (active : List (Item g × Nat)) (derive : Item g → Nat → Reading κ (Derivation g)) :
    List κ → Item g → Nat → List (Derivation g) → Reading κ (Nat × List (Derivation g))
  | [], _, state, tail => return (state, tail)
  | s :: before, it, state, tail => do
    let back : Item g := { it with dot := it.dot - 1 }
    if g.isNonterminal s then
      let child ← choose resolver active state (chart.linksOf it state)
      let d ← derive child state
      walk chart tokens resolver active derive before back child.origin (d :: tail)
    else match state with
      | 0 => broken .invariant ("terminal " ++ Alphabet.name s ++ " must consume a token")
      | state + 1 => match tokens[state]? with
        | some t => walk chart tokens resolver active derive before back state (.token t :: tail)
        | none => broken .invariant ("terminal " ++ Alphabet.name s ++ " must consume a token")

/-- Derives a completed item that ends at a position. -/
def derive (chart : Chart g) (tokens : Array (Token κ)) (resolver : Resolver κ) :
    Nat → List (Item g × Nat) → Item g → Nat → Reading κ (Derivation g)
  | 0, _, _, _ => broken .invariant "a derivation is no deeper than its chart"
  | fuel + 1, active, it, state => do
    let active := (it, state) :: active
    let rule := g.rule it.rule
    let (start, children) ←
      walk chart tokens resolver active (derive chart tokens resolver fuel active)
        rule.rhs.reverse it state []
    if start = it.origin then return .node it.rule children
    else broken .postcondition ("derivation of " ++ rule.text ++ " must start at state " ++
      Bytes.ofNat it.origin ++ ", got " ++ Bytes.ofNat start)

/-- The number of items in a chart. -/
def size (chart : Chart g) : Nat :=
  chart.sets.toList.foldr (fun s n => s.items.length + n) 0

end Chart

/-- A parse: the steps of the chart, the choices of the resolver, and the derivation or the reason why
there is none. -/
structure Parse (g : Grammar κ) where
  steps : List (ChartStep κ)
  choices : List (Choice κ)
  outcome : Except Halt (Derivation g)

/-- Parses a token list. The table holds the lookaheads of the grammar. -/
def Grammar.parseWith [DecidableEq κ] [Alphabet κ] (g : Grammar κ) (table : Lookaheads κ)
    (resolver : Resolver κ) (tokens : List (Token κ)) : Parse g :=
  let tokens := Chart.withEnd tokens
  match Chart.recognise g table tokens with
  | (steps, .error f) => ⟨steps, [], .error (.failure f)⟩
  | (steps, .ok chart) =>
    let (outcome, choices) :=
      (chart.derive tokens.toArray resolver (chart.size + 1) [] (Chart.accepting g) tokens.length).run []
    ⟨steps, choices.reverse, outcome⟩

/-- Parses a token list. -/
def Grammar.parse [DecidableEq κ] [Alphabet κ] (g : Grammar κ) (resolver : Resolver κ)
    (tokens : List (Token κ)) : Parse g :=
  g.parseWith g.lookaheads resolver tokens

end IrafCl
