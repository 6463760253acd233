import IrafCl.Contract
import IrafCl.Grammar.First
import IrafCl.Log

/-!
# Charts

A chart has a state set for every position of the token list. An item in the set at position `i` is a
rule with a dot: the symbols before the dot derive the tokens from the item's origin up to `i`. A set is
closed by working through its items in order of arrival: a nonterminal after the dot brings in the
rules that may begin with the next token, and a completed rule advances every item that waits for it
where it began. A nonterminal that was completed without consuming anything advances later arrivals
at once. Each advance over a nonterminal leaves a link to the completed item behind it, also when the
advanced item is already there: the links are all ways to read the chart backwards.
-/

namespace IrafCl

variable {κ : Type}

/-- A dotted rule and the position where it began. -/
structure Item (g : Grammar κ) where
  rule : g.Index
  dot : Nat
  origin : Nat
  deriving DecidableEq

namespace Item

variable {g : Grammar κ}

def lhs (it : Item g) : κ := (g.rule it.rule).lhs

/-- The symbols after the dot. -/
def rest (it : Item g) : List κ := (g.rule it.rule).rhs.drop it.dot

/-- The symbol after the dot. -/
def next? (it : Item g) : Option κ := it.rest.head?

def isComplete (it : Item g) : Bool := it.rest.isEmpty

/-- The item with its dot one symbol further. -/
def advance (it : Item g) : Item g := { it with dot := it.dot + 1 }

end Item

/-- A closed state set: its items and links in order of arrival. A link pairs an advanced item with
the completed item it was advanced over. -/
structure StateSet (g : Grammar κ) where
  items : List (Item g)
  links : List (Item g × Item g)

/-- A state set that is being closed. Items that were worked off and links are in reverse order. -/
structure Closing (g : Grammar κ) where
  done : List (Item g)
  todo : List (Item g)
  links : List (Item g × Item g)

variable [DecidableEq κ]

namespace Closing

variable {g : Grammar κ}

/-- All items in order of arrival. -/
def items (c : Closing g) : List (Item g) := c.done.reverse ++ c.todo

def seen (c : Closing g) (it : Item g) : Bool := c.done.contains it || c.todo.contains it

/-- Appends an item to the work list. -/
def push (c : Closing g) (it : Item g) : Closing g := { c with todo := c.todo ++ [it] }

/-- Records that `advanced` was reached over `child`. -/
def link (c : Closing g) (advanced child : Item g) : Closing g :=
  { c with links := (advanced, child) :: c.links }

/-- The completed items of a nonterminal that began in this very set, in order. -/
def completedHere (c : Closing g) (i : Nat) (s : κ) : List (Item g) :=
  c.done.reverse.filter fun it => it.isComplete && it.origin = i && it.lhs = s

/-- Adds an item whose symbols after the dot are given, unless it is there already. If it waits for
something that was completed here without consuming a token, it is advanced at once. -/
def addRest (i : Nat) : List κ → Item g → Closing g → Closing g
  | [], it, c => if c.seen it then c else c.push it
  | s :: rest, it, c =>
    if c.seen it then c
    else (c.completedHere i s).foldl
      (fun c child => addRest i rest it.advance (c.link it.advance child)) (c.push it)

/-- Adds an item to the set at position `i`. -/
def add (i : Nat) (it : Item g) (c : Closing g) : Closing g := addRest i it.rest it c

/-- Advances an item over a completed one. -/
def advanceOver (i : Nat) (child : Item g) (c : Closing g) (parent : Item g) : Closing g :=
  (c.link parent.advance child).add i parent.advance

/-- The items that wait for a nonterminal. -/
def waiting (items : List (Item g)) (s : κ) : List (Item g) :=
  items.filter fun it => it.next? = some s

/-- Works off an item that already counts as done. -/
def process (table : Lookaheads κ) (earlier : Array (StateSet g)) (i : Nat) (ahead : κ)
    (it : Item g) (before : List (Item g)) (c : Closing g) : Closing g :=
  match it.next? with
  | none =>
    let parents := match earlier[it.origin]? with
      | some set => waiting set.items it.lhs
      | none => waiting c.items it.lhs
    parents.foldl (advanceOver i it) c
  | some s =>
    if g.isNonterminal s && !before.any (fun d => d.next? = some s) then
      (g.candidates table s ahead).foldl (fun c r => c.add i ⟨r, 0, i⟩) c
    else c

/-- Works off the items of a set in order of arrival. -/
def close (table : Lookaheads κ) (earlier : Array (StateSet g)) (i : Nat) (ahead : κ) :
    Nat → Closing g → Closing g
  | 0, c => c
  | fuel + 1, c =>
    match c.todo with
    | [] => c
    | it :: todo =>
      close table earlier i ahead fuel
        (process table earlier i ahead it c.done { c with done := it :: c.done, todo })

end Closing

/-- A line of the parser's log: a position, the number of items there, and the symbol ahead. -/
structure ChartStep (κ : Type) where
  state : Nat
  items : Nat
  ahead : κ

def ChartStep.record [Alphabet κ] (s : ChartStep κ) : Log.Record :=
  ⟨.debug, "earley state",
    [("state", Bytes.ofNat s.state), ("items", Bytes.ofNat s.items),
      ("lookahead", Bytes.ofString (Alphabet.name s.ahead))]⟩

/-- The chart of a token list that a grammar derives. -/
structure Chart (g : Grammar κ) where
  sets : Array (StateSet g)

namespace Chart

variable {g : Grammar κ}

/-- How many different items a set at position `i` can have. -/
def itemBound (g : Grammar κ) (i : Nat) : Nat :=
  g.rules.toList.foldr (fun r n => r.rhs.length + 1 + n) 0 * (i + 1)

/-- The closed set at position `i` that grows from the given items. -/
def stateSet (table : Lookaheads κ) (earlier : Array (StateSet g)) (i : Nat) (ahead : κ)
    (kernel : List (Item g)) : StateSet g :=
  let c := Closing.close table earlier i ahead (itemBound g i) ⟨[], kernel, []⟩
  ⟨c.items, c.links.reverse⟩

/-- The items that a token carries over to the next position. -/
def scanned (set : StateSet g) (kind : κ) : List (Item g) :=
  (set.items.filter fun it => it.next? = some kind && !g.isNonterminal kind).map Item.advance

/-- The completed start rule over the whole input. -/
def accepting (g : Grammar κ) : Item g := ⟨g.first, (g.rule g.first).rhs.length, 0⟩

variable [Alphabet κ]

/-- The failure at a token that cannot be read. -/
def syntaxFailure (t : Token κ) : Failure :=
  if t.kind = Alphabet.eof then .atLine .syntactic t.line "syntax error: unexpected end of input"
  else
    let shown : Bytes := if t.text.isEmpty || t.text = "\n" then Alphabet.name t.kind else t.text
    .atLine .syntactic t.line ("syntax error at or near " ++ shown.quote)

/-- The token list, closed by an end of input on the line of its last token. -/
def withEnd (tokens : List (Token κ)) : List (Token κ) :=
  match tokens.getLast? with
  | none => [⟨Alphabet.eof, [], none, 1⟩]
  | some last =>
    if last.kind = Alphabet.eof then tokens else tokens ++ [⟨Alphabet.eof, [], none, last.line⟩]

/-- Reads the tokens from position `i` on, where `last` is the token before. -/
def recogniseFrom (table : Lookaheads κ) (earlier : Array (StateSet g)) (i : Nat)
    (kernel : List (Item g)) (last : Option (Token κ)) :
    List (Token κ) → List (ChartStep κ) × Except Failure (Chart g)
  | [] =>
    let set := stateSet table earlier i Alphabet.eof kernel
    let outcome := match set.items.contains (accepting g), last with
      | false, some t => .error (syntaxFailure t)
      | _, _ => .ok ⟨earlier.push set⟩
    ([⟨i, set.items.length, Alphabet.eof⟩], outcome)
  | t :: rest =>
    let set := stateSet table earlier i t.kind kernel
    let step : ChartStep κ := ⟨i, set.items.length, t.kind⟩
    match scanned set t.kind with
    | [] => ([step], .error (syntaxFailure t))
    | kernel =>
      let (steps, outcome) := recogniseFrom table (earlier.push set) (i + 1) kernel (some t) rest
      (step :: steps, outcome)

/-- Builds the chart of a token list that ends with the end of input. -/
def recognise (g : Grammar κ) (table : Lookaheads κ) (tokens : List (Token κ)) :
    List (ChartStep κ) × Except Failure (Chart g) :=
  recogniseFrom table #[] 0 [⟨g.first, 0, 0⟩] none tokens

end Chart

end IrafCl
