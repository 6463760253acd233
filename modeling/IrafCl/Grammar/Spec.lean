import IrafCl.Failure
import IrafCl.Grammar.Basic
import IrafCl.Text.Blank
import IrafCl.Text.Quoted

/-!
# Grammars as text

A specification holds rules in the notation `lhs ::= symbol symbol …`, one on a line; blank lines are
skipped. Symbols are separated by white space, and the right-hand side may be empty. Specifications
are read in order, and the first fault is reported.
-/

namespace IrafCl

/-- Some rules as text, with a name for messages and what their values are. -/
structure RuleSpec where
  text : String
  name : String
  reduces : Bool

namespace RuleSpec

/-- Removes blanks from the two ends. -/
def trim (cs : List Char) : List Char :=
  ((cs.dropWhile fun c => isBlank c.toNat).reverse.dropWhile fun c => isBlank c.toNat).reverse

/-- The lines of a text. -/
def lines : List Char → List (List Char)
  | [] => [[]]
  | c :: cs =>
    if c = '\n' then [] :: lines cs
    else match lines cs with
      | [] => [[c]]
      | l :: ls => (c :: l) :: ls

/-- What stands before and after the first `::=`. -/
def halves? : List Char → Option (List Char × List Char)
  | ':' :: ':' :: '=' :: rest => some ([], rest)
  | c :: rest => (halves? rest).map fun (l, r) => (c :: l, r)
  | [] => none

/-- The words of a text, given the letters of the word read so far in reverse. -/
def wordsFrom (word : List Char) : List Char → List String
  | [] => if word.isEmpty then [] else [String.ofList word.reverse]
  | c :: cs =>
    if isBlank c.toNat then
      if word.isEmpty then wordsFrom [] cs else String.ofList word.reverse :: wordsFrom [] cs
    else wordsFrom (c :: word) cs

def quoteChars (cs : List Char) : Bytes := Bytes.quote (String.ofList cs : Bytes)

/-- Reads one line that is not blank. -/
def readLine (spec : RuleSpec) (line : List Char) : Except Failure (Rule String) :=
  let fault (text : Bytes) : Except Failure (Rule String) :=
    .error (.plain ("rule " ++ Bytes.quote spec.name ++ ": " ++ text))
  match halves? line with
  | none => fault ("missing '::=' in " ++ quoteChars line)
  | some (l, r) =>
    let lhs := trim l
    if lhs.isEmpty || lhs.any (fun c => c == ' ' || c == '\t') then
      fault ("invalid left-hand side " ++ quoteChars lhs)
    else
      let name := String.ofList lhs
      .ok ⟨name, wordsFrom [] r, if spec.name = "" then name else spec.name, spec.reduces⟩

/-- The rules of one specification. -/
def rules (spec : RuleSpec) : Except Failure (List (Rule String)) := do
  let written := (lines spec.text.toList).map trim |>.filter (!·.isEmpty)
  let rs ← written.mapM spec.readLine
  if rs.isEmpty then .error (.plain ("rule " ++ Bytes.quote spec.name ++ " declares no productions"))
  else return rs

/-- The rules of several specifications; none may have the reserved start symbol on the left. -/
def readAll : List RuleSpec → Except Failure (List (Rule String))
  | [] => .ok []
  | spec :: specs => do
    let rs ← spec.rules
    if rs.any (fun r => r.lhs = "START") then
      .error (.plain "START is reserved for the synthetic start rule")
    else
      let more ← readAll specs
      return rs ++ more

end RuleSpec

/-- The grammar of some specifications. -/
def Grammar.ofSpecs (start : String) (specs : List RuleSpec) : Except Failure (Grammar String) := do
  let rules ← RuleSpec.readAll specs
  let g := Grammar.ofRules start rules
  if g.isNonterminal start then return g
  else .error (.plain ("start symbol " ++ Bytes.quote start ++ " has no productions"))

end IrafCl
