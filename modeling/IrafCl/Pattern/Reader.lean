import IrafCl.Pattern.Regex

/-!
# Regular expressions as text

The notation has literals, classes in brackets (with the named classes of ASCII), the dot, escapes,
groups (plain, named and without a capture), alternatives, and the repetitions `*`, `+`, `?` and
`{n,m}`, each with a lazy form marked by a question mark. A repetition of a repetition needs a group.
Reading answers nothing for text that is not an expression, and otherwise the expression together with
the names of its groups.
-/

namespace IrafCl.Regex.Reader

/-- An expression read from the front of a text. -/
structure Piece where
  regex : Regex
  names : List String
  rest : List Char

def isOctal (c : Char) : Bool := '0' ≤ c && c ≤ '7'

def hexDigit? (c : Char) : Option Nat :=
  if '0' ≤ c && c ≤ '9' then some (c.toNat - '0'.toNat)
  else if 'a' ≤ c && c ≤ 'f' then some (c.toNat - 'a'.toNat + 10)
  else if 'A' ≤ c && c ≤ 'F' then some (c.toNat - 'A'.toNat + 10)
  else none

/-- The ranges behind a class letter, and whether the letter means their complement. -/
def classLetter? : Char → Option (List (Nat × Nat) × Bool)
  | 'd' => some ([(48, 57)], false)
  | 'D' => some ([(48, 57)], true)
  | 's' => some ([(9, 10), (12, 13), (32, 32)], false)
  | 'S' => some ([(9, 10), (12, 13), (32, 32)], true)
  | 'w' => some ([(48, 57), (65, 90), (95, 95), (97, 122)], false)
  | 'W' => some ([(48, 57), (65, 90), (95, 95), (97, 122)], true)
  | _ => none

/-- The ranges behind a class name between colons. -/
def className? : String → Option (List (Nat × Nat))
  | "alnum" => some [(48, 57), (65, 90), (97, 122)]
  | "alpha" => some [(65, 90), (97, 122)]
  | "ascii" => some [(0, 127)]
  | "blank" => some [(9, 9), (32, 32)]
  | "cntrl" => some [(0, 31), (127, 127)]
  | "digit" => some [(48, 57)]
  | "graph" => some [(33, 126)]
  | "lower" => some [(97, 122)]
  | "print" => some [(32, 126)]
  | "punct" => some [(33, 47), (58, 64), (91, 96), (123, 126)]
  | "space" => some [(9, 13), (32, 32)]
  | "upper" => some [(65, 90)]
  | "word" => some [(48, 57), (65, 90), (95, 95), (97, 122)]
  | "xdigit" => some [(48, 57), (65, 70), (97, 102)]
  | _ => none

/-- The greatest code point. -/
def maxCode : Nat := 0x10FFFF

/-- The gaps that ascending ranges leave, from `lo` upwards. -/
def complement (lo : Nat) : List (Nat × Nat) → List (Nat × Nat)
  | [] => [(lo, maxCode)]
  | (a, b) :: rest => if lo < a then (lo, a - 1) :: complement (b + 1) rest else complement (b + 1) rest

/-- An escaped character, after the backslash: its code point and the rest. -/
def escape? : List Char → Option (Nat × List Char)
  | 'a' :: rest => some (7, rest)
  | 'f' :: rest => some (12, rest)
  | 'n' :: rest => some (10, rest)
  | 'r' :: rest => some (13, rest)
  | 't' :: rest => some (9, rest)
  | 'v' :: rest => some (11, rest)
  | 'x' :: '{' :: rest =>
    let ds := rest.takeWhile (· ≠ '}')
    match rest.dropWhile (· ≠ '}') with
    | _ :: after =>
      match ds.foldlM (fun n c => (hexDigit? c).map (16 * n + ·)) 0 with
      | some n => if ds.isEmpty || maxCode < n then none else some (n, after)
      | none => none
    | [] => none
  | 'x' :: a :: b :: rest => do
    let hi ← hexDigit? a
    let lo ← hexDigit? b
    return (16 * hi + lo, rest)
  | c :: rest =>
    if c = '0' || ('1' ≤ c && c ≤ '7' && rest.head?.any isOctal) then
      let ds := (rest.take 2).takeWhile isOctal
      some (ds.foldl (fun n d => 8 * n + (d.toNat - 48)) (c.toNat - 48), rest.drop ds.length)
    else if c.toNat < 0x80 && !c.isAlphanum then some (c.toNat, rest)
    else none
  | [] => none

/-- A class name after its opening bracket and colon, up to the first colon that a bracket follows. -/
def colonName? : List Char → Option (List Char × List Char)
  | ':' :: ']' :: rest => some ([], rest)
  | c :: rest => (colonName? rest).map fun (name, rest) => (c :: name, rest)
  | [] => none

/-- A named class after its opening bracket and colon: what it holds and the rest. A name that no
class has is a mistake; text without a closing colon is not a named class at all. -/
def namedClass? (cs : List Char) : Option (Option (List (Nat × Nat) × List Char)) :=
  (colonName? cs).map fun
    | ('^' :: name, rest) => (className? (String.ofList name)).map (complement 0 ·, rest)
    | (name, rest) => (className? (String.ofList name)).map (·, rest)

/-- One end of a range in a bracket class. -/
def classChar? : List Char → Option (Nat × List Char)
  | '\\' :: rest => escape? rest
  | c :: rest => some (c.toNat, rest)
  | [] => none

/-- The members of a bracket class up to its closing bracket, which counts as a member when it comes
first. -/
def classMembers? : Nat → Bool → List Char → Option (List (Nat × Nat) × List Char)
  | 0, _, _ => none
  | fuel + 1, atStart, cs =>
    match cs, atStart with
    | ']' :: rest, false => some ([], rest)
    | '[' :: ':' :: rest, _ =>
      match namedClass? rest with
      | none => member fuel cs
      | some found => do
        let (ranges, rest) ← found
        let (more, rest) ← classMembers? fuel false rest
        return (ranges ++ more, rest)
    | '\\' :: c :: rest, _ =>
      match classLetter? c with
      | some (ranges, negated) => do
        let (more, rest) ← classMembers? fuel false rest
        return ((if negated then complement 0 ranges else ranges) ++ more, rest)
      | none => member fuel cs
    | _, _ => member fuel cs
where
  member (fuel : Nat) (cs : List Char) : Option (List (Nat × Nat) × List Char) := do
    let (lo, rest) ← classChar? cs
    match rest with
    | '-' :: d :: after =>
      if d = ']' then
        let (more, rest) ← classMembers? fuel false rest
        return ((lo, lo) :: more, rest)
      else
        let (hi, rest) ← classChar? (d :: after)
        if hi < lo then none
        else
          let (more, rest) ← classMembers? fuel false rest
          return ((lo, hi) :: more, rest)
    | _ =>
      let (more, rest) ← classMembers? fuel false rest
      return ((lo, lo) :: more, rest)

/-- A bracket class after its opening bracket. -/
def bracket? (cs : List Char) : Option (CharClass × List Char) :=
  match cs with
  | '^' :: rest => (classMembers? (cs.length + 1) true rest).map fun (rs, rest) => (⟨rs, true⟩, rest)
  | _ => (classMembers? (cs.length + 1) true cs).map fun (rs, rest) => (⟨rs, false⟩, rest)

/-- A group name: letters, digits and underscores. -/
def groupName? (cs : List Char) : Option (String × List Char) :=
  let name := cs.takeWhile fun c => c.isAlphanum || c == '_'
  match cs.drop name.length with
  | '>' :: rest => if name.isEmpty then none else some (String.ofList name, rest)
  | _ => none

/-- An escape outside a class. -/
def escapeAtom? : List Char → Option (Regex × List Char)
  | 'b' :: rest => some (.wordBoundary true, rest)
  | 'B' :: rest => some (.wordBoundary false, rest)
  | 'A' :: rest => some (.textStart, rest)
  | 'z' :: rest => some (.textEnd, rest)
  | c :: rest =>
    match classLetter? c with
    | some (ranges, negated) => some (.one ⟨ranges, negated⟩, rest)
    | none => (escape? (c :: rest)).map fun (n, rest) => (.one ⟨[(n, n)], false⟩, rest)
  | [] => none

/-- A decimal number at the front of a text. -/
def number? (cs : List Char) : Option (Nat × List Char) :=
  let ds := cs.takeWhile Char.isDigit
  if ds.isEmpty then none
  else some (ds.foldl (fun n d => 10 * n + (d.toNat - 48)) 0, cs.drop ds.length)

/-- The bounds of a counted repetition after its opening brace. -/
def bounds? (cs : List Char) : Option (Nat × Option Nat × List Char) := do
  let (lo, rest) ← number? cs
  match rest with
  | '}' :: rest => return (lo, some lo, rest)
  | ',' :: '}' :: rest => return (lo, none, rest)
  | ',' :: rest =>
    let (hi, rest) ← number? rest
    match rest with
    | '}' :: rest => return (lo, some hi, rest)
    | _ => none
  | _ => none

/-- The greatest count of a repetition. -/
def maxCount : Nat := 1000

/-- A counted repetition written out. -/
def counted (r : Regex) (lo : Nat) (hi : Option Nat) (greedy : Bool) : Regex :=
  match hi with
  | none => if lo = 0 then .star r greedy
    else concat (List.replicate (lo - 1) r ++ [.plus r greedy])
  | some hi =>
    let tail := (List.range (hi - lo)).foldl (fun acc _ => Regex.optional (.seq r acc) greedy) .empty
    concat (List.replicate lo r ++ [tail])

/-- Applies a lazy mark to the operator just read. -/
def lazyMark : List Char → Bool × List Char
  | '?' :: rest => (false, rest)
  | rest => (true, rest)

/-- Whether a repetition operator stands at the front. -/
def startsRepeat : List Char → Bool
  | '*' :: _ => true
  | '+' :: _ => true
  | '?' :: _ => true
  | '{' :: rest => (bounds? rest).isSome
  | _ => false

/-- Applies at most one repetition to an atom. -/
def repeated? (r : Regex) (cs : List Char) : Option (Regex × List Char) :=
  let finish (make : Bool → Regex) (rest : List Char) : Option (Regex × List Char) :=
    let (greedy, rest) := lazyMark rest
    if startsRepeat rest then none else some (make greedy, rest)
  match cs with
  | '*' :: rest => finish (.star r) rest
  | '+' :: rest => finish (.plus r) rest
  | '?' :: rest => finish (.optional r) rest
  | '{' :: rest =>
    match bounds? rest with
    | none => some (r, cs)
    | some (lo, hi, rest) =>
      if maxCount < lo || hi.any (fun h => maxCount < h || h < lo) then none
      else finish (counted r lo hi) rest
  | _ => some (r, cs)

mutual

/-- Alternatives up to a closing parenthesis or the end. -/
def alternatives : Nat → List Char → Option Piece
  | 0, _ => none
  | fuel + 1, cs => do
    let first ← sequence fuel cs
    match first.rest with
    | '|' :: rest =>
      let more ← alternatives fuel rest
      return ⟨.alt first.regex more.regex, first.names ++ more.names, more.rest⟩
    | _ => return first

/-- A sequence of repeated atoms. -/
def sequence : Nat → List Char → Option Piece
  | 0, _ => none
  | fuel + 1, cs =>
    match cs with
    | [] => some ⟨.empty, [], []⟩
    | '|' :: _ => some ⟨.empty, [], cs⟩
    | ')' :: _ => some ⟨.empty, [], cs⟩
    | _ => do
      let a ← atom fuel cs
      let (r, rest) ← repeated? a.regex a.rest
      let more ← sequence fuel rest
      return ⟨.seq r more.regex, a.names ++ more.names, more.rest⟩

/-- A single character, class, escape or group. -/
def atom : Nat → List Char → Option Piece
  | 0, _ => none
  | fuel + 1, cs =>
    match cs with
    | '(' :: '?' :: ':' :: rest => group fuel [] rest
    | '(' :: '?' :: 'P' :: '<' :: rest => do
      let (name, rest) ← groupName? rest
      group fuel [name] rest
    | '(' :: '?' :: '<' :: rest => do
      let (name, rest) ← groupName? rest
      group fuel [name] rest
    | '(' :: '?' :: _ => none
    | '(' :: rest => group fuel [] rest
    | '[' :: rest => (bracket? rest).map fun (cls, rest) => ⟨.one cls, [], rest⟩
    | '.' :: rest => some ⟨.one CharClass.anyButNewline, [], rest⟩
    | '^' :: rest => some ⟨.textStart, [], rest⟩
    | '$' :: rest => some ⟨.textEnd, [], rest⟩
    | '\\' :: rest => (escapeAtom? rest).map fun (r, rest) => ⟨r, [], rest⟩
    | c :: rest => if startsRepeat cs then none else some ⟨.one (CharClass.single c), [], rest⟩
    | [] => none

/-- A group after its opening. -/
def group : Nat → List String → List Char → Option Piece
  | 0, _, _ => none
  | fuel + 1, names, cs => do
    let inner ← alternatives fuel cs
    match inner.rest with
    | ')' :: rest => return ⟨inner.regex, names ++ inner.names, rest⟩
    | _ => none

end

end Reader

/-- Reads an expression, with the names of its groups. -/
def ofString? (s : String) : Option (Regex × List String) := do
  let cs := s.toList
  let piece ← Reader.alternatives (4 * cs.length + 4) cs
  if piece.rest.isEmpty then some (piece.regex, piece.names) else none

end IrafCl.Regex
