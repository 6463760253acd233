import IrafCl.Text.Bytes

/-!
# Versions

A version is `v` and up to three numbers, `v1`, `v1.2` or `v1.2.3`; after three numbers a pre-release
and build data may follow. Numbers have no leading zeros. Entries are readable when their major version
is the current one.
-/

namespace IrafCl.Version

/-- A number at the front: its digits and the rest. -/
def number? (s : Bytes) : Option (Bytes × Bytes) :=
  let digits := s.takeWhile Bytes.isDigit
  let rest := s.dropWhile Bytes.isDigit
  match digits with
  | [] => none
  | d :: ds => if d = 48 && !ds.isEmpty then none else some (digits, rest)

/-- The characters of the identifiers in a pre-release or in build data. -/
def isIdentByte (b : UInt8) : Bool := Bytes.isDigit b || Bytes.isLower b || Bytes.isUpper b || b == 45

/-- A number with a leading zero. -/
def isBadNumber (s : Bytes) : Bool :=
  s.all Bytes.isDigit && 1 < s.length && s.head? == some 48

/-- Whether a text is a list of identifiers separated by dots. -/
def isIdentifiers (numbersChecked : Bool) (s : Bytes) : Bool :=
  (Bytes.pieces 46 s).all fun p =>
    !p.isEmpty && p.all isIdentByte && !(numbersChecked && isBadNumber p)

/-- Whether a text is an optional pre-release and optional build data. -/
def isSuffix (s : Bytes) : Bool :=
  let (pre, build) := (s.takeWhile (· ≠ 43), s.dropWhile (· ≠ 43))
  (match pre with
    | [] => true
    | b :: ids => b = 45 && isIdentifiers true ids) &&
  (match build with
    | [] => true
    | _ :: ids => isIdentifiers false ids)

/-- Whether a text is the rest of a version after some of its numbers. -/
def isRest : Nat → Bytes → Bool
  | 0, s => isSuffix s
  | n + 1, s => match s with
    | [] => true
    | b :: rest => b = 46 && match number? rest with
      | some (_, rest) => isRest n rest
      | none => false

/-- The digits of the major version, if the text is a version. -/
def major? (s : Bytes) : Option Bytes :=
  match s with
  | b :: rest => if b = 118 then match number? rest with
      | some (digits, rest) => if isRest 2 rest then some digits else none
      | none => none
    else none
  | [] => none

/-- The version of stored entries. -/
def current : Bytes := "v1.0.0"

/-- Whether entries of a version can be read. -/
def isReadable (v : Bytes) : Bool := major? v = some "1"

end IrafCl.Version
