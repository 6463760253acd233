import IrafCl.Scanner
import IrafCl.Script.Symbol

/-!
# The lexicon of the command language

The pattern table of CL. Longer operators come before their beginnings. The handlers keep the bracket
depth: a newline inside parentheses or brackets, or after a token that cannot end a statement, is no
token. A token list that does not end a statement is closed by a newline.
-/

namespace IrafCl.Script

/-- The words with a token kind of their own. -/
def keyword? (text : Bytes) : Option Symbol :=
  (keywords.find? fun (word, _) => (word : Bytes) = text).map (·.2)
where
  keywords : List (String × Symbol) := [
    ("procedure", .kwProcedure), ("begin", .kwBegin), ("end", .kwEnd), ("if", .kwIf),
    ("else", .kwElse), ("while", .kwWhile), ("for", .kwFor), ("switch", .kwSwitch),
    ("case", .kwCase), ("default", .kwDefault), ("break", .kwBreak), ("next", .kwNext),
    ("return", .kwReturn), ("goto", .kwGoto), ("yes", .bool), ("no", .bool), ("INDEF", .undefined)]

/-- The types that a declaration may name. -/
def typeNames : List Bytes :=
  ["int", "real", "double", "char", "string", "bool", "file", "struct", "gcur", "imcur", "ukey",
    "pset"]

/-- Whether a newline after a token of this kind ends a statement. -/
def newlineEnds : Symbol → Bool
  | .newline | .semi | .lbrace | .comma | .pipe | .kwElse | .kwBegin => false
  | _ => true

/-- Resolves the backslash escapes in the body of a string. An escaped newline continues the string,
and a backslash at the very end stands for itself. -/
def unescape : Bytes → Bytes
  | [] => []
  | [b] => [b]
  | b :: c :: rest =>
    if b ≠ 92 then b :: unescape (c :: rest)
    else if c = Bytes.ascii 'n' then 10 :: unescape rest
    else if c = Bytes.ascii 't' then 9 :: unescape rest
    else if c = Bytes.ascii 'r' then 13 :: unescape rest
    else if c = Bytes.ascii 'f' then 12 :: unescape rest
    else if c = 10 then unescape rest
    else c :: unescape rest

/-- The body of a string literal: without its delimiters and with its escapes resolved. -/
def unquote (text : Bytes) : Bytes :=
  if text.length < 2 then text else unescape (text.drop 1).dropLast

/-! ## Handlers -/

/-- Handlers of CL keep the bracket depth. -/
abbrev Depth := Nat

/-- A token of the given kind on the lexeme's line. -/
def emit (kind : Symbol) : Handler Depth Symbol :=
  fun m text => .ok (m.data, some ⟨kind, text, none, m.line⟩)

def openBracket (kind : Symbol) : Handler Depth Symbol :=
  fun m text => .ok (m.data + 1, some ⟨kind, text, none, m.line⟩)

def closeBracket (kind : Symbol) : Handler Depth Symbol :=
  fun m text => .ok (m.data - 1, some ⟨kind, text, none, m.line⟩)

/-- Keywords, type names and identifiers. -/
def word : Handler Depth Symbol := fun m text =>
  let token : Token Symbol :=
    match keyword? text with
    | some kind => ⟨kind, text, none, m.line⟩
    | none =>
      if typeNames.contains text then ⟨.typeName, text, some text, m.line⟩
      else ⟨.ident, text, none, m.line⟩
  .ok (m.data, some token)

/-- A newline gives a token only where it ends a statement. -/
def endOfLine : Handler Depth Symbol := fun m text =>
  let ends : Bool := m.data = 0 && m.last.any fun t => newlineEnds t.kind
  .ok (m.data, if ends then some ⟨.newline, text, none, m.line⟩ else none)

def quotedString : Handler Depth Symbol := fun m text =>
  .ok (m.data, some ⟨.string, text, some (unquote text), m.line⟩)

/-! ## Patterns -/

namespace Lexicon

open Regex

def digit : Regex := .one CharClass.digits

def char (c : Char) : Regex := .one (CharClass.single c)

/-- A delimited string: anything but the delimiter, a backslash or a newline, or a backslash with any
character after it. -/
def delimited (quote : Char) : Regex :=
  concat [char quote,
    many (.alt (.one (CharClass.except [quote, '\\', '\n']))
      (.seq (char '\\') (.alt (.one CharClass.anyButNewline) (char '\n')))),
    char quote]

/-- Degrees, minutes and perhaps seconds with a fraction. -/
def sexagesimal : Regex :=
  concat [many1 digit, char ':', many1 digit,
    opt (concat [char ':', many1 digit, opt (.seq (char '.') (many digit))])]

/-- An exponent mark, an optional sign and digits. -/
def exponent : Regex :=
  concat [.one (CharClass.of ['e', 'E', 'd', 'D']), opt (.one (CharClass.of ['+', '-'])), many1 digit]

/-- A number with a point or an exponent. -/
def float : Regex :=
  .alt
    (.seq (.alt (concat [many1 digit, char '.', many digit]) (.seq (char '.') (many1 digit)))
      (opt exponent))
    (.seq (many1 digit) exponent)

def octal : Regex :=
  concat [many1 (.one ⟨[CharClass.range '0' '7'], false⟩), char 'b', .wordBoundary true]

def hexadecimal : Regex :=
  concat [digit,
    many (.one ⟨[CharClass.range '0' '9', CharClass.range 'a' 'f', CharClass.range 'A' 'F'], false⟩),
    .one (CharClass.of ['x', 'X']), .wordBoundary true]

def integer : Regex := many1 digit

def identStart : CharClass :=
  ⟨[CharClass.range 'A' 'Z', CharClass.range 'a' 'z', CharClass.range '_' '_', CharClass.range '$' '$'],
    false⟩

def identPart : CharClass :=
  ⟨[CharClass.range 'A' 'Z', CharClass.range 'a' 'z', CharClass.range '0' '9', CharClass.range '_' '_',
    CharClass.range '$' '$'], false⟩

def identifier : Regex := .seq (.one identStart) (many (.one identPart))

/-- Identifiers joined by dots. -/
def name : Regex := .seq identifier (many (.seq (char '.') identifier))

/-- The redirections that are longer than one character. -/
def redirection : Regex :=
  let device : Regex := .seq (.one (CharClass.of ['G', 'I', 'P'])) (.wordBoundary true)
  choice [text ">>&", text ">&", .seq (text ">>") device, .seq (text ">") device, text ">>"]

def lineEnd : Regex := .seq (opt (char '\r')) (char '\n')

/-- The pattern table, blanks last. -/
def patterns : List (Pattern Depth Symbol) := [
  ⟨"comment", .seq (char '#') (many (.one CharClass.anyButNewline)), none, false⟩,
  ⟨"continuation", .seq (char '\\') lineEnd, none, false⟩,
  ⟨"newline", lineEnd, some endOfLine, false⟩,
  ⟨"dstring", delimited '"', some quotedString, false⟩,
  ⟨"sstring", delimited '\'', some quotedString, false⟩,
  ⟨"sexagesimal", sexagesimal, some (emit .sexagesimal), false⟩,
  ⟨"float", float, some (emit .float), false⟩,
  ⟨"octal", octal, some (emit .octal), false⟩,
  ⟨"hex", hexadecimal, some (emit .hex), false⟩,
  ⟨"integer", integer, some (emit .integer), false⟩,
  ⟨"name", name, some word, false⟩,
  ⟨"eqeq", text "==", some (emit .eqEq), false⟩,
  ⟨"ne", text "!=", some (emit .ne), false⟩,
  ⟨"le", text "<=", some (emit .le), false⟩,
  ⟨"ge", text ">=", some (emit .ge), false⟩,
  ⟨"redir", redirection, some (emit .redirOp), false⟩,
  ⟨"lt", text "<", some (emit .lt), false⟩,
  ⟨"gt", text ">", some (emit .gt), false⟩,
  ⟨"andand", text "&&", some (emit .andAnd), false⟩,
  ⟨"oror", text "||", some (emit .orOr), false⟩,
  ⟨"not", text "!", some (emit .not), false⟩,
  ⟨"assignop", choice [text "+=", text "-=", text "*=", text "//=", text "/="],
    some (emit .assignOp), false⟩,
  ⟨"concat", text "//", some (emit .concat), false⟩,
  ⟨"pow", text "**", some (emit .pow), false⟩,
  ⟨"plus", text "+", some (emit .plus), false⟩,
  ⟨"minus", text "-", some (emit .minus), false⟩,
  ⟨"star", text "*", some (emit .star), false⟩,
  ⟨"slash", text "/", some (emit .slash), false⟩,
  ⟨"percent", text "%", some (emit .percent), false⟩,
  ⟨"lparen", text "(", some (openBracket .lparen), false⟩,
  ⟨"rparen", text ")", some (closeBracket .rparen), false⟩,
  ⟨"lbracket", text "[", some (openBracket .lbracket), false⟩,
  ⟨"rbracket", text "]", some (closeBracket .rbracket), false⟩,
  ⟨"lbrace", char '{', some (emit .lbrace), false⟩,
  ⟨"rbrace", char '}', some (emit .rbrace), false⟩,
  ⟨"comma", text ",", some (emit .comma), false⟩,
  ⟨"semi", text ";", some (emit .semi), false⟩,
  ⟨"colon", text ":", some (emit .colon), false⟩,
  ⟨"equals", text "=", some (emit .equals), false⟩,
  ⟨"pipe", text "|", some (emit .pipe), false⟩,
  ⟨"whitespace", many1 (.one (CharClass.of [' ', '\t', '\r', '\x0c'])), none, false⟩]

end Lexicon

/-- The scanner of CL. -/
def scanner : Scanner Depth Symbol := ⟨Lexicon.patterns⟩

/-- Scans a script. -/
def scan (source : Bytes) : Scan Symbol := scanner.scan 0 source

/-- Closes a token list that does not end a statement, on the line of its last token. -/
def terminate (tokens : List (Token Symbol)) : List (Token Symbol) :=
  match tokens.getLast? with
  | some last => if newlineEnds last.kind then tokens ++ [⟨.newline, "\n", none, last.line⟩] else tokens
  | none => tokens

/-- The tokens of a script, closed. -/
def tokenize (source : Bytes) : Except Halt (List (Token Symbol)) :=
  (scan source).outcome.map terminate

end IrafCl.Script
