import IrafCl.Text.Scalar
import IrafCl.Text.Printable

/-!
# Quoted text

Messages show a piece of text in double quotes. Printable characters stand for themselves, the
usual control characters have a letter escape, other control bytes and stray bytes are written in
hexadecimal, and characters that cannot be printed by their code point.
-/

namespace IrafCl

namespace Scalar

/-- How one element is written between double quotes. -/
def quoted : Scalar → Bytes
  | .stray b => "\\x" ++ Bytes.hexByte b
  | .char c =>
    if c = '"' then "\\\""
    else if c = '\\' then "\\\\"
    else if isPrintable c.toNat then String.utf8EncodeChar c
    else match c.toNat with
      | 7 => "\\a"
      | 8 => "\\b"
      | 12 => "\\f"
      | 10 => "\\n"
      | 13 => "\\r"
      | 9 => "\\t"
      | 11 => "\\v"
      | n =>
        if n < 0x20 || n = 0x7F then "\\x" ++ Bytes.hexPadded 2 n
        else if n < 0x10000 then "\\u" ++ Bytes.hexPadded 4 n
        else "\\U" ++ Bytes.hexPadded 8 n

end Scalar

namespace Bytes

/-- A text in double quotes. -/
def quote (s : Bytes) : Bytes := "\"" ++ s.scalars.flatMap Scalar.quoted ++ "\""

end Bytes

end IrafCl
