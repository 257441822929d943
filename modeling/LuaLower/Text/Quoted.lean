import LuaLower.Text.GraphemeExtend
import LuaLower.Text.Unprintable

/-!
# Quoted text

A string constant in a listing stands in double quotes, with every character that would not show,
or would not show as itself, written as an escape.
-/

namespace LuaLower.Text

def codePointEscape (c : Char) : String :=
  "\\u\x7b" ++ String.ofList (Nat.toDigits 16 c.toNat) ++ "\x7d"

/-- The halfwidth sound marks extend a grapheme, and yet are letters with a width of their own. -/
def isSoundMark (c : Char) : Bool := c == '\uFF9E' || c == '\uFF9F'

/-- Whether a character would merge with the one before it. -/
def mergesLeft (c : Char) : Bool := isGraphemeExtend c && !isSoundMark c

def escape (c : Char) : String :=
  match c with
  | '\x00' => "\\0"
  | '\t' => "\\t"
  | '\r' => "\\r"
  | '\n' => "\\n"
  | '"' => "\\\""
  | '\\' => "\\\\"
  | c => if mergesLeft c || isUnprintable c then codePointEscape c else c.toString

def quoted (s : String) : String :=
  "\"" ++ String.join (s.toList.map escape) ++ "\""

end LuaLower.Text
