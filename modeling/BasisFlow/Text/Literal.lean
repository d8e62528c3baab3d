import BasisFlow.Text.Combining
import BasisFlow.Text.Invisible
import BasisFlow.Text.Unassigned

namespace BasisFlow.Text

/-- A character by its number, as in `\u{200b}`. -/
def codePoint (c : Char) : String :=
  "\\u\x7b" ++ String.ofList (Nat.toDigits 16 c.toNat) ++ "\x7d"

/-- Characters that a reader would not see as they are. -/
def isHidden (c : Char) : Bool :=
  isInvisible c || isCombining c || isUnassigned c

/-- A character inside a literal that `quote` delimits. -/
def escape (quote c : Char) : String :=
  if c = '\x00' then "\\0"
  else if c = '\t' then "\\t"
  else if c = '\r' then "\\r"
  else if c = '\n' then "\\n"
  else if c = '\\' || c = quote then String.ofList ['\\', c]
  else if isHidden c then codePoint c
  else c.toString

def charLiteral (c : Char) : String :=
  "'" ++ escape '\'' c ++ "'"

def stringLiteral (s : String) : String :=
  "\"" ++ String.join (s.toList.map (escape '"')) ++ "\""

/-- A list between square brackets. -/
def bracketed (items : List String) : String :=
  "[" ++ String.intercalate ", " items ++ "]"

end BasisFlow.Text
