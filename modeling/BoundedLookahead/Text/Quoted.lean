import BoundedLookahead.Text.Hidden

/-!
# Quoted text

A quoted text stands in double quotes on one line of characters that show. The
quote and the backslash are written after a backslash, and so are the usual
control characters by their letters; every other character that does not show is
written as its code in hexadecimal digits in braces.
-/

namespace BoundedLookahead.Text

/-- The written form of one character. -/
def quoteChar (c : Char) : String :=
  if c = '"' then "\\\""
  else if c = '\\' then "\\\\"
  else if c = '\n' then "\\n"
  else if c = '\t' then "\\t"
  else if c = '\r' then "\\r"
  else if c.toNat = 0 then "\\0"
  else if isHidden c then "\\u\x7b" ++ String.ofList (Nat.toDigits 16 c.toNat) ++ "\x7d"
  else c.toString

/-- The quoted form of a text. -/
def quote (text : String) : String :=
  "\"" ++ String.join (text.toList.map quoteChar) ++ "\""

/-- Whether `part` occurs in the text as a run of characters. -/
def occurs (part : List Char) : List Char → Bool
  | [] => part.isEmpty
  | c :: rest => part.isPrefixOf (c :: rest) || occurs part rest

end BoundedLookahead.Text
