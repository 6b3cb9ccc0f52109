import ScopeFlow.Text.Shapeless

/-!
# Quoted text

A text between double quotes in which every character that would not show
for itself is written by an escape: the quote and the backslash behind a
backslash, the usual letters for NUL, tabulator, line feed and carriage
return, and a braced hexadecimal number for any other control or shapeless
character.
-/

namespace ScopeFlow.Text

/-- The digit of a number below sixteen. -/
def hexDigit (n : Nat) : Char := Nat.digitChar n

/-- The hexadecimal digits of a number, without leading zeros. -/
def hexText (n : Nat) : String := String.ofList (Nat.toDigits 16 n)

/-- A character by its number. -/
def numbered (c : Char) : String := "\\u\x7b" ++ hexText c.toNat ++ "\x7d"

/-- A character as it stands in a quoted text. -/
def escaped (c : Char) : String :=
  if c = '"' then "\\\""
  else if c = '\\' then "\\\\"
  else if c = '\n' then "\\n"
  else if c = '\r' then "\\r"
  else if c = '\t' then "\\t"
  else if c.toNat = 0 then "\\0"
  else if c.toNat < 0x20 then numbered c
  else if c.toNat < 0x7f then c.toString
  else if isShapeless c then numbered c
  else c.toString

/-- The text between quotes, character by character. -/
def quoted (s : String) : String := "\"" ++ String.join (s.toList.map escaped) ++ "\""

/-- Texts one after another, separated by a comma and a blank. -/
def commaSeparated (items : List String) : String := ", ".intercalate items

/-- A bracketed list. -/
def bracketed (items : List String) : String := "[" ++ commaSeparated items ++ "]"

/-- A record: its name, and its fields with their texts in braces. -/
def recordText (name : String) (fields : List (String × String)) : String :=
  name ++ " \x7b " ++ commaSeparated (fields.map fun f => f.1 ++ ": " ++ f.2) ++ " \x7d"

end ScopeFlow.Text
