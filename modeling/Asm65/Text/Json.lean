import Asm65.Text.Hex

/-!
# JSON text

Strings, arrays and objects in JSON, either on one line or indented by a number of blanks per
level.  Text is kept to the visible characters of ASCII and the blank: all others are written as
escapes, by a letter where there is one and else by their UTF-16 code units.
-/

namespace Asm65.Text.Json

/-- The UTF-16 code units of a character. -/
def utf16Units (c : Char) : List Nat :=
  if c.toNat < 0x10000 then [c.toNat]
  else
    let v := c.toNat - 0x10000
    [0xD800 + v / 0x400, 0xDC00 + v % 0x400]

/-- One character inside a JSON string. -/
def escapedChar (c : Char) : String :=
  if c == '"' then "\\\""
  else if c == '\\' then "\\\\"
  else if c == '\n' then "\\n"
  else if c == '\r' then "\\r"
  else if c == '\t' then "\\t"
  else if c.toNat == 0x0C then "\\f"
  else if c.toNat == 0x08 then "\\b"
  else if 0x20 ≤ c.toNat && c.toNat < 0x7F then String.singleton c
  else String.join ((utf16Units c).map fun u => "\\u" ++ smallHex 4 u)

/-- A JSON string. -/
def string (text : String) : String :=
  "\"" ++ String.join (text.toList.map escapedChar) ++ "\""

/-- A line break followed by the blanks of a level. -/
def lineBreak (indent level : Nat) : String :=
  String.ofList ('\n' :: List.replicate (indent * level) ' ')

/-- Items between two brackets; `level` is the level of the brackets. -/
def bracketed (indent : Option Nat) (level : Nat) (left right : String) (items : List String) :
    String :=
  if items.isEmpty then left ++ right
  else
    match indent with
    | none => left ++ String.intercalate ", " items ++ right
    | some n =>
        left ++ lineBreak n (level + 1) ++
          String.intercalate ("," ++ lineBreak n (level + 1)) items ++ lineBreak n level ++ right

/-- An array of items that are already JSON text. -/
def array (indent : Option Nat) (level : Nat) (items : List String) : String :=
  bracketed indent level "[" "]" items

/-- An object whose values are already JSON text. -/
def object (indent : Option Nat) (level : Nat) (fields : List (String × String)) : String :=
  bracketed indent level "\x7b" "\x7d" (fields.map fun f => string f.1 ++ ": " ++ f.2)

end Asm65.Text.Json
