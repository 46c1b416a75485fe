import Asm65.Text.Hex
import Asm65.Text.Printable

/-!
# Quoted text

Text between quotes as it stands in messages.  Single quotes are used unless the text has a single
quote and no double quote.  The quote in use, backslashes and unprintable characters are escaped.
-/

namespace Asm65.Text

/-- The quote that goes around a text. -/
def quoteFor (text : List Char) : Char :=
  if text.contains '\'' && !text.contains '"' then '"' else '\''

/-- One character inside quotes. -/
def quotedChar (quote c : Char) : String :=
  if c == quote || c == '\\' then String.ofList ['\\', c]
  else if c == '\n' then "\\n"
  else if c == '\r' then "\\r"
  else if c == '\t' then "\\t"
  else if isPrintable c then String.singleton c
  else if c.toNat < 0x100 then "\\x" ++ smallHex 2 c.toNat
  else if c.toNat < 0x10000 then "\\u" ++ smallHex 4 c.toNat
  else "\\U" ++ smallHex 8 c.toNat

/-- The text in quotes. -/
def quoted (text : String) : String :=
  let quote := quoteFor text.toList
  String.singleton quote ++ String.join (text.toList.map (quotedChar quote)) ++
    String.singleton quote

end Asm65.Text
