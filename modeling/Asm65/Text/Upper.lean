/-!
# Capital letters

Capital forms as far as they are plain Latin letters.  A few characters outside ASCII have such
capital forms, some of two or three letters; every other character outside ASCII is left alone,
since no comparison with a Latin word can succeed on it.
-/

namespace Asm65.Text

/-- Characters outside ASCII whose capital form is written with Latin letters only. -/
def latinCapitals : List (Char × String) :=
  [('ß', "SS"), ('ı', "I"), ('ſ', "S"), ('ﬀ', "FF"), ('ﬁ', "FI"),
    ('ﬂ', "FL"), ('ﬃ', "FFI"), ('ﬄ', "FFL"), ('ﬅ', "ST"), ('ﬆ', "ST")]

/-- The capital form of one character. -/
def capital (c : Char) : List Char :=
  match latinCapitals.lookup c with
  | some letters => letters.toList
  | none => [c.toUpper]

/-- The text in capitals. -/
def upper (text : String) : String :=
  String.ofList (text.toList.flatMap capital)

/-- The text in small letters, for text of ASCII letters. -/
def lower (text : List Char) : List Char :=
  text.map Char.toLower

end Asm65.Text
