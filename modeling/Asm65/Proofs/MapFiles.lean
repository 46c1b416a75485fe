import Asm65.Proofs.SymbolFiles

/-!
# Source map files

A source map file says all about the source map, and can be read back: it is JSON text, whatever its
indentation, and a reader of such text that knows nothing about how it was written finds every unit
with its name and every entry in it.

The reader skips blanks before each part.  What the writer puts together from parts is read part by
part; a number is the only part that does not end by itself, so that no digit may follow it.
-/

namespace Asm65

namespace Text.Json

/-! ## Reading -/

/-- Reads what stands at the beginning of a text, and gives the rest. -/
abbrev Reader (α : Type) :=
  List Char → Option (α × List Char)

/-- The characters that may stand between the parts. -/
def isSpace (c : Char) : Bool :=
  c == ' ' || c == '\n' || c == '\r' || c == '\t'

/-- Reads a sign. -/
def sign? (sign : Char) (text : List Char) : Option (List Char) :=
  match text.dropWhile isSpace with
  | [] => none
  | c :: rest => if c = sign then some rest else none

/-- The code point of an escape by a letter. -/
def letter? (c : Char) : Option Nat :=
  [('"', 0x22), ('\\', 0x5C), ('/', 0x2F), ('b', 0x08), ('f', 0x0C), ('n', 0x0A), ('r', 0x0D),
    ('t', 0x09)].lookup c

/-- Reads the inside of a string as UTF-16 code units, up to the closing quote. -/
def units? : Reader (List Nat)
  | [] => none
  | c :: rest =>
      if c = '"' then some ([], rest)
      else if c = '\\' then
        match rest with
        | [] => none
        | letter :: rest =>
            if letter = 'u' then
              match rest with
              | d₁ :: d₂ :: d₃ :: d₄ :: rest =>
                  if [d₁, d₂, d₃, d₄].all isHexDigit then
                    (units? rest).map fun (units, rest) =>
                      (positional 16 ([d₁, d₂, d₃, d₄].map hexValue) :: units, rest)
                  else none
              | _ => none
            else
              match letter? letter with
              | some unit => (units? rest).map fun (units, rest) => (unit :: units, rest)
              | none => none
      else (units? rest).map fun (units, rest) => (c.toNat :: units, rest)

/-- The characters of UTF-16 code units; two surrogates make one character. -/
def ofUnits? : List Nat → Option (List Char)
  | [] => some []
  | unit :: units =>
      if unit < 0xD800 ∨ 0xE000 ≤ unit then (ofUnits? units).map (Char.ofNat unit :: ·)
      else
        match units with
        | [] => none
        | low :: units =>
            if unit < 0xDC00 ∧ 0xDC00 ≤ low ∧ low < 0xE000 then
              (ofUnits? units).map
                (Char.ofNat (0x10000 + (unit - 0xD800) * 0x400 + (low - 0xDC00)) :: ·)
            else none

/-- Reads a string. -/
def text? : Reader String := fun text => do
  let rest ← sign? '"' text
  let (units, rest) ← units? rest
  let chars ← ofUnits? units
  return (String.ofList chars, rest)

/-- Reads digits. -/
def natural? : Reader Nat := fun text =>
  let digits := text.takeWhile Char.isDigit
  if digits.isEmpty then none
  else some (Nat.ofDigitChars 10 digits 0, text.dropWhile Char.isDigit)

/-- Reads a number. -/
def number? : Reader Int := fun text =>
  match sign? '-' text with
  | some rest => (natural? rest).map fun (n, rest) => (-n, rest)
  | none => (natural? (text.dropWhile isSpace)).map fun (n, rest) => (n, rest)

/-- A value without parts. -/
inductive Scalar
  | text (text : String)
  | number (number : Int)
deriving DecidableEq, Repr

/-- Reads a string or a number. -/
def scalar? : Reader Scalar := fun text =>
  match text? text with
  | some (found, rest) => some (.text found, rest)
  | none => (number? text).map fun (found, rest) => (.number found, rest)

variable {α : Type}

/-- Reads a name and what belongs to it. -/
def field? (value? : Reader α) : Reader (String × α) := fun text => do
  let (name, rest) ← text? text
  let rest ← sign? ':' rest
  let (value, rest) ← value? rest
  return ((name, value), rest)

/-- Reads items with commas between them up to a closing bracket, at most `limit` of them. -/
def itemsUpTo? (right : Char) (item? : Reader α) : Nat → Reader (List α)
  | 0, _ => none
  | limit + 1, text => do
      let (item, rest) ← item? text
      match sign? ',' rest with
      | some rest => do
          let (items, rest) ← itemsUpTo? right item? limit rest
          return (item :: items, rest)
      | none => do
          let rest ← sign? right rest
          return ([item], rest)

/-- Reads items between two brackets. -/
def between? (left right : Char) (item? : Reader α) : Reader (List α) := fun text => do
  let rest ← sign? left text
  match sign? right rest with
  | some rest => some ([], rest)
  | none => itemsUpTo? right item? rest.length rest

/-- Reads an object. -/
def object? (value? : Reader α) : Reader (List (String × α)) :=
  between? '\x7b' '\x7d' (field? value?)

/-- Reads an array. -/
def array? (item? : Reader α) : Reader (List α) :=
  between? '[' ']' item?

/-! ## Parts -/

/-- Whether a character closes an array or an object. -/
def isClosing (c : Char) : Bool :=
  c == ']' || c == '\x7d'

/-- A text that is read as a value, with blanks before it and anything but a digit behind it. -/
structure Reads (reader : Reader α) (text : List Char) (value : α) : Prop where
  ascii : ∀ c ∈ text, c.toNat < 128
  /-- The text starts with a part of its own. -/
  starts : ∃ c rest, text = c :: rest ∧ isSpace c = false ∧ isClosing c = false
  reads : ∀ blanks rest, (∀ b ∈ blanks, isSpace b = true) →
    (∀ c, rest.head? = some c → c.isDigit = false) →
      reader (blanks ++ (text ++ rest)) = some (value, rest)

section Signs

variable {blanks : List Char} (hblanks : ∀ b ∈ blanks, isSpace b = true) {c sign : Char}
  (hc : isSpace c = false) (rest : List Char)

include hblanks hc

theorem dropWhile_isSpace : (blanks ++ c :: rest).dropWhile isSpace = c :: rest := by
  rw [List.dropWhile_append_of_pos hblanks, List.dropWhile_cons_of_neg (by simp [hc])]

theorem sign?_self : sign? c (blanks ++ c :: rest) = some rest := by
  unfold sign?
  rw [dropWhile_isSpace hblanks hc]
  exact if_pos rfl

theorem sign?_of_ne (h : c ≠ sign) : sign? sign (blanks ++ c :: rest) = none := by
  unfold sign?
  rw [dropWhile_isSpace hblanks hc]
  exact if_neg h

end Signs

theorem sign?_cons {c : Char} (hc : isSpace c = false) (rest : List Char) :
    sign? c (c :: rest) = some rest :=
  sign?_self (List.forall_mem_nil _) hc rest

/-! ## Strings -/

/-- Four digits are read as the code unit that they were written for. -/
theorem units?_smallHex {unit : Nat} (h : unit < 0x10000) (rest : List Char) :
    units? ('\\' :: 'u' :: ((smallHex 4 unit).toList ++ rest)) =
      (units? rest).map fun (units, rest) => (unit :: units, rest) := by
  have hcount : max 4 (digitCount unit) = 4 := Nat.max_eq_left (digitCount_le (by decide) h)
  have hvalue := positional_digitsOnto isHexAlphabet_smallDigits 4 unit
  have hdigits : ∀ c ∈ digitsOnto smallDigits 4 unit [], isHexDigit c = true :=
    forall_mem_digitsOnto (fun d => (isHexAlphabet_smallDigits d).1) (List.forall_mem_nil _)
  rw [hcount] at hvalue
  rw [smallHex, String.toList_ofList, hcount]
  -- there are four digits
  obtain ⟨d₁, d₂, d₃, d₄, hfour⟩ :
      ∃ d₁ d₂ d₃ d₄, digitsOnto smallDigits 4 unit [] = [d₁, d₂, d₃, d₄] :=
    ⟨_, _, _, _, rfl⟩
  rw [hfour] at hvalue hdigits ⊢
  show (if [d₁, d₂, d₃, d₄].all isHexDigit then _ else _) = _
  rw [if_pos (List.all_eq_true.2 hdigits), hvalue]
  rfl

/-- Code units written by their digits are read back. -/
theorem units?_flatMap {units : List Nat} (h : ∀ unit ∈ units, unit < 0x10000)
    (rest : List Char) :
    units? (units.flatMap (fun unit => ("\\u" ++ smallHex 4 unit).toList) ++ rest) =
      (units? rest).map fun (more, rest) => (units ++ more, rest) := by
  induction units with
  | nil => simp
  | cons unit units ih =>
      obtain ⟨hunit, hunits⟩ := List.forall_mem_cons.1 h
      rw [List.flatMap_cons, List.append_assoc, String.toList_append, List.append_assoc]
      show units? ('\\' :: 'u' :: ((smallHex 4 unit).toList ++ _)) = _
      rw [units?_smallHex hunit, ih hunits, Option.map_map]
      rfl

theorem lt_of_mem_utf16Units {c : Char} : ∀ unit ∈ utf16Units c, unit < 0x10000 := by
  have hlarge : c.toNat < 0x110000 := by
    rcases c.valid with hlow | hhigh
    · exact Nat.lt_trans hlow (by decide)
    · exact hhigh.2
  unfold utf16Units
  split
  · next hsmall => simpa using hsmall
  · simp only [List.forall_mem_cons, List.not_mem_nil, false_imp_iff, implies_true, and_true]
    omega

/-- A character is read as its code units, however it is escaped. -/
theorem units?_escapedChar (c : Char) (rest : List Char) :
    units? ((escapedChar c).toList ++ rest) =
      (units? rest).map fun (units, rest) => (utf16Units c ++ units, rest) := by
  -- an escape by a letter stands for one code unit
  have hletter {letter : Char} {unit : Nat} (hu : letter ≠ 'u') (h : letter? letter = some unit)
      (hc : utf16Units c = [unit]) :
      units? ('\\' :: letter :: rest) =
        (units? rest).map fun (units, rest) => (utf16Units c ++ units, rest) := by
    rw [hc, units?.eq_def]
    simp [hu, h]
  unfold escapedChar
  by_cases hquote : c = '"'
  · subst hquote
    exact hletter (by decide) rfl rfl
  rw [if_neg (by simpa using hquote)]
  by_cases hslash : c = '\\'
  · subst hslash
    exact hletter (by decide) rfl rfl
  rw [if_neg (by simpa using hslash)]
  by_cases hfeed : c = '\n'
  · subst hfeed
    exact hletter (by decide) rfl rfl
  rw [if_neg (by simpa using hfeed)]
  by_cases hreturn : c = '\r'
  · subst hreturn
    exact hletter (by decide) rfl rfl
  rw [if_neg (by simpa using hreturn)]
  by_cases htab : c = '\t'
  · subst htab
    exact hletter (by decide) rfl rfl
  rw [if_neg (by simpa using htab)]
  by_cases hform : c.toNat = 0x0C
  · rw [if_pos (by simpa using hform)]
    exact hletter (by decide) rfl (by rw [utf16Units, hform]; rfl)
  rw [if_neg (by simpa using hform)]
  by_cases hback : c.toNat = 0x08
  · rw [if_pos (by simpa using hback)]
    exact hletter (by decide) rfl (by rw [utf16Units, hback]; rfl)
  rw [if_neg (by simpa using hback)]
  by_cases hplain : (0x20 ≤ c.toNat && c.toNat < 0x7F) = true
  · have hsmall : c.toNat < 0x10000 := by
      simp only [Bool.and_eq_true, decide_eq_true_eq] at hplain
      omega
    rw [if_pos hplain, String.toList_singleton, List.singleton_append, units?.eq_def]
    simp only
    rw [if_neg hquote, if_neg hslash, utf16Units, if_pos hsmall]
    rfl
  · rw [if_neg hplain, String.toList_join, List.flatMap_map]
    exact units?_flatMap lt_of_mem_utf16Units rest

theorem units?_escaped (chars rest : List Char) :
    units? (chars.flatMap (fun c => (escapedChar c).toList) ++ '"' :: rest) =
      some (chars.flatMap utf16Units, rest) := by
  induction chars with
  | nil =>
      rw [List.flatMap_nil, List.nil_append, units?.eq_def]
      exact if_pos rfl
  | cons c chars ih =>
      rw [List.flatMap_cons, List.append_assoc, units?_escapedChar, ih]
      rfl

theorem ofUnits?_utf16Units (c : Char) (units : List Nat) :
    ofUnits? (utf16Units c ++ units) = (ofUnits? units).map (c :: ·) := by
  unfold utf16Units
  by_cases hsmall : c.toNat < 0x10000
  · have hscalar : c.toNat < 0xD800 ∨ 0xE000 ≤ c.toNat := by
      rcases c.valid with hlow | hhigh
      · exact Or.inl hlow
      · exact Or.inr hhigh.1
    rw [if_pos hsmall, List.singleton_append, ofUnits?.eq_def]
    simp only
    rw [if_pos hscalar, Char.ofNat_toNat]
  · rw [if_neg hsmall]
    have hlarge : c.toNat < 0x110000 := by
      rcases c.valid with hlow | hhigh
      · exact Nat.lt_trans hlow (by decide)
      · exact hhigh.2
    have hvalue : 0x10000 + (0xD800 + (c.toNat - 0x10000) / 0x400 - 0xD800) * 0x400 +
        (0xDC00 + (c.toNat - 0x10000) % 0x400 - 0xDC00) = c.toNat := by
      omega
    simp only [List.cons_append, List.nil_append]
    rw [ofUnits?.eq_def]
    simp only
    rw [if_neg (by omega), if_pos (by omega), hvalue, Char.ofNat_toNat]

theorem ofUnits?_flatMap (chars : List Char) :
    ofUnits? (chars.flatMap utf16Units) = some chars := by
  induction chars with
  | nil => rfl
  | cons c chars ih =>
      rw [List.flatMap_cons, ofUnits?_utf16Units, ih]
      rfl

theorem ascii_smallHex (width n : Nat) : ∀ c ∈ (smallHex width n).toList, c.toNat < 128 := by
  have hall : ∀ k : Fin 16, (smallDigits.getD k '0').toNat < 128 := by decide
  rw [smallHex, String.toList_ofList]
  exact forall_mem_digitsOnto (fun d => hall ⟨d % 16, Nat.mod_lt d (by decide)⟩)
    (List.forall_mem_nil _)

/-- What an escape may start with. -/
def escapes : List String :=
  ["\\\"", "\\\\", "\\n", "\\r", "\\t", "\\f", "\\b", "\\u"]

theorem ascii_of_mem_escapes {text : String} (h : text ∈ escapes) :
    ∀ c ∈ text.toList, c.toNat < 128 := by
  have hall : escapes.all (fun text => text.toList.all fun c => decide (c.toNat < 128)) = true := by
    decide +kernel
  intro c hc
  exact of_decide_eq_true (List.all_eq_true.1 (List.all_eq_true.1 hall text h) c hc)

theorem ascii_escapedChar (c : Char) : ∀ d ∈ (escapedChar c).toList, d.toNat < 128 := by
  unfold escapedChar
  repeat' split
  iterate 7 exact ascii_of_mem_escapes (by simp [escapes])
  · next hplain =>
      simp only [Bool.and_eq_true, decide_eq_true_eq] at hplain
      rw [String.toList_singleton, List.forall_mem_singleton]
      omega
  · rw [String.toList_join, List.flatMap_map]
    intro d hd
    obtain ⟨unit, -, hd⟩ := List.mem_flatMap.1 hd
    rw [String.toList_append] at hd
    rcases List.mem_append.1 hd with hd | hd
    · exact ascii_of_mem_escapes (by simp [escapes]) d hd
    · exact ascii_smallHex 4 unit d hd

theorem reads_string (text : String) : Reads text? (string text).toList text := by
  have hlist : (string text).toList =
      '"' :: (text.toList.flatMap (fun c => (escapedChar c).toList) ++ ['"']) := by
    simp [string, String.toList_join, List.flatMap_map]
  rw [hlist]
  refine ⟨?_, ⟨_, _, rfl, rfl, rfl⟩, ?_⟩
  · intro c hc
    rw [List.mem_cons, List.mem_append, List.mem_singleton, List.mem_flatMap] at hc
    rcases hc with rfl | ⟨d, -, hc⟩ | rfl
    · decide
    · exact ascii_escapedChar d c hc
    · decide
  · intro blanks rest hblanks _
    unfold text?
    rw [List.cons_append, sign?_self hblanks rfl, List.append_assoc, List.singleton_append]
    simp only [Option.bind_eq_bind, Option.bind_some]
    rw [units?_escaped]
    simp only [Option.bind_some]
    rw [ofUnits?_flatMap, Option.bind_some, String.ofList_toList]
    rfl

/-! ## Numbers -/

theorem isDigit_bounds {c : Char} (h : c.isDigit = true) : 48 ≤ c.toNat ∧ c.toNat ≤ 57 := by
  simpa [Char.isDigit, UInt32.le_iff_toNat_le] using h

theorem part_of_isDigit {c : Char} (h : c.isDigit = true) :
    isSpace c = false ∧ isClosing c = false ∧ c ≠ '-' ∧ c ≠ '"' := by
  have hne {d : Char} (hd : d.isDigit = false) : c ≠ d := by
    rintro rfl
    rw [h] at hd
    cases hd
  refine ⟨?_, ?_, hne rfl, hne rfl⟩
  · simp [isSpace, hne (d := ' ') rfl, hne (d := '\n') rfl, hne (d := '\r') rfl,
      hne (d := '\t') rfl]
  · simp [isClosing, hne (d := ']') rfl, hne (d := '\x7d') rfl]

theorem not_isDigit_of_isSpace {c : Char} (h : isSpace c = true) : c.isDigit = false := by
  by_contra hdigit
  rw [(part_of_isDigit (by simpa using hdigit)).1] at h
  cases h

theorem natural?_toDigits (n : Nat) {rest : List Char}
    (hrest : ∀ c, rest.head? = some c → c.isDigit = false) :
    natural? (Nat.toDigits 10 n ++ rest) = some (n, rest) := by
  have hdigits : ∀ c ∈ Nat.toDigits 10 n, c.isDigit = true := fun c hc =>
    Nat.isDigit_of_mem_toDigits (by decide) (by decide) hc
  have htake : rest.takeWhile Char.isDigit = [] := by
    cases rest with
    | nil => rfl
    | cons c rest => rw [List.takeWhile_cons_of_neg (by simp [hrest c rfl])]
  have hdrop : rest.dropWhile Char.isDigit = rest := by
    cases rest with
    | nil => rfl
    | cons c rest => rw [List.dropWhile_cons_of_neg (by simp [hrest c rfl])]
  unfold natural?
  simp only
  rw [List.takeWhile_append_of_pos hdigits, List.dropWhile_append_of_pos hdigits, htake, hdrop,
    List.append_nil, if_neg (by simp [Nat.toDigits_ne_nil]),
    Nat.ofDigitChars_toDigits (by decide) (by decide)]

theorem ascii_toDigits (n : Nat) : ∀ c ∈ Nat.toDigits 10 n, c.toNat < 128 := by
  intro c hc
  have hbounds := isDigit_bounds (Nat.isDigit_of_mem_toDigits (by decide) (by decide) hc)
  omega

theorem reads_number (n : Int) : Reads scalar? (toString n).toList (.number n) := by
  -- neither a digit nor a minus sign starts a string
  have hscalar {c : Char} (hc : isSpace c = false) (hquote : c ≠ '"') {blanks rest : List Char}
      (hblanks : ∀ b ∈ blanks, isSpace b = true) :
      scalar? (blanks ++ c :: rest) =
        (number? (blanks ++ c :: rest)).map fun (found, rest) => (.number found, rest) := by
    unfold scalar? text?
    rw [sign?_of_ne hblanks hc rest hquote]
    rfl
  cases n with
  | ofNat n =>
      have hlist : (toString (Int.ofNat n)).toList = Nat.toDigits 10 n := String.toList_ofList
      obtain ⟨c, more, hdigits⟩ := List.exists_cons_of_ne_nil (@Nat.toDigits_ne_nil n 10)
      have hc : c.isDigit = true :=
        Nat.isDigit_of_mem_toDigits (b := 10) (n := n) (by decide) (by decide) (by simp [hdigits])
      obtain ⟨hblank, hclosing, hminus, hquote⟩ := part_of_isDigit hc
      rw [hlist]
      refine ⟨ascii_toDigits n, ⟨c, more, hdigits, hblank, hclosing⟩, ?_⟩
      intro blanks rest hblanks hrest
      have hread := natural?_toDigits n hrest
      rw [hdigits, List.cons_append] at hread ⊢
      rw [hscalar hblank hquote hblanks]
      unfold number?
      rw [sign?_of_ne hblanks hblank _ hminus]
      simp only
      rw [dropWhile_isSpace hblanks hblank, hread]
      rfl
  | negSucc n =>
      have hlist : (toString (Int.negSucc n)).toList = '-' :: Nat.toDigits 10 (n + 1) := by
        show ("-" ++ Nat.repr (n + 1)).toList = _
        rw [String.toList_append, Nat.toList_repr]
        rfl
      rw [hlist]
      refine ⟨List.forall_mem_cons.2 ⟨by decide, ascii_toDigits _⟩, ⟨_, _, rfl, rfl, rfl⟩, ?_⟩
      intro blanks rest hblanks hrest
      rw [List.cons_append, hscalar rfl (by decide) hblanks]
      unfold number?
      rw [sign?_self hblanks rfl]
      simp only
      rw [natural?_toDigits (n + 1) hrest]
      rfl

theorem Reads.scalar_text {text : List Char} {found : String} (h : Reads text? text found) :
    Reads scalar? text (.text found) := by
  refine ⟨h.ascii, h.starts, ?_⟩
  intro blanks rest hblanks hrest
  unfold scalar?
  rw [h.reads blanks rest hblanks hrest]

/-! ## Fields and items -/

theorem Reads.field {value? : Reader α} {name text : String} {value : α}
    (h : Reads value? text.toList value) :
    Reads (field? value?) (string name ++ ": " ++ text).toList (name, value) := by
  have hname := reads_string name
  have hlist : (string name ++ ": " ++ text).toList =
      (string name).toList ++ ':' :: ' ' :: text.toList := by
    simp
  rw [hlist]
  refine ⟨?_, ?_, ?_⟩
  · refine List.forall_mem_append.2 ⟨hname.ascii, ?_⟩
    exact List.forall_mem_cons.2 ⟨by decide, List.forall_mem_cons.2 ⟨by decide, h.ascii⟩⟩
  · obtain ⟨c, more, hstarts, hc⟩ := hname.starts
    rw [hstarts]
    exact ⟨c, _, rfl, hc⟩
  · intro blanks rest hblanks hrest
    have hvalue : value? (' ' :: (text.toList ++ rest)) = some (value, rest) :=
      h.reads [' '] rest (List.forall_mem_singleton.2 rfl) hrest
    unfold field?
    rw [List.append_assoc, hname.reads blanks _ hblanks (by simp)]
    simp only [List.cons_append, Option.bind_eq_bind, Option.bind_some]
    rw [sign?_cons rfl, Option.bind_some, hvalue]
    rfl

/-- What makes a sign a closing bracket. -/
theorem of_isClosing {c : Char} (h : isClosing c = true) :
    isSpace c = false ∧ c ≠ ',' ∧ c.isDigit = false ∧ c.toNat < 128 := by
  simp only [isClosing, Bool.or_eq_true, beq_iff_eq] at h
  rcases h with rfl | rfl <;> decide

/-- Items with commas and blanks between them are read up to the bracket. -/
theorem itemsUpTo?_intercalate {item? : Reader α} {right : Char} (hright : isClosing right = true)
    {gap last : List Char} (hgap : ∀ b ∈ gap, isSpace b = true)
    (hlast : ∀ b ∈ last, isSpace b = true) (rest : List Char) {text : List Char} {item : α}
    (hfirst : Reads item? text item) {texts : List (List Char)} {items : List α}
    (h : List.Forall₂ (Reads item?) texts items) {limit : Nat} (hlimit : items.length < limit)
    {blanks : List Char} (hblanks : ∀ b ∈ blanks, isSpace b = true) :
    itemsUpTo? right item? limit
        (blanks ++ (List.intercalate (',' :: gap) (text :: texts) ++ (last ++ right :: rest))) =
      some (item :: items, rest) := by
  obtain ⟨hblank, hcomma, hdigit, -⟩ := of_isClosing hright
  induction h generalizing text item limit blanks with
  | nil =>
      obtain ⟨limit, rfl⟩ := Nat.exists_eq_add_of_lt hlimit
      have hends : ∀ c, (last ++ right :: rest).head? = some c → c.isDigit = false := by
        intro c hc
        cases last with
        | nil =>
            cases hc
            exact hdigit
        | cons b last =>
            cases hc
            exact not_isDigit_of_isSpace (hlast c List.mem_cons_self)
      rw [List.intercalate_singleton, itemsUpTo?, hfirst.reads blanks _ hblanks hends]
      simp only [Option.bind_eq_bind, Option.bind_some]
      rw [sign?_of_ne hlast hblank rest hcomma]
      simp only
      rw [sign?_self hlast hblank]
      rfl
  | @cons next _ texts items hnext _ ih =>
      obtain ⟨limit, rfl⟩ := Nat.exists_eq_add_of_lt hlimit
      have hcommas : List.intercalate (',' :: gap) (text :: next :: texts) ++
            (last ++ right :: rest) =
          text ++ (',' :: (gap ++ (List.intercalate (',' :: gap) (next :: texts) ++
            (last ++ right :: rest)))) := by
        simp [List.intercalate_cons_cons]
      rw [hcommas, itemsUpTo?, hfirst.reads blanks _ hblanks (by simp)]
      simp only [Option.bind_eq_bind, Option.bind_some]
      rw [sign?_cons rfl]
      simp only
      rw [ih hnext (by simp; omega) hgap]
      rfl

theorem mem_intercalate {separator : List Char} {texts : List (List Char)} {c : Char}
    (h : c ∈ separator.intercalate texts) : c ∈ separator ∨ ∃ text ∈ texts, c ∈ text := by
  induction texts with
  | nil => cases h
  | cons text texts ih =>
      cases texts with
      | nil =>
          rw [List.intercalate_singleton] at h
          exact Or.inr ⟨text, List.mem_cons_self, h⟩
      | cons next texts =>
          rw [List.intercalate_cons_cons, List.append_assoc, List.mem_append, List.mem_append] at h
          rcases h with h | h | h
          · exact Or.inr ⟨text, List.mem_cons_self, h⟩
          · exact Or.inl h
          · rcases ih h with hseparator | ⟨found, hfound, hc⟩
            · exact Or.inl hseparator
            · exact Or.inr ⟨found, List.mem_cons_of_mem _ hfound, hc⟩

theorem length_le_intercalate (separator : List Char) {texts : List (List Char)}
    (h : ∀ text ∈ texts, text ≠ []) : texts.length ≤ (separator.intercalate texts).length := by
  induction texts with
  | nil => exact Nat.zero_le _
  | cons text texts ih =>
      obtain ⟨htext, htexts⟩ := List.forall_mem_cons.1 h
      have hpos := List.length_pos_of_ne_nil htext
      cases texts with
      | nil =>
          rw [List.intercalate_singleton]
          exact hpos
      | cons next texts =>
          have hrest := ih htexts
          rw [List.intercalate_cons_cons, List.length_append, List.length_append, List.length_cons]
          omega

theorem ascii_of_isSpace {c : Char} (h : isSpace c = true) : c.toNat < 128 := by
  simp only [isSpace, Bool.or_eq_true, beq_iff_eq] at h
  rcases h with ((rfl | rfl) | rfl) | rfl <;> decide

theorem forall_of_reads {item? : Reader α} {texts : List (List Char)} {items : List α}
    (h : List.Forall₂ (Reads item?) texts items) :
    ∀ text ∈ texts, text ≠ [] ∧ ∀ c ∈ text, c.toNat < 128 := by
  induction h with
  | nil => exact List.forall_mem_nil _
  | cons hfirst _ ih =>
      obtain ⟨c, rest, rfl, -⟩ := hfirst.starts
      exact List.forall_mem_cons.2 ⟨⟨List.cons_ne_nil _ _, hfirst.ascii⟩, ih⟩

/-- Items between brackets have only blanks and commas around them, whatever the indentation. -/
theorem toList_bracketed (indent : Option Nat) (level : Nat) (left right : Char) (text : String)
    (texts : List String) :
    ∃ first gap last, (∀ b ∈ first, isSpace b = true) ∧ (∀ b ∈ gap, isSpace b = true) ∧
      (∀ b ∈ last, isSpace b = true) ∧
      (bracketed indent level (String.singleton left) (String.singleton right)
        (text :: texts)).toList =
        left :: (first ++ (List.intercalate (',' :: gap) ((text :: texts).map String.toList) ++
          (last ++ [right]))) := by
  have hbreak (n level : Nat) : ∀ b ∈ (lineBreak n level).toList, isSpace b = true := by
    rw [lineBreak, String.toList_ofList]
    refine List.forall_mem_cons.2 ⟨rfl, ?_⟩
    intro b hb
    rw [List.eq_of_mem_replicate hb]
    rfl
  cases indent with
  | none =>
      refine ⟨[], [' '], [], List.forall_mem_nil _, List.forall_mem_singleton.2 rfl,
        List.forall_mem_nil _, ?_⟩
      simp [bracketed, String.toList_intercalate]
  | some n =>
      refine ⟨_, _, _, hbreak n (level + 1), hbreak n (level + 1), hbreak n level, ?_⟩
      simp [bracketed, String.toList_intercalate]

/-- The pairs of brackets. -/
def brackets : List (Char × Char) :=
  [('[', ']'), ('\x7b', '\x7d')]

theorem of_mem_brackets {left right : Char} (h : (left, right) ∈ brackets) :
    isSpace left = false ∧ isClosing left = false ∧ left.toNat < 128 ∧ isClosing right = true := by
  simp only [brackets, List.mem_cons, Prod.mk.injEq, List.not_mem_nil, or_false] at h
  rcases h with ⟨rfl, rfl⟩ | ⟨rfl, rfl⟩ <;> decide

/-- Items between brackets are read, whatever the indentation. -/
theorem reads_bracketed {item? : Reader α} {left right : Char}
    (hbrackets : (left, right) ∈ brackets) {texts : List String} {items : List α}
    (h : List.Forall₂ (fun text item => Reads item? text.toList item) texts items)
    (indent : Option Nat) (level : Nat) :
    Reads (between? left right item?)
      (bracketed indent level (String.singleton left) (String.singleton right) texts).toList
      items := by
  obtain ⟨hblank, hopening, hascii, hright⟩ := of_mem_brackets hbrackets
  obtain ⟨hend, -, -, hascii'⟩ := of_isClosing hright
  cases h with
  | nil =>
      have hlist : (bracketed indent level (String.singleton left) (String.singleton right)
          []).toList = [left, right] := by
        simp [bracketed]
      rw [hlist]
      refine ⟨by simp [hascii, hascii'], ⟨left, _, rfl, hblank, hopening⟩, ?_⟩
      intro blanks rest hblanks _
      unfold between?
      rw [List.cons_append, sign?_self hblanks hblank]
      simp only [Option.bind_eq_bind, Option.bind_some]
      rw [List.singleton_append, sign?_cons hend]
  | @cons text item texts items hfirst hrest =>
      obtain ⟨first, gap, last, hbefore, hgap, hlast, hlist⟩ :=
        toList_bracketed indent level left right text texts
      have htexts : List.Forall₂ (Reads item?) (texts.map String.toList) items :=
        List.forall₂_map_left_iff.2 hrest
      have hall := forall_of_reads (.cons hfirst htexts)
      obtain ⟨c, more, hstarts, hc, hopen⟩ := hfirst.starts
      obtain ⟨tail, htail⟩ : ∃ tail,
          List.intercalate (',' :: gap) ((text :: texts).map String.toList) = c :: tail := by
        cases texts with
        | nil => exact ⟨_, by rw [List.map_singleton, List.intercalate_singleton, hstarts]⟩
        | cons next texts =>
            exact ⟨_, by rw [List.map_cons, List.map_cons, List.intercalate_cons_cons, hstarts,
              List.cons_append, List.cons_append]⟩
      rw [hlist]
      refine ⟨?_, ⟨left, _, rfl, hblank, hopening⟩, ?_⟩
      · intro d hd
        simp only [List.mem_cons, List.mem_append, List.not_mem_nil, or_false] at hd
        rcases hd with rfl | hd | hd | hd | rfl
        · exact hascii
        · exact ascii_of_isSpace (hbefore d hd)
        · rcases mem_intercalate hd with hd | ⟨found, hfound, hd⟩
          · rcases List.mem_cons.1 hd with rfl | hd
            · decide
            · exact ascii_of_isSpace (hgap d hd)
          · exact (hall found hfound).2 d hd
        · exact ascii_of_isSpace (hlast d hd)
        · exact hascii'
      · intro blanks rest hblanks _
        have hne : c ≠ right := by
          rintro rfl
          rw [hopen] at hright
          cases hright
        unfold between?
        rw [List.cons_append, sign?_self hblanks hblank]
        simp only [Option.bind_eq_bind, Option.bind_some, List.append_assoc,
          List.singleton_append]
        rw [htail, List.cons_append, sign?_of_ne hbefore hc _ hne, ← List.cons_append, ← htail]
        simp only
        refine itemsUpTo?_intercalate hright hgap hlast rest hfirst htexts ?_ hbefore
        -- every item takes at least one character
        have hcount := length_le_intercalate (',' :: gap) fun found hfound => (hall found hfound).1
        have hlength := htexts.length_eq
        simp only [List.map_cons, List.length_cons, List.length_append] at hcount ⊢
        omega

theorem Reads.object {value? : Reader α} {fields : List (String × String)}
    {values : List (String × α)}
    (h : List.Forall₂ (fun field value => field.1 = value.1 ∧ Reads value? field.2.toList value.2)
      fields values) (indent : Option Nat) (level : Nat) :
    Reads (object? value?) (Json.object indent level fields).toList values := by
  refine reads_bracketed (by decide) ?_ indent level
  refine List.forall₂_map_left_iff.2 (h.imp ?_)
  rintro ⟨name, text⟩ ⟨_, value⟩ ⟨rfl, hvalue⟩
  exact hvalue.field

theorem Reads.array {item? : Reader α} {texts : List String} {items : List α}
    (h : List.Forall₂ (fun text item => Reads item? text.toList item) texts items)
    (indent : Option Nat) (level : Nat) :
    Reads (array? item?) (Json.array indent level texts).toList items :=
  reads_bracketed (by decide) h indent level

/-- The number in a field of an object. -/
def numberOf? (record : List (String × Scalar)) (name : String) : Option Int :=
  match record.lookup name with
  | some (.number n) => some n
  | _ => none

/-- The number in a field of an object, if it is not negative. -/
def naturalOf? (record : List (String × Scalar)) (name : String) : Option Nat :=
  (numberOf? record name).bind Int.toNat?

/-- The text in a field of an object. -/
def textOf? (record : List (String × Scalar)) (name : String) : Option String :=
  match record.lookup name with
  | some (.text text) => some text
  | _ => none

end Text.Json

namespace SourceMap

open Text Text.Json

/-- The number and the name of a unit in a record. -/
def unitOf? (record : List (String × Scalar)) : Option (Nat × String) := do
  let id ← naturalOf? record "id"
  let name ← textOf? record "name"
  return (id, name)

/-- The entry in a record. -/
def lineOf? (record : List (String × Scalar)) : Option Line := do
  let unit ← numberOf? record "unit"
  let offset ← numberOf? record "offset"
  let line ← naturalOf? record "line"
  let address ← numberOf? record "address"
  return ⟨unit, offset, line, address⟩

/-- Reads a source map: an object of two arrays of records. -/
def read? (text : List Char) : Option SourceMap := do
  let (tables, rest) ← object? (array? (object? scalar?)) text
  if rest.all isSpace then
    let units ← (← tables.lookup "src_units").mapM unitOf?
    let entries ← (← tables.lookup "entries").mapM lineOf?
    return ⟨units, entries⟩
  else none

/-- Reads a source map file. -/
def ofBytes? (data : Bytes) : Option SourceMap :=
  (Text.Utf8.decode data).toOption.bind read?

/-- The record of a unit. -/
def unitRecord (unit : Nat × String) : List (String × Scalar) :=
  [("id", .number unit.1), ("name", .text unit.2)]

/-- The record of an entry. -/
def lineRecord (line : Line) : List (String × Scalar) :=
  [("unit", .number line.unit), ("offset", .number line.offset), ("line", .number line.line),
    ("address", .number line.address)]

theorem unitOf?_unitRecord (unit : Nat × String) : unitOf? (unitRecord unit) = some unit := by
  simp [unitOf?, unitRecord, naturalOf?, numberOf?, textOf?, List.lookup_cons, Int.toNat?]

theorem lineOf?_lineRecord (line : Line) : lineOf? (lineRecord line) = some line := by
  simp [lineOf?, lineRecord, naturalOf?, numberOf?, List.lookup_cons, Int.toNat?]

theorem reads_unit (indent : Option Nat) (unit : Nat × String) :
    Reads (object? scalar?)
      (Json.object indent 2 [("id", toString unit.1), ("name", Json.string unit.2)]).toList
      (unitRecord unit) := by
  refine .object ?_ indent 2
  exact .cons ⟨rfl, reads_number unit.1⟩ (.cons ⟨rfl, (reads_string unit.2).scalar_text⟩ .nil)

theorem reads_line (indent : Option Nat) (line : Line) :
    Reads (object? scalar?)
      (Json.object indent 2
        [("unit", toString line.unit), ("offset", toString line.offset),
          ("line", toString line.line), ("address", toString line.address)]).toList
      (lineRecord line) := by
  refine .object ?_ indent 2
  exact .cons ⟨rfl, reads_number line.unit⟩ (.cons ⟨rfl, reads_number line.offset⟩
    (.cons ⟨rfl, reads_number line.line⟩ (.cons ⟨rfl, reads_number line.address⟩ .nil)))

theorem reads_records {α : Type} {write : α → String} {record : α → List (String × Scalar)}
    (h : ∀ x, Reads (object? scalar?) (write x).toList (record x)) (indent : Option Nat)
    (xs : List α) :
    Reads (array? (object? scalar?)) (Json.array indent 1 (xs.map write)).toList
      (xs.map record) := by
  refine .array (List.forall₂_map_left_iff.2 (List.forall₂_map_right_iff.2 ?_)) indent 1
  exact List.forall₂_same.2 fun x _ => h x

/-- The text of a source map is read as two tables of records. -/
theorem reads_json (map : SourceMap) (indent : Option Nat) :
    Reads (object? (array? (object? scalar?))) (map.json indent).toList
      [("src_units", map.units.map unitRecord), ("entries", map.entries.map lineRecord)] := by
  have hunits := reads_records (reads_unit indent) indent map.units
  have hentries := reads_records (reads_line indent) indent map.entries
  refine .object ?_ indent 0
  exact .cons ⟨rfl, hunits⟩ (.cons ⟨rfl, hentries⟩ .nil)

theorem mapM_map_of_eq_some {α β : Type} {write : α → β} {read? : β → Option α}
    (h : ∀ x, read? (write x) = some x) (xs : List α) : (xs.map write).mapM read? = some xs := by
  induction xs with
  | nil => rfl
  | cons x xs ih =>
      rw [List.map_cons, List.mapM_cons, h, ih]
      rfl

/-- A source map is read back from its text, whatever the indentation. -/
theorem read?_json (map : SourceMap) (indent : Option Nat) :
    read? (map.json indent).toList = some map := by
  have hread := (reads_json map indent).reads [] [] (List.forall_mem_nil _) (by simp)
  rw [List.append_nil, List.nil_append] at hread
  have hunits := mapM_map_of_eq_some unitOf?_unitRecord map.units
  have hentries := mapM_map_of_eq_some lineOf?_lineRecord map.entries
  have hsecond : [("src_units", map.units.map unitRecord),
      ("entries", map.entries.map lineRecord)].lookup "entries" =
      some (map.entries.map lineRecord) := by
    rw [List.lookup_cons, beq_false_of_ne (by decide)]
    exact List.lookup_cons_self
  unfold read?
  rw [hread]
  simp only [Option.bind_eq_bind, Option.bind_some, List.all_nil, if_true]
  rw [List.lookup_cons_self, hsecond]
  simp only [Option.bind_some, hunits, hentries]
  rfl

/-- A source map is read back from its file. -/
theorem ofBytes?_json (map : SourceMap) (indent : Option Nat) :
    ofBytes? (map.json indent).toUTF8.toList = some map := by
  unfold ofBytes?
  rw [Text.decode_toUTF8 (reads_json map indent).ascii]
  exact read?_json map indent

end SourceMap

end Asm65
