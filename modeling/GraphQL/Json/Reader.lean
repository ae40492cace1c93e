import GraphQL.Json

/-!
# Reading JSON

`Json.read?` reads one JSON value that takes up a whole text. Numerals without fraction and
exponent that fit 64 bits are integers, all others doubles; an object that repeats a key keeps
the place of the first and the value of the last.
-/

namespace GraphQL.Json

/-- The blanks between the parts of a JSON text. -/
def isBlank (c : Char) : Bool :=
  c = ' ' || c = '\n' || c = '\t' || c = '\r'

/-- Reads four hexadecimal digits. -/
def readHexFour : List Char → Option (Nat × List Char)
  | a :: b :: c :: d :: rest => do
    let a ← Text.hexValue? a
    let b ← Text.hexValue? b
    let c ← Text.hexValue? c
    let d ← Text.hexValue? d
    pure (((a * 16 + b) * 16 + c) * 16 + d, rest)
  | _ => none

/-- Reads what follows a backslash; an astral character is a pair of escapes. -/
def readEscape : List Char → Option (Char × List Char)
  | '"' :: rest => some ('"', rest)
  | '\\' :: rest => some ('\\', rest)
  | '/' :: rest => some ('/', rest)
  | 'b' :: rest => some ('\x08', rest)
  | 'f' :: rest => some ('\x0c', rest)
  | 'n' :: rest => some ('\n', rest)
  | 'r' :: rest => some ('\r', rest)
  | 't' :: rest => some ('\t', rest)
  | 'u' :: rest => do
    let (high, rest) ← readHexFour rest
    if 0xd800 ≤ high ∧ high < 0xdc00 then
      match rest with
      | '\\' :: 'u' :: rest =>
        let (low, rest) ← readHexFour rest
        if 0xdc00 ≤ low ∧ low < 0xe000 then
          pure (Char.ofNat (0x10000 + (high - 0xd800) * 0x400 + (low - 0xdc00)), rest)
        else none
      | _ => none
    else if 0xdc00 ≤ high ∧ high < 0xe000 then none
    else pure (Char.ofNat high, rest)
  | _ => none

/-- Reads the rest of a string, its opening quote already taken; the characters read so far come
in reverse order. The fuel bounds the number of characters. -/
def readString : Nat → List Char → List Char → Option (String × List Char)
  | 0, _, _ => none
  | _, _, [] => none
  | fuel + 1, done, c :: rest =>
    if c = '"' then some (String.ofList done.reverse, rest)
    else if c = '\\' then
      match readEscape rest with
      | some (c, rest) => readString fuel (c :: done) rest
      | none => none
    else if c.val < 0x20 then none
    else readString fuel (c :: done) rest

/-- The number of a numeral, whose form has been checked. -/
def numberOf (numeral : List Char) : Option Number :=
  let n := Numeral.ofChars numeral
  let value := n.toInt
  if n.isWhole && !(n.negative && value = 0) &&
      -0x8000000000000000 ≤ value && value < 0x10000000000000000 then
    some (.int value)
  else n.toBinary64?.map .double

/-- Reads a numeral: an optional minus, digits without a leading zero, an optional fraction and
an optional exponent. -/
def readNumber (cs : List Char) : Option (Number × List Char) := do
  let (minus, cs) := match cs with
    | '-' :: rest => (['-'], rest)
    | _ => ([], cs)
  let (whole, cs) ← match cs with
    | '0' :: rest => some (['0'], rest)
    | c :: _ => if Text.isDigit c then some (cs.span Text.isDigit) else none
    | [] => none
  let (fraction, cs) ← match cs with
    | '.' :: rest =>
      match rest.span Text.isDigit with
      | ([], _) => none
      | (digits, rest) => some ('.' :: digits, rest)
    | _ => some ([], cs)
  let (exponent, cs) ← match cs with
    | c :: rest =>
      if c = 'e' || c = 'E' then
        let (sign, rest) := match rest with
          | '-' :: rest => (['-'], rest)
          | '+' :: rest => (['+'], rest)
          | _ => ([], rest)
        match rest.span Text.isDigit with
        | ([], _) => none
        | (digits, rest) => some ('e' :: sign ++ digits, rest)
      else some ([], cs)
    | [] => some ([], cs)
  let number ← numberOf (minus ++ whole ++ fraction ++ exponent)
  pure (number, cs)

mutual

/-- Reads a value and gives back what follows it. The fuel bounds the nesting, the number of items
and the length of strings; more than the length of the text is never needed, since whatever uses it
up takes characters of its own. -/
def readValue : Nat → List Char → Option (Json × List Char)
  | 0, _ => none
  | fuel + 1, cs =>
    match cs.dropWhile isBlank with
    | 'n' :: 'u' :: 'l' :: 'l' :: rest => some (.null, rest)
    | 't' :: 'r' :: 'u' :: 'e' :: rest => some (.bool true, rest)
    | 'f' :: 'a' :: 'l' :: 's' :: 'e' :: rest => some (.bool false, rest)
    | '"' :: rest => (readString fuel [] rest).map fun (s, rest) => (.string s, rest)
    | '[' :: rest =>
      match rest.dropWhile isBlank with
      | ']' :: rest => some (.array [], rest)
      | _ => (readItems fuel [] rest).map fun (items, rest) => (.array items, rest)
    | '{' :: rest =>
      match rest.dropWhile isBlank with
      | '}' :: rest => some (.object [], rest)
      | _ => (readFields fuel [] rest).map fun (fields, rest) => (ofPairs fields, rest)
    | cs => (readNumber cs).map fun (n, rest) => (.number n, rest)

/-- Reads the items of an array up to its closing bracket; the items read so far come in reverse
order. -/
def readItems : Nat → List Json → List Char → Option (List Json × List Char)
  | 0, _, _ => none
  | fuel + 1, done, cs => do
    let (item, rest) ← readValue fuel cs
    match rest.dropWhile isBlank with
    | ',' :: rest => readItems fuel (item :: done) rest
    | ']' :: rest => some ((item :: done).reverse, rest)
    | _ => none

/-- Reads the fields of an object up to its closing brace; the fields read so far come in reverse
order. -/
def readFields : Nat → List (String × Json) → List Char → Option (List (String × Json) × List Char)
  | 0, _, _ => none
  | fuel + 1, done, cs =>
    match cs.dropWhile isBlank with
    | '"' :: rest => do
      let (key, rest) ← readString fuel [] rest
      match rest.dropWhile isBlank with
      | ':' :: rest =>
        let (value, rest) ← readValue fuel rest
        match rest.dropWhile isBlank with
        | ',' :: rest => readFields fuel ((key, value) :: done) rest
        | '}' :: rest => some (((key, value) :: done).reverse, rest)
        | _ => none
      | _ => none
    | _ => none

end

/-- Reads a text that is one JSON value, with blanks around it. -/
def read? (text : String) : Option Json :=
  let cs := text.toList
  match readValue (cs.length + 1) cs with
  | some (value, rest) => if rest.all isBlank then some value else none
  | none => none

end GraphQL.Json
