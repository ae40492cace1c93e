import GraphQL.Config
import GraphQL.Number

/-!
# Reading settings

`Config.read?` reads the settings of a schema. Limits are integers from zero up to the greatest one
of 64 bits with a sign, in decimal, hexadecimal, octal or binary digits, with underscores between
digits; no key may occur twice.
-/

namespace GraphQL.Config

/-- The value of a setting. -/
inductive Setting where
  | integer (value : Int)
  | switch (value : Bool)

/-- The settings read so far. -/
structure Draft where
  maxComplexity : Option Nat
  maxDepth : Option Nat
  introspectTypename : Option Bool

namespace Draft

def limit? : Setting → Option Nat
  | .integer n => if 0 ≤ n then some n.toNat else none
  | .switch _ => none

/-- Adds a setting that is not there yet. -/
def set (d : Draft) (key : String) (value : Setting) : Option Draft :=
  if key = "maxComplexity" ∧ d.maxComplexity = none then do
    let n ← limit? value
    pure { d with maxComplexity := some n }
  else if key = "maxDepth" ∧ d.maxDepth = none then do
    let n ← limit? value
    pure { d with maxDepth := some n }
  else if key = "introspectTypename" ∧ d.introspectTypename = none then
    match value with
    | .switch b => some { d with introspectTypename := some b }
    | .integer _ => none
  else none

end Draft

def isBlank (c : Char) : Bool :=
  c = ' ' || c = '\t'

/-- The characters of a key without quotes. -/
def isKeyChar (c : Char) : Bool :=
  Text.isNameContinue c || c = '-'

/-- The control characters that can stand neither in a comment nor between quotes. -/
def isForbidden (c : Char) : Bool :=
  (c.val < 0x20 && c != '\t') || c.val = 0x7f

/-- The number that digits of a base denote, read after `n`; every underscore stands between two
digits. `after` tells whether a digit has just been read. -/
def digits? (base : Nat) : (after : Bool) → (n : Nat) → List Char → Option Nat
  | after, n, [] => if after then some n else none
  | after, n, '_' :: rest => if after then digits? base false n rest else none
  | _, n, c :: rest => do
    let d ← Text.hexValue? c
    if d < base then digits? base true (n * base + d) rest else none

/-- Splits a sign off. -/
def sign : List Char → Bool × List Char
  | '-' :: cs => (true, cs)
  | '+' :: cs => (false, cs)
  | cs => (false, cs)

/-- An integer, whatever its size. Decimal ones have no leading zeros, others no sign. -/
def unbounded? (cs : List Char) : Option Int :=
  match cs with
  | '0' :: 'x' :: rest => (digits? 16 false 0 rest).map Int.ofNat
  | '0' :: 'o' :: rest => (digits? 8 false 0 rest).map Int.ofNat
  | '0' :: 'b' :: rest => (digits? 2 false 0 rest).map Int.ofNat
  | _ =>
    let (negative, rest) := sign cs
    let magnitude :=
      match rest with
      | ['0'] => some 0
      | '0' :: _ => none
      | rest => digits? 10 false 0 rest
    magnitude.map fun n => if negative then -(n : Int) else n

/-- An integer of 64 bits with a sign. -/
def integer? (cs : List Char) : Option Int :=
  (unbounded? cs).filter Number.isInt64

def setting? (cs : List Char) : Option Setting :=
  if cs = ['t', 'r', 'u', 'e'] then some (.switch true)
  else if cs = ['f', 'a', 'l', 's', 'e'] then some (.switch false)
  else (integer? cs).map .integer

/-- Reads hexadecimal digits of a character. -/
def codePoint? (cs : List Char) : Option Char := do
  let n ← digits? 16 false 0 cs
  if h : n.isValidChar then some (Char.ofNatAux n h) else none

/-- Reads up to the closing double quote, undoing escapes, and gives what follows it. -/
def basicKey : List Char → Option (List Char × List Char)
  | [] => none
  | '"' :: rest => some ([], rest)
  | '\\' :: 'u' :: a :: b :: c :: d :: rest => escape (codePoint? [a, b, c, d]) (basicKey rest)
  | '\\' :: 'U' :: a :: b :: c :: d :: e :: f :: g :: h :: rest =>
    escape (codePoint? [a, b, c, d, e, f, g, h]) (basicKey rest)
  | '\\' :: c :: rest => escape (simple? c) (basicKey rest)
  | c :: rest => escape (if isForbidden c then none else some c) (basicKey rest)
where
  escape (c : Option Char) (found : Option (List Char × List Char)) :
      Option (List Char × List Char) :=
    match c, found with
    | some c, some (key, rest) => some (c :: key, rest)
    | _, _ => none
  simple? (c : Char) : Option Char :=
    if c = 'b' then some '\x08'
    else if c = 't' then some '\t'
    else if c = 'n' then some '\n'
    else if c = 'f' then some '\x0c'
    else if c = 'r' then some '\r'
    else if c = '"' then some '"'
    else if c = '\\' then some '\\'
    else none

/-- Reads up to the closing single quote. -/
def literalKey : List Char → Option (List Char × List Char)
  | [] => none
  | '\'' :: rest => some ([], rest)
  | c :: rest => do
    if isForbidden c then none
    let (key, rest) ← literalKey rest
    pure (c :: key, rest)

/-- Reads a key and gives what follows it. -/
def key? (cs : List Char) : Option (List Char × List Char) :=
  match cs with
  | '"' :: rest => basicKey rest
  | '\'' :: rest => literalKey rest
  | _ =>
    let key := cs.takeWhile isKeyChar
    if key.isEmpty then none else some (key, cs.dropWhile isKeyChar)

/-- Whether nothing is left of a line but blanks and a comment. -/
def isRest (cs : List Char) : Bool :=
  match cs.dropWhile isBlank with
  | [] => true
  | '#' :: comment => !comment.any isForbidden
  | _ => false

/-- Reads a line into a draft. -/
def readLine (d : Draft) (line : List Char) : Option Draft := do
  let cs := line.dropWhile isBlank
  if isRest cs then return d
  let (key, rest) ← key? cs
  match rest.dropWhile isBlank with
  | '=' :: rest =>
    let rest := rest.dropWhile isBlank
    let inValue := fun c => !isBlank c && c != '#'
    let value ← setting? (rest.takeWhile inValue)
    let d ← d.set (String.ofList key) value
    if isRest (rest.dropWhile inValue) then pure d else none
  | _ => none

/-- The lines of a text, each ended by a line feed that a carriage return may precede. -/
def lines : List Char → List (List Char)
  | [] => [[]]
  | '\r' :: '\n' :: cs => [] :: lines cs
  | '\n' :: cs => [] :: lines cs
  | c :: cs =>
    match lines cs with
    | line :: rest => (c :: line) :: rest
    | [] => [[c]]

/-- Reads the settings of a schema; what is not set has its default. -/
def read? (source : String) : Option Config := do
  let cs := source.toList
  let cs := if cs.head? = some '\ufeff' then cs.tail else cs
  let d ← (lines cs).foldlM readLine ⟨none, none, none⟩
  pure ⟨d.maxComplexity, d.maxDepth, d.introspectTypename.getD default.introspectTypename⟩

end GraphQL.Config
