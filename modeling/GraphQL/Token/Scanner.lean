import GraphQL.Token
import GraphQL.Token.StringLiteral

/-!
# Scanning

`Token.scan` splits a source text into tokens. Between tokens it ignores blanks, tabs, commas,
line breaks, byte order marks and comments. A character that starts no token, and a string with
an invalid escape, become tokens of their own; only a string that is not closed is an error.

Each `split` function takes the text of one class of tokens off the front of the source, so that
both parts together are the source again.
-/

namespace GraphQL

/-- A string literal is not closed; its opening quote is at `pos`. -/
structure Unterminated where
  pos : Position
  deriving DecidableEq

def Unterminated.message : String :=
  "Unterminated string"

/-- The message with its place. -/
def Unterminated.text (e : Unterminated) : String :=
  s!"{Unterminated.message} at {e.pos.bracketed}"

namespace Token

/-- The characters that are ignored between tokens. -/
def isIgnored (c : Char) : Bool :=
  c = ' ' || c = '\t' || c = ',' || c = '\n' || c = '\r' || c = '\ufeff'

def isLineBreak (c : Char) : Bool :=
  c = '\n' || c = '\r'

/-- Splits off the ignored text at the front; a comment goes on to the next line break. -/
def splitIgnored (inComment : Bool) : List Char → List Char × List Char
  | [] => ([], [])
  | c :: cs =>
    if inComment && !isLineBreak c then
      let (ignored, rest) := splitIgnored true cs
      (c :: ignored, rest)
    else if isIgnored c then
      let (ignored, rest) := splitIgnored false cs
      (c :: ignored, rest)
    else if c = '#' then
      let (ignored, rest) := splitIgnored true cs
      (c :: ignored, rest)
    else ([], c :: cs)

/-- The kind of the tokens that consist of one character. -/
def punctuator? (c : Char) : Option Kind :=
  if c = '{' then some .leftBrace
  else if c = '}' then some .rightBrace
  else if c = '(' then some .leftParen
  else if c = ')' then some .rightParen
  else if c = '[' then some .leftBracket
  else if c = ']' then some .rightBracket
  else if c = ':' then some .colon
  else if c = '=' then some .equals
  else if c = '!' then some .bang
  else if c = '|' then some .pipe
  else if c = '&' then some .amp
  else if c = '$' then some .dollar
  else if c = '@' then some .atSign
  else none

/-- Splits off the longest run of characters that pass a test. -/
def splitWhile (p : Char → Bool) (cs : List Char) : List Char × List Char :=
  (cs.takeWhile p, cs.dropWhile p)

/-- Splits off the integral part of a number: zero alone, or digits that do not start with it. -/
def splitWhole : List Char → List Char × List Char
  | [] => ([], [])
  | c :: cs =>
    if c = '0' then (['0'], cs)
    else if Text.isDigit c then splitWhile Text.isDigit (c :: cs)
    else ([], c :: cs)

/-- Splits off a point with at least one digit after it. -/
def splitFraction : List Char → List Char × List Char
  | '.' :: c :: cs =>
    if Text.isDigit c then
      let (digits, rest) := splitWhile Text.isDigit (c :: cs)
      ('.' :: digits, rest)
    else ([], '.' :: c :: cs)
  | cs => ([], cs)

/-- Splits off a sign. -/
def splitSign : List Char → List Char × List Char
  | '+' :: cs => (['+'], cs)
  | '-' :: cs => (['-'], cs)
  | cs => ([], cs)

/-- Splits off an exponent: its letter, an optional sign and at least one digit. -/
def splitExponent : List Char → List Char × List Char
  | [] => ([], [])
  | e :: cs =>
    if e = 'e' || e = 'E' then
      let (sign, rest) := splitSign cs
      match splitWhile Text.isDigit rest with
      | ([], _) => ([], e :: cs)
      | (digits, rest) => (e :: sign ++ digits, rest)
    else ([], e :: cs)

/-- Splits off a minus sign. -/
def splitMinus : List Char → List Char × List Char
  | '-' :: cs => (['-'], cs)
  | cs => ([], cs)

/-- Splits off a number, or a minus that starts none. -/
def splitNumber (cs : List Char) : Kind × List Char × List Char :=
  let (minus, cs) := splitMinus cs
  match splitWhole cs with
  | ([], rest) => (.unknownChar, minus, rest)
  | (whole, rest) =>
    let (fraction, rest) := splitFraction rest
    let (exponent, rest) := splitExponent rest
    (if fraction.isEmpty && exponent.isEmpty then .int else .float,
      minus ++ whole ++ fraction ++ exponent, rest)

/-- Splits off an ellipsis, or the points in front that are too few for one. -/
def splitPoints : List Char → Kind × List Char × List Char
  | '.' :: '.' :: '.' :: cs => (.ellipsis, ['.', '.', '.'], cs)
  | cs => (.unknownChar, splitWhile (· = '.') cs)

/-- Splits the content of a string off, up to the closing quote, which is dropped. A backslash
keeps the character after it; none when the line ends first. -/
def splitQuoted : List Char → Option (List Char × List Char)
  | [] => none
  | '"' :: cs => some ([], cs)
  | '\\' :: c :: cs =>
    if isLineBreak c then none
    else (splitQuoted cs).map fun (content, rest) => ('\\' :: c :: content, rest)
  | c :: cs =>
    if isLineBreak c then none
    else (splitQuoted cs).map fun (content, rest) => (c :: content, rest)

/-- Splits the content of a block string off, up to the three closing quotes, which are dropped.
Three quotes after a backslash are part of the content. -/
def splitBlock : List Char → Option (List Char × List Char)
  | [] => none
  | '"' :: '"' :: '"' :: cs => some ([], cs)
  | '\\' :: '"' :: '"' :: '"' :: cs =>
    (splitBlock cs).map fun (content, rest) => ('\\' :: '"' :: '"' :: '"' :: content, rest)
  | c :: cs => (splitBlock cs).map fun (content, rest) => (c :: content, rest)

/-- A token before it has a position: kind, source text and value. -/
structure Lexeme where
  kind : Kind
  raw : List Char
  value : List Char

namespace Lexeme

/-- A token that denotes its own text. -/
def plain (kind : Kind) (raw : List Char) : Lexeme :=
  ⟨kind, raw, raw⟩

/-- The token of a string between the given quotes. A block string loses its indentation before
its escapes are resolved. -/
def ofString (quotes content value : List Char) : Lexeme :=
  let raw := quotes ++ content ++ quotes
  match StringLiteral.unescape value with
  | some value => ⟨.string, raw, value⟩
  | none => ⟨.badUnicodeEscape, raw, value⟩

end Lexeme

/-- Splits off the token at the front of a text that starts with `c`; none for a string that is
not closed. -/
def splitLexeme (c : Char) (cs : List Char) : Option (Lexeme × List Char) :=
  match punctuator? c with
  | some kind => some (.plain kind [c], cs)
  | none =>
    if c = '.' then
      let (kind, raw, rest) := splitPoints (c :: cs)
      some (.plain kind raw, rest)
    else if c = '"' then
      match cs with
      | '"' :: '"' :: cs =>
        (splitBlock cs).map fun (content, rest) =>
          (.ofString ['"', '"', '"'] content (StringLiteral.dedent content), rest)
      | cs =>
        (splitQuoted cs).map fun (content, rest) => (.ofString ['"'] content content, rest)
    else if c = '-' || Text.isDigit c then
      let (kind, raw, rest) := splitNumber (c :: cs)
      some (.plain kind raw, rest)
    else if Text.isNameStart c then
      let (raw, rest) := splitWhile Text.isNameContinue (c :: cs)
      some (.plain (.ofName (String.ofList raw)) raw, rest)
    else some (.plain .unknownChar [c], cs)

/-- Scans a text that comes after `index` tokens and `offset` bytes and starts at `pos`. Each
token takes at least one character, so the number of characters is fuel enough. -/
def scanFrom : Nat → Nat → Nat → Position → List Char → Except Unterminated (List Token)
  | 0, _, _, _, _ => .ok []
  | fuel + 1, index, offset, pos, cs =>
    let (trivia, cs) := splitIgnored false cs
    let pos := pos.after trivia
    let offset := offset + Text.utf8Length trivia
    match cs with
    | [] => .ok []
    | c :: cs =>
      match splitLexeme c cs with
      | none => .error ⟨pos⟩
      | some (lexeme, rest) => do
        let tokens ← scanFrom fuel (index + 1) (offset + Text.utf8Length lexeme.raw)
          (pos.after lexeme.raw) rest
        pure ({
          kind := lexeme.kind
          raw := String.ofList lexeme.raw
          value := String.ofList lexeme.value
          pos := pos
          offset := offset
          trivia := String.ofList trivia
          prev := if index = 0 then none else some (index - 1) } :: tokens)

/-- The tokens of a source text. -/
def scan (source : String) : Except Unterminated (List Token) :=
  let cs := source.toList
  scanFrom cs.length 0 0 .start cs

end Token

end GraphQL
