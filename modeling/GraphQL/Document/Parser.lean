import GraphQL.Document
import GraphQL.Text.Shown
import GraphQL.Token.Scanner

/-!
# Parsing

A parser reads tokens off the front of a source and never goes back: which rule applies is
decided by the next token, or by the next two for the name of a fragment. Errors are causes at a
position, `ParseError.message` words them.

The parsers of nested rules take the number of levels that may still be opened; a rule that finds
none left fails. `repeatWhile` is the one loop; it ends because every item takes a token.
-/

namespace GraphQL

/-- Why a source is not what it should be. -/
inductive ParseError.Cause where
  | unterminatedString
  | unexpected (token : Token)
  | unexpectedEnd
  | intOutOfRange (literal : String)
  | floatOutOfRange (literal : String)
  | unknownLocation (name : Name)
  | tooDeep

/-- A cause, where it was found, and the file the source came from, if any. -/
structure ParseError where
  cause : ParseError.Cause
  pos : Position
  filename : Option String

namespace ParseError

/-- The wording of a cause. -/
def Cause.message : Cause → String
  | .unterminatedString => Unterminated.message
  | .unexpected token =>
    let place := s!"({token.kind.label}) at {token.pos.bracketed}"
    if token.kind = .badUnicodeEscape then
      s!"Parse error on bad Unicode escape sequence: {Text.shown token.value} {place}"
    else s!"Parse error on {Text.shown token.raw} {place}"
  | .unexpectedEnd => "Unexpected end of document"
  | .intOutOfRange literal => s!"Int literal {literal} is out of range"
  | .floatOutOfRange literal => s!"Float literal {literal} is out of range"
  | .unknownLocation name => s!"Unknown directive location {name}"
  | .tooDeep => "Recursion limit exceeded"

def plainMessage (e : ParseError) : String :=
  e.cause.message

/-- The message, after the name of the file if there is one. -/
def message (e : ParseError) : String :=
  match e.filename with
  | some filename => s!"{filename}: {e.plainMessage}"
  | none => e.plainMessage

end ParseError

/-- How deeply values, types and selections may nest. -/
def nestingLimit : Nat :=
  64

/-- The tokens still to be read, and the position after the end of the source. -/
structure Cursor where
  rest : List Token
  finish : Position

namespace Cursor

/-- The position of the next token, or of the end. -/
def pos (c : Cursor) : Position :=
  match c.rest with
  | token :: _ => token.pos
  | [] => c.finish

/-- Why the next token, or the end, does not fit. -/
def mismatch (c : Cursor) : ParseError.Cause :=
  match c.rest with
  | token :: _ => .unexpected token
  | [] => .unexpectedEnd

end Cursor

/-- A cause at a position. -/
structure ParseFailure where
  cause : ParseError.Cause
  pos : Position

/-- A rule of the grammar: reads something and leaves the tokens after it. -/
def Parser (α : Type) :=
  Cursor → Except ParseFailure (α × Cursor)

namespace Parser

variable {α β ν : Type}

instance : Monad Parser where
  pure a := fun c => .ok (a, c)
  bind p f := fun c =>
    match p c with
    | .ok (a, c) => f a c
    | .error e => .error e

/-- The next token stays in place and is the wrong one. -/
def fail (cause : ParseError.Cause) : Parser α :=
  fun c => .error ⟨cause, c.pos⟩

/-- The next token does not fit any rule. -/
def unexpected : Parser α :=
  fun c => .error ⟨c.mismatch, c.pos⟩

/-- Where the next token is. -/
def position : Parser Position :=
  fun c => .ok (c.pos, c)

/-- The next token, left in place. -/
def peek : Parser (Option Token) :=
  fun c => .ok (c.rest.head?, c)

/-- The kind of the next token. -/
def peekKind : Parser (Option Token.Kind) :=
  fun c => .ok (c.rest.head?.map Token.kind, c)

/-- The kind of the token after the next. -/
def peekSecondKind : Parser (Option Token.Kind) :=
  fun c => .ok (c.rest.tail.head?.map Token.kind, c)

/-- Takes the next token. -/
def next : Parser Token :=
  fun c =>
    match c.rest with
    | token :: rest => .ok (token, { c with rest := rest })
    | [] => .error ⟨c.mismatch, c.pos⟩

/-- Whether the next token is of the kind. -/
def nextIs (kind : Token.Kind) : Parser Bool :=
  return (← peekKind) = some kind

/-- Takes the next token if it is of the kind. -/
def eat (kind : Token.Kind) : Parser Bool := do
  if ← nextIs kind then
    let _ ← next
    pure true
  else pure false

/-- Takes the next token, which has to be of the kind. -/
def expect (kind : Token.Kind) : Parser Token := do
  if ← nextIs kind then next else unexpected

/-- Takes the next token, which has to be a name. -/
def name : Parser (Located Name) := do
  match ← peek with
  | some token =>
    if token.kind.isName then
      let token ← next
      pure ⟨token.pos, token.raw⟩
    else unexpected
  | none => unexpected

/-- Reads items as long as `more` holds: one for each token of the allowance, and one beyond it. -/
def repeatWithin (more : Parser Bool) (item : Parser α) : List Token → Parser (List α)
  | [] => do
    if ← more then return [← item] else return []
  | _ :: allowance => do
    if ← more then
      let a ← item
      let rest ← repeatWithin more item allowance
      pure (a :: rest)
    else pure []

/-- Reads items as long as `more` holds. Every item takes a token, so the tokens that are left
allow for all of them, and for the one that fails at the end of the source. -/
def repeatWhile (more : Parser Bool) (item : Parser α) : Parser (List α) :=
  fun c => repeatWithin more item c.rest c

/-- Any number of items between two tokens. -/
def delimited (opening closing : Token.Kind) (item : Parser α) : Parser (List α) := do
  let _ ← expect opening
  repeatWhile (return !(← eat closing)) item

/-- The same, or nothing where the opening token is missing. -/
def optionalDelimited (opening closing : Token.Kind) (item : Parser α) : Parser (List α) := do
  if ← nextIs opening then delimited opening closing item else pure []

/-- Fails unless all tokens have been read. -/
def finished : Parser Unit := do
  match ← peek with
  | some _ => unexpected
  | none => pure ()

/-- Whether there are tokens left. -/
def notAtEnd : Parser Bool :=
  return (← peek).isSome

end Parser

end GraphQL
