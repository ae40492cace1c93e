import GraphQL.Position

/-!
# Tokens

A token is a piece of source text with its kind. Keywords are kinds of their own, but each may
stand wherever a name is expected.
-/

namespace GraphQL

namespace Token

/-- The kinds of tokens. -/
inductive Kind where
  | leftBrace
  | rightBrace
  | leftParen
  | rightParen
  | leftBracket
  | rightBracket
  | colon
  | equals
  | bang
  | pipe
  | amp
  | ellipsis
  | dollar
  | atSign
  | int
  | float
  | string
  | badUnicodeEscape
  | identifier
  | query
  | mutation
  | subscription
  | fragment
  | on
  | true
  | false
  | null
  | schema
  | scalar
  | type
  | interface
  | union
  | enum
  | input
  | directive
  | implements
  | unknownChar
  deriving DecidableEq, Repr

namespace Kind

/-- The name of a kind in messages. -/
def label : Kind → String
  | leftBrace => "LCURLY"
  | rightBrace => "RCURLY"
  | leftParen => "LPAREN"
  | rightParen => "RPAREN"
  | leftBracket => "LBRACKET"
  | rightBracket => "RBRACKET"
  | colon => "COLON"
  | equals => "EQUALS"
  | bang => "BANG"
  | pipe => "PIPE"
  | amp => "AMP"
  | ellipsis => "ELLIPSIS"
  | dollar => "VAR_SIGN"
  | atSign => "DIR_SIGN"
  | int => "INT"
  | float => "FLOAT"
  | string => "STRING"
  | badUnicodeEscape => "BAD_UNICODE_ESCAPE"
  | identifier => "IDENTIFIER"
  | query => "QUERY"
  | mutation => "MUTATION"
  | subscription => "SUBSCRIPTION"
  | fragment => "FRAGMENT"
  | on => "ON"
  | true => "TRUE"
  | false => "FALSE"
  | null => "NULL"
  | schema => "SCHEMA"
  | scalar => "SCALAR"
  | type => "TYPE"
  | interface => "INTERFACE"
  | union => "UNION"
  | enum => "ENUM"
  | input => "INPUT"
  | directive => "DIRECTIVE"
  | implements => "IMPLEMENTS"
  | unknownChar => "UNKNOWN_CHAR"

/-- The keywords with their kinds. -/
def keywords : List (String × Kind) :=
  [("query", query), ("mutation", mutation), ("subscription", subscription),
    ("fragment", fragment), ("on", on), ("true", true), ("false", false), ("null", null),
    ("schema", schema), ("scalar", scalar), ("type", type), ("interface", interface),
    ("union", union), ("enum", enum), ("input", input), ("directive", directive),
    ("implements", implements)]

/-- The kind of a name: that of the keyword it is, or an identifier. -/
def ofName (name : String) : Kind :=
  ((keywords.find? fun k => k.1 = name).map Prod.snd).getD identifier

/-- Whether a token of this kind may stand for a name. -/
def isName (kind : Kind) : Bool :=
  kind = identifier || keywords.any fun k => k.2 = kind

end Kind

end Token

/-- A token of a source text. `raw` is its text in the source, `value` the same except for
strings, where it is the text they denote. `trivia` is the ignored text since the previous token,
`offset` the number of bytes before the token, `prev` the index of the previous token. -/
structure Token where
  kind : Token.Kind
  raw : String
  value : String
  pos : Position
  offset : Nat
  trivia : String
  prev : Option Nat
  deriving DecidableEq, Repr

end GraphQL
