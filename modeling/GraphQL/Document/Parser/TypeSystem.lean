import GraphQL.Document.Parser.Executable

/-!
# Parsing type systems and whole documents

`Document.parse` reads a document; `Literal.parse`, `Const.parse`, `TypeRef.parse` and
`SelectionSet.parse` read a source that is only one such part.
-/

namespace GraphQL

namespace Parser

variable {α : Type}

/-- A string in front of a definition. -/
def description? : Parser (Option (Located String)) := do
  let pos ← position
  if ← nextIs .string then
    let token ← next
    pure (some ⟨pos, token.value⟩)
  else pure none

def inputValueDefinition : Parser InputValueDefinition := do
  let pos ← position
  let description ← description?
  let name ← name
  let _ ← expect .colon
  let type ← typeRef nestingLimit
  let default ← default?
  let directives ← constDirectives
  pure ⟨pos, description, name, type, default, directives⟩

def argumentDefinitions : Parser (List InputValueDefinition) :=
  optionalDelimited .leftParen .rightParen inputValueDefinition

def fieldDefinition : Parser FieldDefinition := do
  let pos ← position
  let description ← description?
  let name ← name
  let arguments ← argumentDefinitions
  let _ ← expect .colon
  let type ← typeRef nestingLimit
  let directives ← constDirectives
  pure ⟨pos, description, name, arguments, type, directives⟩

def enumValueDefinition : Parser EnumValueDefinition := do
  let pos ← position
  let description ← description?
  let value ← name
  let directives ← constDirectives
  pure ⟨pos, description, value, directives⟩

/-- An entry of a schema definition: an operation and its root type. -/
def rootEntry : Parser (OperationKind × Located Name) := do
  let kind ← match ← peekKind with
    | some .query => pure OperationKind.query
    | some .mutation => pure OperationKind.mutation
    | some .subscription => pure OperationKind.subscription
    | _ => unexpected
  let _ ← next
  let _ ← expect .colon
  let name ← name
  pure (kind, name)

/-- The last root type that the entries give to an operation. -/
def lastRoot (entries : List (OperationKind × Located Name)) (kind : OperationKind) :
    Option (Located Name) :=
  ((entries.filter fun e => e.1 = kind).getLast?).map Prod.snd

def schemaDefinition (pos : Position) (description : Option (Located String)) :
    Parser SchemaDefinition := do
  let _ ← expect .schema
  let directives ← constDirectives
  let entries ← delimited .leftBrace .rightBrace rootEntry
  pure {
    pos := pos
    description := description
    directives := directives
    query := lastRoot entries .query
    mutation := lastRoot entries .mutation
    subscription := lastRoot entries .subscription }

/-- Items separated by a token, one at least; the separator may also stand in front. -/
def separated (separator : Token.Kind) (item : Parser α) : Parser (List α) := do
  let _ ← eat separator
  let first ← item
  let rest ← repeatWhile (eat separator) item
  pure (first :: rest)

/-- Whether another interface follows: an ampersand, which is taken, or a name that is no
keyword. -/
def moreInterfaces : Parser Bool := do
  if ← eat .amp then pure true else nextIs .identifier

def implementedInterfaces : Parser (List (Located Name)) := do
  if ← eat .implements then
    let _ ← eat .amp
    let first ← name
    let rest ← repeatWhile moreInterfaces name
    pure (first :: rest)
  else pure []

def fieldDefinitions : Parser (List FieldDefinition) :=
  optionalDelimited .leftBrace .rightBrace fieldDefinition

/-- What follows the name of a type, by the keyword in front of it. -/
def typeBody (keyword : Token.Kind) : Parser (List (Directive Empty) × TypeBody) := do
  match keyword with
  | .scalar =>
    let directives ← constDirectives
    pure (directives, .scalar)
  | .type =>
    let implements ← implementedInterfaces
    let directives ← constDirectives
    let fields ← fieldDefinitions
    pure (directives, .object implements fields)
  | .interface =>
    let implements ← implementedInterfaces
    let directives ← constDirectives
    let fields ← fieldDefinitions
    pure (directives, .interface implements fields)
  | .union =>
    let directives ← constDirectives
    let members ← if ← eat .equals then separated .pipe name else pure []
    pure (directives, .union members)
  | .enum =>
    let directives ← constDirectives
    let values ← optionalDelimited .leftBrace .rightBrace enumValueDefinition
    pure (directives, .enum values)
  | _ =>
    let directives ← constDirectives
    let fields ← optionalDelimited .leftBrace .rightBrace inputValueDefinition
    pure (directives, .input fields)

def typeDefinition (pos : Position) (description : Option (Located String)) :
    Parser TypeDefinition := do
  let keyword ← next
  let name ← name
  let (directives, body) ← typeBody keyword.kind
  pure ⟨pos, description, name, directives, body⟩

def directiveLocation : Parser (Located DirectiveLocation) := do
  match ← peek with
  | some token =>
    if token.kind.isName then
      match DirectiveLocation.ofName? token.raw with
      | some location =>
        let name ← name
        pure ⟨name.pos, location⟩
      | none => fail (.unknownLocation token.raw)
    else unexpected
  | none => unexpected

def directiveDefinition (pos : Position) (description : Option (Located String)) :
    Parser DirectiveDefinition := do
  let _ ← expect .directive
  let _ ← expect .atSign
  let name ← name
  let arguments ← argumentDefinitions
  let _ ← expect .on
  let locations ← separated .pipe directiveLocation
  pure ⟨pos, description, name, arguments, locations⟩

/-- A definition of a type system, with its description. -/
def typeSystemDefinition : Parser Definition := do
  let pos ← position
  let description ← description?
  match ← peekKind with
  | some .schema => return .schema (← schemaDefinition pos description)
  | some .directive => return .directive (← directiveDefinition pos description)
  | some .scalar | some .type | some .interface | some .union | some .enum | some .input =>
    return .type (← typeDefinition pos description)
  | _ => unexpected

def definition : Parser Definition := do
  match ← peekKind with
  | some .leftBrace | some .query | some .mutation | some .subscription =>
    return .operation (← operation)
  | some .fragment => return .fragment (← fragment)
  | some .string | some .schema | some .scalar | some .type | some .interface | some .union
  | some .enum | some .input | some .directive => typeSystemDefinition
  | _ => unexpected

/-- Definitions up to the end of the source. -/
def definitions : Parser (List Definition) :=
  repeatWhile notAtEnd definition

/-- Reads a whole source by a rule. -/
def parse (rule : Parser α) (source : String) (filename : Option String) :
    Except ParseError α :=
  match Token.scan source with
  | .error e => .error ⟨.unterminatedString, e.pos, filename⟩
  | .ok tokens =>
    match rule ⟨tokens, Position.start.after source.toList⟩ with
    | .ok (a, _) => .ok a
    | .error e => .error ⟨e.cause, e.pos, filename⟩

/-- Reads a rule that has to take up the whole source. -/
def parseAll (rule : Parser α) (source : String) : Except ParseError α :=
  parse (do
    let a ← rule
    finished
    pure a) source none

end Parser

/-- Parses a document, to be remembered with its file name if it has one. -/
def Document.parse (source : String) (filename : Option String) : Except ParseError Document := do
  let definitions ← Parser.parse Parser.definitions source filename
  pure ⟨definitions, filename⟩

/-- Parses a value that may hold variables. -/
def Value.parse (source : String) : Except ParseError Literal :=
  return (← Parser.parseAll (Parser.literal nestingLimit) source).node

/-- Parses a value that may not hold variables. -/
def Const.parse (source : String) : Except ParseError Const :=
  return (← Parser.parseAll (Parser.constant nestingLimit) source).node

/-- Parses a type reference. -/
def TypeRef.parse (source : String) : Except ParseError TypeRef :=
  return (← Parser.parseAll (Parser.typeRef nestingLimit) source).node

/-- Parses selections in braces. -/
def SelectionSet.parse (source : String) : Except ParseError SelectionSet :=
  Parser.parseAll (Parser.selectionSet nestingLimit) source

end GraphQL
