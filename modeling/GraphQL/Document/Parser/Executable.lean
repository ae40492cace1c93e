import GraphQL.Document.Parser.Value

/-!
# Parsing operations and fragments
-/

namespace GraphQL.Parser

/-- A type condition, which starts with `on`. -/
def typeCondition : Parser TypeCondition := do
  let pos ← position
  let _ ← expect .on
  let name ← name
  pure ⟨pos, name⟩

/-- A field. Values may open `levels` more levels, `nested` reads its own selections. -/
def field (levels : Nat) (nested : Parser SelectionSet) : Parser Field := do
  let pos ← position
  let first ← name
  let aliased ← eat .colon
  let actual ← if aliased then name else pure first
  let arguments ← arguments (literal levels)
  let directives ← directives (literal levels)
  let selections ← if ← nextIs .leftBrace then nested else pure ⟨← position, []⟩
  pure {
    pos := pos
    aliasName := if aliased then some first else none
    name := actual
    arguments := arguments
    directives := directives
    selections := selections }

/-- What follows an ellipsis at `pos`: an inline fragment, or the name of a fragment. -/
def fragmentSelection (pos : Position) (levels : Nat) (nested : Parser SelectionSet) :
    Parser Selection := do
  let kind ← peekKind
  if kind = some .on || kind = some .leftBrace || kind = some .atSign then
    let condition ← if kind = some .on then some <$> typeCondition else pure none
    let directives ← directives (literal levels)
    let selections ← nested
    pure (.inline ⟨pos, condition, directives, selections⟩)
  else
    let name ← name
    let directives ← directives (literal levels)
    pure (.spread ⟨pos, name, directives⟩)

def selection (levels : Nat) (nested : Parser SelectionSet) : Parser Selection := do
  let pos ← position
  if ← eat .ellipsis then fragmentSelection pos levels nested
  else return .field (← field levels nested)

/-- Selections in braces, their own level included in `levels`. -/
def selectionSet : Nat → Parser SelectionSet
  | 0 => fail .tooDeep
  | levels + 1 => do
    let pos ← position
    let items ← delimited .leftBrace .rightBrace (selection levels (selectionSet levels))
    pure ⟨pos, items⟩

def variableDefinition : Parser VariableDefinition := do
  let pos ← position
  let _ ← expect .dollar
  let name ← name
  let _ ← expect .colon
  let type ← typeRef nestingLimit
  let default ← default?
  let directives ← constDirectives
  pure ⟨pos, name, type, default, directives⟩

/-- The kind of operation that a keyword starts. -/
def operationKind (kind : Token.Kind) : OperationKind :=
  match kind with
  | .mutation => .mutation
  | .subscription => .subscription
  | _ => .query

/-- A name, if the next token is one. -/
def optionalName : Parser (Option (Located Name)) := do
  match ← peekKind with
  | some kind => if kind.isName then some <$> name else pure none
  | none => pure none

/-- An operation, or the bare selections of a query. -/
def operation : Parser Operation := do
  let pos ← position
  if ← nextIs .leftBrace then
    let selections ← selectionSet nestingLimit
    pure ⟨pos, .query, none, [], [], selections⟩
  else
    let keyword ← next
    let name ← optionalName
    let definitions ← optionalDelimited .leftParen .rightParen variableDefinition
    let directives ← directives (literal nestingLimit)
    let selections ← selectionSet nestingLimit
    pure ⟨pos, operationKind keyword.kind, name, definitions, directives, selections⟩

/-- A fragment. `fragment on T` has no name, `fragment on on T` is named `on`. -/
def fragment : Parser Fragment := do
  let pos ← position
  let _ ← expect .fragment
  let anonymous := (← peekKind) = some .on && !((← peekSecondKind) = some .on)
  let name ← if anonymous then pure none else some <$> name
  let condition ← typeCondition
  let directives ← directives (literal nestingLimit)
  let selections ← selectionSet nestingLimit
  pure ⟨pos, name, condition, directives, selections⟩

end GraphQL.Parser
