import GraphQL.Document.Parser

/-!
# Parsing values, types and directives

The grammar of values is the same for literals and constants but for the rule of a variable, which
is a parameter: for constants it is the rule that fits nothing.
-/

namespace GraphQL.Parser

variable {ν : Type}

/-- The name of a variable after its sign. -/
def variableName : Parser Name := do
  let _ ← expect .dollar
  return (← name).node

/-- Takes an integer literal, which has to fit 64 bits. -/
def intLiteral (token : Token) : Parser Number := do
  let value := (Numeral.ofChars token.raw.toList).toInt
  if Number.isInt64 value then
    let _ ← next
    pure (.int value)
  else fail (.intOutOfRange token.raw)

/-- Takes a literal with a fraction or an exponent, which has to be a finite double. -/
def floatLiteral (token : Token) : Parser Number := do
  match (Numeral.ofChars token.raw.toList).toBinary64? with
  | some value =>
    let _ ← next
    pure (.double value)
  | none => fail (.floatOutOfRange token.raw)

/-- A name, a colon and a value. -/
def objectField (value : Parser (Located (Value ν))) : Parser (Name × Value ν) := do
  let name ← name
  let _ ← expect .colon
  let value ← value
  pure (name.node, value.node)

/-- A value, its own level included in `levels`. -/
def value (variableRule : Parser ν) : Nat → Parser (Located (Value ν))
  | 0 => fail .tooDeep
  | levels + 1 => do
    let pos ← position
    match ← peek with
    | none => unexpected
    | some token =>
      match token.kind with
      | .dollar => return ⟨pos, .variable (← variableRule)⟩
      | .int => return ⟨pos, .number (← intLiteral token)⟩
      | .float => return ⟨pos, .number (← floatLiteral token)⟩
      | .string => return ⟨pos, .string (← next).value⟩
      | .true =>
        let _ ← next
        return ⟨pos, .bool true⟩
      | .false =>
        let _ ← next
        return ⟨pos, .bool false⟩
      | .null =>
        let _ ← next
        return ⟨pos, .null⟩
      | .leftBracket =>
        let items ← delimited .leftBracket .rightBracket (value variableRule levels)
        return ⟨pos, .list (items.map Located.node)⟩
      | .leftBrace =>
        let fields ← delimited .leftBrace .rightBrace (objectField (value variableRule levels))
        return ⟨pos, .ofPairs fields⟩
      | kind =>
        if kind.isName then return ⟨pos, .enum (← name).node⟩ else unexpected

/-- A value that may hold variables. -/
def literal (levels : Nat) : Parser (Located Literal) :=
  value variableName levels

/-- A value that may not. -/
def constant (levels : Nat) : Parser (Located Const) :=
  value unexpected levels

/-- A type reference. -/
def typeRef : Nat → Parser (Located TypeRef)
  | 0 => fail .tooDeep
  | levels + 1 => do
    let pos ← position
    if ← eat .leftBracket then
      let item ← typeRef levels
      let _ ← expect .rightBracket
      let required ← eat .bang
      return ⟨pos, .list item.node !required⟩
    else
      let name ← name
      let required ← eat .bang
      return ⟨pos, .named name.node !required⟩

/-- A name, a colon and a value. -/
def argument (value : Parser (Located (Value ν))) : Parser (Argument ν) := do
  let name ← name
  let _ ← expect .colon
  let value ← value
  pure ⟨name, value⟩

/-- Arguments in parentheses, none without them. -/
def arguments (value : Parser (Located (Value ν))) : Parser (List (Argument ν)) :=
  optionalDelimited .leftParen .rightParen (argument value)

def directive (value : Parser (Located (Value ν))) : Parser (Directive ν) := do
  let pos ← position
  let _ ← expect .atSign
  let name ← name
  let arguments ← arguments value
  pure ⟨pos, name, arguments⟩

/-- Any number of directives, their values parsed by the rule given. -/
def directives (value : Parser (Located (Value ν))) : Parser (List (Directive ν)) :=
  repeatWhile (nextIs .atSign) (directive value)

/-- Directives that may not hold variables. -/
def constDirectives : Parser (List (Directive Empty)) :=
  directives (constant nestingLimit)

/-- A default value after an equals sign, if there is one. -/
def default? : Parser (Option (Located Const)) := do
  if ← eat .equals then
    return some (← constant nestingLimit)
  else return none

end GraphQL.Parser
