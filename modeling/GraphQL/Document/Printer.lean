import GraphQL.Document
import GraphQL.Value.Printer

/-!
# Printing documents

The canonical source of a document: one layout for every document, in which parsing finds the
same document again. Selections and the bodies of types are indented by two blanks a level, empty
parentheses and empty bodies of types are left out, and a query without name, variables and
directives is only its selections.
-/

namespace GraphQL

namespace Printer

variable {ν α : Type}

/-- The indentation of a level. -/
def indent (depth : Nat) : List Char :=
  List.replicate (2 * depth) ' '

/-- Items in parentheses, or nothing if there are none. -/
def parenthesized (items : List (List Char)) : List Char :=
  if items.isEmpty then [] else '(' :: Text.joined [',', ' '] items ++ [')']

/-- Items with one text before the first and another before each of the others. -/
def led (first other : List Char) : List (List Char) → List Char
  | [] => []
  | item :: rest => first ++ item ++ rest.flatMap (other ++ ·)

/-- Lines in braces, or nothing if there are none. -/
def braced (lines : List (List Char)) : List Char :=
  if lines.isEmpty then [] else [' ', '{', '\n'] ++ lines.flatten ++ ['}']

def argument (a : Argument Name) : List Char :=
  a.name.node.toList ++ ':' :: ' ' :: a.value.node.chars

def arguments (as : List (Argument Name)) : List Char :=
  parenthesized (as.map argument)

def directive (d : Directive Name) : List Char :=
  ' ' :: '@' :: d.name.node.toList ++ arguments d.arguments

def directives (ds : List (Directive Name)) : List Char :=
  ds.flatMap directive

def constDirectives (ds : List (Directive Empty)) : List Char :=
  directives (ds.map Directive.ofConst)

def default (value : Option (Located Const)) : List Char :=
  match value with
  | some value => [' ', '=', ' '] ++ Const.chars value.node
  | none => []

mutual

/-- A selection at a level of nesting. -/
def selection (depth : Nat) : Selection → List Char
  | .field ⟨_, aliasName, name, args, dirs, ⟨_, items⟩⟩ =>
    (match aliasName with
      | some aliasName => aliasName.node.toList ++ [':', ' ']
      | none => []) ++
    name.node.toList ++ arguments args ++ directives dirs ++
    (if items.isEmpty then [] else ' ' :: '{' :: '\n' :: selections (depth + 1) items ++
      indent depth ++ ['}'])
  | .spread s => ['.', '.', '.'] ++ s.name.node.toList ++ directives s.directives
  | .inline ⟨_, condition, dirs, ⟨_, items⟩⟩ =>
    ['.', '.', '.'] ++
    (match condition with
      | some condition => " on ".toList ++ condition.on.node.toList
      | none => []) ++
    directives dirs ++ ' ' :: '{' :: '\n' :: selections (depth + 1) items ++ indent depth ++ ['}']

/-- Selections at a level of nesting, one a line. -/
def selections (depth : Nat) : List Selection → List Char
  | [] => []
  | item :: rest => indent depth ++ selection depth item ++ '\n' :: selections depth rest

end

/-- Selections in braces, outside of any others. -/
def selectionSet (s : SelectionSet) : List Char :=
  '{' :: '\n' :: selections 1 s.items ++ ['}']

def variableDefinition (v : VariableDefinition) : List Char :=
  '$' :: v.name.node.toList ++ ':' :: ' ' :: v.type.node.chars ++ default v.default ++
    constDirectives v.directives

/-- Whether only the selections of an operation are written. -/
def isShorthand (o : Operation) : Bool :=
  o.kind = .query && o.name.isNone && o.variableDefinitions.isEmpty && o.directives.isEmpty

def operation (o : Operation) : List Char :=
  (if isShorthand o then []
  else
    o.kind.text.toList ++
    (match o.name with
      | some name => ' ' :: name.node.toList
      | none => []) ++
    parenthesized (o.variableDefinitions.map variableDefinition) ++
    directives o.directives ++ [' ']) ++
  selectionSet o.selections

def fragment (f : Fragment) : List Char :=
  "fragment".toList ++
  (match f.name with
    | some name => ' ' :: name.node.toList
    | none => []) ++
  " on ".toList ++ f.condition.on.node.toList ++ directives f.directives ++ ' ' ::
  selectionSet f.selections

/-- The description of a definition, on a line of its own. -/
def description (depth : Nat) (text : Option (Located String)) : List Char :=
  match text with
  | some text => indent depth ++ Text.quoted text.node.toList ++ ['\n']
  | none => []

def inputValue (v : InputValueDefinition) : List Char :=
  v.name.node.toList ++ ':' :: ' ' :: v.type.node.chars ++ default v.default ++
    constDirectives v.directives

/-- An argument definition, its description on the same line. -/
def argumentDefinition (v : InputValueDefinition) : List Char :=
  (match v.description with
    | some text => Text.quoted text.node.toList ++ [' ']
    | none => []) ++
  inputValue v

def argumentDefinitions (vs : List InputValueDefinition) : List Char :=
  parenthesized (vs.map argumentDefinition)

/-- A line of the body of a type: the description above, the rest indented. -/
def bodyLine (text : Option (Located String)) (rest : List Char) : List Char :=
  description 1 text ++ indent 1 ++ rest ++ ['\n']

def fieldDefinition (f : FieldDefinition) : List Char :=
  bodyLine f.description
    (f.name.node.toList ++ argumentDefinitions f.arguments ++ ':' :: ' ' :: f.type.node.chars ++
      constDirectives f.directives)

def enumValue (v : EnumValueDefinition) : List Char :=
  bodyLine v.description (v.value.node.toList ++ constDirectives v.directives)

def inputField (v : InputValueDefinition) : List Char :=
  bodyLine v.description (inputValue v)

/-- The root type of an operation, on a line of a schema definition. -/
def root (kind : OperationKind) (name : Option (Located Name)) : List Char :=
  match name with
  | some name => indent 1 ++ kind.text.toList ++ ':' :: ' ' :: name.node.toList ++ ['\n']
  | none => []

def schema (s : SchemaDefinition) : List Char :=
  description 0 s.description ++ "schema".toList ++ constDirectives s.directives ++
    [' ', '{', '\n'] ++ root .query s.query ++ root .mutation s.mutation ++
    root .subscription s.subscription ++ ['}']

def names (ns : List (Located Name)) : List (List Char) :=
  ns.map fun n => n.node.toList

def implements (ns : List (Located Name)) : List Char :=
  led " implements ".toList " & ".toList (names ns)

/-- What follows the name of a type. -/
def typeBody (ds : List (Directive Empty)) : TypeBody → List Char
  | .scalar => constDirectives ds
  | .object interfaces fields | .interface interfaces fields =>
    implements interfaces ++ constDirectives ds ++ braced (fields.map fieldDefinition)
  | .union members => constDirectives ds ++ led " = ".toList " | ".toList (names members)
  | .enum values => constDirectives ds ++ braced (values.map enumValue)
  | .input fields => constDirectives ds ++ braced (fields.map inputField)

def typeDefinition (t : TypeDefinition) : List Char :=
  description 0 t.description ++ t.body.keyword.toList ++ ' ' :: t.name.node.toList ++
    typeBody t.directives t.body

def directiveDefinition (d : DirectiveDefinition) : List Char :=
  description 0 d.description ++ "directive @".toList ++ d.name.node.toList ++
    argumentDefinitions d.arguments ++
    led " on ".toList " | ".toList (d.locations.map fun l => l.node.text.toList)

def definition : Definition → List Char
  | .operation o => operation o
  | .fragment f => fragment f
  | .schema s => schema s
  | .type t => typeDefinition t
  | .directive d => directiveDefinition d

end Printer

/-- The canonical source of a document, an empty line between each two definitions. -/
def Document.chars (d : Document) : List Char :=
  Text.joined ['\n', '\n'] (d.definitions.map Printer.definition)

def Document.text (d : Document) : String :=
  String.ofList d.chars

/-- The canonical source of selections in braces. -/
def SelectionSet.text (s : SelectionSet) : String :=
  String.ofList (Printer.selectionSet s)

end GraphQL
