import GraphQL.Document.Printer
import GraphQL.Proofs.Token.Lexeme

/-!
# The content of documents

What a document says apart from its punctuation: names, numbers and strings, in the order in which
they are written. `Token.contents` has it for tokens, and `contents` for the parts of a document.
-/

namespace GraphQL

/-- A name by its text, a number or a string by its value. -/
inductive Content where
  | name (text : Name)
  | int (value : Int)
  | float (value : Option Binary64)
  | string (text : String)
  deriving DecidableEq

/-- The content of a name, a number or a string. -/
def Token.Lexeme.content (l : Lexeme) : Option Content :=
  match l.kind with
  | .int => some (.int (Numeral.ofChars l.raw).toInt)
  | .float => some (.float (Numeral.ofChars l.raw).toBinary64?)
  | .string => some (.string (String.ofList l.value))
  | kind => if kind.isName then some (.name (String.ofList l.raw)) else none

/-- The names, numbers and strings among tokens. -/
def Token.contents (tokens : List Token) : List Content :=
  tokens.filterMap fun t => t.lexeme.content

namespace Number

def content : Number → Content
  | int value => .int value
  | double value => .float (some value)

end Number

variable {ν : Type} (spell : ν → Name)

mutual

/-- The content of a value, each variable by its name. -/
def Value.contents : Value ν → List Content
  | .variable x => [.name (spell x)]
  | .null => [.name "null"]
  | .number n => [n.content]
  | .string s => [.string s]
  | .bool b => [.name (if b then "true" else "false")]
  | .enum name => [.name name]
  | .list items => itemContents items
  | .object fields => fieldContents fields

def Value.itemContents : List (Value ν) → List Content
  | [] => []
  | item :: rest => item.contents ++ itemContents rest

def Value.fieldContents : List (Name × Value ν) → List Content
  | [] => []
  | (name, value) :: rest => .name name :: value.contents ++ fieldContents rest

end

def TypeRef.contents (t : TypeRef) : List Content :=
  [.name t.innermost]

def Argument.contents (a : Argument ν) : List Content :=
  .name a.name.node :: a.value.node.contents spell

def Directive.contents (d : Directive ν) : List Content :=
  .name d.name.node :: d.arguments.flatMap (Argument.contents spell)

/-- The name of a fragment, an operation or an alias, if there is one. -/
def Name.contents (name : Option (Located Name)) : List Content :=
  name.toList.map fun name => .name name.node

def TypeCondition.contents (c : TypeCondition) : List Content :=
  [.name "on", .name c.on.node]

mutual

def Selection.contents : Selection → List Content
  | .field ⟨_, aliasName, name, arguments, directives, ⟨_, items⟩⟩ =>
    Name.contents aliasName ++ .name name.node :: arguments.flatMap (Argument.contents id) ++
      directives.flatMap (Directive.contents id) ++ itemContents items
  | .spread s => .name s.name.node :: s.directives.flatMap (Directive.contents id)
  | .inline ⟨_, condition, directives, ⟨_, items⟩⟩ =>
    condition.toList.flatMap TypeCondition.contents ++
      directives.flatMap (Directive.contents id) ++ itemContents items

def Selection.itemContents : List Selection → List Content
  | [] => []
  | item :: rest => item.contents ++ itemContents rest

end

def SelectionSet.contents (s : SelectionSet) : List Content :=
  s.items.flatMap Selection.contents

def VariableDefinition.contents (v : VariableDefinition) : List Content :=
  .name v.name.node :: v.type.node.contents ++
    v.default.toList.flatMap (fun value => value.node.contents Empty.elim) ++
    v.directives.flatMap (Directive.contents Empty.elim)

/-- The content of an operation with its keyword, but for its selections. -/
def Operation.headContents (o : Operation) : List Content :=
  .name o.kind.text :: Name.contents o.name ++
    o.variableDefinitions.flatMap VariableDefinition.contents ++
    o.directives.flatMap (Directive.contents id)

/-- A query that is only its selections has no keyword. -/
def Operation.contents (o : Operation) : List Content :=
  (if Printer.isShorthand o then [] else o.headContents) ++ o.selections.contents

def Fragment.contents (f : Fragment) : List Content :=
  .name "fragment" :: Name.contents f.name ++ f.condition.contents ++
    f.directives.flatMap (Directive.contents id) ++ f.selections.contents

/-- The content of an operation or a fragment. -/
def Definition.contents : Definition → List Content
  | .operation o => o.contents
  | .fragment f => f.contents
  | _ => []

/-! ## Lists -/

namespace Value

theorem itemContents_eq (items : List (Value ν)) :
    itemContents spell items = items.flatMap (contents spell) := by
  induction items with
  | nil => rfl
  | cons item items ih => rw [itemContents, ih, List.flatMap_cons]

theorem fieldContents_eq (fields : List (Name × Value ν)) : fieldContents spell fields =
    fields.flatMap fun f => .name f.1 :: contents spell f.2 := by
  induction fields with
  | nil => rfl
  | cons f fields ih => rw [fieldContents, ih, List.flatMap_cons]

end Value

namespace Selection

theorem itemContents_eq (items : List Selection) :
    itemContents items = items.flatMap contents := by
  induction items with
  | nil => rfl
  | cons item items ih => rw [itemContents, ih, List.flatMap_cons]

theorem contents_field (f : Field) : contents (.field f) =
    Name.contents f.aliasName ++ .name f.name.node :: f.arguments.flatMap (Argument.contents id) ++
      f.directives.flatMap (Directive.contents id) ++ SelectionSet.contents f.selections := by
  obtain ⟨pos, aliasName, name, arguments, directives, ⟨pos', items⟩⟩ := f
  rw [contents, itemContents_eq]
  rfl

theorem contents_inline (f : InlineFragment) : contents (.inline f) =
    f.condition.toList.flatMap TypeCondition.contents ++
      f.directives.flatMap (Directive.contents id) ++ SelectionSet.contents f.selections := by
  obtain ⟨pos, condition, directives, ⟨pos', items⟩⟩ := f
  rw [contents, itemContents_eq]
  rfl

end Selection

theorem Token.contents_append (ts us : List Token) :
    contents (ts ++ us) = contents ts ++ contents us :=
  List.filterMap_append

end GraphQL
