import GraphQL.Document.Parser

/-!
# Moving a document

A `Move` gives every position another place. Tokens move as a whole; the parts of a document, and
failures, move with the positions they hold.
-/

namespace GraphQL

/-- Where a token stands: what a token is besides its kind and text. -/
structure Token.Place where
  pos : Position
  offset : Nat
  trivia : String
  prev : Option Nat

/-- A place for whatever stands at a position. -/
abbrev Move :=
  Position → Token.Place

variable (m : Move)

def Position.moved (p : Position) : Position :=
  (m p).pos

def Token.moved (t : Token) : Token :=
  { t with
    pos := t.pos.moved m
    offset := (m t.pos).offset
    trivia := (m t.pos).trivia
    prev := (m t.pos).prev }

def Cursor.moved (c : Cursor) : Cursor :=
  ⟨c.rest.map (Token.moved m), c.finish.moved m⟩

def ParseError.Cause.moved : ParseError.Cause → ParseError.Cause
  | .unexpected token => .unexpected (token.moved m)
  | cause => cause

def ParseFailure.moved (e : ParseFailure) : ParseFailure :=
  ⟨e.cause.moved m, e.pos.moved m⟩

/-! ## Parts of documents -/

def Located.moved {α : Type} (x : Located α) : Located α :=
  ⟨x.pos.moved m, x.node⟩

def Argument.moved {ν : Type} (a : Argument ν) : Argument ν :=
  ⟨a.name.moved m, a.value.moved m⟩

def Directive.moved {ν : Type} (d : Directive ν) : Directive ν :=
  ⟨d.pos.moved m, d.name.moved m, d.arguments.map (Argument.moved m)⟩

def FragmentSpread.moved (s : FragmentSpread) : FragmentSpread :=
  ⟨s.pos.moved m, s.name.moved m, s.directives.map (Directive.moved m)⟩

def TypeCondition.moved (c : TypeCondition) : TypeCondition :=
  ⟨c.pos.moved m, c.on.moved m⟩

mutual

def Selection.moved : Selection → Selection
  | .field ⟨pos, aliasName, name, args, dirs, ⟨start, items⟩⟩ =>
    .field ⟨pos.moved m, aliasName.map (Located.moved m), name.moved m, args.map (Argument.moved m),
      dirs.map (Directive.moved m), ⟨start.moved m, movedSelections items⟩⟩
  | .spread s => .spread (s.moved m)
  | .inline ⟨pos, condition, dirs, ⟨start, items⟩⟩ =>
    .inline ⟨pos.moved m, condition.map (TypeCondition.moved m), dirs.map (Directive.moved m),
      ⟨start.moved m, movedSelections items⟩⟩

def movedSelections : List Selection → List Selection
  | [] => []
  | item :: items => item.moved :: movedSelections items

end

def SelectionSet.moved (s : SelectionSet) : SelectionSet :=
  ⟨s.pos.moved m, movedSelections m s.items⟩

def Field.moved (f : Field) : Field :=
  ⟨f.pos.moved m, f.aliasName.map (Located.moved m), f.name.moved m, f.arguments.map (Argument.moved m),
    f.directives.map (Directive.moved m), SelectionSet.moved m f.selections⟩

def VariableDefinition.moved (v : VariableDefinition) : VariableDefinition :=
  ⟨v.pos.moved m, v.name.moved m, v.type.moved m, v.default.map (Located.moved m),
    v.directives.map (Directive.moved m)⟩

def Operation.moved (o : Operation) : Operation :=
  ⟨o.pos.moved m, o.kind, o.name.map (Located.moved m),
    o.variableDefinitions.map (VariableDefinition.moved m), o.directives.map (Directive.moved m),
    SelectionSet.moved m o.selections⟩

def Fragment.moved (f : Fragment) : Fragment :=
  ⟨f.pos.moved m, f.name.map (Located.moved m), f.condition.moved m,
    f.directives.map (Directive.moved m), SelectionSet.moved m f.selections⟩

def InputValueDefinition.moved (v : InputValueDefinition) : InputValueDefinition :=
  ⟨v.pos.moved m, v.description.map (Located.moved m), v.name.moved m, v.type.moved m,
    v.default.map (Located.moved m), v.directives.map (Directive.moved m)⟩

def FieldDefinition.moved (f : FieldDefinition) : FieldDefinition :=
  ⟨f.pos.moved m, f.description.map (Located.moved m), f.name.moved m,
    f.arguments.map (InputValueDefinition.moved m), f.type.moved m, f.directives.map (Directive.moved m)⟩

def EnumValueDefinition.moved (v : EnumValueDefinition) : EnumValueDefinition :=
  ⟨v.pos.moved m, v.description.map (Located.moved m), v.value.moved m,
    v.directives.map (Directive.moved m)⟩

def SchemaDefinition.moved (s : SchemaDefinition) : SchemaDefinition :=
  ⟨s.pos.moved m, s.description.map (Located.moved m), s.directives.map (Directive.moved m),
    s.query.map (Located.moved m), s.mutation.map (Located.moved m),
    s.subscription.map (Located.moved m)⟩

def TypeBody.moved : TypeBody → TypeBody
  | .scalar => .scalar
  | .object implements fields =>
    .object (implements.map (Located.moved m)) (fields.map (FieldDefinition.moved m))
  | .interface implements fields =>
    .interface (implements.map (Located.moved m)) (fields.map (FieldDefinition.moved m))
  | .union members => .union (members.map (Located.moved m))
  | .enum values => .enum (values.map (EnumValueDefinition.moved m))
  | .input fields => .input (fields.map (InputValueDefinition.moved m))

def TypeDefinition.moved (t : TypeDefinition) : TypeDefinition :=
  ⟨t.pos.moved m, t.description.map (Located.moved m), t.name.moved m,
    t.directives.map (Directive.moved m), t.body.moved m⟩

def DirectiveDefinition.moved (d : DirectiveDefinition) : DirectiveDefinition :=
  ⟨d.pos.moved m, d.description.map (Located.moved m), d.name.moved m,
    d.arguments.map (InputValueDefinition.moved m), d.locations.map (Located.moved m)⟩

def Definition.moved : Definition → Definition
  | .operation o => .operation (o.moved m)
  | .fragment f => .fragment (f.moved m)
  | .schema s => .schema (s.moved m)
  | .type t => .type (t.moved m)
  | .directive d => .directive (d.moved m)

def Document.moved (d : Document) : Document :=
  ⟨d.definitions.map (Definition.moved m), d.filename⟩

theorem movedSelections_eq_map (items : List Selection) :
    movedSelections m items = items.map (Selection.moved m) := by
  induction items with
  | nil => rfl
  | cons item items ih => rw [movedSelections, ih, List.map_cons]

end GraphQL
