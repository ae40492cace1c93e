import GraphQL.Document.Parser.TypeSystem
import GraphQL.Proofs.Document.Moved

/-!
# Parsers do not look at positions

A parser on tokens that stand elsewhere does the same, and what it gives stands elsewhere in the same
way. `Uniform m p p' f` says so of a parser `p` whose results `f` moves; `p'` is the same parser with
moved parameters.
-/

namespace GraphQL

namespace Parser

variable {α β ν : Type} {m : Move}

/-- What a parser gave, elsewhere. -/
def movedResult (m : Move) (f : α → α) :
    Except ParseFailure (α × Cursor) → Except ParseFailure (α × Cursor)
  | .ok (a, c) => .ok (f a, c.moved m)
  | .error e => .error (e.moved m)

/-- On moved tokens the second parser does as the first, and its results are moved. -/
def Uniform (m : Move) (p p' : Parser α) (f : α → α) : Prop :=
  ∀ c : Cursor, p' (c.moved m) = movedResult m f (p c)

end Parser

theorem Cursor.pos_moved (m : Move) (c : Cursor) : (c.moved m).pos = c.pos.moved m := by
  obtain ⟨rest, finish⟩ := c
  cases rest <;> rfl

theorem Cursor.mismatch_moved (m : Move) (c : Cursor) :
    (c.moved m).mismatch = c.mismatch.moved m := by
  obtain ⟨rest, finish⟩ := c
  cases rest <;> rfl

namespace Parser.Uniform

variable {α β ν : Type} {m : Move} {p p' q q' : Parser α} {f : α → α} {h : β → β}

/-! ## Rules of the logic -/

theorem pure {a a' : α} (ha : a' = f a) : Uniform m (Pure.pure a) (Pure.pure a') f := by
  intro c
  rw [ha]
  rfl

theorem bind {g g' : α → Parser β} (hp : Uniform m p p' f)
    (hg : ∀ a, Uniform m (g a) (g' (f a)) h) : Uniform m (p >>= g) (p' >>= g') h := by
  intro c
  simp only [Bind.bind]
  rw [hp c]
  cases hr : p c with
  | error e => rfl
  | ok r => exact hg r.1 r.2

theorem map {g : α → β} (hp : Uniform m p p' f) (hg : ∀ a, g (f a) = h (g a)) :
    Uniform m (g <$> p) (g <$> p') h :=
  hp.bind fun a => .pure (hg a)

theorem ite {b : Prop} [Decidable b] (hp : Uniform m p p' f) (hq : Uniform m q q' f) :
    Uniform m (if b then p else q) (if b then p' else q') f := by
  split
  · exact hp
  · exact hq

theorem fail {cause : ParseError.Cause} (hc : cause.moved m = cause) :
    Uniform m (Parser.fail cause) (Parser.fail cause) f := by
  intro c
  simp only [Parser.fail, movedResult, ParseFailure.moved, Cursor.pos_moved, hc]

theorem unexpected : Uniform m Parser.unexpected Parser.unexpected f := by
  intro c
  simp only [Parser.unexpected, movedResult, ParseFailure.moved, Cursor.pos_moved,
    Cursor.mismatch_moved]

/-! ## Primitive parsers -/

theorem position : Uniform m Parser.position Parser.position (Position.moved m) := by
  intro c
  simp only [Parser.position, movedResult, Cursor.pos_moved]

theorem peek : Uniform m Parser.peek Parser.peek (Option.map (Token.moved m)) := by
  rintro ⟨rest, finish⟩
  cases rest <;> rfl

theorem peekKind : Uniform m Parser.peekKind Parser.peekKind id := by
  rintro ⟨rest, finish⟩
  cases rest <;> rfl

theorem peekSecondKind : Uniform m Parser.peekSecondKind Parser.peekSecondKind id := by
  rintro ⟨rest, finish⟩
  match rest with
  | [] | [_] | _ :: _ :: _ => rfl

theorem next : Uniform m Parser.next Parser.next (Token.moved m) := by
  rintro ⟨rest, finish⟩
  cases rest <;> rfl

theorem nextIs (kind : Token.Kind) : Uniform m (Parser.nextIs kind) (Parser.nextIs kind) id :=
  peekKind.bind fun _ => .pure rfl

theorem eat (kind : Token.Kind) : Uniform m (Parser.eat kind) (Parser.eat kind) id :=
  (nextIs kind).bind fun _ => .ite (next.bind fun _ => .pure rfl) (.pure rfl)

theorem expect (kind : Token.Kind) :
    Uniform m (Parser.expect kind) (Parser.expect kind) (Token.moved m) :=
  (nextIs kind).bind fun _ => .ite next unexpected

theorem name : Uniform m Parser.name Parser.name (Located.moved m) :=
  peek.bind fun token => by
    cases token with
    | none => exact unexpected
    | some token => exact .ite (next.bind fun _ => .pure rfl) unexpected

/-! ## Repetition -/

variable {more more' : Parser Bool}

theorem repeatWithin (hmore : Uniform m more more' id) (hp : Uniform m p p' f) :
    ∀ allowance : List Token, Uniform m (Parser.repeatWithin more p allowance)
      (Parser.repeatWithin more' p' (allowance.map (Token.moved m))) (List.map f)
  | [] => hmore.bind fun _ => .ite (hp.bind fun _ => .pure rfl) (.pure rfl)
  | _ :: allowance => hmore.bind fun _ => .ite
    (hp.bind fun _ => (repeatWithin hmore hp allowance).bind fun _ => .pure rfl) (.pure rfl)

theorem repeatWhile (hmore : Uniform m more more' id) (hp : Uniform m p p' f) :
    Uniform m (Parser.repeatWhile more p) (Parser.repeatWhile more' p') (List.map f) :=
  fun c => repeatWithin hmore hp c.rest c

theorem delimited {opening closing : Token.Kind} (hp : Uniform m p p' f) :
    Uniform m (Parser.delimited opening closing p) (Parser.delimited opening closing p')
      (List.map f) :=
  (expect opening).bind fun _ => repeatWhile ((eat closing).bind fun _ => .pure rfl) hp

theorem optionalDelimited {opening closing : Token.Kind} (hp : Uniform m p p' f) :
    Uniform m (Parser.optionalDelimited opening closing p)
      (Parser.optionalDelimited opening closing p') (List.map f) :=
  (nextIs opening).bind fun _ => .ite (delimited hp) (.pure rfl)

/-! ## Values and types -/

theorem variableName : Uniform m Parser.variableName Parser.variableName id :=
  (expect .dollar).bind fun _ => name.bind fun _ => .pure rfl

theorem intLiteral (token : Token) :
    Uniform m (Parser.intLiteral token) (Parser.intLiteral (token.moved m)) id :=
  .ite (next.bind fun _ => .pure rfl) (.fail rfl)

theorem floatLiteral (token : Token) :
    Uniform m (Parser.floatLiteral token) (Parser.floatLiteral (token.moved m)) id := by
  show Uniform m (Parser.floatLiteral token) (Parser.floatLiteral token) id
  unfold Parser.floatLiteral
  split
  · exact next.bind fun _ => .pure rfl
  · exact .fail rfl

theorem objectField {value : Parser (Located (Value ν))}
    (hv : Uniform m value value (Located.moved m)) :
    Uniform m (Parser.objectField value) (Parser.objectField value) id :=
  name.bind fun _ => (expect _).bind fun _ => hv.bind fun _ => .pure rfl

theorem value {rule : Parser ν} (hrule : Uniform m rule rule id) : ∀ levels,
    Uniform m (Parser.value rule levels) (Parser.value rule levels) (Located.moved m)
  | 0 => .fail rfl
  | levels + 1 => position.bind fun pos => peek.bind fun token => by
    cases token with
    | none => exact unexpected
    | some token =>
      have hkind : (token.moved m).kind = token.kind := rfl
      simp only [Option.map_some, hkind]
      cases token.kind with
      | dollar => exact hrule.bind fun _ => .pure rfl
      | int => exact (intLiteral token).bind fun _ => .pure rfl
      | float => exact (floatLiteral token).bind fun _ => .pure rfl
      | string => exact next.bind fun _ => .pure rfl
      | true => exact next.bind fun _ => .pure rfl
      | false => exact next.bind fun _ => .pure rfl
      | null => exact next.bind fun _ => .pure rfl
      | leftBracket =>
        refine (delimited (value hrule levels)).bind fun items => .pure ?_
        rw [List.map_map]
        rfl
      | leftBrace =>
        refine (delimited (objectField (value hrule levels))).bind fun fields => .pure ?_
        rw [List.map_id]
        rfl
      | _ => exact .ite (name.bind fun _ => .pure rfl) unexpected

theorem literal (levels : Nat) :
    Uniform m (Parser.literal levels) (Parser.literal levels) (Located.moved m) :=
  value variableName levels

theorem constant (levels : Nat) :
    Uniform m (Parser.constant levels) (Parser.constant levels) (Located.moved m) :=
  value unexpected levels

theorem typeRef : ∀ levels,
    Uniform m (Parser.typeRef levels) (Parser.typeRef levels) (Located.moved m)
  | 0 => .fail rfl
  | levels + 1 => position.bind fun _ => (eat _).bind fun _ => .ite
    ((typeRef levels).bind fun _ => (expect _).bind fun _ => (eat _).bind fun _ => .pure rfl)
    (name.bind fun _ => (eat _).bind fun _ => .pure rfl)

/-! ## Arguments and directives -/

theorem argument {value : Parser (Located (Value ν))}
    (hv : Uniform m value value (Located.moved m)) :
    Uniform m (Parser.argument value) (Parser.argument value) (Argument.moved m) :=
  name.bind fun _ => (expect _).bind fun _ => hv.bind fun _ => .pure rfl

theorem arguments {value : Parser (Located (Value ν))}
    (hv : Uniform m value value (Located.moved m)) :
    Uniform m (Parser.arguments value) (Parser.arguments value) (List.map (Argument.moved m)) :=
  optionalDelimited (argument hv)

theorem directives {value : Parser (Located (Value ν))}
    (hv : Uniform m value value (Located.moved m)) :
    Uniform m (Parser.directives value) (Parser.directives value) (List.map (Directive.moved m)) :=
  repeatWhile (nextIs _) (position.bind fun _ => (expect _).bind fun _ => name.bind fun _ =>
    (arguments hv).bind fun _ => .pure rfl)

theorem constDirectives : Uniform m Parser.constDirectives Parser.constDirectives
    (List.map (Directive.moved m)) :=
  directives (constant nestingLimit)

theorem default? :
    Uniform m Parser.default? Parser.default? (Option.map (Located.moved m)) :=
  (eat _).bind fun _ => .ite ((constant nestingLimit).bind fun _ => .pure rfl) (.pure rfl)

/-! ## Selections -/

theorem typeCondition :
    Uniform m Parser.typeCondition Parser.typeCondition (TypeCondition.moved m) :=
  position.bind fun _ => (expect _).bind fun _ => name.bind fun _ => .pure rfl

/-- Arguments, directives and selections of a field. -/
theorem fieldParts (levels : Nat) {nested : Parser SelectionSet}
    (hn : Uniform m nested nested (SelectionSet.moved m))
    {g g' : List (Argument Name) → List (Directive Name) → SelectionSet → Field}
    (hg : ∀ as ds s, g' (as.map (Argument.moved m)) (ds.map (Directive.moved m))
      (SelectionSet.moved m s) = (g as ds s).moved m) :
    Uniform m (do
      let arguments ← Parser.arguments (Parser.literal levels)
      let directives ← Parser.directives (Parser.literal levels)
      let selections ← if ← Parser.nextIs .leftBrace then nested
        else Pure.pure ⟨← Parser.position, []⟩
      Pure.pure (g arguments directives selections)) (do
      let arguments ← Parser.arguments (Parser.literal levels)
      let directives ← Parser.directives (Parser.literal levels)
      let selections ← if ← Parser.nextIs .leftBrace then nested
        else Pure.pure ⟨← Parser.position, []⟩
      Pure.pure (g' arguments directives selections)) (Field.moved m) :=
  (arguments (literal levels)).bind fun as => (directives (literal levels)).bind fun ds =>
    (nextIs _).bind fun _ => .ite (hn.bind fun s => .pure (hg as ds s))
      (position.bind fun pos => .pure (hg as ds ⟨pos, []⟩))

theorem field (levels : Nat) {nested : Parser SelectionSet}
    (hn : Uniform m nested nested (SelectionSet.moved m)) :
    Uniform m (Parser.field levels nested) (Parser.field levels nested) (Field.moved m) := by
  refine position.bind fun pos => name.bind fun first => (eat _).bind fun aliased => ?_
  cases aliased with
  | true => exact name.bind fun actual => fieldParts levels hn fun _ _ _ => rfl
  | false => exact fieldParts levels hn fun _ _ _ => rfl

theorem fragmentSelection (pos : Position) (levels : Nat) {nested : Parser SelectionSet}
    (hn : Uniform m nested nested (SelectionSet.moved m)) :
    Uniform m (Parser.fragmentSelection pos levels nested)
      (Parser.fragmentSelection (pos.moved m) levels nested) (Selection.moved m) := by
  have hinline : ∀ condition : Option TypeCondition, Uniform m (do
        let directives ← Parser.directives (Parser.literal levels)
        let selections ← nested
        Pure.pure (Selection.inline ⟨pos, condition, directives, selections⟩)) (do
        let directives ← Parser.directives (Parser.literal levels)
        let selections ← nested
        Pure.pure (Selection.inline
          ⟨pos.moved m, condition.map (TypeCondition.moved m), directives, selections⟩))
      (Selection.moved m) := fun condition =>
    (directives (literal levels)).bind fun _ => hn.bind fun _ => .pure rfl
  refine peekKind.bind fun kind => .ite ?_
    (name.bind fun _ => (directives (literal levels)).bind fun _ => .pure rfl)
  simp only [id_eq]
  split
  · exact (typeCondition.map (h := Option.map (TypeCondition.moved m)) fun _ => rfl).bind hinline
  · exact hinline none

theorem selection (levels : Nat) {nested : Parser SelectionSet}
    (hn : Uniform m nested nested (SelectionSet.moved m)) :
    Uniform m (Parser.selection levels nested) (Parser.selection levels nested)
      (Selection.moved m) :=
  position.bind fun pos => (eat _).bind fun _ => .ite (fragmentSelection pos levels hn)
    ((field levels hn).bind fun _ => .pure rfl)

theorem selectionSet : ∀ levels, Uniform m (Parser.selectionSet levels) (Parser.selectionSet levels)
    (SelectionSet.moved m)
  | 0 => .fail rfl
  | levels + 1 => position.bind fun _ =>
    (delimited (selection levels (selectionSet levels))).bind fun items => .pure <| by
      rw [SelectionSet.moved, movedSelections_eq_map]

/-! ## Operations and fragments -/

theorem variableDefinition : Uniform m Parser.variableDefinition Parser.variableDefinition
    (VariableDefinition.moved m) :=
  position.bind fun _ => (expect _).bind fun _ => name.bind fun _ => (expect _).bind fun _ =>
    (typeRef _).bind fun _ => default?.bind fun _ => constDirectives.bind fun _ => .pure rfl

theorem optionalName :
    Uniform m Parser.optionalName Parser.optionalName (Option.map (Located.moved m)) :=
  peekKind.bind fun kind => by
    cases kind with
    | none => exact .pure rfl
    | some kind => exact .ite (name.map fun _ => rfl) (.pure rfl)

theorem operation : Uniform m Parser.operation Parser.operation (Operation.moved m) :=
  position.bind fun _ => (nextIs _).bind fun _ => .ite
    ((selectionSet _).bind fun _ => .pure rfl)
    (next.bind fun _ => optionalName.bind fun _ =>
      (optionalDelimited variableDefinition).bind fun _ => (directives (literal _)).bind fun _ =>
        (selectionSet _).bind fun _ => .pure rfl)

theorem fragment : Uniform m Parser.fragment Parser.fragment (Fragment.moved m) := by
  have hrest : ∀ (pos : Position) (x : Option (Located Name)), Uniform m (do
        let condition ← Parser.typeCondition
        let directives ← Parser.directives (Parser.literal nestingLimit)
        let selections ← Parser.selectionSet nestingLimit
        Pure.pure (⟨pos, x, condition, directives, selections⟩ : Fragment)) (do
        let condition ← Parser.typeCondition
        let directives ← Parser.directives (Parser.literal nestingLimit)
        let selections ← Parser.selectionSet nestingLimit
        Pure.pure (⟨pos.moved m, x.map (Located.moved m), condition, directives, selections⟩ :
          Fragment)) (Fragment.moved m) := fun _ _ =>
    typeCondition.bind fun _ => (directives (literal _)).bind fun _ => (selectionSet _).bind fun _ =>
      .pure rfl
  refine position.bind fun pos => (expect _).bind fun _ => peekKind.bind fun kind =>
    peekSecondKind.bind fun second => .ite (hrest pos none)
      ((name.map (h := Option.map (Located.moved m)) fun _ => rfl).bind fun x => hrest pos x)

/-! ## Type systems -/

theorem description? :
    Uniform m Parser.description? Parser.description? (Option.map (Located.moved m)) :=
  position.bind fun _ => (nextIs _).bind fun _ => .ite (next.bind fun _ => .pure rfl) (.pure rfl)

theorem inputValueDefinition : Uniform m Parser.inputValueDefinition Parser.inputValueDefinition
    (InputValueDefinition.moved m) :=
  position.bind fun _ => description?.bind fun _ => name.bind fun _ => (expect _).bind fun _ =>
    (typeRef _).bind fun _ => default?.bind fun _ => constDirectives.bind fun _ => .pure rfl

theorem argumentDefinitions : Uniform m Parser.argumentDefinitions Parser.argumentDefinitions
    (List.map (InputValueDefinition.moved m)) :=
  optionalDelimited inputValueDefinition

theorem fieldDefinition :
    Uniform m Parser.fieldDefinition Parser.fieldDefinition (FieldDefinition.moved m) :=
  position.bind fun _ => description?.bind fun _ => name.bind fun _ =>
    argumentDefinitions.bind fun _ => (expect _).bind fun _ => (typeRef _).bind fun _ =>
      constDirectives.bind fun _ => .pure rfl

theorem enumValueDefinition : Uniform m Parser.enumValueDefinition Parser.enumValueDefinition
    (EnumValueDefinition.moved m) :=
  position.bind fun _ => description?.bind fun _ => name.bind fun _ =>
    constDirectives.bind fun _ => .pure rfl

theorem rootEntry :
    Uniform m Parser.rootEntry Parser.rootEntry (Prod.map id (Located.moved m)) := by
  refine peekKind.bind fun kind => ?_
  have hread : ∀ kind : OperationKind, Uniform m (do
      let _ ← Parser.next
      let _ ← Parser.expect .colon
      let name ← Parser.name
      Pure.pure (kind, name)) (do
      let _ ← Parser.next
      let _ ← Parser.expect .colon
      let name ← Parser.name
      Pure.pure (kind, name)) (Prod.map id (Located.moved m)) := fun kind =>
    next.bind fun _ => (expect _).bind fun _ => name.bind fun _ => .pure rfl
  simp only [id_eq]
  split
  · exact hread _
  · exact hread _
  · exact hread _
  · exact (unexpected (f := id)).bind fun _ => hread _

/-- The root types of an operation move, and no other entry is chosen. -/
theorem lastRoot_moved (entries : List (OperationKind × Located Name)) (kind : OperationKind) :
    lastRoot (entries.map (Prod.map id (Located.moved m))) kind =
      (lastRoot entries kind).map (Located.moved m) := by
  unfold lastRoot
  rw [List.filter_map, List.getLast?_map, Option.map_map, Option.map_map]
  rfl

theorem schemaDefinition (pos : Position) (description : Option (Located String)) :
    Uniform m (Parser.schemaDefinition pos description)
      (Parser.schemaDefinition (pos.moved m) (description.map (Located.moved m)))
      (SchemaDefinition.moved m) :=
  (expect _).bind fun _ => constDirectives.bind fun _ => (delimited rootEntry).bind fun entries =>
    .pure <| by
      simp only [lastRoot_moved]
      rfl

theorem separated {separator : Token.Kind} (hp : Uniform m p p' f) :
    Uniform m (Parser.separated separator p) (Parser.separated separator p') (List.map f) :=
  (eat _).bind fun _ => hp.bind fun _ => (repeatWhile (eat _) hp).bind fun _ => .pure rfl

theorem implementedInterfaces : Uniform m Parser.implementedInterfaces Parser.implementedInterfaces
    (List.map (Located.moved m)) :=
  (eat _).bind fun _ => .ite
    ((eat _).bind fun _ => name.bind fun _ =>
      (repeatWhile ((eat _).bind fun _ => .ite (.pure rfl) (nextIs _)) name).bind fun _ => .pure rfl)
    (.pure rfl)

theorem typeBody (keyword : Token.Kind) :
    Uniform m (Parser.typeBody keyword) (Parser.typeBody keyword)
      (Prod.map (List.map (Directive.moved m)) (TypeBody.moved m)) := by
  unfold Parser.typeBody
  split
  · exact constDirectives.bind fun _ => .pure rfl
  · exact implementedInterfaces.bind fun _ => constDirectives.bind fun _ =>
      (optionalDelimited fieldDefinition).bind fun _ => .pure rfl
  · exact implementedInterfaces.bind fun _ => constDirectives.bind fun _ =>
      (optionalDelimited fieldDefinition).bind fun _ => .pure rfl
  · exact constDirectives.bind fun _ => (eat _).bind fun _ => .ite
      ((separated name).bind fun _ => .pure rfl) (.pure rfl)
  · exact constDirectives.bind fun _ => (optionalDelimited enumValueDefinition).bind fun _ =>
      .pure rfl
  · exact constDirectives.bind fun _ => (optionalDelimited inputValueDefinition).bind fun _ =>
      .pure rfl

theorem typeDefinition (pos : Position) (description : Option (Located String)) :
    Uniform m (Parser.typeDefinition pos description)
      (Parser.typeDefinition (pos.moved m) (description.map (Located.moved m)))
      (TypeDefinition.moved m) :=
  next.bind fun _ => name.bind fun _ => (typeBody _).bind fun _ => .pure rfl

theorem directiveLocation :
    Uniform m Parser.directiveLocation Parser.directiveLocation (Located.moved m) := by
  refine peek.bind fun token => ?_
  cases token with
  | none => exact unexpected
  | some token =>
    refine .ite ?_ unexpected
    simp only [Token.moved]
    split
    · exact name.bind fun _ => .pure rfl
    · exact .fail rfl

theorem directiveDefinition (pos : Position) (description : Option (Located String)) :
    Uniform m (Parser.directiveDefinition pos description)
      (Parser.directiveDefinition (pos.moved m) (description.map (Located.moved m)))
      (DirectiveDefinition.moved m) :=
  (expect _).bind fun _ => (expect _).bind fun _ => name.bind fun _ =>
    argumentDefinitions.bind fun _ => (expect _).bind fun _ =>
      (separated directiveLocation).bind fun _ => .pure rfl

theorem typeSystemDefinition : Uniform m Parser.typeSystemDefinition Parser.typeSystemDefinition
    (Definition.moved m) := by
  refine position.bind fun pos => description?.bind fun description => peekKind.bind fun kind => ?_
  have htype : Uniform m (do return Definition.type (← Parser.typeDefinition pos description))
      (do return Definition.type (← Parser.typeDefinition (pos.moved m)
        (description.map (Located.moved m)))) (Definition.moved m) :=
    (typeDefinition pos description).bind fun _ => .pure rfl
  simp only [id_eq]
  split
  · exact (schemaDefinition pos description).bind fun _ => .pure rfl
  · exact (directiveDefinition pos description).bind fun _ => .pure rfl
  · exact htype
  · exact htype
  · exact htype
  · exact htype
  · exact htype
  · exact htype
  · exact unexpected

theorem definition : Uniform m Parser.definition Parser.definition (Definition.moved m) := by
  refine peekKind.bind fun kind => ?_
  simp only [id_eq]
  split <;> first
    | exact operation.bind fun _ => .pure rfl
    | exact fragment.bind fun _ => .pure rfl
    | exact typeSystemDefinition
    | exact unexpected

theorem definitions : Uniform m Parser.definitions Parser.definitions
    (List.map (Definition.moved m)) :=
  repeatWhile (peek.bind fun token => .pure (by cases token <;> rfl)) definition

end Parser.Uniform

end GraphQL
