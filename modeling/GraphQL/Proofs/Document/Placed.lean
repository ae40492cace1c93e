import GraphQL.Proofs.Document.Kept
import GraphQL.Proofs.Document.Marks

/-!
# Positions point at the right tokens

`MeetsThen R acc p f` says of a parser that along the tokens it takes one meets the marks by which
`f` of the result goes beyond `acc`, and that after these come tokens of which `R` tells. Each rule
of the grammar meets the marks of what it reads. So the tokens of a source are divided among the
definitions of its document, and the marks of each definition are met along its tokens
(`Document.parse_placed`).
-/

namespace GraphQL

open Token (stops)

namespace Parser

variable {α β ν : Type} {acc : List Mark} {p : Parser α} {c d : Cursor} {f : α → List Mark}
  {R : α → List Token → Position → Prop} {g : α → Parser β} {h : β → List Mark}
  {S : β → List Token → Position → Prop}

/-- Along what is taken first one meets the marks by which `f` of the result goes beyond `acc`. Of
the tokens after these, and of the position after them, `R` holds. -/
def MeetsThen (R : α → List Token → Position → Prop) (acc : List Mark) (p : Parser α)
    (f : α → List Mark) : Prop :=
  ∀ c a d, p c = .ok (a, d) → ∃ ms head tail, c.rest = head ++ (tail ++ d.rest) ∧ Along ms head ∧
    f a = acc ++ ms ∧ R a tail d.pos

/-- No other tokens are taken than those along which the marks are met. -/
abbrev Meets (acc : List Mark) (p : Parser α) (f : α → List Mark) : Prop :=
  MeetsThen (fun _ tail _ => tail = []) acc p f

theorem Meets.take (hp : Meets acc p f) {a : α} (ha : p c = .ok (a, d)) :
    ∃ ms ts, c.rest = ts ++ d.rest ∧ Along ms ts ∧ f a = acc ++ ms := by
  obtain ⟨ms, ts, _, hrest, halong, hf, rfl⟩ := hp c a d ha
  exact ⟨ms, ts, hrest, halong, hf⟩

theorem Meets.of_take (hp : ∀ c a d, p c = .ok (a, d) →
    ∃ ms ts, c.rest = ts ++ d.rest ∧ Along ms ts ∧ f a = acc ++ ms) : Meets acc p f := by
  intro c a d ha
  obtain ⟨ms, ts, hrest, halong, hf⟩ := hp c a d ha
  exact ⟨ms, ts, [], hrest, halong, hf, rfl⟩

/-- The marks of parts that are of no interest are passed over. -/
theorem Meets.forget (hp : Meets [] p f) : Meets [] p fun _ => [] := by
  apply Meets.of_take
  intro c a d ha
  obtain ⟨ms, ts, hrest, -, -⟩ := hp.take ha
  exact ⟨[], ts, hrest, .skips ts, rfl⟩

namespace MeetsThen

/-! ## Rules of the logic -/

theorem pure {a : α} (hf : f a = acc) (hR : ∀ after, R a [] after) :
    MeetsThen R acc (Pure.pure a) f := by
  rintro c _ _ ⟨⟩
  exact ⟨[], [], [], rfl, .nil, by rw [hf, List.append_nil], hR c.pos⟩

/-- No tokens are left to be told of. -/
theorem done {a : α} (hf : f a = acc) : Meets acc (Pure.pure a) f :=
  pure hf fun _ => rfl

theorem bind (hp : Meets [] p f) (hg : ∀ a, MeetsThen S (acc ++ f a) (g a) h) :
    MeetsThen S acc (p >>= g) h := by
  intro c b e hb
  obtain ⟨a, d, hpa, hgb⟩ := bind_eq_ok hb
  obtain ⟨ms, ts, hts, halong, hms⟩ := hp.take hpa
  obtain ⟨ns, us, tail, hus, halong', hns, hS⟩ := hg a d b e hgb
  refine ⟨ms ++ ns, ts ++ us, tail, ?_, halong.append halong', ?_, hS⟩
  · rw [hts, hus, List.append_assoc]
  · rw [hns, hms, List.nil_append, List.append_assoc]

/-- What comes first has no marks. -/
theorem silent (hp : Meets [] p fun _ => []) (hg : ∀ a, MeetsThen S acc (g a) h) :
    MeetsThen S acc (p >>= g) h :=
  hp.bind fun a => by
    rw [List.append_nil]
    exact hg a

theorem ite {q : Parser α} {b : Prop} [Decidable b] (hp : MeetsThen R acc p f)
    (hq : MeetsThen R acc q f) : MeetsThen R acc (if b then p else q) f := by
  split
  · exact hp
  · exact hq

theorem fail (cause : ParseError.Cause) : MeetsThen R acc (Parser.fail cause : Parser α) f := by
  rintro c _ _ ⟨⟩

theorem unexpected : MeetsThen R acc (Parser.unexpected : Parser α) f := by
  rintro c _ _ ⟨⟩

theorem map {g : α → β} (hp : MeetsThen R acc p f) (hh : ∀ a, h (g a) = f a)
    (hS : ∀ a ts after, R a ts after → S (g a) ts after) :
    MeetsThen S acc (do return g (← p)) h := by
  intro c b d hb
  obtain ⟨a, d', hpa, hd⟩ := bind_eq_ok hb
  cases hd
  obtain ⟨ms, head, tail, hrest, halong, hf, hR⟩ := hp c a _ hpa
  exact ⟨ms, head, tail, hrest, halong, (hh a).trans hf, hS a tail _ hR⟩

/-- What comes last has no marks that are met: of its tokens something else is known. -/
theorem last {g : α → β} (hp : MeetsThen R [] p fun _ => []) (hh : ∀ a, h (g a) = acc)
    (hS : ∀ a ts after, R a ts after → S (g a) ts after) :
    MeetsThen S acc (do return g (← p)) h := by
  intro c b d hb
  obtain ⟨a, d', hpa, hd⟩ := bind_eq_ok hb
  cases hd
  obtain ⟨ms, head, tail, hrest, -, -, hR⟩ := hp c a _ hpa
  exact ⟨[], head, tail, hrest, .skips head, by rw [hh, List.append_nil], hS a tail _ hR⟩

/-! ## Primitive parsers -/

theorem of_look {look : Cursor → α} : Meets [] (fun c => .ok (look c, c)) fun _ => [] := by
  rintro c _ _ ⟨⟩
  exact ⟨[], [], [], rfl, .nil, rfl, rfl⟩

theorem position : Meets [] Parser.position fun _ => [] :=
  of_look

theorem peek : Meets [] Parser.peek fun _ => [] :=
  of_look

theorem peekKind : Meets [] Parser.peekKind fun _ => [] :=
  of_look

theorem peekSecondKind : Meets [] Parser.peekSecondKind fun _ => [] :=
  of_look

theorem nextIs (kind : Token.Kind) : Meets [] (Parser.nextIs kind) fun _ => [] :=
  peekKind.silent fun _ => .done rfl

theorem next : Meets [] Parser.next fun _ => [] := by
  rintro ⟨_ | ⟨t, rest⟩, finish⟩ _ _ ⟨⟩
  exact ⟨[], [t], [], rfl, .skips [t], rfl, rfl⟩

theorem eat (kind : Token.Kind) : Meets [] (Parser.eat kind) fun _ => [] :=
  (nextIs kind).silent fun _ => .ite (next.silent fun _ => .done rfl)
    (.done rfl)

theorem expect (kind : Token.Kind) : Meets [] (Parser.expect kind) fun _ => [] :=
  (nextIs kind).silent fun _ => .ite next unexpected

theorem name : Meets [] Parser.name fun x => [.name x] := by
  apply Meets.of_take
  intro c x d hx
  obtain ⟨t, hrest, ht, rfl⟩ := name_eq_ok hx
  have hat : (Mark.name ⟨t.pos, t.raw⟩).At t := ⟨rfl, ht, rfl⟩
  exact ⟨_, [t], hrest, .meet hat (.skips [t]), rfl⟩

/-! ## Repetition -/

variable {more : Parser Bool} {item : Parser α}

theorem repeatWithin (hmore : Meets [] more fun _ => []) (hitem : Meets [] item f) :
    ∀ allowance : List Token,
      Meets [] (Parser.repeatWithin more item allowance) fun as => as.flatMap f
  | [] => hmore.silent fun _ => .ite (hitem.bind fun a => .done (by simp))
    (.done rfl)
  | _ :: allowance => hmore.silent fun _ => .ite
    (hitem.bind fun a => (repeatWithin hmore hitem allowance).bind fun as =>
      .done (by simp)) (.done rfl)

theorem repeatWhile (hmore : Meets [] more fun _ => []) (hitem : Meets [] item f) :
    Meets [] (Parser.repeatWhile more item) fun as => as.flatMap f :=
  fun c => repeatWithin hmore hitem c.rest c

theorem delimited {opening closing : Token.Kind} (hitem : Meets [] item f) :
    Meets [] (Parser.delimited opening closing item) fun as => as.flatMap f :=
  (expect opening).silent fun _ =>
    repeatWhile ((eat closing).silent fun _ => .done rfl) hitem

theorem optionalDelimited {opening closing : Token.Kind} (hitem : Meets [] item f) :
    Meets [] (Parser.optionalDelimited opening closing item) fun as => as.flatMap f :=
  (nextIs opening).silent fun _ => .ite (delimited hitem) (.done rfl)

end MeetsThen

/-- The first mark of the result is where the parser starts, whatever takes the tokens there; the
others are met as before. -/
def Starts (R : α → List Token → Position → Prop) (p : Parser α) (f : α → List Mark) : Prop :=
  ∀ c a d, p c = .ok (a, d) → ∃ ms head tail, c.rest = head ++ (tail ++ d.rest) ∧ Along ms head ∧
    f a = .node c.pos :: ms ∧ R a tail d.pos

namespace Starts

theorem of_position {g : Position → Parser α}
    (hg : ∀ pos, MeetsThen R [.node pos] (g pos) f) : Starts R (Parser.position >>= g) f :=
  fun c a d h => hg c.pos c a d h

theorem peekKind {g : Option Token.Kind → Parser α} (hg : ∀ kind, Starts R (g kind) f) :
    Starts R (Parser.peekKind >>= g) f :=
  fun c a d h => hg _ c a d h

theorem unexpected : Starts R (Parser.unexpected : Parser α) f := by
  rintro c _ _ ⟨⟩

/-- A parser that takes a token starts at this one. -/
theorem meets (hp : Starts (fun _ tail _ => tail = []) p f) (hlocal : Local true p) :
    Meets [] p f := by
  apply Meets.of_take
  intro c a d ha
  obtain ⟨ms, ts, _, hrest, halong, hf, rfl⟩ := hp c a d ha
  have hlt := hlocal.lt rfl c a d ha
  cases ts with
  | nil =>
    rw [hrest] at hlt
    exact absurd hlt (Nat.lt_irrefl _)
  | cons t ts =>
    have hat : (Mark.node c.pos).At t := by
      show c.pos = t.pos
      unfold Cursor.pos
      rw [hrest]
      rfl
    exact ⟨_, t :: ts, hrest, .meet hat halong, hf⟩

end Starts

namespace MeetsThen

/-! ## Values and types -/

theorem variableName : Meets [] Parser.variableName fun _ => [] :=
  (expect _).silent fun _ => name.forget.silent fun _ => .done rfl

theorem intLiteral (token : Token) : Meets [] (Parser.intLiteral token) fun _ => [] :=
  .ite (next.silent fun _ => .done rfl) (.fail _)

theorem floatLiteral (token : Token) : Meets [] (Parser.floatLiteral token) fun _ => [] := by
  unfold Parser.floatLiteral
  split
  · exact next.silent fun _ => .done rfl
  · exact .fail _

theorem objectField {value : Parser (Located (Value ν))} (hv : Meets [] value fun _ => []) :
    Meets [] (Parser.objectField value) fun _ => [] :=
  name.forget.silent fun _ => (expect _).silent fun _ => hv.silent fun _ => .done rfl

/-- A value as a whole has a position, its parts have none. -/
theorem value {rule : Parser ν} (hlocal : Local true rule) (hrule : Meets [] rule fun _ => []) :
    ∀ levels, Meets [] (Parser.value rule levels) fun v => [.node v.pos]
  | 0 => .fail _
  | levels + 1 => by
    have ih := (value hlocal hrule levels).forget
    refine Starts.meets (.of_position fun pos => peek.silent fun token => ?_) (.value hlocal _)
    cases token with
    | none => exact unexpected
    | some token =>
      simp only
      cases token.kind with
      | dollar => exact hrule.silent fun _ => .done rfl
      | int => exact (intLiteral token).silent fun _ => .done rfl
      | float => exact (floatLiteral token).silent fun _ => .done rfl
      | string | true | false | null => exact next.silent fun _ => .done rfl
      | leftBracket => exact (delimited ih).forget.silent fun _ => .done rfl
      | leftBrace => exact (delimited (objectField ih)).forget.silent fun _ => .done rfl
      | _ => exact .ite (name.forget.silent fun _ => .done rfl) unexpected

theorem literal (levels : Nat) : Meets [] (Parser.literal levels) fun v => [.node v.pos] :=
  value .variableName variableName levels

theorem constant (levels : Nat) : Meets [] (Parser.constant levels) fun v => [.node v.pos] :=
  value .unexpected unexpected levels

theorem typeRef : ∀ levels, Meets [] (Parser.typeRef levels) fun t => [.node t.pos]
  | 0 => .fail _
  | levels + 1 => by
    have ih := (typeRef levels).forget
    have hlist : ∀ pos : Position, Meets [.node pos] (do
        let item ← Parser.typeRef levels
        let _ ← Parser.expect .rightBracket
        let required ← Parser.eat .bang
        return (⟨pos, .list item.node !required⟩ : Located TypeRef)) fun t => [.node t.pos] :=
      fun _ => ih.silent fun _ => (expect _).silent fun _ => (eat _).silent fun _ => .done rfl
    exact Starts.meets (.of_position fun pos => (eat _).silent fun _ => .ite (hlist pos)
      (name.forget.silent fun _ => (eat _).silent fun _ => .done rfl)) (.typeRef _)

/-! ## Arguments and directives -/

theorem argument {value : Parser (Located (Value ν))}
    (hv : Meets [] value fun v => [.node v.pos]) :
    Meets [] (Parser.argument value) Argument.marks :=
  name.bind fun _ => (expect _).silent fun _ => hv.bind fun _ => .done rfl

theorem arguments {value : Parser (Located (Value ν))}
    (hv : Meets [] value fun v => [.node v.pos]) :
    Meets [] (Parser.arguments value) fun as => as.flatMap Argument.marks :=
  optionalDelimited (argument hv)

theorem directive {value : Parser (Located (Value ν))} (hlocal : Local true value)
    (hv : Meets [] value fun v => [.node v.pos]) :
    Meets [] (Parser.directive value) Directive.marks :=
  Starts.meets (.of_position fun _ => (expect _).silent fun _ => name.bind fun _ =>
    (arguments hv).bind fun _ => .done rfl) (.directive hlocal)

theorem directives {value : Parser (Located (Value ν))} (hlocal : Local true value)
    (hv : Meets [] value fun v => [.node v.pos]) :
    Meets [] (Parser.directives value) fun ds => ds.flatMap Directive.marks :=
  repeatWhile (nextIs _) (directive hlocal hv)

theorem literalDirectives (levels : Nat) :
    Meets [] (Parser.directives (Parser.literal levels)) fun ds => ds.flatMap Directive.marks :=
  directives (.literal levels) (literal levels)

theorem constDirectives :
    Meets [] Parser.constDirectives fun ds => ds.flatMap Directive.marks :=
  directives (.constant nestingLimit) (constant nestingLimit)

theorem default? : Meets [] Parser.default? Located.marks :=
  (eat _).silent fun _ => .ite ((constant nestingLimit).bind fun _ => .done rfl) (.done rfl)

theorem typeCondition : Meets [] Parser.typeCondition TypeCondition.marks :=
  Starts.meets (.of_position fun _ => (expect _).silent fun _ => name.bind fun _ => .done rfl)
    .typeCondition

theorem variableDefinition : Meets [] Parser.variableDefinition VariableDefinition.marks :=
  Starts.meets (.of_position fun _ => (expect _).silent fun _ => name.bind fun _ =>
    (expect _).silent fun _ => (typeRef _).bind fun _ => default?.bind fun _ =>
      constDirectives.bind fun _ => .done rfl) .variableDefinition

theorem someName : Meets [] (some <$> Parser.name) Name.marks :=
  name.bind fun _ => .done rfl

theorem optionalName : Meets [] Parser.optionalName Name.marks :=
  peekKind.silent fun kind => by
    cases kind with
    | none => exact .done rfl
    | some kind => exact .ite someName (.done rfl)

/-! ## Type systems -/

theorem description? : Meets [] Parser.description? Located.marks := by
  apply Meets.of_take
  rintro ⟨rest, finish⟩ a d h
  obtain ⟨pos, _, hpos, h⟩ := bind_eq_ok h
  cases hpos
  obtain ⟨isString, _, hnext, h⟩ := bind_eq_ok h
  cases hnext
  split at h
  · obtain ⟨t, c1, ht, h⟩ := bind_eq_ok h
    cases rest with
    | nil => cases ht
    | cons t rest =>
      cases ht
      cases h
      have hat : (Mark.node t.pos).At t := rfl
      exact ⟨_, [t], rfl, .meet hat (.skips [t]), rfl⟩
  · cases h
    exact ⟨[], [], rfl, .nil, rfl⟩

theorem inputValueDefinition : Meets [] Parser.inputValueDefinition InputValueDefinition.marks :=
  Starts.meets (.of_position fun _ => description?.bind fun _ => name.bind fun _ =>
    (expect _).silent fun _ => (typeRef _).bind fun _ => default?.bind fun _ =>
      constDirectives.bind fun _ => .done (by simp [InputValueDefinition.marks]))
    .inputValueDefinition

theorem argumentDefinitions : Meets [] Parser.argumentDefinitions fun vs =>
    vs.flatMap InputValueDefinition.marks :=
  optionalDelimited inputValueDefinition

theorem fieldDefinition : Meets [] Parser.fieldDefinition FieldDefinition.marks :=
  Starts.meets (.of_position fun _ => description?.bind fun _ => name.bind fun _ =>
    argumentDefinitions.bind fun _ => (expect _).silent fun _ => (typeRef _).bind fun _ =>
      constDirectives.bind fun _ => .done (by simp [FieldDefinition.marks])) .fieldDefinition

theorem enumValueDefinition : Meets [] Parser.enumValueDefinition EnumValueDefinition.marks :=
  Starts.meets (.of_position fun _ => description?.bind fun _ => name.bind fun _ =>
    constDirectives.bind fun _ => .done (by simp [EnumValueDefinition.marks]))
    .enumValueDefinition

theorem rootEntry : Meets [] Parser.rootEntry fun e => [.name e.2] := by
  have hread : ∀ kind : OperationKind, Meets [] (do
      let _ ← Parser.next
      let _ ← Parser.expect .colon
      let name ← Parser.name
      Pure.pure (kind, name)) fun e => [.name e.2] := fun kind =>
    next.silent fun _ => (expect _).silent fun _ => name.bind fun _ => .done rfl
  refine peekKind.silent fun kind => ?_
  split
  · exact hread _
  · exact hread _
  · exact hread _
  · exact unexpected.silent fun kind => hread kind

theorem separated {separator : Token.Kind} {item : Parser α} (hitem : Meets [] item f) :
    Meets [] (Parser.separated separator item) fun as => as.flatMap f :=
  (eat _).silent fun _ => hitem.bind fun _ => (repeatWhile (eat _) hitem).bind
    fun _ => .done (by simp)

theorem moreInterfaces : Meets [] Parser.moreInterfaces fun _ => [] :=
  (eat _).silent fun _ => .ite (.done rfl) (nextIs _)

theorem implementedInterfaces : Meets [] Parser.implementedInterfaces fun xs => xs.map .name :=
  (eat _).silent fun _ => .ite
    ((eat _).silent fun _ => name.bind fun _ => (repeatWhile moreInterfaces name).bind
      fun _ => .done (by simp [List.map_eq_flatMap])) (.done rfl)

theorem typeBody (keyword : Token.Kind) : Meets [] (Parser.typeBody keyword) fun x =>
    x.2.interfaceMarks ++ x.1.flatMap Directive.marks ++ x.2.partMarks := by
  unfold Parser.typeBody
  split
  · exact constDirectives.bind fun _ => .done (by simp [TypeBody.interfaceMarks, TypeBody.partMarks])
  · exact implementedInterfaces.bind fun _ => constDirectives.bind fun _ =>
      (optionalDelimited fieldDefinition).bind fun _ => .done rfl
  · exact implementedInterfaces.bind fun _ => constDirectives.bind fun _ =>
      (optionalDelimited fieldDefinition).bind fun _ => .done rfl
  · exact constDirectives.bind fun _ => (eat _).silent fun _ => .ite
      ((separated name).bind fun _ => .done
        (by simp [TypeBody.interfaceMarks, TypeBody.partMarks, List.map_eq_flatMap]))
      (.done (by simp [TypeBody.interfaceMarks, TypeBody.partMarks]))
  · exact constDirectives.bind fun _ => (optionalDelimited enumValueDefinition).bind
      fun _ => .done rfl
  · exact constDirectives.bind fun _ => (optionalDelimited inputValueDefinition).bind
      fun _ => .done rfl

/-- A name that is only read for where it is. -/
theorem placedName : Meets [] Parser.name fun x => [.node x.pos] := by
  apply Meets.of_take
  intro c x d hx
  obtain ⟨t, hrest, -, rfl⟩ := name_eq_ok hx
  have hat : (Mark.node t.pos).At t := rfl
  exact ⟨_, [t], hrest, .meet hat (.skips [t]), rfl⟩

theorem directiveLocation : Meets [] Parser.directiveLocation fun x => [.node x.pos] := by
  refine peek.silent fun token => ?_
  cases token with
  | none => exact unexpected
  | some token =>
    refine .ite ?_ unexpected
    split
    · exact placedName.bind fun _ => .done rfl
    · exact .fail _

variable (pos : Position) (description : Option (Located String))

theorem typeDefinition : Meets (.node pos :: Located.marks description)
    (Parser.typeDefinition pos description) fun t => .node t.pos :: t.headMarks :=
  next.silent fun _ => name.bind fun _ => (typeBody _).bind fun _ =>
    .done (by simp [TypeDefinition.headMarks])

theorem directiveDefinition : Meets (.node pos :: Located.marks description)
    (Parser.directiveDefinition pos description) fun d => .node d.pos :: d.headMarks :=
  (expect _).silent fun _ => (expect _).silent fun _ => name.bind fun _ =>
    argumentDefinitions.bind fun _ => (expect _).silent fun _ =>
      (separated directiveLocation).bind fun _ =>
        .done (by simp [DirectiveDefinition.headMarks, List.map_eq_flatMap])

/-- The root types are those of some of the entries. -/
theorem mem_of_mem_rootMarks {entries : List (OperationKind × Located Name)} {kind : OperationKind}
    {m : Mark} (h : m ∈ Name.marks (lastRoot entries kind)) :
    m ∈ entries.flatMap fun e => [.name e.2] := by
  obtain ⟨x, hx, rfl⟩ := List.mem_map.1 h
  obtain ⟨e, he, rfl⟩ := Option.map_eq_some_iff.1 (Option.mem_toList.1 hx)
  exact List.mem_flatMap.2 ⟨e, (List.mem_filter.1 (List.mem_of_getLast? he)).1,
    List.mem_singleton_self _⟩

theorem schemaDefinition : MeetsThen (fun s ts _ => ∀ m ∈ s.rootMarks, ∃ t ∈ ts, m.At t)
    (.node pos :: Located.marks description) (Parser.schemaDefinition pos description)
    fun s => .node s.pos :: s.headMarks := by
  have hentries : MeetsThen (fun es ts _ => Along (es.flatMap fun e => [.name e.2]) ts) []
      (Parser.delimited .leftBrace .rightBrace Parser.rootEntry) fun _ => [] := by
    intro c es d hes
    obtain ⟨ms, ts, hrest, halong, hms⟩ := (delimited rootEntry).take hes
    obtain rfl : es.flatMap (fun e => [Mark.name e.2]) = ms := hms
    exact ⟨[], [], ts, hrest, .nil, rfl, halong⟩
  refine (expect _).silent fun _ => constDirectives.bind fun _ => hentries.last (fun _ => ?_) ?_
  · simp [SchemaDefinition.headMarks]
  · intro es ts _ halong m hm
    apply halong.exists_at
    simp only [SchemaDefinition.rootMarks, List.mem_append] at hm
    rcases hm with (hm | hm) | hm
    · exact mem_of_mem_rootMarks hm
    · exact mem_of_mem_rootMarks hm
    · exact mem_of_mem_rootMarks hm

end MeetsThen

/-- What comes before the selections or the root types of a definition. -/
def startMarks (x : Definition) : List Mark :=
  .node x.pos :: x.headMarks

theorem Starts.typeSystemDefinition :
    Starts (fun x ts _ => x.Ends ts) Parser.typeSystemDefinition startMarks := by
  refine .of_position fun pos => MeetsThen.description?.bind fun description =>
    MeetsThen.peekKind.silent fun kind => ?_
  have htype : MeetsThen (fun x ts _ => Definition.Ends ts x)
      ([Mark.node pos] ++ Located.marks description)
      (do return Definition.type (← Parser.typeDefinition pos description)) startMarks :=
    (MeetsThen.typeDefinition pos description).map (fun _ => rfl) fun _ _ _ h => h
  split
  · exact (MeetsThen.schemaDefinition pos description).map (fun _ => rfl) fun _ _ _ h => h
  · exact (MeetsThen.directiveDefinition pos description).map (fun _ => rfl) fun _ _ _ h => h
  all_goals first
    | exact htype
    | exact MeetsThen.unexpected

namespace MeetsThen

/-! ## Selections -/

variable {levels : Nat} {nested : Parser SelectionSet}

/-- Selections in braces, of which the braces are all that is taken. -/
abbrev Encloses (p : Parser SelectionSet) : Prop :=
  MeetsThen (fun s ts _ => SelectionSet.Braced s ts) [] p fun _ => []

theorem fieldParts (hn : Encloses nested)
    {g : List (Argument Name) → List (Directive Name) → SelectionSet → Field}
    (hg : ∀ as ds s, (g as ds s).selections = s ∧ Mark.node (g as ds s).pos ::
      (Selection.field (g as ds s)).headMarks =
        acc ++ as.flatMap Argument.marks ++ ds.flatMap Directive.marks) :
    MeetsThen (fun f ts after => (Selection.field f).Ends ts after) acc (do
      let arguments ← Parser.arguments (Parser.literal levels)
      let directives ← Parser.directives (Parser.literal levels)
      let selections ← if ← Parser.nextIs .leftBrace then nested
        else Pure.pure ⟨← Parser.position, []⟩
      Pure.pure (g arguments directives selections))
      fun f => .node f.pos :: (Selection.field f).headMarks := by
  refine (arguments (literal levels)).bind fun as => (literalDirectives levels).bind fun ds =>
    (nextIs _).silent fun _ => .ite ?_ ?_
  · refine hn.last (fun s => (hg as ds s).2) fun s ts after hs => .inr ?_
    rw [(hg as ds s).1]
    exact hs
  · rintro c _ _ ⟨⟩
    refine ⟨[], [], [], rfl, .nil, ?_, .inl ⟨rfl, (hg as ds _).1⟩⟩
    rw [List.append_nil]
    exact (hg as ds _).2

theorem field (hn : Encloses nested) : Starts (fun f ts after => (Selection.field f).Ends ts after)
    (Parser.field levels nested) fun f => .node f.pos :: (Selection.field f).headMarks := by
  refine .of_position fun pos => name.bind fun first => (eat _).silent fun aliased => ?_
  cases aliased with
  | true => exact name.bind fun actual => fieldParts hn fun as ds s => ⟨rfl, rfl⟩
  | false => exact fieldParts hn fun as ds s => ⟨rfl, rfl⟩

theorem fragmentSelection (pos : Position) (hn : Encloses nested) :
    MeetsThen Selection.Ends [.node pos] (Parser.fragmentSelection pos levels nested)
      fun s => .node s.pos :: s.headMarks := by
  have hinline : ∀ {condition : Option TypeCondition}, MeetsThen Selection.Ends
      ([Mark.node pos] ++ condition.toList.flatMap TypeCondition.marks) (do
        let directives ← Parser.directives (Parser.literal levels)
        let selections ← nested
        Pure.pure (Selection.inline ⟨pos, condition, directives, selections⟩))
      fun s => .node s.pos :: s.headMarks := fun {condition} =>
    (literalDirectives levels).bind fun ds => hn.last (fun _ => rfl) fun _ _ _ hs => hs
  have hcondition : Meets [] (some <$> Parser.typeCondition) fun condition =>
      condition.toList.flatMap TypeCondition.marks :=
    typeCondition.bind fun _ => .done (by simp)
  refine peekKind.silent fun kind => .ite ?_
    (name.bind fun x => (literalDirectives levels).bind fun ds => .pure rfl fun _ => rfl)
  split
  · exact hcondition.bind fun condition => hinline
  · exact hinline

end MeetsThen

theorem pos_of_rest {t : Token} {ts : List Token} (hc : c.rest = t :: ts) : c.pos = t.pos := by
  unfold Cursor.pos
  rw [hc]

/-- A selection starts at its first token, and what is next after it ends it. -/
theorem selection_parts (hn : MeetsThen.Encloses nested) {s : Selection}
    (h : Parser.selection levels nested c = .ok (s, d)) : ∃ head tail,
      c.rest = head ++ (tail ++ d.rest) ∧ s.HeadOn head ∧ s.Ends tail d.pos := by
  obtain ⟨pos, _, hpos, h⟩ := bind_eq_ok h
  cases hpos
  obtain ⟨isFragment, c1, heat, h⟩ := bind_eq_ok h
  rcases eat_eq_ok heat with ⟨rfl, t, hrest, -⟩ | ⟨rfl, rfl⟩
  · obtain ⟨ms, head, tail, hrest', halong, hmarks, hends⟩ :=
      MeetsThen.fragmentSelection c.pos hn c1 s d h
    obtain ⟨hpos, rfl⟩ := List.cons.inj hmarks
    refine ⟨t :: head, tail, ?_, ⟨?_, .skip halong⟩, hends⟩
    · rw [hrest, hrest', List.cons_append]
    · rw [Mark.node.inj hpos, pos_of_rest hrest]
      rfl
  · obtain ⟨f, c2, hf, h⟩ := bind_eq_ok h
    cases h
    obtain ⟨ms, head, tail, hrest, halong, hmarks, hends⟩ := MeetsThen.field hn c1 f _ hf
    obtain ⟨hpos, rfl⟩ := List.cons.inj hmarks
    refine ⟨head, tail, hrest, ⟨?_, halong⟩, hends⟩
    -- The name of the field is met along its head.
    cases head with
    | nil =>
      have hname : Mark.name f.name ∈ (Selection.field f).headMarks := by
        simp [Selection.headMarks]
      obtain ⟨t, ht, -⟩ := halong.exists_at _ hname
      cases ht
    | cons t head =>
      rw [Selection.pos, Mark.node.inj hpos, pos_of_rest hrest]
      rfl

theorem ReadUpTo.tiles (hn : MeetsThen.Encloses nested) {items : List Selection}
    (h : ReadUpTo .rightBrace (Parser.selection levels nested) c items d) :
    ∃ ts b, c.rest = ts ++ b :: d.rest ∧ b.kind = .rightBrace ∧ Tiles items ts b.pos := by
  induction h with
  | @closed c d t hrest ht => exact ⟨[], t, hrest, ht, .nil⟩
  | @item c c' d s items hs _ ih =>
    obtain ⟨head, tail, hrest, hhead, hends⟩ := selection_parts hn hs
    obtain ⟨ts, b, hts, hb, htiles⟩ := ih
    have hnext : c'.pos = Cursor.pos ⟨ts, b.pos⟩ := by
      cases ts with
      | nil => exact pos_of_rest hts
      | cons t ts => exact pos_of_rest hts
    rw [hnext] at hends
    refine ⟨head ++ (tail ++ ts), b, ?_, hb, .cons hhead hends htiles⟩
    rw [hrest, hts]
    simp

namespace MeetsThen

theorem selectionSet : ∀ levels, Encloses (Parser.selectionSet levels)
  | 0 => .fail _
  | levels + 1 => by
    intro c s d h
    obtain ⟨pos, _, hpos, h⟩ := bind_eq_ok h
    cases hpos
    obtain ⟨items, c1, hitems, h⟩ := bind_eq_ok h
    cases h
    have hlocal : Local true (Parser.selection levels (Parser.selectionSet levels)) :=
      .selection levels (.selectionSet levels)
    obtain ⟨o, c2, hrest, ho, hread⟩ := readUpTo_delimited hlocal hitems
    obtain ⟨ts, b, hts, hb, htiles⟩ := hread.tiles (selectionSet levels)
    refine ⟨[], [], o :: (ts ++ [b]), ?_, .nil, rfl, o, ts, b, rfl, ho, ?_, hb, htiles⟩
    · rw [hrest, hts]
      simp
    · exact (pos_of_rest hrest).symm

end MeetsThen

/-! ## Definitions -/

namespace Starts

theorem map {g : α → β} (hp : Starts R p f) (hh : ∀ a, h (g a) = f a)
    (hS : ∀ a ts after, R a ts after → S (g a) ts after) : Starts S (do return g (← p)) h := by
  intro c b d hb
  obtain ⟨a, d', hpa, hd⟩ := bind_eq_ok hb
  cases hd
  obtain ⟨ms, head, tail, hrest, halong, hf, hR⟩ := hp c a _ hpa
  exact ⟨ms, head, tail, hrest, halong, (hh a).trans hf, hS a tail _ hR⟩

theorem operation : Starts (fun o ts _ => SelectionSet.Braced o.selections ts) Parser.operation
    fun o => .node o.pos :: o.headMarks :=
  .of_position fun _ => (MeetsThen.nextIs _).silent fun _ => .ite
    ((MeetsThen.selectionSet _).last (fun _ => rfl) fun _ _ _ hs => hs)
    (MeetsThen.next.silent fun _ => MeetsThen.optionalName.bind fun _ =>
      (MeetsThen.optionalDelimited MeetsThen.variableDefinition).bind fun _ =>
        (MeetsThen.literalDirectives _).bind fun _ =>
          (MeetsThen.selectionSet _).last (fun _ => rfl) fun _ _ _ hs => hs)

theorem fragment : Starts (fun f ts _ => SelectionSet.Braced f.selections ts) Parser.fragment
    fun f => .node f.pos :: f.headMarks := by
  have hrest : ∀ (pos : Position) (x : Option (Located Name)),
      MeetsThen (fun f ts _ => SelectionSet.Braced f.selections ts)
        ([Mark.node pos] ++ Name.marks x) (do
        let condition ← Parser.typeCondition
        let directives ← Parser.directives (Parser.literal nestingLimit)
        let selections ← Parser.selectionSet nestingLimit
        Pure.pure (⟨pos, x, condition, directives, selections⟩ : Fragment))
      fun f => .node f.pos :: f.headMarks := fun pos x =>
    MeetsThen.typeCondition.bind fun _ => (MeetsThen.literalDirectives _).bind fun _ =>
      (MeetsThen.selectionSet _).last (fun _ => rfl) fun _ _ _ hs => hs
  exact .of_position fun pos => (MeetsThen.expect _).silent fun _ => MeetsThen.peekKind.silent
    fun kind => MeetsThen.peekSecondKind.silent fun second => .ite (hrest pos none)
      (MeetsThen.someName.bind fun x => hrest pos x)

theorem definition : Starts (fun x ts _ => x.Ends ts) Parser.definition startMarks := by
  have hoperation : Starts (fun x ts _ => Definition.Ends ts x)
      (do return Definition.operation (← Parser.operation)) startMarks :=
    operation.map (fun _ => rfl) fun _ _ _ hs => hs
  have hfragment : Starts (fun x ts _ => Definition.Ends ts x)
      (do return Definition.fragment (← Parser.fragment)) startMarks :=
    fragment.map (fun _ => rfl) fun _ _ _ hs => hs
  refine peekKind fun kind => ?_
  split
  all_goals first
    | exact hoperation
    | exact hfragment
    | exact typeSystemDefinition
    | exact unexpected

end Starts

theorem definition_placed {x : Definition} (h : Parser.definition c = .ok (x, d)) :
    ∃ part, c.rest = part ++ d.rest ∧ x.Placed part := by
  obtain ⟨ms, head, tail, hrest, halong, hmarks, hends⟩ := Starts.definition c x d h
  obtain ⟨hpos, rfl⟩ := List.cons.inj hmarks
  rw [← List.append_assoc] at hrest
  refine ⟨head ++ tail, hrest, ?_, head, tail, rfl, halong, hends⟩
  have hlocal : Local true Parser.definition := .definition
  have hlt := hlocal.lt rfl c x d h
  cases hpart : head ++ tail with
  | nil =>
    rw [hrest, hpart] at hlt
    exact absurd hlt (Nat.lt_irrefl _)
  | cons t ts =>
    rw [hpart] at hrest
    rw [Mark.node.inj hpos, pos_of_rest hrest]
    rfl

end Parser

theorem Definition.exists_placed {xs : List Definition} {parts : List (List Token)}
    (h : List.Forall₂ Placed xs parts) : ∀ x ∈ xs, ∃ part ∈ parts, x.Placed part := by
  induction h with
  | nil => exact List.forall_mem_nil _
  | @cons x part xs parts hx _ ih =>
    refine List.forall_mem_cons.2 ⟨⟨part, List.mem_cons_self .., hx⟩, fun y hy => ?_⟩
    obtain ⟨part', hpart', hy⟩ := ih y hy
    exact ⟨part', List.mem_cons_of_mem _ hpart', hy⟩

namespace Document

variable {source : String} {tokens : List Token} {filename : Option String} {d : Document}

/-- The tokens of a source are divided among the definitions of its document, and those of selections
among these, so that the selections of a field without braces are placed at the token after the
field. Every position is that of a token, and every name has the text of the token at its position.
On the way through a definition in the order of the source one never comes to an earlier position
than before; only the root types of a schema have no order. -/
theorem parse_placed (h : Token.scan source = .ok tokens)
    (hparse : Document.parse source filename = .ok d) :
    (∃ parts, parts.flatten = tokens ∧ List.Forall₂ Definition.Placed d.definitions parts) ∧
    (∀ x ∈ d.definitions, ∀ m ∈ x.marks, ∃ t ∈ tokens, m.At t) ∧
    ∀ x ∈ d.definitions, (∀ s, x ≠ .schema s) →
      (x.marks.map Mark.pos).Pairwise fun p q => ¬ q.Precedes p := by
  obtain ⟨tokens', c', hscan, hrun⟩ := Document.read_of_parse hparse
  obtain rfl : tokens = tokens' := Except.ok.inj (h.symm.trans hscan)
  have hat : Cursor.At ⟨tokens, Position.start.after source.toList⟩ source.toList :=
    Token.lexes_of_scan h
  obtain ⟨parts, hparts, hall⟩ := Parser.exists_readFrom (P := fun _ => True)
    (fun _ _ _ _ hx _ => Parser.definition_placed hx) tokens _ hat.proper (Nat.le_refl _)
    d.definitions c' hrun fun _ _ => trivial
  have hflat : parts.flatten = tokens := hparts.flatten
  have hplaced : ∀ x ∈ d.definitions, ∃ part, part <:+: tokens ∧ x.Placed part := by
    intro x hx
    obtain ⟨part, hpart, hon⟩ := Definition.exists_placed hall x hx
    exact ⟨part, hflat ▸ List.infix_of_mem_flatten hpart, hon⟩
  refine ⟨⟨parts, hflat, hall⟩, fun x hx m hm => ?_, fun x hx hne => ?_⟩
  · obtain ⟨part, hpart, hx⟩ := hplaced x hx
    obtain ⟨t, ht, hm⟩ := hx.exists_at m hm
    exact ⟨t, hpart.subset ht, hm⟩
  · obtain ⟨part, hpart, hx⟩ := hplaced x hx
    have hordered := (List.pairwise_append.1 (Token.pairwise_stops h)).1
    exact (hx.along hne).pairwise (hordered.sublist (hpart.sublist.map Token.pos))

end Document

namespace Sample

/-- Two fields without braces, one of them with an alias and an argument. -/
def aliased : String :=
  "\x7b a: b(c: 1) d \x7d"

/-- The positions that are met on the way through the only definition of `aliased`: those of the
operation, its selections, the field, its alias, its name, the argument, its value and the selections
that it lacks, and so on. -/
def aliasedWalk : List Position :=
  [⟨1, 1⟩, ⟨1, 1⟩, ⟨1, 3⟩, ⟨1, 3⟩, ⟨1, 6⟩, ⟨1, 8⟩, ⟨1, 11⟩, ⟨1, 14⟩, ⟨1, 14⟩, ⟨1, 14⟩, ⟨1, 16⟩]

def isWalked : Bool :=
  match Token.scan aliased, Document.parse aliased none with
  | .ok _, .ok d => decide (d.definitions.map (fun x => x.marks.map Mark.pos) = [aliasedWalk])
  | _, _ => false

end Sample

theorem Document.parse_placed_aliased : ∃ tokens d, Token.scan Sample.aliased = .ok tokens ∧
    Document.parse Sample.aliased none = .ok d ∧
    d.definitions.map (fun x => x.marks.map Mark.pos) = [Sample.aliasedWalk] ∧
    (∃ parts, parts.flatten = tokens ∧ List.Forall₂ Definition.Placed d.definitions parts) ∧
    (∀ x ∈ d.definitions, ∀ m ∈ x.marks, ∃ t ∈ tokens, m.At t) ∧
    ∀ x ∈ d.definitions, (∀ s, x ≠ .schema s) →
      (x.marks.map Mark.pos).Pairwise fun p q => ¬ q.Precedes p := by
  have hwalked : Sample.isWalked = true := by decide +kernel
  unfold Sample.isWalked at hwalked
  split at hwalked
  · next tokens d h hparse =>
    exact ⟨tokens, d, h, hparse, of_decide_eq_true hwalked, parse_placed h hparse⟩
  · cases hwalked

end GraphQL
