import GraphQL.Document.Parser.TypeSystem
import GraphQL.Proofs.Document.Writable
import GraphQL.Proofs.Document.Yields

/-!
# What was parsed can be written

Each parser of the grammar gives parts that can be written, so that a document that was parsed can
be (`writable_of_parse`).
-/

namespace GraphQL

open Token

namespace Parser.Gives

variable {α ν : Type} {ok : ν → Prop} {levels : Nat}

/-! ## Values and types -/

theorem intLiteral (token : Token) : Gives (Parser.intLiteral token) fun n =>
    ∃ i, n = .int i ∧ Number.isInt64 i = true := by
  unfold Parser.intLiteral
  simp only
  split
  · next h => exact next.bind fun _ _ => .pure ⟨_, rfl, h⟩
  · exact .fail _

theorem floatLiteral (token : Token) : Gives (Parser.floatLiteral token) fun n =>
    ∃ x, n = .double x := by
  unfold Parser.floatLiteral
  split
  · exact next.bind fun _ _ => .pure ⟨_, rfl⟩
  · exact .fail _

theorem objectField {value : Parser (Located (Value ν))} {Q : Value ν → Prop}
    (h : Gives value fun x => Q x.node) :
    Gives (Parser.objectField value) fun f => f.1.isValid = true ∧ Q f.2 :=
  name.bind fun _ hname => (expect _).bind fun _ _ => h.bind fun _ hx => .pure ⟨hname, hx⟩

/-- A name that is no keyword of a value is an enum value. -/
theorem enumValue {c : Cursor} (hc : c.Proper) {t : Token} (ht : c.rest.head? = some t)
    (htrue : t.kind ≠ .true) (hfalse : t.kind ≠ .false) (hnull : t.kind ≠ .null) (pos : Position) :
    Yields (do return ⟨pos, .enum (← Parser.name).node⟩ : Parser (Located (Value ν))) c fun x =>
      x.node.Writable ok (levels + 1) := by
  refine (Yields.name hc).bind fun x c' hx hc' => Gives.pure (.enum hx.1 fun hm => ?_) c' hc'
  have hkind := hx.2
  rw [ht, Option.map_some, Option.some.injEq] at hkind
  simp only [List.mem_cons, List.not_mem_nil, or_false] at hm
  rcases hm with he | he | he <;> rw [he] at hkind
  · exact htrue hkind
  · exact hfalse hkind
  · exact hnull hkind

theorem value {rule : Parser ν} (h : Gives rule ok) : ∀ levels,
    Gives (Parser.value rule levels) fun x => x.node.Writable ok levels
  | 0 => .fail _
  | levels + 1 => position.bind fun pos _ c hc => by
    refine Yields.peek ?_
    cases ht : c.rest.head? with
    | none => exact unexpected c hc
    | some t =>
      simp only
      split
      · exact (h.bind fun x hx => .pure (.var hx)) c hc
      · refine ((intLiteral t).bind fun n hn => .pure ?_) c hc
        obtain ⟨i, rfl, hi⟩ := hn
        exact .int hi
      · refine ((floatLiteral t).bind fun n hn => .pure ?_) c hc
        obtain ⟨x, rfl⟩ := hn
        exact .double
      · exact (next.bind fun _ _ => .pure .string) c hc
      · exact (next.bind fun _ _ => .pure .bool) c hc
      · exact (next.bind fun _ _ => .pure .bool) c hc
      · exact (next.bind fun _ _ => .pure .null) c hc
      · refine ((delimited (value h levels)).bind fun xs hxs => .pure (.list ?_)) c hc
        intro item hi
        obtain ⟨x, hx, rfl⟩ := List.mem_map.1 hi
        exact hxs x hx
      · refine ((delimited (objectField (value h levels))).bind fun fs hfs => .pure ?_) c hc
        exact .object (Assoc.nodup_keys_ofList fs)
          (fun f hf => (hfs f (Assoc.mem_of_mem_ofList hf)).1)
          fun f hf => (hfs f (Assoc.mem_of_mem_ofList hf)).2
      · next htrue hfalse hnull _ _ =>
        split
        · exact enumValue hc ht htrue hfalse hnull pos
        · exact unexpected c hc

theorem variableName : Gives Parser.variableName fun x => x.isValid = true :=
  (expect _).bind fun _ _ => name.bind fun _ hx => .pure hx

theorem literal (levels : Nat) :
    Gives (Parser.literal levels) fun x => Literal.Writable levels x.node :=
  value variableName levels

theorem constant (levels : Nat) :
    Gives (Parser.constant levels) fun x => Const.Writable levels x.node :=
  value unexpected levels

theorem typeRef : ∀ levels, Gives (Parser.typeRef levels) fun x => x.node.Writable levels
  | 0 => .fail _
  | levels + 1 => position.bind fun _ _ => (eat _).bind fun _ _ => .ite
    ((typeRef levels).bind fun _ hx => (expect _).bind fun _ _ => (eat _).bind fun _ _ =>
      .pure (.list hx))
    (name.bind fun _ hx => (eat _).bind fun _ _ => .pure (.named hx))

/-! ## Arguments and directives -/

theorem argument {value : Parser (Located (Value ν))}
    (h : Gives value fun x => x.node.Writable ok levels) :
    Gives (Parser.argument value) fun a => a.Writable ok levels :=
  name.bind fun _ hname => (expect _).bind fun _ _ => h.bind fun _ hx => .pure ⟨hname, hx⟩

theorem arguments {value : Parser (Located (Value ν))}
    (h : Gives value fun x => x.node.Writable ok levels) :
    Gives (Parser.arguments value) fun as => ∀ a ∈ as, a.Writable ok levels :=
  optionalDelimited (argument h)

theorem directives {value : Parser (Located (Value ν))}
    (h : Gives value fun x => x.node.Writable ok levels) :
    Gives (Parser.directives value) fun ds => ∀ d ∈ ds, d.Writable ok levels :=
  repeatWhile (nextIs _) (position.bind fun _ _ => (expect _).bind fun _ _ =>
    name.bind fun _ hname => (arguments h).bind fun _ has => .pure ⟨hname, has⟩)

theorem constDirectives : Gives Parser.constDirectives ConstDirectivesWritable :=
  directives (constant nestingLimit)

theorem default? : Gives Parser.default? fun v => ∀ x ∈ v, Const.Writable nestingLimit x.node :=
  (eat _).bind fun _ _ => .ite
    ((constant nestingLimit).bind fun x hx => .pure (by rintro _ ⟨⟩; exact hx)) (.pure nofun)

/-! ## Selections -/

theorem typeCondition : Gives Parser.typeCondition fun c => c.on.node.isValid = true :=
  position.bind fun _ _ => (expect _).bind fun _ _ => name.bind fun _ hx => .pure hx

/-- Selections that may be nested below some levels, or none at all. -/
def NestedWritable (levels : Nat) (s : SelectionSet) : Prop :=
  (s.items ≠ [] → 0 < levels) ∧ ∀ item ∈ s.items, item.Writable (levels - 1)

/-- Arguments, directives and selections of a field. -/
theorem fieldParts {nested : Parser SelectionSet} (h : Gives nested (NestedWritable levels))
    {γ : Type} {Q : γ → Prop}
    (g : List (Argument Name) → List (Directive Name) → SelectionSet → γ)
    (hg : ∀ as ds s, (∀ a ∈ as, a.Writable (fun name => Name.isValid name = true) levels) →
      DirectivesWritable levels ds → NestedWritable levels s → Q (g as ds s)) :
    Gives (do
      let arguments ← Parser.arguments (Parser.literal levels)
      let directives ← Parser.directives (Parser.literal levels)
      let selections ← if ← Parser.nextIs .leftBrace then nested
        else Pure.pure ⟨← Parser.position, []⟩
      Pure.pure (g arguments directives selections)) Q :=
  (arguments (literal levels)).bind fun as has => (directives (literal levels)).bind fun ds hds =>
    (nextIs _).bind fun _ _ => .ite (h.bind fun s hs => .pure (hg as ds s has hds hs))
      (position.bind fun _ _ => .pure (hg as ds _ has hds ⟨fun h => absurd rfl h, nofun⟩))

theorem field {nested : Parser SelectionSet} (h : Gives nested (NestedWritable levels)) :
    Gives (Parser.field levels nested) fun f => Selection.Writable levels (.field f) := by
  refine position.bind fun pos _ => name.bind fun first hfirst => (eat _).bind fun aliased _ => ?_
  cases aliased with
  | true =>
    refine name.bind fun actual hname => fieldParts h _ fun as ds s has hds hs => ?_
    refine .field ?_ hname has hds hs.1 hs.2
    rintro _ ⟨⟩
    exact hfirst
  | false =>
    exact (fieldParts h _ fun as ds s has hds hs => .field nofun hfirst has hds hs.1 hs.2)

theorem fragmentSelection (pos : Position) {nested : Parser SelectionSet}
    (h : Gives nested fun s => NestedWritable levels s ∧ 0 < levels) :
    Gives (Parser.fragmentSelection pos levels nested) fun item => item.Writable levels := by
  intro c hc
  have hinline : ∀ condition : Option TypeCondition,
      (∀ x ∈ condition, x.on.node.isValid = true) → Gives (do
        let directives ← Parser.directives (Parser.literal levels)
        let selections ← nested
        Pure.pure (Selection.inline ⟨pos, condition, directives, selections⟩))
        fun item => item.Writable levels := by
    intro condition hcondition
    refine (directives (literal levels)).bind fun ds hds => h.bind fun s hs => .pure ?_
    obtain ⟨hs, hlevels⟩ := hs
    obtain ⟨m, rfl⟩ : ∃ m, levels = m + 1 := ⟨levels - 1, by omega⟩
    exact .inline hcondition hds hs.2
  refine Yields.peekKind ?_
  split
  · split
    · refine ((typeCondition.map (R := fun condition => ∀ x ∈ condition, x.on.node.isValid = true)
        fun x hx => ?_).bind fun condition hcondition => hinline condition hcondition) c hc
      rintro _ ⟨⟩
      exact hx
    · exact hinline none nofun c hc
  · next hkind =>
    refine (Yields.name hc).bind fun x c' hx hc' =>
      ((directives (literal levels)).bind fun ds hds => .pure (.spread hx.1 ?_ hds)) c' hc'
    intro hon
    rw [hx.2, hon] at hkind
    exact hkind rfl

theorem selection {nested : Parser SelectionSet}
    (h : Gives nested fun s => NestedWritable levels s ∧ 0 < levels) :
    Gives (Parser.selection levels nested) fun item => item.Writable levels :=
  position.bind fun pos _ => (eat _).bind fun _ _ => .ite (fragmentSelection pos h)
    ((field (h.imp fun _ hs => hs.1)).bind fun _ hf => .pure hf)

theorem selectionSet : ∀ levels, Gives (Parser.selectionSet levels) fun s =>
    NestedWritable levels s ∧ 0 < levels
  | 0 => .fail _
  | levels + 1 => position.bind fun _ _ =>
    (delimited (selection (selectionSet levels))).bind fun _ hitems =>
      .pure ⟨⟨fun _ => Nat.succ_pos levels, hitems⟩, Nat.succ_pos levels⟩

theorem selections : Gives (Parser.selectionSet nestingLimit) SelectionSet.Writable :=
  (selectionSet nestingLimit).imp fun _ hs => hs.1.2

/-! ## Operations and fragments -/

theorem variableDefinition : Gives Parser.variableDefinition VariableDefinition.Writable :=
  position.bind fun _ _ => (expect _).bind fun _ _ => name.bind fun _ hname =>
    (expect _).bind fun _ _ => (typeRef _).bind fun _ ht => default?.bind fun _ hv =>
      constDirectives.bind fun _ hds => .pure ⟨hname, ht, hv, hds⟩

theorem someName : Gives (some <$> Parser.name) fun x =>
    x ≠ none ∧ ∀ y ∈ x, Name.isValid y.node = true :=
  name.map fun x hx => ⟨nofun, by
    rintro _ ⟨⟩
    exact hx⟩

theorem optionalName : Gives Parser.optionalName fun x => ∀ y ∈ x, Name.isValid y.node = true :=
  peekKind.bind fun kind _ => by
    cases kind with
    | none => exact .pure nofun
    | some kind => exact .ite (someName.imp fun _ hx => hx.2) (.pure nofun)

theorem operation : Gives Parser.operation Operation.Writable :=
  position.bind fun _ _ => (nextIs _).bind fun _ _ => .ite
    (selections.bind fun _ hs => .pure ⟨nofun, nofun, nofun, hs⟩)
    (next.bind fun _ _ => optionalName.bind fun _ hname =>
      (optionalDelimited variableDefinition).bind fun _ hvs =>
        (directives (literal _)).bind fun _ hds => selections.bind fun _ hs =>
          .pure ⟨hname, hvs, hds, hs⟩)

/-- The name in a type condition is the second token. -/
theorem typeCondition_at {c : Cursor} (hc : c.Proper) : Yields Parser.typeCondition c fun x =>
    x.on.node.isValid = true ∧ c.rest.tail.head?.map Token.kind = some (.ofName x.on.node) := by
  intro x c' h
  obtain ⟨pos, c1, hpos, h⟩ := bind_eq_ok h
  cases hpos
  obtain ⟨t, c1, hon, h⟩ := bind_eq_ok h
  obtain ⟨y, c2, hname, hpure⟩ := bind_eq_ok h
  cases hpure
  have hrest := expect_eq_ok hon
  have hproper : c1.Proper := (expect _ c hc t c1 hon).2
  rw [hrest]
  exact Yields.name hproper y _ hname

theorem fragment : Gives Parser.fragment Fragment.Writable := by
  refine position.bind fun pos _ => (expect _).bind fun _ _ c hc => ?_
  have hrest : ∀ x : Option (Located Name), (∀ y ∈ x, y.node.isValid = true) →
      ∀ condition : TypeCondition, condition.on.node.isValid = true →
        (x = none → condition.on.node ≠ "on") → Gives (do
          let directives ← Parser.directives (Parser.literal nestingLimit)
          let selections ← Parser.selectionSet nestingLimit
          Pure.pure (⟨pos, x, condition, directives, selections⟩ : Fragment)) Fragment.Writable := by
    intro x hx condition hcondition hanonymous
    exact (directives (literal _)).bind fun ds hds => selections.bind fun s hs =>
      .pure ⟨hx, hcondition, hanonymous, hds, hs⟩
  refine Yields.peekKind (Yields.peekSecondKind ?_)
  dsimp only
  split
  · next hkind =>
    simp only [Bool.and_eq_true, decide_eq_true_eq, Bool.not_eq_true', decide_eq_false_iff_not] at hkind
    refine (typeCondition_at hc).bind fun condition c' hx hc' =>
      hrest none nofun condition hx.1 (fun _ hon => ?_) c' hc'
    rw [hon] at hx
    exact hkind.2 hx.2
  · exact (someName.bind fun x hx => typeCondition.bind fun condition hcondition =>
      hrest x hx.2 condition hcondition fun hnone => absurd hnone hx.1) c hc

/-! ## Type systems -/

theorem description? : Gives Parser.description? fun _ => True :=
  position.bind fun _ _ => (nextIs _).bind fun _ _ => .ite
    (next.bind fun _ _ => .pure trivial) (.pure trivial)

theorem inputValueDefinition : Gives Parser.inputValueDefinition InputValueDefinition.Writable :=
  position.bind fun _ _ => description?.bind fun _ _ => name.bind fun _ hname =>
    (expect _).bind fun _ _ => (typeRef _).bind fun _ ht => default?.bind fun _ hv =>
      constDirectives.bind fun _ hds => .pure ⟨hname, ht, hv, hds⟩

theorem argumentDefinitions : Gives Parser.argumentDefinitions fun vs => ∀ v ∈ vs, v.Writable :=
  optionalDelimited inputValueDefinition

theorem fieldDefinition : Gives Parser.fieldDefinition FieldDefinition.Writable :=
  position.bind fun _ _ => description?.bind fun _ _ => name.bind fun _ hname =>
    argumentDefinitions.bind fun _ has => (expect _).bind fun _ _ => (typeRef _).bind fun _ ht =>
      constDirectives.bind fun _ hds => .pure ⟨hname, has, ht, hds⟩

theorem enumValueDefinition : Gives Parser.enumValueDefinition EnumValueDefinition.Writable :=
  position.bind fun _ _ => description?.bind fun _ _ => name.bind fun _ hname =>
    constDirectives.bind fun _ hds => .pure ⟨hname, hds⟩

theorem rootEntry : Gives Parser.rootEntry fun e => e.2.node.isValid = true := by
  refine peekKind.bind fun kind _ => ?_
  have hread : ∀ kind : OperationKind, Gives (do
      let _ ← Parser.next
      let _ ← Parser.expect .colon
      let name ← Parser.name
      Pure.pure (kind, name)) fun e => e.2.node.isValid = true := fun kind =>
    next.bind fun _ _ => (expect _).bind fun _ _ => name.bind fun _ hname => .pure hname
  split
  · exact hread _
  · exact hread _
  · exact hread _
  · exact (unexpected (Q := fun _ => False)).bind fun _ h => h.elim

theorem valid_lastRoot {entries : List (OperationKind × Located Name)}
    (h : ∀ e ∈ entries, e.2.node.isValid = true) (kind : OperationKind) :
    ∀ name ∈ lastRoot entries kind, name.node.isValid = true := by
  intro name hname
  obtain ⟨e, he, rfl⟩ := Option.map_eq_some_iff.1 hname
  exact h e (List.mem_filter.1 (List.mem_of_getLast? he)).1

theorem schemaDefinition (pos : Position) (description : Option (Located String)) :
    Gives (Parser.schemaDefinition pos description) SchemaDefinition.Writable :=
  (expect _).bind fun _ _ => constDirectives.bind fun _ hds =>
    (delimited rootEntry).bind fun _ hes => .pure ⟨hds, valid_lastRoot hes _, valid_lastRoot hes _,
      valid_lastRoot hes _⟩

theorem separated {separator : Token.Kind} {item : Parser α} {Q : α → Prop} (h : Gives item Q) :
    Gives (Parser.separated separator item) fun xs => xs ≠ [] ∧ ∀ x ∈ xs, Q x :=
  (eat _).bind fun _ _ => h.bind fun _ hx => (repeatWhile (eat _) h).bind fun _ hxs =>
    .pure ⟨nofun, List.forall_mem_cons.2 ⟨hx, hxs⟩⟩

theorem implementedInterfaces :
    Gives Parser.implementedInterfaces fun xs => ∀ x ∈ xs, x.node.isValid = true :=
  (eat _).bind fun _ _ => .ite
    ((eat _).bind fun _ _ => name.bind fun _ hx =>
      (repeatWhile ((eat _).bind fun _ _ => .ite (.pure trivial) (nextIs _)) name).bind fun _ hxs =>
        .pure (List.forall_mem_cons.2 ⟨hx, hxs⟩))
    (.pure nofun)

theorem typeBody (keyword : Token.Kind) : Gives (Parser.typeBody keyword) fun x =>
    ConstDirectivesWritable x.1 ∧ x.2.Writable := by
  unfold Parser.typeBody
  split
  · exact constDirectives.bind fun _ hds => .pure ⟨hds, .scalar⟩
  · exact implementedInterfaces.bind fun _ hxs => constDirectives.bind fun _ hds =>
      (optionalDelimited fieldDefinition).bind fun _ hfs => .pure ⟨hds, .object hxs hfs⟩
  · exact implementedInterfaces.bind fun _ hxs => constDirectives.bind fun _ hds =>
      (optionalDelimited fieldDefinition).bind fun _ hfs => .pure ⟨hds, .interface hxs hfs⟩
  · exact constDirectives.bind fun _ hds => (eat _).bind fun _ _ => .ite
      ((separated name).bind fun _ hxs => .pure ⟨hds, .union hxs.2⟩) (.pure ⟨hds, .union nofun⟩)
  · exact constDirectives.bind fun _ hds => (optionalDelimited enumValueDefinition).bind
      fun _ hvs => .pure ⟨hds, .enum hvs⟩
  · exact constDirectives.bind fun _ hds => (optionalDelimited inputValueDefinition).bind
      fun _ hvs => .pure ⟨hds, .input hvs⟩

theorem typeDefinition (pos : Position) (description : Option (Located String)) :
    Gives (Parser.typeDefinition pos description) TypeDefinition.Writable :=
  next.bind fun _ _ => name.bind fun _ hname => (typeBody _).bind fun _ hx =>
    .pure ⟨hname, hx.1, hx.2⟩

theorem directiveLocation : Gives Parser.directiveLocation fun _ => True := by
  refine peek.bind fun token _ => ?_
  cases token with
  | none => exact unexpected
  | some token =>
    refine .ite ?_ unexpected
    split
    · exact name.bind fun _ _ => .pure trivial
    · exact fail _

theorem directiveDefinition (pos : Position) (description : Option (Located String)) :
    Gives (Parser.directiveDefinition pos description) DirectiveDefinition.Writable :=
  (expect _).bind fun _ _ => (expect _).bind fun _ _ => name.bind fun _ hname =>
    argumentDefinitions.bind fun _ has => (expect _).bind fun _ _ =>
      (separated directiveLocation).bind fun _ hls => .pure ⟨hname, has, hls.1⟩

theorem typeSystemDefinition : Gives Parser.typeSystemDefinition Definition.Writable := by
  refine position.bind fun pos _ => description?.bind fun description _ => peekKind.bind fun kind _ => ?_
  have htype : Gives (do return Definition.type (← Parser.typeDefinition pos description))
      Definition.Writable := (typeDefinition pos description).bind fun _ h => .pure h
  split
  · exact (schemaDefinition pos description).bind fun _ h => .pure h
  · exact (directiveDefinition pos description).bind fun _ h => .pure h
  · exact htype
  · exact htype
  · exact htype
  · exact htype
  · exact htype
  · exact htype
  · exact unexpected

theorem definition : Gives Parser.definition Definition.Writable := by
  refine peekKind.bind fun kind _ => ?_
  have hoperation : Gives (do return Definition.operation (← Parser.operation))
      Definition.Writable := operation.bind fun _ h => .pure h
  split <;> first
    | exact hoperation
    | exact fragment.bind fun _ h => .pure h
    | exact typeSystemDefinition
    | exact unexpected

theorem definitions : Gives Parser.definitions fun ds => ∀ d ∈ ds, d.Writable :=
  repeatWhile (peek.bind fun _ _ => .pure trivial) definition

theorem finished : Gives Parser.finished fun _ => True :=
  peek.bind fun token _ => by
    cases token with
    | none => exact .pure trivial
    | some token => exact unexpected

end Parser.Gives

namespace Parser

variable {α : Type} {p : Parser α} {source : String} {filename : Option String}

theorem parse_eq_ok {a : α} (h : parse p source filename = .ok a) : ∃ tokens d,
    Token.scan source = .ok tokens ∧ p ⟨tokens, Position.start.after source.toList⟩ = .ok (a, d) := by
  unfold parse at h
  split at h
  · cases h
  · next tokens hscan =>
    split at h
    · next d hrun =>
      cases h
      exact ⟨tokens, d, hscan, hrun⟩
    · cases h

/-- A parser that reads a source gives what it reads there. -/
theorem Reads.parse {n : Nat} {Q : α → Prop} (h : Reads n p source.toList [] Q)
    (filename : Option String) : ∃ a, Parser.parse p source filename = .ok a ∧ Q a := by
  obtain ⟨ls, hlexes⟩ := h.lexed ⟨[], .done rfl⟩
  obtain ⟨tokens, hscan, rfl⟩ := exists_scan hlexes
  obtain ⟨a, d, hrun, -, -, ha⟩ := h.run ⟨tokens, Position.start.after source.toList⟩ hlexes
  refine ⟨a, ?_, ha⟩
  unfold Parser.parse
  rw [hscan]
  simp only [hrun]

theorem parse_eq_error {e : ParseError} (h : parse p source filename = .error e) :
    e.cause = .unterminatedString ∨ ∃ tokens failure, Token.scan source = .ok tokens ∧
      p ⟨tokens, Position.start.after source.toList⟩ = .error failure ∧
        e = ⟨failure.cause, failure.pos, filename⟩ := by
  unfold parse at h
  split at h
  · cases h
    exact .inl rfl
  · next tokens hscan =>
    split at h
    · cases h
    · next failure hrun =>
      cases h
      exact .inr ⟨tokens, failure, hscan, hrun, rfl⟩

end Parser

namespace Document

variable {source : String} {filename : Option String} {d : Document}

/-- A document that was parsed is what the definitions of its source were read as. -/
theorem read_of_parse (h : Document.parse source filename = .ok d) :
    ∃ tokens c', Token.scan source = .ok tokens ∧
      Parser.definitions ⟨tokens, Position.start.after source.toList⟩ =
        .ok (d.definitions, c') := by
  unfold Document.parse at h
  cases hparse : Parser.parse Parser.definitions source filename with
  | error e =>
    rw [hparse] at h
    cases h
  | ok definitions =>
    rw [hparse] at h
    cases h
    exact Parser.parse_eq_ok hparse

theorem run_of_parse (h : Document.parse source filename = .ok d) :
    ∃ c c' : Cursor, c.At source.toList ∧ Parser.definitions c = .ok (d.definitions, c') := by
  obtain ⟨tokens, c', hscan, hrun⟩ := read_of_parse h
  exact ⟨_, c', lexes_of_scan hscan, hrun⟩

theorem writable_of_parse (h : Document.parse source filename = .ok d) :
    ∀ x ∈ d.definitions, x.Writable := by
  obtain ⟨c, c', hat, hrun⟩ := run_of_parse h
  exact (Parser.Gives.definitions c hat.proper _ c' hrun).1

end Document

end GraphQL
