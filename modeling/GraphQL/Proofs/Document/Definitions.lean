import GraphQL.Proofs.Document.TypeSystem

/-!
# Reading definitions

The first token of a definition tells its rule, and no definition goes on with another one, unless a
type without a body comes before selections in braces.
-/

namespace GraphQL

open Token

/-! ## The first token -/

/-- The kind of the first token of a definition. -/
def Definition.lead : Definition → Token.Kind
  | .operation o => if Printer.isShorthand o then .leftBrace else .ofName o.kind.text
  | .fragment _ => .fragment
  | .schema s => if s.description.isSome then .string else .schema
  | .type t => if t.description.isSome then .string else .ofName t.body.keyword
  | .directive d => if d.description.isSome then .string else .directive

/-- The definition of a type that could have a body, but has none. -/
def Definition.IsBare : Definition → Prop
  | .type t => t.body.IsBare
  | _ => False

variable {rest : List Char}

theorem starts_described {text : Option (Located String)} {cs : List Char} {kind : Kind}
    (h : Starts cs kind) :
    Starts (Printer.description 0 text ++ cs) (if text.isSome then .string else kind) := by
  cases text with
  | none => exact h
  | some text =>
    rw [Printer.description, List.append_assoc, List.append_assoc]
    exact (begins_quoted _ (cut_newline cs).not_quote).starts rfl

theorem starts_operation (o : Operation) (rest : List Char) :
    Starts (Printer.operation o ++ rest) (Definition.operation o).lead := by
  rw [Printer.operation_eq, Definition.lead]
  split
  · exact (begins_punctuator rfl _).starts rfl
  · rw [Printer.operationHead]
    simp only [List.append_assoc]
    refine (begins_name (n := o.kind.text) (by cases o.kind <;> rfl) ?_).starts rfl
    exact (Parser.Reads.cut_namePart o.name (Parser.Reads.cut_parenthesized _
      (Parser.Reads.cut_literalDirectives o.directives (cut_blank _)))).isNameContinue

theorem starts_schema (s : SchemaDefinition) (cs : List Char) :
    Starts ("schema".toList ++ (Printer.constDirectives s.directives ++ ' ' :: cs)) .schema :=
  (begins_name (n := "schema") rfl
    (Parser.Reads.cut_constDirectives s.directives (cut_blank cs)).isNameContinue).starts rfl

theorem starts_type (t : TypeDefinition) (cs : List Char) :
    Starts (t.body.keyword.toList ++ ' ' :: cs) (.ofName t.body.keyword) :=
  (begins_name t.body.isValid_keyword (cut_blank cs).isNameContinue).starts rfl

theorem starts_directive (cs : List Char) : Starts ("directive".toList ++ ' ' :: cs) .directive :=
  (begins_name (n := "directive") rfl (cut_blank cs).isNameContinue).starts rfl

theorem starts_definition (d : Definition) (rest : List Char) :
    Starts (Printer.definition d ++ rest) d.lead := by
  cases d with
  | operation o => exact starts_operation o rest
  | fragment f =>
    rw [Printer.definition, Printer.fragment_eq, List.append_assoc, List.append_assoc]
    exact (begins_name (n := "fragment") rfl
      (Parser.Reads.cut_namePart f.name (cut_blank _)).isNameContinue).starts rfl
  | schema s =>
    rw [Printer.definition, Printer.schema_eq]
    simp only [List.append_assoc, List.cons_append]
    exact starts_described (starts_schema s _)
  | type t =>
    rw [Printer.definition, Printer.typeDefinition]
    simp only [List.append_assoc, List.cons_append]
    exact starts_described (starts_type t _)
  | directive d =>
    have htext : "directive @".toList = "directive".toList ++ [' ', '@'] := rfl
    rw [Printer.definition, Printer.directiveDefinition, htext]
    simp only [List.append_assoc, List.cons_append]
    exact starts_described (starts_directive _)

/-! ## Dispatch -/

namespace Parser.Reads

theorem schema {s : SchemaDefinition} (h : s.Writable) (rest : List Char) :
    Reads 1 Parser.typeSystemDefinition (Printer.schema s ++ rest) rest
      (Echoes Definition.same Printer.definition (.schema s)) := by
  have hstarts := starts_schema s ('{' :: '\n' :: ((s.entries.map Printer.entry).flatten ++ '}' :: rest))
  have hread := fun pos description hd => schemaDefinition h rest pos description hd
  rw [Printer.schema_eq]
  simp only [List.append_assoc, List.cons_append, List.nil_append]
  generalize "schema".toList ++ _ = cs at hstarts hread ⊢
  obtain ⟨l, mid, hb, hl⟩ := hstarts
  unfold Parser.typeSystemDefinition
  refine described (hb.avoids (hl ▸ by decide)) fun pos x hx => (peekKind hb).andThen fun kind hkind => ?_
  rw [hl] at hkind
  subst hkind
  exact (hread pos x hx).bind fun s' hs' => .pure hs'

theorem type {t : TypeDefinition} (h : t.Writable) (hrest : Cut rest)
    (havoids : Avoids rest definitionFollow) (hbare : t.body.IsBare → Avoids rest [.leftBrace]) :
    Reads 1 Parser.typeSystemDefinition (Printer.typeDefinition t ++ rest) rest
      (Echoes Definition.same Printer.definition (.type t)) := by
  have hstarts := starts_type t (t.name.node.toList ++ (Printer.typeBody t.directives t.body ++ rest))
  have hread := fun pos description hd =>
    typeDefinition h hrest havoids hbare pos description hd
  have hkeyword := t.body.keyword_mem
  rw [Printer.typeDefinition]
  simp only [List.append_assoc, List.cons_append]
  generalize t.body.keyword.toList ++ _ = cs at hstarts hread ⊢
  obtain ⟨l, mid, hb, hl⟩ := hstarts
  have hstring : Kind.ofName t.body.keyword ∉ [Kind.string] := by
    have hall : ∀ word ∈ ["scalar", "type", "interface", "union", "enum", "input"],
        Kind.ofName word ∉ [Kind.string] := by decide
    exact hall _ hkeyword
  unfold Parser.typeSystemDefinition
  refine described (hb.avoids (hl ▸ hstring)) fun pos x hx => (peekKind hb).andThen
    fun kind hkind => ?_
  have htype : Reads 1 (do return Definition.type (← Parser.typeDefinition pos x)) cs rest
      (Echoes Definition.same Printer.definition (.type t)) :=
    (hread pos x hx).bind fun t' ht' => .pure ht'
  rw [hl] at hkind
  generalize t.body.keyword = word at hkeyword hkind
  simp only [List.mem_cons, List.not_mem_nil, or_false] at hkeyword
  rcases hkeyword with rfl | rfl | rfl | rfl | rfl | rfl <;>
  · subst hkind
    exact htype

theorem directiveDefined {d : DirectiveDefinition} (h : d.Writable) (hrest : Cut rest)
    (havoids : Avoids rest [.pipe]) :
    Reads 1 Parser.typeSystemDefinition (Printer.directiveDefinition d ++ rest) rest
      (Echoes Definition.same Printer.definition (.directive d)) := by
  obtain ⟨location, locations, hlocations⟩ := List.exists_cons_of_ne_nil h.locations
  have hread := fun pos description hd =>
    directiveDefinition h hlocations hrest havoids pos description hd
  have hstarts := starts_directive ('@' :: (d.name.node.toList ++
    (Printer.argumentDefinitions d.arguments ++ ' ' :: ("on".toList ++ ' ' ::
      (location.node.text.toList ++ (locations.flatMap
        (fun x => ' ' :: '|' :: ' ' :: x.node.text.toList) ++ rest))))))
  rw [Printer.directiveDefinition_eq hlocations]
  simp only [List.append_assoc, List.cons_append]
  generalize "directive".toList ++ _ = cs at hstarts hread ⊢
  obtain ⟨l, mid, hb, hl⟩ := hstarts
  unfold Parser.typeSystemDefinition
  refine described (hb.avoids (hl ▸ by decide)) fun pos x hx => (peekKind hb).andThen
    fun kind hkind => ?_
  rw [hl] at hkind
  subst hkind
  exact (hread pos x hx).bind fun d' hd' => .pure hd'

theorem definition {d : Definition} (h : d.Writable) (hrest : Cut rest)
    (havoids : Avoids rest definitionFollow) (hbare : d.IsBare → Avoids rest [.leftBrace]) :
    Reads 1 Parser.definition (Printer.definition d ++ rest) rest
      (Echoes Definition.same Printer.definition d) := by
  obtain ⟨l, mid, hb, hl⟩ := starts_definition d rest
  unfold Parser.definition
  refine (peekKind hb).andThen fun kind hkind => ?_
  rw [hl] at hkind
  cases d with
  | operation o =>
    have hread : Reads 1 (do return Definition.operation (← Parser.operation))
        (Printer.operation o ++ rest) rest
        (Echoes Definition.same Printer.definition (.operation o)) :=
      (operation h rest).bind fun o' ho' => .pure ho'
    rw [Definition.lead] at hkind
    split at hkind
    · subst hkind
      exact hread
    · generalize o.kind = k at hkind
      cases k <;>
      · subst hkind
        exact hread
  | fragment f =>
    subst hkind
    exact (fragment h rest).bind fun f' hf' => .pure hf'
  | schema s =>
    have hread := schema h rest
    rw [Definition.lead] at hkind
    split at hkind <;>
    · subst hkind
      exact hread
  | type t =>
    have hread := type h hrest havoids hbare
    rw [Definition.lead] at hkind
    split at hkind
    · subst hkind
      exact hread
    · have hkeyword := t.body.keyword_mem
      generalize t.body.keyword = word at hkeyword hkind
      simp only [List.mem_cons, List.not_mem_nil, or_false] at hkeyword
      rcases hkeyword with rfl | rfl | rfl | rfl | rfl | rfl <;>
      · subst hkind
        exact hread
  | directive d =>
    have hread := directiveDefined h hrest (havoids.of_subset (by decide))
    rw [Definition.lead] at hkind
    split at hkind <;>
    · subst hkind
      exact hread

end Parser.Reads

/-! ## Documents -/

theorem Definition.lead_mem (d : Definition) : d.lead ∈ [.leftBrace, .query, .mutation,
    .subscription, .fragment, .string, .schema, .scalar, .type, .interface, .union, .enum, .input,
    .directive] := by
  have hkeyword : ∀ word ∈ ["scalar", "type", "interface", "union", "enum", "input"],
      Kind.ofName word ∈ [Kind.leftBrace, .query, .mutation, .subscription, .fragment, .string,
        .schema, .scalar, .type, .interface, .union, .enum, .input, .directive] := by decide
  have hkind : ∀ word ∈ ["query", "mutation", "subscription"],
      Kind.ofName word ∈ [Kind.leftBrace, .query, .mutation, .subscription, .fragment, .string,
        .schema, .scalar, .type, .interface, .union, .enum, .input, .directive] := by decide
  cases d with
  | operation o =>
    rw [lead]
    split
    · decide
    · exact hkind _ (by cases o.kind <;> decide)
  | fragment =>
    show Kind.fragment ∈ _
    decide
  | type t =>
    rw [lead]
    split
    · decide
    · exact hkeyword _ t.body.keyword_mem
  | schema | directive =>
    rw [lead]
    split <;> decide

/-- Only an operation of which nothing but the selections is printed starts with a brace. -/
theorem Definition.shorthand_of_lead {d : Definition} (h : d.lead = .leftBrace) :
    ∃ o, d = .operation o ∧ Printer.isShorthand o = true := by
  have hkeyword : ∀ word ∈ ["scalar", "type", "interface", "union", "enum", "input"],
      Kind.ofName word ≠ Kind.leftBrace := by decide
  have hkind : ∀ word ∈ ["query", "mutation", "subscription"],
      Kind.ofName word ≠ Kind.leftBrace := by decide
  cases d with
  | operation o =>
    rw [lead] at h
    split at h
    · next hs => exact ⟨o, rfl, hs⟩
    · exact absurd h (hkind _ (by cases o.kind <;> decide))
  | fragment => cases h
  | type t =>
    rw [lead] at h
    split at h
    · cases h
    · exact absurd h (hkeyword _ t.body.keyword_mem)
  | schema | directive =>
    rw [lead] at h
    split at h <;> cases h

/-- No type without a body comes right before bare selections, which would be read as its body. -/
def BracesApart (ds : List Definition) : Prop :=
  ∀ d o, [d, .operation o] <:+: ds → d.IsBare → Printer.isShorthand o = false

namespace Printer

/-- The definitions of a document, an empty line between each two. -/
def document (ds : List Definition) : List Char :=
  Text.joined ['\n', '\n'] (ds.map definition)

/-- What comes after a definition. -/
def following : List Definition → List Char
  | [] => []
  | d :: ds => '\n' :: '\n' :: document (d :: ds)

theorem document_cons (d : Definition) (ds : List Definition) :
    document (d :: ds) = definition d ++ following ds := by
  cases ds with
  | nil => exact (List.append_nil _).symm
  | cons d' ds =>
    unfold document following
    simp [Text.joined, document]

end Printer

theorem starts_document (d : Definition) (ds : List Definition) :
    Starts (Printer.document (d :: ds)) d.lead := by
  rw [Printer.document_cons]
  exact starts_definition d _

theorem cut_following (ds : List Definition) : Cut (Printer.following ds) := by
  cases ds with
  | nil => exact cut_nil
  | cons d ds => exact cut_newline _

theorem avoids_following (ds : List Definition) :
    Avoids (Printer.following ds) Parser.Reads.definitionFollow := by
  cases ds with
  | nil => exact avoids_nil _
  | cons d ds =>
    have hall : ∀ kind ∈ [Kind.leftBrace, .query, .mutation, .subscription, .fragment, .string,
        .schema, .scalar, .type, .interface, .union, .enum, .input, .directive],
        kind ∉ Parser.Reads.definitionFollow := by decide
    exact (avoids_ignored rfl).2 ((avoids_ignored rfl).2
      ((starts_document d ds).avoids (hall _ d.lead_mem)))

theorem avoids_brace_following {ds : List Definition}
    (h : ∀ o post, ds = .operation o :: post → Printer.isShorthand o = false) :
    Avoids (Printer.following ds) [.leftBrace] := by
  cases ds with
  | nil => exact avoids_nil _
  | cons d ds =>
    refine (avoids_ignored rfl).2 ((avoids_ignored rfl).2 ((starts_document d ds).avoids ?_))
    rw [List.mem_singleton]
    intro hlead
    obtain ⟨o, rfl, hs⟩ := Definition.shorthand_of_lead hlead
    rw [h o ds rfl] at hs
    cases hs

theorem bracesApart_nil : BracesApart [] :=
  fun _ _ hsub => nomatch List.infix_nil.1 hsub

theorem BracesApart.head {d : Definition} {ds : List Definition} (h : BracesApart (d :: ds))
    (hbare : d.IsBare) (o : Operation) (post : List Definition) (hds : ds = .operation o :: post) :
    Printer.isShorthand o = false :=
  h d o ⟨[], post, by rw [hds]; rfl⟩ hbare

theorem BracesApart.cons {d : Definition} {ds : List Definition}
    (hd : d.IsBare → ∀ o post, ds = .operation o :: post → Printer.isShorthand o = false)
    (h : BracesApart ds) : BracesApart (d :: ds) := by
  intro x o hsub hbare
  rcases List.infix_cons_iff.1 hsub with ⟨post, hpost⟩ | hsub
  · cases hpost
    exact hd hbare o post rfl
  · exact h x o hsub hbare

theorem BracesApart.suffix {ds tail : List Definition} (h : BracesApart ds) (hs : tail <:+ ds) :
    BracesApart tail :=
  fun d o ht => h d o (ht.trans hs.isInfix)

namespace Parser.Reads

theorem notAtEnd_true {cs rest : List Char} {l : Lexeme} (h : Begins cs l rest) :
    Reads 0 Parser.notAtEnd cs cs (· = true) :=
  peeked h fun _ _ => .pure rfl

theorem notAtEnd_false : Reads 0 Parser.notAtEnd [] [] (· = false) :=
  peek_nil.bind fun _ ht => .pure (by rw [ht]; rfl)

theorem definitions {ds : List Definition} (hw : ∀ d ∈ ds, d.Writable) (h : BracesApart ds) :
    Reads 0 Parser.definitions (Printer.document ds) []
      (List.Forall₂ (Echoes Definition.same Printer.definition) ds) := by
  refine repeatWhile Printer.document notAtEnd_false fun d tail hs => ?_
  obtain ⟨l, mid, hb, -⟩ := starts_document d tail
  refine ⟨_, notAtEnd_true hb, ?_⟩
  have hread := definition (hw d (hs.subset (List.mem_cons_self ..))) (cut_following tail)
    (avoids_following tail) fun hbare => avoids_brace_following ((h.suffix hs).head hbare)
  rw [Printer.document_cons]
  cases tail with
  | nil => exact hread
  | cons d' tail => exact (hread.leavesIgnored rfl).leavesIgnored rfl

end Parser.Reads

end GraphQL
