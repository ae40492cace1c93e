import GraphQL.Document.Parser.TypeSystem
import GraphQL.Proofs.Document.Executable

/-!
# Reading type systems

A definition of a type system is read in front of anything that does not go on with it. One that
leaves its body out must not be followed by braces.
-/

namespace GraphQL

open Token

/-! ## Printing depends on what is said -/

theorem Printer.description_congr {a b : Option (Located String)}
    (h : b.map Located.node = a.map Located.node) (depth : Nat) :
    description depth b = description depth a := by
  have heq : ∀ text, description depth text = (text.map Located.node).elim [] fun s =>
      indent depth ++ Text.quoted s.toList ++ ['\n'] := by
    rintro (_ | text) <;> rfl
  rw [heq, heq, h]

theorem Printer.bodyLine_congr {a b : Option (Located String)} {cs ds : List Char}
    (h : b.map Located.node = a.map Located.node) (hcore : ds = cs) :
    bodyLine b ds = bodyLine a cs := by
  rw [bodyLine, bodyLine, description_congr h, hcore]

theorem Printer.argumentDefinition_eq (v : InputValueDefinition) : argumentDefinition v =
    ((v.description.map Located.node).elim [] fun s => Text.quoted s.toList ++ [' ']) ++
      inputValue v := by
  unfold argumentDefinition
  cases v.description <;> rfl

namespace Parser.Reads

variable {α β γ : Type} {n : Nat} {rest mid : List Char} {Q : γ → Prop}

/-! ## Descriptions -/

theorem description_some {text : Located String} (hrest : Cut rest) :
    Reads 1 Parser.description? (Text.quoted text.node.toList ++ rest) rest fun x =>
      x.map Located.node = some text.node := by
  have hb := begins_quoted text.node.toList hrest.not_quote
  refine position.andThen fun pos _ => (nextIs_true hb rfl).andThen fun _ ht => ?_
  subst ht
  refine (next hb).bind fun token htoken => .pure ?_
  have hvalue : token.value.toList = text.node.toList := congrArg Lexeme.value htoken
  rw [Option.map_some, String.toList_injective hvalue]

theorem description_none (h : Avoids rest [.string]) :
    Reads 0 Parser.description? rest rest fun x => x.map Located.node = none :=
  position.bind fun pos _ => (nextIs_false h (List.mem_singleton_self _)).bind fun _ hf => by
    subst hf
    exact .pure rfl

/-- A description at any indentation, and what it describes. -/
theorem described {text : Option (Located String)} {cs : List Char} {depth : Nat}
    {k : Position → Option (Located String) → Parser γ} (hstring : Avoids cs [.string])
    (hk : ∀ pos x, x.map Located.node = text.map Located.node → Reads n (k pos x) cs rest Q) :
    Reads n (do
      let pos ← Parser.position
      let description ← Parser.description?
      k pos description) (Printer.description depth text ++ cs) rest Q := by
  refine position.andThen fun pos _ => ?_
  unfold Printer.description
  cases text with
  | none => exact (description_none hstring).andThen fun x hx => hk pos x hx
  | some text =>
    simp only [List.append_assoc, List.cons_append, List.nil_append]
    refine indent depth (((description_some (cut_newline cs)).leavesIgnored rfl).weaken.andThen
      fun x hx => hk pos x hx)

theorem avoids_description {text : Option (Located String)} {cs : List Char} {kinds : List Kind}
    (depth : Nat) (hcs : Avoids cs kinds) (hk : .string ∉ kinds) :
    Avoids (Printer.description depth text ++ cs) kinds := by
  unfold Printer.description
  cases text with
  | none => exact hcs
  | some text =>
    simp only [List.append_assoc]
    exact avoids_indent depth (avoids_quoted _ (cut_newline _) hk)

theorem bodyLine {text : Option (Located String)} {core : List Char}
    {k : Position → Option (Located String) → Parser γ}
    (hstring : Avoids (core ++ '\n' :: rest) [.string])
    (hk : ∀ pos x, x.map Located.node = text.map Located.node →
      Reads n (k pos x) (core ++ '\n' :: rest) ('\n' :: rest) Q) :
    Reads n (do
      let pos ← Parser.position
      let description ← Parser.description?
      k pos description) (Printer.bodyLine text core ++ rest) rest Q := by
  unfold Printer.bodyLine
  simp only [List.append_assoc, List.cons_append, List.nil_append]
  exact described (avoids_indent 1 hstring) fun pos x hx =>
    indent 1 ((hk pos x hx).leavesIgnored rfl)

theorem avoids_bodyLine {text : Option (Located String)} {core : List Char} {kinds : List Kind}
    (hcore : ∀ tail, Avoids (core ++ tail) kinds) (hk : .string ∉ kinds) (tail : List Char) :
    Avoids (Printer.bodyLine text core ++ tail) kinds := by
  unfold Printer.bodyLine
  simp only [List.append_assoc]
  exact avoids_description 1 (avoids_indent 1 (hcore _)) hk

/-! ## Input values -/

theorem echoesInputValue {v w : InputValueDefinition} (h : v.Writable)
    (hdescription : w.description.map Located.node = v.description.map Located.node)
    (hname : w.name.node = v.name.node) (htype : w.type.node = v.type.node)
    (hdefault : w.default.map Located.node = v.default.map Located.node)
    (hdirs : Echoes (sameList Directive.same) Printer.constDirectives v.directives w.directives) :
    InputValueDefinition.same w v = true ∧ Printer.inputValue w = Printer.inputValue v := by
  constructor
  · simp [InputValueDefinition.same, Located.same, sameOption_of_map hdescription, hname, htype,
      sameDefault h.default hdefault, hdirs.1]
  · rw [Printer.inputValue_eq, Printer.inputValue_eq, Printer.typed, Printer.typed,
      Printer.default_eq, Printer.default_eq, hname, htype, hdefault, hdirs.2]

theorem inputValue {v : InputValueDefinition} (h : v.Writable) (hrest : Cut rest)
    (havoids : Avoids rest typedFollow)
    (g : Located Name → Located TypeRef → Option (Located Const) → List (Directive Empty) → γ) :
    Reads 1 (do
      let name ← Parser.name
      let _ ← Parser.expect .colon
      let type ← Parser.typeRef nestingLimit
      let default ← Parser.default?
      let directives ← Parser.constDirectives
      Pure.pure (g name type default directives)) (Printer.inputValue v ++ rest) rest
      fun x => ∃ name t value es, x = g name t value es ∧ name.node = v.name.node ∧
        t.node = v.type.node ∧ value.map Located.node = v.default.map Located.node ∧
        Echoes (sameList Directive.same) Printer.constDirectives v.directives es := by
  rw [Printer.inputValue_eq, List.append_assoc]
  refine (Reads.name h.name (cut_punctuator rfl _)).bind fun x hx => ?_
  refine (typed h.type h.default h.directives hrest havoids _).imp ?_
  rintro _ ⟨t, value, es, rfl, ht, hvalue, hes⟩
  exact ⟨x, t, value, es, rfl, hx, ht, hvalue, hes⟩

theorem avoids_inputValue {v : InputValueDefinition} (h : v.Writable) {kinds : List Kind}
    (hk : ∀ k ∈ kinds, k.isName = false) (tail : List Char) :
    Avoids (Printer.inputValue v ++ tail) kinds := by
  rw [Printer.inputValue_eq, List.append_assoc]
  exact avoids_name h.name hk _

theorem inputField {v : InputValueDefinition} (h : v.Writable) (havoids : Avoids rest typedFollow) :
    Reads 1 Parser.inputValueDefinition (Printer.inputField v ++ rest) rest
      (Echoes InputValueDefinition.same Printer.inputField v) := by
  refine bodyLine (avoids_inputValue h (by decide) _) fun pos description hd => ?_
  refine (inputValue h (cut_newline rest) ((avoids_ignored rfl).2 havoids) _).imp ?_
  rintro _ ⟨name, t, value, es, rfl, hname, ht, hvalue, hes⟩
  obtain ⟨hsame, hprint⟩ := echoesInputValue h (w := ⟨pos, description, name, t, value, es⟩) hd hname
    ht hvalue hes
  exact ⟨hsame, Printer.bodyLine_congr hd hprint⟩

theorem avoids_inputField {v : InputValueDefinition} (h : v.Writable) {kinds : List Kind}
    (hk : ∀ k ∈ kinds, k.isName = false) (hstring : .string ∉ kinds) (tail : List Char) :
    Avoids (Printer.inputField v ++ tail) kinds :=
  avoids_bodyLine (avoids_inputValue h hk) hstring tail

theorem inputFields {vs : List InputValueDefinition} (h : ∀ v ∈ vs, v.Writable)
    (hrest : vs = [] → Avoids rest [.leftBrace]) :
    Reads 0 (optionalDelimited .leftBrace .rightBrace Parser.inputValueDefinition)
      (Printer.braced (vs.map Printer.inputField) ++ rest) rest
      (Echoes (sameList InputValueDefinition.same) (List.map Printer.inputField) vs) :=
  (braced typedFollow hrest (by decide)
    (fun v hv => avoids_inputField (h v hv) (by decide) (by decide))
    fun v hv _ => inputField (h v hv)).imp fun _ => Echoes.list

theorem argumentDefinition {v : InputValueDefinition} (h : v.Writable) (hrest : Cut rest)
    (havoids : Avoids rest typedFollow) :
    Reads 1 Parser.inputValueDefinition (Printer.argumentDefinition v ++ rest) rest
      (Echoes InputValueDefinition.same Printer.argumentDefinition v) := by
  rw [Printer.argumentDefinition_eq]
  refine position.andThen fun pos _ => ?_
  have hvalue : ∀ description : Option (Located String),
      description.map Located.node = v.description.map Located.node → Reads 1 (do
        let name ← Parser.name
        let _ ← Parser.expect .colon
        let type ← Parser.typeRef nestingLimit
        let default ← Parser.default?
        let directives ← Parser.constDirectives
        Pure.pure (⟨pos, description, name, type, default, directives⟩ : InputValueDefinition))
        (Printer.inputValue v ++ rest) rest
        (Echoes InputValueDefinition.same Printer.argumentDefinition v) := by
    intro description hd
    refine (inputValue h hrest havoids _).imp ?_
    rintro _ ⟨name, t, value, es, rfl, hname, ht, hvalue, hes⟩
    obtain ⟨hsame, hprint⟩ := echoesInputValue h (w := ⟨pos, description, name, t, value, es⟩) hd
      hname ht hvalue hes
    refine ⟨hsame, ?_⟩
    rw [Printer.argumentDefinition_eq, Printer.argumentDefinition_eq, hd, hprint]
  cases hx : v.description with
  | none =>
    rw [hx] at hvalue
    exact (description_none (avoids_inputValue h (by decide) rest)).andThen hvalue
  | some text =>
    rw [hx] at hvalue
    simp only [Option.map_some, Option.elim_some, List.append_assoc, List.cons_append,
      List.nil_append]
    exact ((description_some (cut_blank _)).leavesIgnored rfl).weaken.andThen hvalue

theorem argumentDefinitions {vs : List InputValueDefinition} (h : ∀ v ∈ vs, v.Writable)
    (hrest : Avoids rest [.leftParen]) :
    Reads 0 Parser.argumentDefinitions (Printer.argumentDefinitions vs ++ rest) rest
      (Echoes (sameList InputValueDefinition.same) (List.map Printer.argumentDefinition) vs) := by
  refine (parenthesized typedFollow hrest (by decide) (fun v hv tail ht => ?_)
    fun v hv tail => argumentDefinition (h v hv)).imp fun _ => Echoes.list
  rw [Printer.argumentDefinition_eq]
  cases v.description with
  | none => exact avoids_inputValue (h v hv) (by decide) tail
  | some text =>
    simp only [Option.map_some, Option.elim_some, List.append_assoc]
    exact avoids_quoted _ (cut_blank _) (by decide)

/-! ## Fields and enum values -/

theorem fieldDefinition {f : FieldDefinition} (h : f.Writable) (havoids : Avoids rest typedFollow) :
    Reads 1 Parser.fieldDefinition (Printer.fieldDefinition f ++ rest) rest
      (Echoes FieldDefinition.same Printer.fieldDefinition f) := by
  have hcore : ∀ tail, f.name.node.toList ++ Printer.argumentDefinitions f.arguments ++ ':' :: ' ' ::
      f.type.node.chars ++ Printer.constDirectives f.directives ++ tail = f.name.node.toList ++
        (Printer.argumentDefinitions f.arguments ++ (':' :: ' ' :: (f.type.node.chars ++
          (Printer.constDirectives f.directives ++ tail)))) := by
    simp
  refine bodyLine ?_ fun pos description hd => ?_
  · rw [hcore]
    exact avoids_name h.name (by decide) _
  rw [hcore]
  have hend : Avoids ('\n' :: rest) typedFollow := (avoids_ignored rfl).2 havoids
  refine (Reads.name h.name (cut_parenthesized _ (cut_punctuator rfl _))).bind fun name hname => ?_
  refine (argumentDefinitions h.arguments (avoids_punctuator rfl (by decide) _)).bind fun as has => ?_
  refine (punctuator rfl _).weaken.bind fun _ _ => ignored rfl ?_
  refine (typeRef h.type (cut_constDirectives _ (cut_newline rest)) (avoids_constDirectives _
    (hend.of_subset (by decide)) (by decide))).weaken.bind fun t ht => ?_
  refine (constDirectives h.directives (cut_newline rest) (hend.of_subset (by decide))).bind
    fun ds hds => .pure ⟨?_, ?_⟩
  · simp [FieldDefinition.same, Located.same, sameOption_of_map hd, hname, has.1, ht, hds.1]
  · refine Printer.bodyLine_congr hd ?_
    rw [hname, Printer.argumentDefinitions, Printer.argumentDefinitions, has.2, ht, hds.2]

theorem avoids_fieldDefinition {f : FieldDefinition} (h : f.Writable) {kinds : List Kind}
    (hk : ∀ k ∈ kinds, k.isName = false) (hstring : .string ∉ kinds) (tail : List Char) :
    Avoids (Printer.fieldDefinition f ++ tail) kinds := by
  refine avoids_bodyLine (fun tail => ?_) hstring tail
  simp only [List.append_assoc]
  exact avoids_name h.name hk _

theorem fieldDefinitions {fs : List FieldDefinition} (h : ∀ f ∈ fs, f.Writable)
    (hrest : fs = [] → Avoids rest [.leftBrace]) :
    Reads 0 Parser.fieldDefinitions (Printer.braced (fs.map Printer.fieldDefinition) ++ rest) rest
      (Echoes (sameList FieldDefinition.same) (List.map Printer.fieldDefinition) fs) :=
  (braced typedFollow hrest (by decide)
    (fun f hf => avoids_fieldDefinition (h f hf) (by decide) (by decide))
    fun f hf _ => fieldDefinition (h f hf)).imp fun _ => Echoes.list

theorem enumValue {v : EnumValueDefinition} (h : v.Writable) (havoids : Avoids rest typedFollow) :
    Reads 1 Parser.enumValueDefinition (Printer.enumValue v ++ rest) rest
      (Echoes EnumValueDefinition.same Printer.enumValue v) := by
  refine bodyLine ?_ fun pos description hd => ?_
  · rw [List.append_assoc]
    exact avoids_name h.value (by decide) _
  rw [List.append_assoc]
  have hend : Avoids ('\n' :: rest) typedFollow := (avoids_ignored rfl).2 havoids
  refine (Reads.name h.value (cut_constDirectives _ (cut_newline rest))).bind fun name hname => ?_
  refine (constDirectives h.directives (cut_newline rest) (hend.of_subset (by decide))).bind
    fun ds hds => .pure ⟨?_, ?_⟩
  · simp [EnumValueDefinition.same, Located.same, sameOption_of_map hd, hname, hds.1]
  · refine Printer.bodyLine_congr hd ?_
    rw [hname, hds.2]

theorem avoids_enumValue {v : EnumValueDefinition} (h : v.Writable) {kinds : List Kind}
    (hk : ∀ k ∈ kinds, k.isName = false) (hstring : .string ∉ kinds) (tail : List Char) :
    Avoids (Printer.enumValue v ++ tail) kinds := by
  refine avoids_bodyLine (fun tail => ?_) hstring tail
  rw [List.append_assoc]
  exact avoids_name h.value hk _

theorem enumValues {vs : List EnumValueDefinition} (h : ∀ v ∈ vs, v.Writable)
    (hrest : vs = [] → Avoids rest [.leftBrace]) :
    Reads 0 (optionalDelimited .leftBrace .rightBrace Parser.enumValueDefinition)
      (Printer.braced (vs.map Printer.enumValue) ++ rest) rest
      (Echoes (sameList EnumValueDefinition.same) (List.map Printer.enumValue) vs) :=
  (braced typedFollow hrest (by decide)
    (fun v hv => avoids_enumValue (h v hv) (by decide) (by decide))
    fun v hv _ => enumValue (h v hv)).imp fun _ => Echoes.list

/-! ## Schemas -/

theorem rootEntry {entry : OperationKind × Located Name} (h : entry.2.node.isValid = true)
    (hrest : Cut rest) :
    Reads 1 Parser.rootEntry
      (entry.1.text.toList ++ ':' :: ' ' :: (entry.2.node.toList ++ rest)) rest fun e =>
        e.1 = entry.1 ∧ e.2.node = entry.2.node := by
  obtain ⟨kind, name⟩ := entry
  have hb := begins_name (n := kind.text) (by cases kind <;> rfl)
    (cut_punctuator (c := ':') rfl (' ' :: (name.node.toList ++ rest))).isNameContinue
  refine (peekKind hb).andThen fun k hk => ?_
  have hread : ∀ kind' : OperationKind, kind' = kind → Reads 1 (do
      let _ ← Parser.next
      let _ ← Parser.expect .colon
      let name ← Parser.name
      Pure.pure (kind', name)) (kind.text.toList ++ ':' :: ' ' :: (name.node.toList ++ rest)) rest
      fun e => e.1 = kind ∧ e.2.node = name.node := by
    intro kind' hkind
    refine (next hb).bind fun _ _ => (punctuator rfl _).weaken.bind fun _ _ => ignored rfl ?_
    exact (Reads.name h hrest).weaken.bind fun x hx => .pure ⟨hkind, hx⟩
  cases kind <;>
  · subst hk
    exact hread _ rfl

end Parser.Reads

/-- The entries of a schema definition, in the order in which they are printed. -/
def SchemaDefinition.entries (s : SchemaDefinition) : List (OperationKind × Located Name) :=
  (s.query.map (OperationKind.query, ·)).toList ++
    ((s.mutation.map (OperationKind.mutation, ·)).toList ++
      (s.subscription.map (OperationKind.subscription, ·)).toList)

namespace Printer

def entry (e : OperationKind × Located Name) : List Char :=
  indent 1 ++ (e.1.text.toList ++ ':' :: ' ' :: (e.2.node.toList ++ ['\n']))

theorem root_eq (kind : OperationKind) (name : Option (Located Name)) :
    root kind name = ((name.map (kind, ·)).toList.map entry).flatten := by
  cases name with
  | none => rfl
  | some name => simp [root, entry]

theorem root_congr {kind : OperationKind} {a b : Option (Located Name)}
    (h : b.map Located.node = a.map Located.node) : root kind b = root kind a := by
  have heq : ∀ name, root kind name = (name.map Located.node).elim [] fun name =>
      indent 1 ++ kind.text.toList ++ ':' :: ' ' :: name.toList ++ ['\n'] := by
    rintro (_ | name) <;> rfl
  rw [heq, heq, h]

theorem schema_eq (s : SchemaDefinition) : schema s = description 0 s.description ++
    ("schema".toList ++ (constDirectives s.directives ++ (' ' :: '{' :: '\n' ::
      ((s.entries.map entry).flatten ++ ['}'])))) := by
  unfold schema SchemaDefinition.entries
  rw [root_eq, root_eq, root_eq]
  simp

end Printer

theorem SchemaDefinition.lastRoot_entries (s : SchemaDefinition) :
    Parser.lastRoot s.entries .query = s.query ∧
      Parser.lastRoot s.entries .mutation = s.mutation ∧
        Parser.lastRoot s.entries .subscription = s.subscription := by
  obtain ⟨pos, description, directives, query, mutation, subscription⟩ := s
  cases query <;> cases mutation <;> cases subscription <;> exact ⟨rfl, rfl, rfl⟩

theorem Parser.lastRoot_congr {as bs : List (OperationKind × Located Name)}
    (h : List.Forall₂ (fun a b => b.1 = a.1 ∧ b.2.node = a.2.node) as bs) (kind : OperationKind) :
    (lastRoot bs kind).map Located.node = (lastRoot as kind).map Located.node := by
  have hfilter : List.Forall₂ (fun a b => b.2.node = a.2.node) (as.filter fun e => e.1 = kind)
      (bs.filter fun e => e.1 = kind) := by
    induction h with
    | nil => exact .nil
    | @cons a b _ _ hab _ ih =>
      rw [List.filter_cons, List.filter_cons, hab.1]
      split
      · exact .cons hab.2 ih
      · exact ih
  unfold lastRoot
  rw [Option.map_map, Option.map_map, ← List.getLast?_map, ← List.getLast?_map]
  exact congrArg List.getLast? (map_eq_of_forall₂ hfilter)

namespace Parser.Reads

variable {rest : List Char}

theorem schemaDefinition {s : SchemaDefinition} (h : s.Writable) (rest : List Char) (pos : Position)
    (description : Option (Located String))
    (hd : description.map Located.node = s.description.map Located.node) :
    Reads 1 (Parser.schemaDefinition pos description)
      ("schema".toList ++ (Printer.constDirectives s.directives ++ (' ' :: '{' :: '\n' ::
        ((s.entries.map Printer.entry).flatten ++ '}' :: rest)))) rest
      (Echoes SchemaDefinition.same Printer.schema s) := by
  have hvalid : ∀ e ∈ s.entries, e.2.node.isValid = true := by
    intro e he
    simp only [SchemaDefinition.entries, List.mem_append, Option.mem_toList,
      Option.map_eq_some_iff] at he
    rcases he with ⟨x, hx, rfl⟩ | ⟨x, hx, rfl⟩ | ⟨x, hx, rfl⟩
    · exact h.query x hx
    · exact h.mutation x hx
    · exact h.subscription x hx
  have hb := begins_name (n := "schema") rfl
    (cut_constDirectives s.directives (cut_blank ('{' :: '\n' ::
      ((s.entries.map Printer.entry).flatten ++ '}' :: rest)))).isNameContinue
  refine (expect hb rfl).bind fun _ _ => ?_
  refine (constDirectives h.directives (cut_blank _) ((avoids_ignored rfl).2
    (avoids_punctuator rfl (by decide) _))).bind fun ds hds => ignored rfl ?_
  refine (lines [] (S := fun a b => b.1 = a.1 ∧ b.2.node = a.2.node) rfl
    (begins_punctuator rfl rest) rfl (by decide) ?_ ?_).weaken.bind fun es hes => .pure ?_
  · intro e he tail
    simp only [Printer.entry, List.append_assoc]
    refine avoids_indent 1 (avoids_name ?_ (by decide) _)
    cases e.1 <;> rfl
  · intro e he tail _
    simp only [Printer.entry, List.append_assoc, List.cons_append, List.nil_append]
    exact indent 1 ((rootEntry (hvalid e he) (cut_newline tail)).leavesIgnored rfl)
  obtain ⟨hquery, hmutation, hsubscription⟩ := s.lastRoot_entries
  have hq := lastRoot_congr hes .query
  have hm := lastRoot_congr hes .mutation
  have hs := lastRoot_congr hes .subscription
  rw [hquery] at hq
  rw [hmutation] at hm
  rw [hsubscription] at hs
  constructor
  · simp [SchemaDefinition.same, sameOption_of_map hd, hds.1, sameOption_of_map hq,
      sameOption_of_map hm, sameOption_of_map hs]
  · unfold Printer.schema
    rw [Printer.description_congr hd, hds.2, Printer.root_congr hq, Printer.root_congr hm,
      Printer.root_congr hs]

/-! ## Lists of names -/

/-- Items with a punctuator between blanks in front of each. -/
theorem repeatLed {α β : Type} {more : Parser Bool} {item : Parser α} {c : Char} (bs : List β)
    (print : β → List Char) {S : β → α → Prop}
    (hend : Reads 0 more rest rest (· = false))
    (hmore : ∀ cs, Reads 0 more (c :: cs) cs (· = true)) (hrest : Cut rest)
    (hitem : ∀ b ∈ bs, ∀ tail, Cut tail → Reads 1 item (print b ++ tail) tail (S b)) :
    Reads 0 (Parser.repeatWhile more item)
      (bs.flatMap (fun b => ' ' :: c :: ' ' :: print b) ++ rest) rest (List.Forall₂ S bs) := by
  refine repeatWhile (fun bs => bs.flatMap (fun b => ' ' :: c :: ' ' :: print b) ++ rest)
    hend fun b tail hs => ?_
  rw [List.flatMap_cons, List.append_assoc]
  refine ⟨_, ignored rfl (hmore _), ignored rfl (hitem b (hs.subset (List.mem_cons_self ..)) _ ?_)⟩
  cases tail with
  | nil => exact hrest
  | cons b' tail => exact cut_blank _


theorem led_cons (first other : List Char) (item : List Char) (items : List (List Char)) :
    Printer.led first other (item :: items) =
      first ++ (item ++ items.flatMap fun item => other ++ item) := by
  rw [Printer.led, List.append_assoc]

/-- What goes on with a definition. -/
def definitionFollow : List Token.Kind :=
  [.bang, .equals, .atSign, .leftParen, .amp, .pipe, .identifier, .implements]

/-- A name that others follow, each after a punctuator. -/
theorem namesLed {more : Parser Bool} {c : Char} {name : Located Name} {names : List (Located Name)}
    (h : ∀ x ∈ name :: names, x.node.isValid = true)
    (hend : Reads 0 more rest rest (· = false))
    (hmore : ∀ cs, Reads 0 more (c :: cs) cs (· = true)) (hrest : Cut rest) :
    Reads 1 (do
      let first ← Parser.name
      let rest ← Parser.repeatWhile more Parser.name
      Pure.pure (first :: rest))
      (name.node.toList ++ ((Printer.names names).flatMap (fun x => ' ' :: c :: ' ' :: x) ++ rest))
      rest fun xs => xs.map Located.node = (name :: names).map Located.node := by
  have hfirst := h name (List.mem_cons_self ..)
  have hrepeat := repeatLed names (fun x : Located Name => x.node.toList)
    (S := fun (b a : Located Name) => a.node = b.node) hend hmore hrest fun b hb tail ht =>
      Reads.name (h b (List.mem_cons_of_mem _ hb)) ht
  rw [Printer.names, List.flatMap_map]
  refine (Reads.name hfirst ?_).bind fun x hx => hrepeat.bind fun xs hxs => .pure ?_
  · cases names with
    | nil => exact hrest
    | cons name names => exact cut_blank _
  · rw [List.map_cons, hx, map_eq_of_forall₂ hxs, List.map_cons]

theorem implementedInterfaces {names : List (Located Name)}
    (h : ∀ name ∈ names, name.node.isValid = true) (hrest : Cut rest)
    (havoids : Avoids rest [.implements, .amp, .identifier]) :
    Reads 0 Parser.implementedInterfaces (Printer.implements names ++ rest) rest fun xs =>
      xs.map Located.node = names.map Located.node := by
  cases names with
  | nil =>
    refine (eat_false havoids (List.mem_cons_self ..)).bind fun _ hf => ?_
    subst hf
    exact .pure rfl
  | cons name names =>
    have htext : Printer.implements (name :: names) ++ rest = ' ' :: ("implements".toList ++ ' ' ::
        (name.node.toList ++ ((Printer.names names).flatMap (fun x => ' ' :: '&' :: ' ' :: x) ++
          rest))) := by
      rw [Printer.implements, Printer.names, List.map_cons, led_cons, List.append_assoc,
        List.append_assoc]
      rfl
    have hb := begins_name (n := "implements") rfl (cut_blank (name.node.toList ++
      ((Printer.names names).flatMap (fun x => ' ' :: '&' :: ' ' :: x) ++ rest))).isNameContinue
    rw [htext]
    refine ((eat_true hb rfl).weaken.ignored rfl).bind fun _ ht => ?_
    subst ht
    refine ignored rfl ((eat_false (avoids_name (h name (List.mem_cons_self ..)) ?_ _)
      (List.mem_singleton_self _)).bind fun _ _ => (namesLed h ?_ ?_ hrest).weaken)
    · decide
    · refine (eat_false (havoids.of_subset ?_) (List.mem_singleton_self _)).bind fun _ hf => ?_
      · decide
      subst hf
      exact nextIs_false havoids (by simp)
    · intro cs
      refine (eatPunctuator rfl _).weaken.bind fun _ ht => ?_
      subst ht
      exact .pure rfl

theorem unionMembers {names : List (Located Name)} {γ : Type}
    (h : ∀ name ∈ names, name.node.isValid = true) (hrest : Cut rest)
    (havoids : Avoids rest [.equals, .pipe]) (g : List (Located Name) → γ) :
    Reads 0 (do
      let members ← if ← eat .equals then separated .pipe Parser.name else Pure.pure []
      Pure.pure (g members))
      (Printer.led " = ".toList " | ".toList (Printer.names names) ++ rest) rest fun x =>
        ∃ xs, x = g xs ∧ xs.map Located.node = names.map Located.node := by
  cases names with
  | nil =>
    refine (eat_false havoids (List.mem_cons_self ..)).bind fun _ hf => ?_
    subst hf
    exact .pure ⟨[], rfl, rfl⟩
  | cons name names =>
    have htext : Printer.led " = ".toList " | ".toList (Printer.names (name :: names)) ++ rest =
        ' ' :: '=' :: ' ' :: (name.node.toList ++
          ((Printer.names names).flatMap (fun x => ' ' :: '|' :: ' ' :: x) ++ rest)) := by
      rw [Printer.names, List.map_cons, led_cons, List.append_assoc, List.append_assoc]
      rfl
    rw [htext]
    refine ((eatPunctuator rfl _).weaken.ignored rfl).bind fun _ ht => ignored rfl ?_
    subst ht
    refine Reads.bind (P := fun xs : List (Located Name) => xs.map Located.node =
      (name :: names).map Located.node) ?_ fun xs hxs => .pure ⟨xs, rfl, hxs⟩
    refine (eat_false (avoids_name (h name (List.mem_cons_self ..)) ?_ _)
      (List.mem_singleton_self _)).bind fun _ _ => (namesLed h ?_ ?_ hrest).weaken
    · decide
    · exact eat_false havoids (by simp)
    · exact fun cs => (eatPunctuator rfl cs).weaken

/-! ## Types -/

theorem cut_implements (names : List (Located Name)) (hrest : Cut rest) :
    Cut (Printer.implements names ++ rest) := by
  cases names with
  | nil => exact hrest
  | cons name names =>
    rw [Printer.implements, Printer.names, List.map_cons, led_cons]
    exact cut_blank _

theorem cut_braced (lines : List (List Char)) (hrest : Cut rest) :
    Cut (Printer.braced lines ++ rest) := by
  unfold Printer.braced
  split
  · exact hrest
  · exact cut_blank _

theorem avoids_braced {kinds : List Kind} (lines : List (List Char)) (hrest : Avoids rest kinds)
    (hk : .leftBrace ∉ kinds) : Avoids (Printer.braced lines ++ rest) kinds := by
  unfold Printer.braced
  split
  · exact hrest
  · exact (avoids_ignored rfl).2 (avoids_punctuator rfl hk _)

/-- Interfaces, directives and fields of an object or interface type. -/
theorem composite {interfaces : List (Located Name)} {ds : List (Directive Empty)}
    {fs : List FieldDefinition} {γ : Type}
    (hinterfaces : ∀ name ∈ interfaces, name.node.isValid = true) (hds : ConstDirectivesWritable ds)
    (hfs : ∀ f ∈ fs, f.Writable) (hrest : Cut rest) (havoids : Avoids rest definitionFollow)
    (hbare : fs = [] → Avoids rest [.leftBrace])
    (g : List (Located Name) → List (Directive Empty) → List FieldDefinition → γ) :
    Reads 0 (do
      let implements ← Parser.implementedInterfaces
      let directives ← Parser.constDirectives
      let fields ← Parser.fieldDefinitions
      Pure.pure (g implements directives fields))
      (Printer.implements interfaces ++ (Printer.constDirectives ds ++
        (Printer.braced (fs.map Printer.fieldDefinition) ++ rest))) rest fun x =>
      ∃ xs es gs, x = g xs es gs ∧ xs.map Located.node = interfaces.map Located.node ∧
        Echoes (sameList Directive.same) Printer.constDirectives ds es ∧
        Echoes (sameList FieldDefinition.same) (List.map Printer.fieldDefinition) fs gs := by
  have hcut := cut_braced (fs.map Printer.fieldDefinition) hrest
  have hbody := avoids_braced (fs.map Printer.fieldDefinition) havoids (by decide)
  have hdirs : Avoids (Printer.constDirectives ds ++ (Printer.braced
      (fs.map Printer.fieldDefinition) ++ rest)) [.implements, .amp, .identifier] :=
    avoids_constDirectives ds (hbody.of_subset (by decide)) (by decide)
  refine (implementedInterfaces hinterfaces (cut_constDirectives ds hcut) hdirs).bind
    fun xs hxs => ?_
  refine (constDirectives hds hcut (hbody.of_subset (by decide))).bind fun es hes => ?_
  exact (fieldDefinitions hfs hbare).bind fun gs hgs => .pure ⟨xs, es, gs, rfl, hxs, hes, hgs⟩

end Parser.Reads

theorem TypeBody.keyword_mem (body : TypeBody) :
    body.keyword ∈ ["scalar", "type", "interface", "union", "enum", "input"] := by
  cases body <;> simp [keyword]

theorem TypeBody.isValid_keyword (body : TypeBody) : Name.isValid body.keyword = true := by
  have hall : ∀ word ∈ ["scalar", "type", "interface", "union", "enum", "input"],
      Name.isValid word = true := by decide
  exact hall _ body.keyword_mem

/-- A type that could have a body, but has none. -/
def TypeBody.IsBare : TypeBody → Prop
  | .object _ fields | .interface _ fields => fields = []
  | .enum values => values = []
  | .input fields => fields = []
  | .scalar | .union _ => False

theorem sameList_of_map {α : Type} [DecidableEq α] {as bs : List (Located α)}
    (h : bs.map Located.node = as.map Located.node) : sameList Located.same bs as = true := by
  induction as generalizing bs with
  | nil =>
    rw [List.map_nil, List.map_eq_nil_iff] at h
    rw [h]
    rfl
  | cons a as ih =>
    obtain ⟨b, bs, rfl, hb, hbs⟩ := List.map_eq_cons_iff.1 h
    rw [sameList, ih hbs, Located.same, hb]
    simp

theorem Printer.names_congr {as bs : List (Located Name)}
    (h : bs.map Located.node = as.map Located.node) : names bs = names as := by
  have heq : ∀ ns : List (Located Name), names ns = (ns.map Located.node).map String.toList := by
    intro ns
    rw [names, List.map_map]
    rfl
  rw [heq, heq, h]

namespace Parser.Reads

variable {rest : List Char}

theorem typeBody {ds : List (Directive Empty)} {body : TypeBody} (hds : ConstDirectivesWritable ds)
    (h : body.Writable) (hrest : Cut rest) (havoids : Avoids rest definitionFollow)
    (hbare : body.IsBare → Avoids rest [.leftBrace]) :
    Reads 0 (Parser.typeBody (.ofName body.keyword)) (Printer.typeBody ds body ++ rest) rest fun x =>
      sameList Directive.same x.1 ds = true ∧ x.2.same body = true ∧
        x.2.keyword = body.keyword ∧ Printer.typeBody x.1 x.2 = Printer.typeBody ds body := by
  cases h with
  | scalar =>
    exact (constDirectives hds hrest (havoids.of_subset (by decide))).bind fun es hes =>
      .pure ⟨hes.1, rfl, rfl, hes.2⟩
  | object hinterfaces hfs =>
    rw [Printer.typeBody, List.append_assoc, List.append_assoc]
    refine (composite hinterfaces hds hfs hrest havoids hbare _).imp ?_
    rintro _ ⟨xs, es, gs, rfl, hxs, hes, hgs⟩
    refine ⟨hes.1, ?_, rfl, ?_⟩
    · rw [TypeBody.same, sameList_of_map hxs, hgs.1]
      rfl
    · rw [Printer.typeBody, hes.2, hgs.2, Printer.implements, Printer.implements,
        Printer.names_congr hxs]
  | interface hinterfaces hfs =>
    rw [Printer.typeBody, List.append_assoc, List.append_assoc]
    refine (composite hinterfaces hds hfs hrest havoids hbare _).imp ?_
    rintro _ ⟨xs, es, gs, rfl, hxs, hes, hgs⟩
    refine ⟨hes.1, ?_, rfl, ?_⟩
    · rw [TypeBody.same, sameList_of_map hxs, hgs.1]
      rfl
    · rw [Printer.typeBody, hes.2, hgs.2, Printer.implements, Printer.implements,
        Printer.names_congr hxs]
  | @union members hmembers =>
    rw [Printer.typeBody, List.append_assoc]
    have hled : Cut (Printer.led " = ".toList " | ".toList (Printer.names members) ++ rest) ∧
        Avoids (Printer.led " = ".toList " | ".toList (Printer.names members) ++ rest)
          [.atSign, .leftParen] := by
      cases members with
      | nil => exact ⟨hrest, havoids.of_subset (by decide)⟩
      | cons member members =>
        rw [Printer.names, List.map_cons, led_cons]
        exact ⟨cut_blank _, (avoids_ignored rfl).2 (avoids_punctuator rfl (by decide) _)⟩
    refine (constDirectives hds hled.1 hled.2).bind fun es hes => ?_
    refine (unionMembers hmembers hrest (havoids.of_subset (by decide)) _).imp ?_
    rintro _ ⟨xs, rfl, hxs⟩
    refine ⟨hes.1, sameList_of_map hxs, rfl, ?_⟩
    rw [Printer.typeBody, hes.2, Printer.names_congr hxs]
  | @enum values hvalues =>
    rw [Printer.typeBody, List.append_assoc]
    refine (constDirectives hds (cut_braced _ hrest) (avoids_braced _ (havoids.of_subset ?_)
      ?_)).bind fun es hes => (enumValues hvalues hbare).bind fun vs hvs => .pure
        ⟨hes.1, hvs.1, rfl, ?_⟩
    · decide
    · decide
    · rw [Printer.typeBody, hes.2, hvs.2]
  | @input fields hfields =>
    rw [Printer.typeBody, List.append_assoc]
    refine (constDirectives hds (cut_braced _ hrest) (avoids_braced _ (havoids.of_subset ?_)
      ?_)).bind fun es hes => (inputFields hfields hbare).bind fun vs hvs => .pure
        ⟨hes.1, hvs.1, rfl, ?_⟩
    · decide
    · decide
    · rw [Printer.typeBody, hes.2, hvs.2]

theorem cut_typeBody (ds : List (Directive Empty)) (body : TypeBody) (hrest : Cut rest) :
    Cut (Printer.typeBody ds body ++ rest) := by
  cases body with
  | scalar => exact cut_constDirectives ds hrest
  | object interfaces fs | interface interfaces fs =>
    rw [Printer.typeBody, List.append_assoc, List.append_assoc]
    exact cut_implements interfaces (cut_constDirectives ds (cut_braced _ hrest))
  | union members =>
    rw [Printer.typeBody, List.append_assoc]
    refine cut_constDirectives ds ?_
    cases members with
    | nil => exact hrest
    | cons member members =>
      rw [Printer.names, List.map_cons, led_cons]
      exact cut_blank _
  | enum values | input values =>
    rw [Printer.typeBody, List.append_assoc]
    exact cut_constDirectives ds (cut_braced _ hrest)

theorem typeDefinition {t : TypeDefinition} (h : t.Writable) (hrest : Cut rest)
    (havoids : Avoids rest definitionFollow) (hbare : t.body.IsBare → Avoids rest [.leftBrace])
    (pos : Position) (description : Option (Located String))
    (hd : description.map Located.node = t.description.map Located.node) :
    Reads 1 (Parser.typeDefinition pos description)
      (t.body.keyword.toList ++ ' ' :: (t.name.node.toList ++
        (Printer.typeBody t.directives t.body ++ rest))) rest
      (Echoes TypeDefinition.same Printer.typeDefinition t) := by
  have hb := begins_name (n := t.body.keyword) t.body.isValid_keyword
    (cut_blank (t.name.node.toList ++ (Printer.typeBody t.directives t.body ++ rest))).isNameContinue
  refine (next hb).bind fun keyword hkeyword => ignored rfl ?_
  have hkind : keyword.kind = .ofName t.body.keyword := congrArg Lexeme.kind hkeyword
  rw [hkind]
  refine (Reads.name h.name (cut_typeBody _ _ hrest)).weaken.bind fun name hname => ?_
  refine (typeBody h.directives h.body hrest havoids hbare).bind fun x hx => .pure ?_
  obtain ⟨hdirs, hbody, hkey, hprint⟩ := hx
  constructor
  · simp [TypeDefinition.same, Located.same, sameOption_of_map hd, hname, hdirs, hbody]
  · simp only [Printer.typeDefinition, Printer.description_congr hd, hname, hkey, hprint]

/-! ## Directives -/

theorem directiveLocation {location : DirectiveLocation} (hrest : Cut rest) :
    Reads 1 Parser.directiveLocation (location.text.toList ++ rest) rest fun x =>
      x.node = location := by
  have hvalid : Name.isValid location.text = true := by
    cases location <;> decide
  have hfound : DirectiveLocation.ofName? location.text = some location := by
    cases location <;> decide
  have hb := begins_name hvalid hrest.isNameContinue
  unfold Parser.directiveLocation
  refine peeked hb fun token ht => ?_
  have hkind : token.kind = .ofName location.text := congrArg Lexeme.kind ht
  have hraw : token.raw = location.text := String.toList_injective (congrArg Lexeme.raw ht)
  simp only [hkind, isName_ofName, if_true, hraw, hfound]
  exact (Reads.name hvalid hrest).bind fun x _ => .pure rfl

theorem directiveLocations (location : Located DirectiveLocation)
    (locations : List (Located DirectiveLocation)) (hrest : Cut rest)
    (havoids : Avoids rest [.pipe]) :
    Reads 1 (separated .pipe Parser.directiveLocation)
      (location.node.text.toList ++ (locations.flatMap
        (fun x => ' ' :: '|' :: ' ' :: x.node.text.toList) ++ rest)) rest fun xs =>
      xs.map Located.node = (location :: locations).map Located.node := by
  have hrepeat := repeatLed locations (fun x : Located DirectiveLocation => x.node.text.toList)
    (S := fun (b a : Located DirectiveLocation) => a.node = b.node)
    (eat_false havoids (List.mem_singleton_self _)) (fun cs => (eatPunctuator (c := '|') rfl cs).weaken)
    hrest fun _ _ _ ht => directiveLocation ht
  have hcut : Cut (locations.flatMap (fun x => ' ' :: '|' :: ' ' :: x.node.text.toList) ++ rest) := by
    cases locations with
    | nil => exact hrest
    | cons => exact cut_blank _
  have hvalid : Name.isValid location.node.text = true := by
    cases location.node <;> decide
  refine (eat_false (avoids_name hvalid ?_ _) (List.mem_singleton_self _)).andThen fun _ _ => ?_
  · decide
  refine (directiveLocation hcut).bind fun x hx => hrepeat.bind fun xs hxs => .pure ?_
  rw [List.map_cons, hx, map_eq_of_forall₂ hxs, List.map_cons]

end Parser.Reads

theorem Printer.directiveDefinition_eq {d : DirectiveDefinition}
    {location : Located DirectiveLocation} {locations : List (Located DirectiveLocation)}
    (h : d.locations = location :: locations) : directiveDefinition d = description 0 d.description ++
      ("directive".toList ++ ' ' :: '@' :: (d.name.node.toList ++
        (argumentDefinitions d.arguments ++ ' ' :: ("on".toList ++ ' ' ::
          (location.node.text.toList ++ locations.flatMap
            fun x => ' ' :: '|' :: ' ' :: x.node.text.toList))))) := by
  rw [directiveDefinition, h, List.map_cons, Parser.Reads.led_cons, List.flatMap_map]
  simp only [List.append_assoc]
  rfl

theorem Printer.locations_congr {as bs : List (Located DirectiveLocation)}
    (h : bs.map Located.node = as.map Located.node) :
    (bs.map fun l => l.node.text.toList) = as.map fun l => l.node.text.toList := by
  have heq : ∀ ls : List (Located DirectiveLocation), (ls.map fun l => l.node.text.toList) =
      (ls.map Located.node).map fun l => l.text.toList := by
    intro ls
    rw [List.map_map]
    rfl
  rw [heq, heq, h]

namespace Parser.Reads

variable {rest : List Char}

theorem directiveDefinition {d : DirectiveDefinition} (h : d.Writable)
    {location : Located DirectiveLocation} {locations : List (Located DirectiveLocation)}
    (hlocations : d.locations = location :: locations) (hrest : Cut rest)
    (havoids : Avoids rest [.pipe]) (pos : Position) (description : Option (Located String))
    (hd : description.map Located.node = d.description.map Located.node) :
    Reads 1 (Parser.directiveDefinition pos description)
      ("directive".toList ++ ' ' :: '@' :: (d.name.node.toList ++
        (Printer.argumentDefinitions d.arguments ++ ' ' :: ("on".toList ++ ' ' ::
          (location.node.text.toList ++ (locations.flatMap
            (fun x => ' ' :: '|' :: ' ' :: x.node.text.toList) ++ rest)))))) rest
      (Echoes DirectiveDefinition.same Printer.directiveDefinition d) := by
  have hbodies := directiveLocations location locations hrest havoids
  generalize location.node.text.toList ++ (locations.flatMap
    (fun x => ' ' :: '|' :: ' ' :: x.node.text.toList) ++ rest) = tail at hbodies ⊢
  have hon := begins_name (n := "on") rfl (cut_blank tail).isNameContinue
  have hb := begins_name (n := "directive") rfl (cut_blank ('@' :: (d.name.node.toList ++
    (Printer.argumentDefinitions d.arguments ++ ' ' :: ("on".toList ++ ' ' :: tail))))).isNameContinue
  refine (expect hb rfl).bind fun _ _ => ignored rfl ((punctuator rfl _).weaken.bind fun _ _ => ?_)
  refine (Reads.name h.name (cut_parenthesized _ (cut_blank _))).weaken.bind fun name hname => ?_
  refine (argumentDefinitions h.arguments ((avoids_ignored rfl).2 (hon.avoids ?_))).bind
    fun as has => ignored rfl ?_
  · exact show Kind.on ∉ _ by decide
  refine (expect hon rfl).weaken.bind fun _ _ => ignored rfl ?_
  refine hbodies.weaken.bind fun xs hxs => .pure ?_
  rw [← hlocations] at hxs
  constructor
  · simp [DirectiveDefinition.same, Located.same, sameOption_of_map hd, hname, has.1,
      sameList_of_map hxs]
  · simp only [Printer.directiveDefinition, Printer.description_congr hd, hname,
      Printer.argumentDefinitions, has.2, Printer.locations_congr hxs]

end Parser.Reads

end GraphQL
