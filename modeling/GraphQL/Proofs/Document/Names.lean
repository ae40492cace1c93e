import GraphQL.Proofs.Document.Parsed

/-!
# Names in documents

A text is a valid name if it is scanned as one token, and that token may stand for a name. So
validity is what the scanner and the parser leave of a text: all names of a document that was
parsed are valid, wherever in the document they stand (`Document.names`).
-/

namespace GraphQL

namespace Token

variable {name : Name} {t : Token}

/-- A valid name is scanned as one token, of the kind that is the keyword's or the identifiers'. -/
theorem exists_scan_name (h : name.isValid = true) :
    ∃ t, scan name = .ok [t] ∧ t.kind = .ofName name ∧ t.raw = name := by
  have hbegins : Begins (name.toList ++ []) (.plain (.ofName name) name.toList) [] :=
    begins_name h (by simp)
  rw [List.append_nil] at hbegins
  obtain ⟨tokens, hscan, hlexemes⟩ := exists_scan (.more hbegins (.done rfl))
  obtain ⟨t, rfl, ht⟩ := List.map_eq_singleton_iff.1 hlexemes
  refine ⟨t, hscan, congrArg Lexeme.kind ht, String.toList_inj.1 ?_⟩
  exact congrArg Lexeme.raw ht

/-- A token that may stand for a name is one, whatever stands around it. -/
theorem isValid_raw {source : String} {tokens : List Token} (h : scan source = .ok tokens)
    (ht : t ∈ tokens) (hname : t.kind.isName = true) : Name.isValid t.raw = true := by
  have hproper := (lexes_of_scan h).isProper t.lexeme (List.mem_map_of_mem ht)
  simpa only [lexeme, String.ofList_toList] using (hproper hname).1

end Token

/-! ## The names of a document -/

variable {ν : Type} (spell : ν → Name)

mutual

/-- The names in a value: its variables, its enum values, and the keys of its objects. -/
def Value.names : Value ν → List Name
  | .variable x => [spell x]
  | .enum name => [name]
  | .list items => itemNames items
  | .object fields => fieldNames fields
  | _ => []

def Value.itemNames : List (Value ν) → List Name
  | [] => []
  | item :: rest => item.names ++ itemNames rest

def Value.fieldNames : List (Name × Value ν) → List Name
  | [] => []
  | (key, value) :: rest => key :: value.names ++ fieldNames rest

end

def Argument.names (a : Argument ν) : List Name :=
  a.name.node :: a.value.node.names spell

def Directive.names (d : Directive ν) : List Name :=
  d.name.node :: d.arguments.flatMap (Argument.names spell)

/-- A name that may be left out, as that of an operation. -/
def Name.optional (name : Option (Located Name)) : List Name :=
  name.toList.map Located.node

mutual

/-- The names in a selection and in all selections inside it. -/
def Selection.names : Selection → List Name
  | .field ⟨_, aliasName, name, arguments, directives, ⟨_, items⟩⟩ =>
    Name.optional aliasName ++ name.node :: arguments.flatMap (Argument.names id) ++
      directives.flatMap (Directive.names id) ++ itemNames items
  | .spread s => s.name.node :: s.directives.flatMap (Directive.names id)
  | .inline ⟨_, condition, directives, ⟨_, items⟩⟩ =>
    Name.optional (condition.map TypeCondition.on) ++ directives.flatMap (Directive.names id) ++
      itemNames items

def Selection.itemNames : List Selection → List Name
  | [] => []
  | item :: rest => item.names ++ itemNames rest

end

def SelectionSet.names (s : SelectionSet) : List Name :=
  s.items.flatMap Selection.names

/-- The names in a default, if there is one, and in the directives after it. -/
def Const.restNames (default : Option (Located Const)) (directives : List (Directive Empty)) :
    List Name :=
  default.toList.flatMap (fun value => value.node.names Empty.elim) ++
    directives.flatMap (Directive.names Empty.elim)

def VariableDefinition.names (v : VariableDefinition) : List Name :=
  v.name.node :: v.type.node.innermost :: Const.restNames v.default v.directives

def InputValueDefinition.names (v : InputValueDefinition) : List Name :=
  v.name.node :: v.type.node.innermost :: Const.restNames v.default v.directives

def FieldDefinition.names (f : FieldDefinition) : List Name :=
  f.name.node :: f.type.node.innermost :: f.arguments.flatMap InputValueDefinition.names ++
    f.directives.flatMap (Directive.names Empty.elim)

def EnumValueDefinition.names (v : EnumValueDefinition) : List Name :=
  v.value.node :: v.directives.flatMap (Directive.names Empty.elim)

def TypeBody.names : TypeBody → List Name
  | scalar => []
  | object interfaces fields | interface interfaces fields =>
    interfaces.map Located.node ++ fields.flatMap FieldDefinition.names
  | union members => members.map Located.node
  | enum values => values.flatMap EnumValueDefinition.names
  | input fields => fields.flatMap InputValueDefinition.names

def Definition.names : Definition → List Name
  | .operation o =>
    Name.optional o.name ++ o.variableDefinitions.flatMap VariableDefinition.names ++
      o.directives.flatMap (Directive.names id) ++ SelectionSet.names o.selections
  | .fragment f =>
    Name.optional f.name ++ f.condition.on.node :: f.directives.flatMap (Directive.names id) ++
      SelectionSet.names f.selections
  | .schema s =>
    s.directives.flatMap (Directive.names Empty.elim) ++ Name.optional s.query ++
      Name.optional s.mutation ++ Name.optional s.subscription
  | .type t =>
    t.name.node :: t.directives.flatMap (Directive.names Empty.elim) ++ t.body.names
  | .directive d => d.name.node :: d.arguments.flatMap InputValueDefinition.names

/-- All names in a document. -/
def Document.names (d : Document) : List Name :=
  d.definitions.flatMap Definition.names

theorem Value.itemNames_eq (items : List (Value ν)) :
    itemNames spell items = items.flatMap (names spell) := by
  induction items with
  | nil => rfl
  | cons item items ih => rw [itemNames, ih, List.flatMap_cons]

theorem Value.fieldNames_eq (fields : List (Name × Value ν)) :
    fieldNames spell fields = fields.flatMap fun f => f.1 :: names spell f.2 := by
  induction fields with
  | nil => rfl
  | cons f fields ih => rw [fieldNames, ih, List.flatMap_cons]

theorem Selection.itemNames_eq (items : List Selection) :
    itemNames items = items.flatMap names := by
  induction items with
  | nil => rfl
  | cons item items ih => rw [itemNames, ih, List.flatMap_cons]

/-! ## What can be written has valid names -/

/-- All the names are valid. -/
def Name.AllValid (names : List Name) : Prop :=
  ∀ name ∈ names, name.isValid = true

namespace Name.AllValid

variable {α : Type} {names others : List Name}

theorem nil : AllValid [] := by
  simp [AllValid]

theorem cons {name : Name} (h : name.isValid = true) (hs : AllValid names) :
    AllValid (name :: names) :=
  List.forall_mem_cons.2 ⟨h, hs⟩

theorem append (h : AllValid names) (h' : AllValid others) : AllValid (names ++ others) :=
  List.forall_mem_append.2 ⟨h, h'⟩

theorem flatMap {f : α → List Name} {xs : List α} (h : ∀ x ∈ xs, AllValid (f x)) :
    AllValid (xs.flatMap f) := by
  intro name hname
  obtain ⟨x, hx, hin⟩ := List.mem_flatMap.1 hname
  exact h x hx name hin

theorem nodes {xs : List (Located Name)} (h : ∀ x ∈ xs, Name.isValid x.node = true) :
    AllValid (xs.map Located.node) := by
  intro name hname
  obtain ⟨x, hx, rfl⟩ := List.mem_map.1 hname
  exact h x hx

theorem optional {x : Option (Located Name)} (h : ∀ y ∈ x, Name.isValid y.node = true) :
    AllValid (Name.optional x) :=
  nodes fun y hy => h y (Option.mem_toList.1 hy)

end Name.AllValid

open Name (AllValid)

variable {spell} {ok : ν → Prop} {levels : Nat}

/-- By induction on how deep the value nests: each case adds the names that it holds itself. -/
theorem Value.Writable.names (hspell : ∀ x, ok x → (spell x).isValid = true) {v : Value ν}
    (h : v.Writable ok levels) : AllValid (v.names spell) := by
  induction h with
  | var hx => exact .cons (hspell _ hx) .nil
  | enum hname => exact .cons hname .nil
  | null | int | double | string | bool => exact .nil
  | list _ ih =>
    rw [Value.names, itemNames_eq]
    exact .flatMap ih
  | object _ hkeys _ ih =>
    rw [Value.names, fieldNames_eq]
    exact .flatMap fun f hf => .cons (hkeys f hf) (ih f hf)

theorem TypeRef.Writable.innermost {t : TypeRef} (h : t.Writable levels) :
    t.innermost.isValid = true := by
  induction h with
  | named hname => exact hname
  | list _ ih => exact ih

theorem Argument.Writable.names (hspell : ∀ x, ok x → (spell x).isValid = true) {a : Argument ν}
    (h : a.Writable ok levels) : AllValid (a.names spell) :=
  .cons h.name (h.value.names hspell)

theorem Directive.Writable.names (hspell : ∀ x, ok x → (spell x).isValid = true)
    {d : Directive ν} (h : d.Writable ok levels) : AllValid (d.names spell) :=
  .cons h.name (.flatMap fun a ha => (h.arguments a ha).names hspell)

theorem DirectivesWritable.names {ds : List (Directive Name)} (h : DirectivesWritable levels ds) :
    AllValid (ds.flatMap (Directive.names id)) :=
  .flatMap fun d hd => (h d hd).names fun _ hx => hx

theorem ConstDirectivesWritable.names {ds : List (Directive Empty)}
    (h : ConstDirectivesWritable ds) : AllValid (ds.flatMap (Directive.names Empty.elim)) :=
  .flatMap fun d hd => (h d hd).names fun x => x.elim

/-- By induction on how deep the selection nests. -/
theorem Selection.Writable.names {item : Selection} (h : item.Writable levels) :
    AllValid item.names := by
  induction h with
  | @field _ f halias hname harguments hdirectives _ _ ih =>
    obtain ⟨pos, aliasName, name, arguments, directives, ⟨pos', items⟩⟩ := f
    rw [Selection.names, itemNames_eq]
    refine .append (.append (.append (.optional halias) (.cons hname ?_)) ?_) (.flatMap ih)
    · exact .flatMap fun a ha => (harguments a ha).names fun _ hx => hx
    · exact DirectivesWritable.names hdirectives
  | spread hname _ hdirectives => exact .cons hname (DirectivesWritable.names hdirectives)
  | @inline _ f hcondition hdirectives _ ih =>
    obtain ⟨pos, condition, directives, ⟨pos', items⟩⟩ := f
    rw [Selection.names, itemNames_eq]
    refine .append (.append (.optional fun y hy => ?_) ?_) (.flatMap ih)
    · obtain ⟨c, hc, rfl⟩ := Option.map_eq_some_iff.1 hy
      exact hcondition c hc
    · exact DirectivesWritable.names hdirectives

theorem SelectionSet.Writable.names {s : SelectionSet} (h : SelectionSet.Writable s) :
    AllValid (SelectionSet.names s) :=
  .flatMap fun item hitem => (h item hitem).names

theorem Const.restNames_valid {default : Option (Located Const)}
    {directives : List (Directive Empty)}
    (hdefault : ∀ value ∈ default, Const.Writable nestingLimit value.node)
    (hdirectives : ConstDirectivesWritable directives) :
    AllValid (Const.restNames default directives) := by
  refine .append (.flatMap fun value hvalue => ?_) (ConstDirectivesWritable.names hdirectives)
  exact (hdefault value (Option.mem_toList.1 hvalue)).names fun x => x.elim

theorem VariableDefinition.Writable.names {v : VariableDefinition} (h : v.Writable) :
    AllValid v.names :=
  .cons h.name (.cons h.type.innermost (Const.restNames_valid h.default h.directives))

theorem InputValueDefinition.Writable.names {v : InputValueDefinition} (h : v.Writable) :
    AllValid v.names :=
  .cons h.name (.cons h.type.innermost (Const.restNames_valid h.default h.directives))

theorem FieldDefinition.Writable.names {f : FieldDefinition} (h : f.Writable) :
    AllValid f.names :=
  .append (.cons h.name (.cons h.type.innermost (.flatMap fun a ha => (h.arguments a ha).names)))
    (ConstDirectivesWritable.names h.directives)

theorem EnumValueDefinition.Writable.names {v : EnumValueDefinition} (h : v.Writable) :
    AllValid v.names :=
  .cons h.value (ConstDirectivesWritable.names h.directives)

theorem TypeBody.Writable.names {b : TypeBody} (h : b.Writable) : AllValid b.names := by
  cases h with
  | scalar => exact .nil
  | object hinterfaces hfields | interface hinterfaces hfields =>
    exact .append (.nodes hinterfaces) (.flatMap fun f hf => (hfields f hf).names)
  | union hmembers => exact .nodes hmembers
  | enum hvalues => exact .flatMap fun v hv => (hvalues v hv).names
  | input hfields => exact .flatMap fun f hf => (hfields f hf).names

theorem Definition.Writable.names {x : Definition} (h : x.Writable) : AllValid x.names := by
  cases x with
  | operation o =>
    refine .append (.append (.append (.optional h.name) (.flatMap ?_)) ?_) h.selections.names
    · exact fun v hv => (h.variableDefinitions v hv).names
    · exact DirectivesWritable.names h.directives
  | fragment f =>
    exact .append (.append (.optional h.name) (.cons h.condition
      (DirectivesWritable.names h.directives))) h.selections.names
  | schema s =>
    exact .append (.append (.append (ConstDirectivesWritable.names h.directives)
      (.optional h.query)) (.optional h.mutation)) (.optional h.subscription)
  | type t =>
    exact .append (.cons h.name (ConstDirectivesWritable.names h.directives)) h.body.names
  | directive d => exact .cons h.name (.flatMap fun a ha => (h.arguments a ha).names)

/-- The valid names are what the scanner takes for one token that may stand for a name, and nothing
else gets into a document that is parsed. -/
theorem Name.valid_where_read :
    (∀ name : Name, name.isValid = true ↔
      ∃ t, Token.scan name = .ok [t] ∧ t.kind.isName = true ∧ t.raw = name) ∧
    ∀ source filename d, Document.parse source filename = .ok d →
      ∀ name ∈ d.names, name.isValid = true := by
  refine ⟨fun name => ⟨fun h => ?_, ?_⟩, fun source filename d h => ?_⟩
  · obtain ⟨t, hscan, hkind, hraw⟩ := Token.exists_scan_name h
    exact ⟨t, hscan, hkind ▸ Token.isName_ofName name, hraw⟩
  · rintro ⟨t, hscan, hname, rfl⟩
    exact Token.isValid_raw hscan (List.mem_singleton.2 rfl) hname
  · exact AllValid.flatMap fun x hx => (Document.writable_of_parse h x hx).names

end GraphQL
