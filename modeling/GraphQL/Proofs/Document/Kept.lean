import GraphQL.Proofs.Document.Held
import GraphQL.Proofs.Document.Offending
import GraphQL.Proofs.Document.Parsed
import GraphQL.Proofs.Document.Spelled

/-!
# Documents keep their content

One lemma for each rule of the grammar of operations and fragments: what a rule takes has the
content of its result. So a document holds the names, numbers and strings of its source, in their
order, and so does its canonical text (`Document.contents_text`).
-/

namespace GraphQL

open Token

namespace Parser.Keeps

variable {ν : Type} {inside : Bool} {spell : ν → Name} {p : Parser (Located (Value ν))}

/-! ## Objects -/

/-- The tokens of a field of an object. -/
def FieldPart (spell : ν → Name) (f : Name × Value ν) (ts : List Token) : Prop :=
  ∃ key colon rest, ts = key :: colon :: rest ∧ key.kind.isName = true ∧ key.raw = f.1 ∧
    colon.kind = .colon ∧ Held true (f.2.contents spell) rest

theorem FieldPart.held {f : Name × Value ν} {ts : List Token} (h : FieldPart spell f ts) :
    Held true (.name f.1 :: f.2.contents spell) ts := by
  obtain ⟨key, colon, rest, rfl, hname, hkey, hcolon, hrest⟩ := h
  have hboth := (held_silent (by rw [hcolon]; rfl)).append hrest
  rw [← hkey]
  exact (held_name hname).append hboth

theorem objectField (hp : Keeps true [] p fun v => v.node.contents spell) :
    Takes (Parser.objectField p) (FieldPart spell) := by
  intro c hc f d hf
  obtain ⟨x, c1, hname, hf⟩ := bind_eq_ok hf
  obtain ⟨colon, c2, hcolon, hf⟩ := bind_eq_ok hf
  obtain ⟨v, c3, hv, hf⟩ := bind_eq_ok hf
  cases hf
  obtain ⟨key, hkey, hisName, rfl⟩ := name_eq_ok hname
  have hrest := expect_eq_ok hcolon
  have hproper : c2.Proper :=
    hc.of_append [key, colon] (by rw [hkey, hrest]; rfl)
  obtain ⟨ts, hts, hheld⟩ := hp.takes c2 hproper v _ hv
  exact ⟨key :: colon :: ts, by rw [hkey, hrest, hts]; rfl, key, colon, ts, rfl, hisName,
    rfl, kind_of_expect hcolon, hheld⟩

/-- Each key is a token before a colon, with no bracket open before it. -/
theorem exists_key {fs : List (Name × Value ν)} {parts : List (List Token)}
    (h : List.Forall₂ (FieldPart spell) fs parts) {f : Name × Value ν} (hf : f ∈ fs) :
    ∃ before key colon after, parts.flatten = before ++ key :: colon :: after ∧ Balanced before ∧
      colon.kind = .colon ∧ key.raw = f.1 := by
  induction h with
  | nil => cases hf
  | @cons g part fs parts hpart _ ih =>
    rcases List.mem_cons.1 hf with rfl | hf
    · obtain ⟨key, colon, rest, rfl, -, hkey, hcolon, -⟩ := hpart
      exact ⟨[], key, colon, rest ++ parts.flatten, rfl, .nil, hcolon, hkey⟩
    · obtain ⟨before, key, colon, after, hflat, hbefore, hcolon, hkey⟩ := ih hf
      refine ⟨part ++ before, key, colon, after, ?_, hpart.held.balanced.append hbefore, hcolon,
        hkey⟩
      rw [List.flatten_cons, hflat, List.append_assoc]

theorem nodup_keys {fs : List (Name × Value ν)} {parts : List (List Token)} {rest : List Token}
    (h : List.Forall₂ (FieldPart spell) fs parts) (hkeys : KeysApart (parts.flatten ++ rest)) :
    (fs.map Prod.fst).Nodup := by
  induction h with
  | nil => exact List.nodup_nil
  | @cons f part fs parts hpart hall ih =>
    rw [List.flatten_cons, List.append_assoc] at hkeys
    refine List.nodup_cons.2 ⟨fun hmem => ?_, ih (hkeys.drop hpart.held.balanced)⟩
    obtain ⟨f', hf', hsame⟩ := List.mem_map.1 hmem
    obtain ⟨before, key', colon', after, hflat, hbefore, hcolon', hkey'⟩ := exists_key hall hf'
    obtain ⟨key, colon, value, rfl, -, hkey, hcolon, hvalue⟩ := hpart
    refine hkeys [] key colon (value ++ before) key' colon' (after ++ rest) ?_ .nil
      (hvalue.balanced.append hbefore) hcolon hcolon' ?_
    · rw [hflat]
      simp
    · rw [hkey, hkey', hsame]

theorem object (hlocal : Local true p) (hp : Keeps true [] p fun v => v.node.contents spell) :
    Keeps true [] (Parser.delimited .leftBrace .rightBrace (Parser.objectField p)) fun fs =>
      (Value.ofPairs fs).contents spell := by
  intro c hc fs d hfs
  obtain ⟨_, hrest, o, parts, t, rfl, ho, ht, hall⟩ :=
    parts_delimited hlocal.objectField (objectField hp) c hc fs d hfs
  have hparts : Held true (fs.flatMap fun f => .name f.1 :: f.2.contents spell) parts.flatten :=
    .flatten (hall.imp fun _ _ => FieldPart.held)
  have hclose : o.kind.closing? = some t.kind := by
    rw [ho, ht]
    rfl
  refine ⟨_, (Value.ofPairs fs).contents spell, hrest, ⟨hparts.balanced.between hclose, ?_⟩, rfl⟩
  intro hclear
  have hnodup := nodup_keys hall (hclear [] o _ rfl ho)
  rw [contents_between hclose, Value.ofPairs, Assoc.ofList_of_nodup hnodup, Value.contents,
    Value.fieldContents_eq]
  exact hparts.contents (Clear.of_infix hclear (Held.infix_between o t _))

/-! ## Values and types -/

theorem variableName : Keeps inside [] Parser.variableName fun x => [.name (id x)] :=
  (expect rfl).silent fun _ => name.bind fun _ => .pure rfl

theorem content_of_kind {t : Token} {kind : Token.Kind} (h : t.kind = kind) : t.lexeme.content =
    Lexeme.content ⟨kind, t.raw.toList, t.value.toList⟩ := by
  rw [← h]
  rfl

theorem intLiteral {c : Cursor} {t : Token} {rest : List Token} (hc : c.Proper)
    (hrest : c.rest = t :: rest) (hkind : t.kind = .int) :
    KeepsAt inside [] (Parser.intLiteral t) (fun n => [n.content]) c := by
  unfold Parser.intLiteral
  simp only
  split
  · refine .taken (g := fun _ => _) hrest (by rw [hkind]; rfl) ?_
    rw [content_of_kind hkind]
    rfl
  · exact fail _ c hc

theorem floatLiteral {c : Cursor} {t : Token} {rest : List Token} (hc : c.Proper)
    (hrest : c.rest = t :: rest) (hkind : t.kind = .float) :
    KeepsAt inside [] (Parser.floatLiteral t) (fun n => [n.content]) c := by
  unfold Parser.floatLiteral
  split
  · next value hvalue =>
    refine .taken (g := fun _ => _) hrest (by rw [hkind]; rfl) ?_
    rw [content_of_kind hkind]
    simp [Lexeme.content, Number.content, hvalue]
  · exact fail _ c hc

/-- A value that is a keyword. -/
theorem keywordValue (word : Name) {c : Cursor} {t : Token} {rest : List Token} (hc : c.Proper)
    (hrest : c.rest = t :: rest) (hkind : t.kind = Token.Kind.ofName word)
    (hne : t.kind ≠ .identifier) {v : Located (Value ν)}
    (hv : v.node.contents spell = [.name word]) :
    KeepsAt inside [] (do
      let _ ← Parser.next
      return v) (fun v => v.node.contents spell) c := by
  intro a d ha
  obtain ⟨t', c1, hnext, ha⟩ := bind_eq_ok ha
  unfold Parser.next at hnext
  rw [hrest] at hnext
  cases hnext
  cases ha
  have hproper : t.lexeme.IsProper := hc t (by rw [hrest]; exact List.mem_cons_self ..)
  exact ⟨[t], _, hrest, held_keyword hproper rfl hkind.symm hne, hv⟩

theorem value {rule : Parser ν} (hlocal : Local true rule)
    (hrule : Keeps true [] rule fun x => [.name (spell x)]) : ∀ levels,
    Keeps true [] (Parser.value rule levels) fun v => v.node.contents spell
  | 0 => fail _
  | levels + 1 => position.silent fun pos c hc => by
    have ih := value hlocal hrule levels
    refine .look rfl ?_
    cases hrest : c.rest with
    | nil => exact unexpected c hc
    | cons t rest =>
      simp only [List.head?_cons]
      cases hkind : t.kind with
      | dollar =>
        refine hrule.bind (fun x => .pure ?_) c hc
        rfl
      | int =>
        exact (intLiteral hc hrest hkind).bind hc fun n d hd => pure rfl d hd
      | float =>
        exact (floatLiteral hc hrest hkind).bind hc fun n d hd => pure rfl d hd
      | string =>
        refine .taken hrest (by rw [hkind]; rfl) ?_
        rw [content_of_kind hkind]
        simp [Lexeme.content, Value.contents]
      | true =>
        exact keywordValue "true" hc hrest hkind (by rw [hkind]; decide) rfl
      | false =>
        exact keywordValue "false" hc hrest hkind (by rw [hkind]; decide) rfl
      | null =>
        exact keywordValue "null" hc hrest hkind (by rw [hkind]; decide) rfl
      | leftBracket =>
        refine (delimited (Local.value hlocal levels) ih rfl).bind (fun vs => .pure ?_) c hc
        rw [Value.contents, Value.itemContents_eq, List.flatMap_map]
        rfl
      | leftBrace =>
        refine (object (Local.value hlocal levels) ih).bind (fun fs => .pure ?_) c hc
        rfl
      | _ =>
        refine ite (name.bind fun x => .pure ?_) unexpected c hc
        rfl

theorem literal (levels : Nat) :
    Keeps true [] (Parser.literal levels) fun v => v.node.contents id :=
  value Local.variableName variableName levels

theorem constant (levels : Nat) :
    Keeps true [] (Parser.constant levels) fun v => v.node.contents Empty.elim :=
  value Local.unexpected unexpected levels

theorem typeRef : ∀ levels,
    Keeps inside [] (Parser.typeRef levels) fun t => t.node.contents
  | 0 => fail _
  | levels + 1 => position.silent fun pos c hc => by
    intro a d ha
    obtain ⟨isList, c1, hopen, hrun⟩ := bind_eq_ok ha
    rcases eat_eq_ok hopen with ⟨rfl, o, hrest, ho⟩ | ⟨rfl, rfl⟩
    · obtain ⟨item, c2, hitem, hrun⟩ := bind_eq_ok hrun
      obtain ⟨t, c3, hclose, hrun⟩ := bind_eq_ok hrun
      have hproper : c1.Proper := hc.of_append [o] hrest
      obtain ⟨ts, hts, hheld⟩ := (typeRef levels).takes c1 hproper item c2 hitem
      have hrest' := expect_eq_ok hclose
      have hproper' : c3.Proper := hproper.of_append (ts ++ [t]) (by rw [hts, hrest']; simp)
      have hbang : Keeps inside item.node.contents (do
          let required ← Parser.eat .bang
          return (⟨pos, .list item.node !required⟩ : Located TypeRef)) fun t => t.node.contents :=
        (eat rfl).silent fun _ => .pure rfl
      obtain ⟨us, xs, hus, hheld', hxs⟩ := hbang c3 hproper' a d hrun
      have hlist : Held inside item.node.contents (o :: (ts ++ [t])) :=
        hheld.between (by rw [ho, kind_of_expect hclose]; rfl)
      refine ⟨_, _, ?_, hlist.append hheld', hxs⟩
      rw [hrest, hts, hrest', hus]
      simp
    · have hname : Keeps inside [] (do
          let name ← Parser.name
          let required ← Parser.eat .bang
          return (⟨pos, .named name.node !required⟩ : Located TypeRef)) fun t => t.node.contents :=
        name.bind fun _ => (eat rfl).silent fun _ => .pure rfl
      exact hname c1 hc a d hrun

/-! ## Arguments and directives -/

theorem argument (hp : Keeps true [] p fun v => v.node.contents spell) :
    Keeps true [] (Parser.argument p) (Argument.contents spell) :=
  name.bind fun _ => (expect rfl).silent fun _ => hp.bind fun _ => .pure rfl

theorem arguments (hlocal : Local true p) (hp : Keeps true [] p fun v => v.node.contents spell) :
    Keeps inside [] (Parser.arguments p) fun as => as.flatMap (Argument.contents spell) :=
  parenthesized (Local.argument hlocal) (argument hp)

theorem directive (hlocal : Local true p) (hp : Keeps true [] p fun v => v.node.contents spell) :
    Keeps inside [] (Parser.directive p) (Directive.contents spell) :=
  position.silent fun _ => (expect rfl).silent fun _ => name.bind fun _ =>
    (arguments hlocal hp).bind fun _ => .pure rfl

theorem directives (hlocal : Local true p) (hp : Keeps true [] p fun v => v.node.contents spell) :
    Keeps inside [] (Parser.directives p) fun ds => ds.flatMap (Directive.contents spell) :=
  repeatWhile (nextIs _) (directive hlocal hp)

theorem literalDirectives (levels : Nat) :
    Keeps inside [] (Parser.directives (Parser.literal levels)) fun ds =>
      ds.flatMap (Directive.contents id) :=
  directives (Local.literal levels) (literal levels)

theorem constDirectives : Keeps inside [] Parser.constDirectives fun ds =>
    ds.flatMap (Directive.contents Empty.elim) :=
  directives (Local.constant nestingLimit) (constant nestingLimit)

theorem default? : Keeps true [] Parser.default? fun v =>
    v.toList.flatMap fun v => v.node.contents Empty.elim :=
  (eat rfl).silent fun _ => .ite ((constant nestingLimit).bind fun _ => .pure (by simp)) (.pure rfl)

/-! ## Selections -/

theorem typeCondition : Keeps inside [] Parser.typeCondition TypeCondition.contents :=
  position.silent fun _ => (keyword "on" rfl (by decide)).bind fun _ =>
    name.bind fun _ => .pure rfl

/-- Arguments, directives and selections of a field. -/
theorem fieldParts {acc : List Content} (levels : Nat) {nested : Parser SelectionSet}
    (hn : Keeps false [] nested SelectionSet.contents)
    {g : List (Argument Name) → List (Directive Name) → SelectionSet → Field}
    (hg : ∀ as ds s, (Selection.field (g as ds s)).contents = acc ++
      as.flatMap (Argument.contents id) ++ ds.flatMap (Directive.contents id) ++
        SelectionSet.contents s) :
    Keeps false acc (do
      let arguments ← Parser.arguments (Parser.literal levels)
      let directives ← Parser.directives (Parser.literal levels)
      let selections ← if ← Parser.nextIs .leftBrace then nested
        else Pure.pure ⟨← Parser.position, []⟩
      Pure.pure (g arguments directives selections)) fun f => (Selection.field f).contents :=
  (arguments (Local.literal levels) (literal levels)).bind fun as =>
    (literalDirectives levels).bind fun ds => (nextIs _).silent fun _ =>
      .ite (hn.bind fun s => .pure (hg as ds s))
        (position.silent fun _ => .pure ((hg as ds _).trans (by simp [SelectionSet.contents])))

theorem field (levels : Nat) {nested : Parser SelectionSet}
    (hn : Keeps false [] nested SelectionSet.contents) :
    Keeps false [] (Parser.field levels nested) fun f => (Selection.field f).contents := by
  refine position.silent fun pos => name.bind fun first => (eat rfl).silent fun aliased => ?_
  cases aliased with
  | true =>
    refine name.bind fun actual => fieldParts levels hn fun as ds s => ?_
    rw [Selection.contents_field]
    simp [Name.contents]
  | false =>
    refine fieldParts levels hn fun as ds s => ?_
    rw [Selection.contents_field]
    simp [Name.contents]

theorem fragmentSelection (pos : Position) (levels : Nat) {nested : Parser SelectionSet}
    (hn : Keeps false [] nested SelectionSet.contents) :
    Keeps false [] (Parser.fragmentSelection pos levels nested) Selection.contents := by
  have hinline : ∀ (condition : Option TypeCondition) {acc : List Content},
      condition.toList.flatMap TypeCondition.contents = acc → Keeps false acc (do
        let directives ← Parser.directives (Parser.literal levels)
        let selections ← nested
        Pure.pure (Selection.inline ⟨pos, condition, directives, selections⟩))
        Selection.contents := by
    rintro condition _ rfl
    refine (literalDirectives levels).bind fun ds => hn.bind fun s => .pure ?_
    rw [Selection.contents_inline]
  refine peekKind.silent fun kind => .ite ?_
    (name.bind fun x => (literalDirectives levels).bind fun ds => .pure ?_)
  · split
    · exact (map (h := fun c => c.toList.flatMap TypeCondition.contents) typeCondition
        fun c => by simp).bind fun c => hinline c (List.nil_append _).symm
    · exact hinline none rfl
  · rw [Selection.contents]
    rfl

theorem selection (levels : Nat) {nested : Parser SelectionSet}
    (hn : Keeps false [] nested SelectionSet.contents) :
    Keeps false [] (Parser.selection levels nested) Selection.contents :=
  position.silent fun pos => (eat rfl).silent fun _ => .ite (fragmentSelection pos levels hn)
    ((field levels hn).bind fun _ => .pure rfl)

theorem selectionSet : ∀ levels,
    Keeps false [] (Parser.selectionSet levels) SelectionSet.contents
  | 0 => fail _
  | levels + 1 => position.silent fun _ =>
    (delimited (Local.selection levels (Local.selectionSet levels))
      (selection levels (selectionSet levels)) rfl).bind fun _ => .pure rfl

/-! ## Operations and fragments -/

theorem variableDefinition :
    Keeps true [] Parser.variableDefinition VariableDefinition.contents :=
  position.silent fun _ => (expect rfl).silent fun _ => name.bind fun _ =>
    (expect rfl).silent fun _ => (typeRef nestingLimit).bind fun _ => default?.bind fun _ =>
      constDirectives.bind fun _ => .pure rfl

theorem optionalName : Keeps inside [] Parser.optionalName Name.contents :=
  peekKind.silent fun kind => by
    cases kind with
    | none => exact .pure rfl
    | some kind => exact .ite (map name fun _ => rfl) (.pure rfl)

/-- What follows the keyword of an operation. -/
theorem operationParts (pos : Position) (kind : OperationKind) :
    Keeps false [.name kind.text] (do
      let name ← Parser.optionalName
      let definitions ← Parser.optionalDelimited .leftParen .rightParen Parser.variableDefinition
      let directives ← Parser.directives (Parser.literal nestingLimit)
      let selections ← Parser.selectionSet nestingLimit
      Pure.pure (⟨pos, kind, name, definitions, directives, selections⟩ : Operation))
      fun o => o.headContents ++ SelectionSet.contents o.selections :=
  optionalName.bind fun _ => (parenthesized Local.variableDefinition variableDefinition).bind
    fun _ => (literalDirectives _).bind fun _ => (selectionSet _).bind fun _ => .pure rfl

theorem fragment : Keeps false [] Parser.fragment Fragment.contents := by
  refine position.silent fun pos => (keyword "fragment" rfl (by decide)).bind fun _ =>
    peekKind.silent fun first => peekSecondKind.silent fun second => ?_
  have hrest : ∀ (x : Option (Located Name)) {acc : List Content},
      .name "fragment" :: Name.contents x = acc → Keeps false acc (do
        let condition ← Parser.typeCondition
        let directives ← Parser.directives (Parser.literal nestingLimit)
        let selections ← Parser.selectionSet nestingLimit
        Pure.pure (⟨pos, x, condition, directives, selections⟩ : Fragment)) Fragment.contents := by
    rintro x _ rfl
    exact typeCondition.bind fun _ => (literalDirectives _).bind fun _ =>
      (selectionSet _).bind fun _ => .pure rfl
  exact .ite (hrest none rfl)
    ((map (h := Name.contents) name fun _ => rfl).bind fun x => hrest x rfl)

end Parser.Keeps

/-! ## Definitions -/

/-- The tokens of a definition, but for the keyword of a query that is printed as no more than its
selections. -/
def Definition.withoutKeyword (x : Definition) (part : List Token) : List Token :=
  match x with
  | .operation o =>
    if Printer.isShorthand o && part.head?.map Token.kind = some .query then part.tail else part
  | _ => part

namespace Parser

variable {c d : Cursor}

/-- The tokens of a definition have its content, if the keys of objects differ. -/
def KeptPart (x : Definition) (part : List Token) : Prop :=
  DistinctObjectKeys part → Token.contents (x.withoutKeyword part) = x.contents

theorem isShorthand_iff {o : Operation} : Printer.isShorthand o = true ↔
    o.kind = .query ∧ o.name = none ∧ o.variableDefinitions = [] ∧ o.directives = [] := by
  simp only [Printer.isShorthand, Bool.and_eq_true, decide_eq_true_eq, Option.isNone_iff_eq_none,
    List.isEmpty_iff, and_assoc]

theorem headContents_of_isShorthand {o : Operation} (h : Printer.isShorthand o = true) :
    o.headContents = [.name o.kind.text] := by
  obtain ⟨-, hname, hvariables, hdirs⟩ := isShorthand_iff.1 h
  rw [Operation.headContents, hname, hvariables, hdirs]
  rfl

/-- The text of an operation's kind is its keyword. -/
theorem ofName_operationKind {kind : Token.Kind}
    (h : kind = .query ∨ kind = .mutation ∨ kind = .subscription) :
    Token.Kind.ofName (operationKind kind).text = kind := by
  rcases h with rfl | rfl | rfl <;> rfl

/-- Bare selections, which start with a brace. -/
theorem keptPart_selections {o : Operation} {part : List Token}
    (hbrace : part.head?.map Token.kind ≠ some .query) (hshort : Printer.isShorthand o = true)
    (h : Held false (SelectionSet.contents o.selections) part) : KeptPart (.operation o) part := by
  intro hkeys
  have hwhole : Definition.withoutKeyword (.operation o) part = part :=
    if_neg (by simp [hshort, hbrace])
  rw [hwhole, h.contents hkeys, Definition.contents, Operation.contents, if_pos hshort,
    List.nil_append]

/-- A keyword and what follows it. -/
theorem keptPart_operation {o : Operation} {t : Token} {ts : List Token} {kind : OperationKind}
    {xs : List Content} (ht : Token.Kind.ofName kind.text = t.kind) (hproper : t.lexeme.IsProper)
    (hxs : o.headContents ++ SelectionSet.contents o.selections = .name kind.text :: xs)
    (h : Held false xs ts) : KeptPart (.operation o) (t :: ts) := by
  intro hkeys
  have hkeyword : Held false [.name kind.text] [t] :=
    Keeps.held_keyword hproper rfl ht (by rw [← ht]; cases kind <;> decide)
  rw [Definition.contents, Operation.contents]
  cases hshort : Printer.isShorthand o with
  | true =>
    rw [headContents_of_isShorthand hshort] at hxs
    obtain ⟨hword, rfl⟩ := List.cons.inj hxs
    have hquery : o.kind = .query := (isShorthand_iff.1 hshort).1
    have hwithout : Definition.withoutKeyword (.operation o) (t :: ts) = ts := by
      refine if_pos ?_
      rw [hshort, List.head?_cons, Option.map_some, ← ht, ← Content.name.inj hword, hquery]
      rfl
    rw [hwithout]
    exact h.contents (hkeys.of_infix (List.suffix_cons t ts).isInfix)
  | false =>
    have hwithout : Definition.withoutKeyword (.operation o) (t :: ts) = t :: ts :=
      if_neg (by simp [hshort])
    rw [hwithout, if_neg Bool.false_ne_true, hxs]
    exact (hkeyword.append h).contents hkeys

theorem operation_brace {t : Token} {ts : List Token} (hrest : c.rest = t :: ts)
    (ht : t.kind = .leftBrace) : Parser.operation c = (do
      let selections ← Parser.selectionSet nestingLimit
      Pure.pure (⟨c.pos, .query, none, [], [], selections⟩ : Operation)) c := by
  have hnext : Parser.nextIs .leftBrace c = .ok (true, c) := by
    show Except.ok (decide (c.rest.head?.map Token.kind = some .leftBrace), c) = _
    rw [hrest, List.head?_cons, Option.map_some, ht]
    rfl
  unfold Parser.operation
  rw [bind_ok (show Parser.position c = .ok (c.pos, c) from rfl), bind_ok hnext]
  rfl

theorem operation_keyword {t : Token} {ts : List Token} (hrest : c.rest = t :: ts)
    (ht : t.kind ≠ .leftBrace) : Parser.operation c = (do
      let name ← Parser.optionalName
      let definitions ← Parser.optionalDelimited .leftParen .rightParen Parser.variableDefinition
      let directives ← Parser.directives (Parser.literal nestingLimit)
      let selections ← Parser.selectionSet nestingLimit
      Pure.pure (⟨c.pos, operationKind t.kind, name, definitions, directives, selections⟩ :
        Operation)) ⟨ts, c.finish⟩ := by
  have hnext : Parser.nextIs .leftBrace c = .ok (false, c) := by
    show Except.ok (decide (c.rest.head?.map Token.kind = some .leftBrace), c) = _
    rw [hrest, List.head?_cons, Option.map_some, decide_eq_false (by simpa using ht)]
  have hkeyword : Parser.next c = .ok (t, ⟨ts, c.finish⟩) := by
    unfold Parser.next
    rw [hrest]
  unfold Parser.operation
  rw [bind_ok (show Parser.position c = .ok (c.pos, c) from rfl), bind_ok hnext,
    if_neg Bool.false_ne_true, bind_ok hkeyword]

theorem operation_part (hc : c.Proper) {t : Token} {ts : List Token} (hrest : c.rest = t :: ts)
    (hkind : t.kind = .leftBrace ∨ t.kind = .query ∨ t.kind = .mutation ∨ t.kind = .subscription)
    {o : Operation} (h : Parser.operation c = .ok (o, d)) :
    ∃ part, c.rest = part ++ d.rest ∧ KeptPart (.operation o) part := by
  -- Bare selections start with a brace, anything else with a keyword.
  rcases hkind with ht | hkind
  · rw [operation_brace hrest ht] at h
    obtain ⟨s, c1, hs, h⟩ := bind_eq_ok h
    cases h
    obtain ⟨part, hpart, hheld⟩ := (Keeps.selectionSet nestingLimit).takes c hc s _ hs
    refine ⟨part, hpart, keptPart_selections ?_ rfl hheld⟩
    rw [hrest] at hpart
    cases part with
    | nil => simp
    | cons u us =>
      obtain rfl : t = u := (List.cons.inj hpart).1
      simp [ht]
  · have ht : Token.Kind.ofName (operationKind t.kind).text = t.kind := ofName_operationKind hkind
    have hne : t.kind ≠ .leftBrace := by
      rcases hkind with hk | hk | hk <;>
      · rw [hk]
        decide
    rw [operation_keyword hrest hne] at h
    have hproper : Cursor.Proper ⟨ts, c.finish⟩ := hc.of_append [t] hrest
    obtain ⟨part, xs, hpart, hheld, hxs⟩ := Keeps.operationParts c.pos _ _ hproper o d h
    refine ⟨t :: part, by rw [hrest]; exact congrArg (t :: ·) hpart, ?_⟩
    exact keptPart_operation ht (hc t (by rw [hrest]; exact List.mem_cons_self ..)) hxs hheld

theorem fragment_part (hc : c.Proper) {f : Fragment} (h : Parser.fragment c = .ok (f, d)) :
    ∃ part, c.rest = part ++ d.rest ∧ KeptPart (.fragment f) part := by
  obtain ⟨part, hpart, hheld⟩ := Keeps.fragment.takes c hc f d h
  exact ⟨part, hpart, hheld.contents⟩

/-- A definition of a type system is not executed. -/
theorem not_isExecutable_typeSystem :
    Gives Parser.typeSystemDefinition fun x => ¬ x.IsExecutable := by
  refine Gives.position.bind fun pos _ => Gives.description?.bind fun description _ =>
    Gives.peekKind.bind fun kind _ => ?_
  have htype : Gives (do return Definition.type (← Parser.typeDefinition pos description))
      fun x => ¬ x.IsExecutable :=
    (Gives.typeDefinition pos description).bind fun _ _ => .pure id
  split
  · exact (Gives.schemaDefinition pos description).bind fun _ _ => .pure id
  · exact (Gives.directiveDefinition pos description).bind fun _ _ => .pure id
  all_goals first
    | exact htype
    | exact Gives.unexpected

theorem definition_part (hc : c.Proper) {x : Definition} (h : Parser.definition c = .ok (x, d))
    (hexec : x.IsExecutable) : ∃ part, c.rest = part ++ d.rest ∧ KeptPart x part := by
  obtain ⟨kind, c1, hkind, h⟩ := bind_eq_ok h
  cases hkind
  cases hrest : c.rest with
  | nil =>
    rw [hrest] at h
    cases h
  | cons t ts =>
    rw [hrest, List.head?_cons, Option.map_some] at h
    have hoperation : t.kind = .leftBrace ∨ t.kind = .query ∨ t.kind = .mutation ∨
        t.kind = .subscription → (do return Definition.operation (← Parser.operation) :
          Parser Definition) c = .ok (x, d) →
        ∃ part, t :: ts = part ++ d.rest ∧ KeptPart x part := by
      intro hk h
      obtain ⟨o, c2, ho, h⟩ := bind_eq_ok h
      cases h
      rw [← hrest]
      exact operation_part hc hrest hk ho
    have htypeSystem : Parser.typeSystemDefinition c = .ok (x, d) →
        ∃ part, t :: ts = part ++ d.rest ∧ KeptPart x part :=
      fun h => absurd hexec (not_isExecutable_typeSystem c hc x d h).1
    have hfragment : (do return Definition.fragment (← Parser.fragment) : Parser Definition) c =
        .ok (x, d) → ∃ part, t :: ts = part ++ d.rest ∧ KeptPart x part := by
      intro h
      obtain ⟨f, c2, hf, h⟩ := bind_eq_ok h
      cases h
      rw [← hrest]
      exact fragment_part hc hf
    cases hk : t.kind <;> rw [hk] at h <;> first
      | exact hoperation (by simp [hk]) h
      | exact hfragment h
      | exact htypeSystem h
      | cases h

/-- The tokens from the cursor on, taken apart into those of one definition after the other. -/
inductive ReadFrom : Cursor → List Definition → List (List Token) → Prop where
  | nil {c : Cursor} : c.rest = [] → ReadFrom c [] []
  | cons {c d : Cursor} {x : Definition} {xs : List Definition} {part : List Token}
      {parts : List (List Token)} : Parser.definition c = .ok (x, d) → c.rest = part ++ d.rest →
      ReadFrom d xs parts → ReadFrom c (x :: xs) (part :: parts)

theorem ReadFrom.flatten {xs : List Definition} {parts : List (List Token)}
    (h : ReadFrom c xs parts) : parts.flatten = c.rest := by
  induction h with
  | nil hc => exact hc.symm
  | cons _ hpart _ ih => rw [List.flatten_cons, ih, hpart]

theorem notAtEnd_eq (c : Cursor) :
    Parser.notAtEnd c = .ok (c.rest.head?.isSome, c) :=
  rfl

/-- Every definition takes a token, so that all of them are read; and what is known of the tokens of
one is known of those of each. -/
theorem exists_readFrom {P : Definition → Prop} {Q : Definition → List Token → Prop}
    (hQ : ∀ (c : Cursor) x d, c.Proper → Parser.definition c = .ok (x, d) → P x →
      ∃ part, c.rest = part ++ d.rest ∧ Q x part) : ∀ (allowance : List Token) (c : Cursor),
    c.Proper → c.rest.length ≤ allowance.length → ∀ xs d,
      Parser.repeatWithin Parser.notAtEnd Parser.definition allowance c = .ok (xs, d) →
        (∀ x ∈ xs, P x) → ∃ parts, ReadFrom c xs parts ∧ List.Forall₂ Q xs parts := by
  intro allowance
  induction allowance with
  | nil =>
    intro c hc hle xs d h _
    have hnil : c.rest = [] := List.eq_nil_of_length_eq_zero (Nat.le_zero.1 hle)
    rw [Parser.repeatWithin, bind_ok (notAtEnd_eq c), hnil] at h
    cases h
    exact ⟨[], .nil hnil, .nil⟩
  | cons u allowance ih =>
    intro c hc hle xs d h hP
    rw [Parser.repeatWithin, bind_ok (notAtEnd_eq c)] at h
    cases hrest : c.rest with
    | nil =>
      rw [hrest] at h
      cases h
      exact ⟨[], .nil hrest, .nil⟩
    | cons t ts =>
      rw [hrest, List.head?_cons, Option.isSome_some, if_pos rfl] at h
      obtain ⟨x, c1, hx, h⟩ := bind_eq_ok h
      obtain ⟨xs, c2, hxs, h⟩ := bind_eq_ok h
      cases h
      obtain ⟨part, hpart, hq⟩ := hQ c x c1 hc hx (hP x (List.mem_cons_self ..))
      have hlocal : Local true Parser.definition := .definition
      have hlt := hlocal.lt rfl _ _ _ hx
      rw [List.length_cons] at hle
      obtain ⟨parts, hparts, hall⟩ := ih c1 (hc.of_append part hpart) (by omega) xs _ hxs
        fun y hy => hP y (List.mem_cons_of_mem _ hy)
      exact ⟨part :: parts, .cons hx hpart hparts, .cons hq hall⟩

theorem readFrom_repeatWithin : ∀ (allowance : List Token) (c : Cursor), c.Proper →
    c.rest.length ≤ allowance.length → ∀ xs d,
      Parser.repeatWithin Parser.notAtEnd Parser.definition allowance c = .ok (xs, d) →
        (∀ x ∈ xs, x.IsExecutable) →
          ∃ parts, ReadFrom c xs parts ∧ List.Forall₂ KeptPart xs parts :=
  exists_readFrom fun _ _ _ hc hx => definition_part hc hx

/-- What is known of the keys of all tokens is known of those of each definition. -/
theorem contents_parts {xs : List Definition} {parts : List (List Token)}
    (h : List.Forall₂ KeptPart xs parts) (hkeys : DistinctObjectKeys parts.flatten) :
    Token.contents (List.zipWith Definition.withoutKeyword xs parts).flatten =
      xs.flatMap Definition.contents := by
  induction h with
  | nil => rfl
  | @cons x part xs parts hkept _ ih =>
    rw [List.flatten_cons] at hkeys
    have hpart := hkeys.of_infix (List.prefix_append part parts.flatten).isInfix
    have hrest := hkeys.of_infix (List.suffix_append part parts.flatten).isInfix
    rw [List.zipWith_cons_cons, List.flatten_cons, contents_append, hkept hpart, ih hrest,
      List.flatMap_cons]

end Parser

namespace Document

variable {source : String} {tokens : List Token} {filename : Option String} {d : Document}

/-- The canonical text of an executable document holds the names, numbers and strings of its source,
one for one and in their order, if no object of the source repeats a key. What it leaves out is the
keyword of a query without name, variables and directives. -/
theorem contents_text (h : Token.scan source = .ok tokens)
    (hparse : Document.parse source filename = .ok d)
    (hexec : ∀ x ∈ d.definitions, x.IsExecutable) (hkeys : DistinctObjectKeys tokens) :
    ∃ parts printed,
      Parser.ReadFrom ⟨tokens, Position.start.after source.toList⟩ d.definitions parts ∧
        parts.flatten = tokens ∧ Token.scan d.text = .ok printed ∧ Token.contents printed =
          Token.contents (List.zipWith Definition.withoutKeyword d.definitions parts).flatten := by
  have hrun : ∃ c', Parser.definitions ⟨tokens, Position.start.after source.toList⟩ =
      .ok (d.definitions, c') := by
    rw [Document.parse_eq h] at hparse
    split at hparse
    · next ds c' hds =>
      cases hparse
      exact ⟨c', hds⟩
    · cases hparse
  obtain ⟨c', hrun⟩ := hrun
  have hat : Cursor.At ⟨tokens, Position.start.after source.toList⟩ source.toList :=
    lexes_of_scan h
  obtain ⟨parts, hparts, hall⟩ := Parser.readFrom_repeatWithin tokens _ hat.proper (Nat.le_refl _)
    d.definitions c' hrun hexec
  have hflat : parts.flatten = tokens := hparts.flatten
  obtain ⟨ls, hls, hcontents⟩ := Document.contains_chars (writable_of_parse hparse) hexec
  have hprinted : Lexes d.text.toList ls := by
    rwa [Document.text, String.toList_ofList]
  obtain ⟨printed, hscan, hmap⟩ := exists_scan hprinted
  refine ⟨parts, printed, hparts, hflat, hscan, ?_⟩
  rw [Parser.contents_parts hall (hflat ▸ hkeys), ← hcontents, ← hmap, List.filterMap_map]
  rfl

end Document

instance (x : Definition) : Decidable x.IsExecutable :=
  match x with
  | .operation _ | .fragment _ => .isTrue trivial
  | .schema _ | .type _ | .directive _ => .isFalse id

namespace Sample

/-- A query with a keyword that it does not need, and an object with two keys. -/
def keyed : String :=
  "query \x7ba(b: \x7bc: 1, d: \"e\"\x7d)\x7d"

/-- Whether the source is an executable document in which no text comes before two colons. -/
def isKeyed : Bool :=
  match Token.scan keyed, Document.parse keyed none with
  | .ok tokens, .ok d =>
    decide (keyTexts tokens).Nodup && decide (∀ x ∈ d.definitions, x.IsExecutable)
  | _, _ => false

end Sample

theorem Document.contents_text_keyed : ∃ tokens d, Token.scan Sample.keyed = .ok tokens ∧
    Document.parse Sample.keyed none = .ok d ∧ (∀ x ∈ d.definitions, x.IsExecutable) ∧
    DistinctObjectKeys tokens ∧ ∃ parts printed,
      Parser.ReadFrom ⟨tokens, Position.start.after Sample.keyed.toList⟩ d.definitions parts ∧
        parts.flatten = tokens ∧ Token.scan d.text = .ok printed ∧ Token.contents printed =
          Token.contents (List.zipWith Definition.withoutKeyword d.definitions parts).flatten := by
  have hread : Sample.isKeyed = true := by decide +kernel
  unfold Sample.isKeyed at hread
  split at hread
  · next tokens d h hparse =>
    rw [Bool.and_eq_true, decide_eq_true_eq, decide_eq_true_eq] at hread
    have hkeys := distinctObjectKeys_of_nodup hread.1
    exact ⟨tokens, d, h, hparse, hread.2, hkeys, contents_text h hparse hread.2 hkeys⟩
  · cases hread

end GraphQL
