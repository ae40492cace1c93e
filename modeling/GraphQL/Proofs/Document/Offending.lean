import GraphQL.Proofs.Document.Local
import GraphQL.Proofs.Document.Relaid

/-!
# The token that is reported is the wrong one

Every rule of the grammar is local. So a source that is wrong at a token is wrong there whatever
comes after the token, and for the same reason (`Document.parse_offending`).
-/

namespace GraphQL

open Token (lexeme stops)

namespace Parser.Local

variable {ν : Type} {takes : Bool}

/-! ## Values and types -/

theorem variableName : Local takes Parser.variableName :=
  (expect _).bind fun _ => name.bind fun _ => .pure _

theorem intLiteral (token : Token) : Local takes (Parser.intLiteral token) :=
  .ite (next.bind fun _ => .pure _) (.fail _)

theorem floatLiteral (token : Token) : Local takes (Parser.floatLiteral token) := by
  unfold Parser.floatLiteral
  split
  · exact next.bind fun _ => .pure _
  · exact .fail _

theorem objectField {value : Parser (Located (Value ν))} (hv : Local true value) :
    Local takes (Parser.objectField value) :=
  name.bind fun _ => (expect _).bind fun _ => hv.weaken.bind fun _ => .pure _

theorem value {rule : Parser ν} (hrule : Local true rule) : ∀ levels,
    Local true (Parser.value rule levels)
  | 0 => .fail _
  | levels + 1 => by
    have ih := value hrule levels
    refine position.andThen fun pos => peek.andThen fun token => ?_
    cases token with
    | none => exact unexpected
    | some token =>
      simp only
      cases token.kind with
      | dollar => exact hrule.bind fun _ => .pure _
      | int => exact (intLiteral token).bind fun _ => .pure _
      | float => exact (floatLiteral token).bind fun _ => .pure _
      | string | true | false | null => exact next.bind fun _ => .pure _
      | leftBracket => exact (delimited ih).bind fun _ => .pure _
      | leftBrace => exact (delimited (objectField ih)).bind fun _ => .pure _
      | _ => exact .ite (name.bind fun _ => .pure _) unexpected

theorem literal (levels : Nat) : Local true (Parser.literal levels) :=
  value variableName levels

theorem constant (levels : Nat) : Local true (Parser.constant levels) :=
  value unexpected levels

theorem typeRef : ∀ levels, Local takes (Parser.typeRef levels)
  | 0 => .fail _
  | levels + 1 => by
    have hlist : ∀ pos : Position, Local takes (do
        let item ← Parser.typeRef levels
        let _ ← Parser.expect .rightBracket
        let required ← Parser.eat .bang
        return (⟨pos, .list item.node !required⟩ : Located TypeRef)) := fun _ =>
      (typeRef levels).bind fun _ => (expect _).bind fun _ => (eat _).bind fun _ => .pure _
    exact position.andThen fun pos => (eat _).andThen fun _ => .ite (hlist pos)
      (name.bind fun _ => (eat _).bind fun _ => .pure _)

/-! ## Arguments and directives -/

theorem argument {value : Parser (Located (Value ν))} (hv : Local true value) :
    Local takes (Parser.argument value) :=
  name.bind fun _ => (expect _).bind fun _ => hv.weaken.bind fun _ => .pure _

theorem arguments {value : Parser (Located (Value ν))} (hv : Local true value) :
    Local false (Parser.arguments value) :=
  optionalDelimited (argument hv)

theorem directive {value : Parser (Located (Value ν))} (hv : Local true value) :
    Local takes (Parser.directive value) :=
  position.andThen fun _ => (expect _).bind fun _ => name.bind fun _ =>
    (arguments hv).bind fun _ => .pure _

theorem directives {value : Parser (Located (Value ν))} (hv : Local true value) :
    Local false (Parser.directives value) :=
  repeatWhile (nextIs _) (directive hv)

theorem constDirectives : Local false Parser.constDirectives :=
  directives (constant nestingLimit)

theorem default? : Local false Parser.default? :=
  (eat _).bind fun _ => .ite ((constant nestingLimit).weaken.bind fun _ => .pure _) (.pure _)

/-! ## Selections -/

theorem typeCondition : Local takes Parser.typeCondition :=
  position.andThen fun _ => (expect _).bind fun _ => name.bind fun _ => .pure _

/-- Arguments, directives and selections of a field. -/
theorem fieldParts (levels : Nat) {nested : Parser SelectionSet} (hn : Local true nested)
    (g : List (Argument Name) → List (Directive Name) → SelectionSet → Field) :
    Local false (do
      let arguments ← Parser.arguments (Parser.literal levels)
      let directives ← Parser.directives (Parser.literal levels)
      let selections ← if ← Parser.nextIs .leftBrace then nested
        else Pure.pure ⟨← Parser.position, []⟩
      Pure.pure (g arguments directives selections)) :=
  (arguments (literal levels)).bind fun _ => (directives (literal levels)).bind fun _ =>
    (nextIs _).bind fun _ => .ite (hn.weaken.bind fun _ => .pure _)
      (position.bind fun _ => .pure _)

theorem field (levels : Nat) {nested : Parser SelectionSet} (hn : Local true nested) :
    Local takes (Parser.field levels nested) := by
  refine position.andThen fun pos => name.bind fun first => (eat _).bind fun aliased => ?_
  cases aliased with
  | true => exact name.bind fun actual => fieldParts levels hn _
  | false => exact fieldParts levels hn _

theorem fragmentSelection (pos : Position) (levels : Nat) {nested : Parser SelectionSet}
    (hn : Local true nested) : Local takes (Parser.fragmentSelection pos levels nested) := by
  have hinline : ∀ condition : Option TypeCondition, Local takes (do
        let directives ← Parser.directives (Parser.literal levels)
        let selections ← nested
        Pure.pure (Selection.inline ⟨pos, condition, directives, selections⟩)) := fun condition =>
    (directives (literal levels)).andThen fun _ => hn.weaken.bind fun _ => .pure _
  refine peekKind.andThen fun kind => .ite ?_
    (name.bind fun _ => (directives (literal levels)).bind fun _ => .pure _)
  split
  · exact (map typeCondition).andThen hinline
  · exact hinline none

theorem selection (levels : Nat) {nested : Parser SelectionSet} (hn : Local true nested) :
    Local takes (Parser.selection levels nested) :=
  position.andThen fun pos => (eat _).andThen fun _ => .ite (fragmentSelection pos levels hn)
    ((field levels hn).bind fun _ => .pure _)

theorem selectionSet : ∀ levels, Local true (Parser.selectionSet levels)
  | 0 => .fail _
  | levels + 1 => position.andThen fun _ =>
    (delimited (selection levels (selectionSet levels))).bind fun _ => .pure _

/-! ## Operations and fragments -/

theorem variableDefinition : Local takes Parser.variableDefinition :=
  position.andThen fun _ => (expect _).bind fun _ => name.bind fun _ => (expect _).bind fun _ =>
    (typeRef _).bind fun _ => default?.bind fun _ => constDirectives.bind fun _ => .pure _

theorem optionalName : Local false Parser.optionalName :=
  peekKind.bind fun kind => by
    cases kind with
    | none => exact .pure _
    | some kind => exact .ite (map name) (.pure _)

theorem operation : Local takes Parser.operation :=
  position.andThen fun _ => (nextIs _).andThen fun _ => .ite
    ((selectionSet _).weaken.bind fun _ => .pure _)
    (next.bind fun _ => optionalName.bind fun _ =>
      (optionalDelimited variableDefinition).bind fun _ => (directives (literal _)).bind fun _ =>
        (selectionSet _).weaken.bind fun _ => .pure _)

/-- Whether the keyword `on` starts the condition of a fragment hangs on the token after it. A rule
that takes the keyword in either case does not look beyond what it takes. -/
theorem lookahead {α : Type} {q : Bool → Parser α} (hq : ∀ anonymous, Local takes (q anonymous))
    (hon : ∀ (t : Token) (anonymous : Bool), t.kind = .on → ∃ after : Parser α, Local false after ∧
      ∀ r f, q anonymous ⟨t :: r, f⟩ = after ⟨r, f⟩) :
    Local takes (do
      let kind ← Parser.peekKind
      let second ← Parser.peekSecondKind
      q (kind = some .on && !(second = some .on))) where
  same xs r f r' f' := by
    show Same xs r f r' f'
      (q (decide ((xs ++ r).head?.map Token.kind = some .on) &&
        !decide ((xs ++ r).tail.head?.map Token.kind = some .on)) ⟨xs ++ r, f⟩)
      (q (decide ((xs ++ r').head?.map Token.kind = some .on) &&
        !decide ((xs ++ r').tail.head?.map Token.kind = some .on)) ⟨xs ++ r', f'⟩)
    cases xs with
    | nil => exact ((hq _).same [] r f [] f).of_nil (List.suffix_refl r) _
    | cons t xs =>
      cases xs with
      | cons u xs => exact (hq _).same (t :: u :: xs) r f r' f'
      | nil =>
        by_cases ht : t.kind = .on
        · obtain ⟨after, hafter, heq⟩ := hon t _ ht
          rw [show [t] ++ r = t :: r from rfl, heq]
          exact (hafter.same [] r f [] f).of_nil (List.suffix_refl r) _
        · simp only [List.singleton_append, List.head?_cons, Option.map_some, Option.some.injEq, ht,
            decide_false, Bool.false_and]
          exact (hq false).same [t] r f r' f'
  lt htakes c a d h := by
    obtain ⟨kind, c', hkind, h⟩ := bind_eq_ok h
    obtain ⟨second, c'', hsecond, h⟩ := bind_eq_ok h
    cases hkind
    cases hsecond
    exact (hq _).lt htakes c a d h

theorem bind_eq_bind {α β : Type} {p q : Parser α} {g : α → Parser β} {c d : Cursor}
    (h : p c = q d) : (p >>= g) c = (q >>= g) d := by
  rw [bind_apply p, bind_apply q, h]

theorem expect_kind {t : Token} {kind : Token.Kind} (h : t.kind = kind) (r : List Token)
    (f : Position) : Parser.expect kind ⟨t :: r, f⟩ = .ok (t, ⟨r, f⟩) := by
  have hnext : Parser.nextIs kind ⟨t :: r, f⟩ = .ok (true, ⟨t :: r, f⟩) := by
    show Except.ok (decide (some t.kind = some kind), _) = _
    rw [h, decide_eq_true rfl]
  unfold Parser.expect
  rw [bind_ok hnext]
  rfl

theorem name_kind {t : Token} (h : t.kind.isName = true) (r : List Token) (f : Position) :
    Parser.name ⟨t :: r, f⟩ = .ok (⟨t.pos, t.raw⟩, ⟨r, f⟩) := by
  unfold Parser.name
  rw [bind_ok (show Parser.peek ⟨t :: r, f⟩ = .ok (some t, ⟨t :: r, f⟩) from rfl)]
  simp only [h, if_true]
  rfl

theorem fragment : Local takes Parser.fragment := by
  have hparts : ∀ (pos : Position) (x : Option (Located Name)) (condition : TypeCondition),
      Local false (do
        let directives ← Parser.directives (Parser.literal nestingLimit)
        let selections ← Parser.selectionSet nestingLimit
        Pure.pure (⟨pos, x, condition, directives, selections⟩ : Fragment)) := fun _ _ _ =>
    (directives (literal _)).bind fun _ => (selectionSet _).weaken.bind fun _ => .pure _
  have hrest : ∀ (pos : Position) (x : Option (Located Name)), Local false (do
        let condition ← Parser.typeCondition
        let directives ← Parser.directives (Parser.literal nestingLimit)
        let selections ← Parser.selectionSet nestingLimit
        Pure.pure (⟨pos, x, condition, directives, selections⟩ : Fragment)) := fun pos x =>
    typeCondition.bind fun condition => hparts pos x condition
  refine position.andThen fun pos => (expect _).bind fun _ => lookahead (q := fun anonymous =>
    if anonymous = true then _ else _) (fun anonymous => .ite (hrest pos none)
      ((map name).bind fun x => hrest pos x)) ?_
  intro t anonymous ht
  cases anonymous with
  | true =>
    refine ⟨_, (name.bind fun x => .pure (⟨t.pos, x⟩ : TypeCondition)).bind fun condition =>
      hparts pos none condition, fun r f => ?_⟩
    have hcondition : Parser.typeCondition ⟨t :: r, f⟩ =
        (Parser.name >>= fun x => Pure.pure (⟨t.pos, x⟩ : TypeCondition)) ⟨r, f⟩ := by
      unfold Parser.typeCondition
      rw [bind_ok (show Parser.position ⟨t :: r, f⟩ = .ok (t.pos, ⟨t :: r, f⟩) from rfl),
        bind_ok (expect_kind ht r f)]
    exact bind_eq_bind hcondition
  | false =>
    refine ⟨_, hrest pos (some ⟨t.pos, t.raw⟩), fun r f => ?_⟩
    have hname : (some <$> Parser.name) ⟨t :: r, f⟩ = .ok (some ⟨t.pos, t.raw⟩, ⟨r, f⟩) := by
      show (Parser.name >>= fun x => Pure.pure (some x)) ⟨t :: r, f⟩ = _
      rw [bind_ok (name_kind (by rw [ht]; rfl) r f)]
      rfl
    exact bind_ok hname

/-! ## Type systems -/

theorem description? : Local false Parser.description? :=
  position.bind fun _ => (nextIs _).bind fun _ => .ite (next.bind fun _ => .pure _) (.pure _)

theorem inputValueDefinition : Local takes Parser.inputValueDefinition :=
  position.andThen fun _ => description?.andThen fun _ => name.bind fun _ =>
    (expect _).bind fun _ => (typeRef _).bind fun _ => default?.bind fun _ =>
      constDirectives.bind fun _ => .pure _

theorem argumentDefinitions : Local false Parser.argumentDefinitions :=
  optionalDelimited inputValueDefinition

theorem fieldDefinition : Local takes Parser.fieldDefinition :=
  position.andThen fun _ => description?.andThen fun _ => name.bind fun _ =>
    argumentDefinitions.bind fun _ => (expect _).bind fun _ => (typeRef _).bind fun _ =>
      constDirectives.bind fun _ => .pure _

theorem enumValueDefinition : Local takes Parser.enumValueDefinition :=
  position.andThen fun _ => description?.andThen fun _ => name.bind fun _ =>
    constDirectives.bind fun _ => .pure _

theorem rootEntry : Local takes Parser.rootEntry := by
  have hread : ∀ kind : OperationKind, Local takes (do
      let _ ← Parser.next
      let _ ← Parser.expect .colon
      let name ← Parser.name
      Pure.pure (kind, name)) := fun kind =>
    next.bind fun _ => (expect _).bind fun _ => name.bind fun _ => .pure _
  refine peekKind.andThen fun kind => ?_
  split
  · exact hread _
  · exact hread _
  · exact hread _
  · exact unexpected.andThen fun kind => hread kind

theorem schemaDefinition (pos : Position) (description : Option (Located String)) :
    Local takes (Parser.schemaDefinition pos description) :=
  (expect _).bind fun _ => constDirectives.bind fun _ => (delimited rootEntry).bind fun _ => .pure _

theorem separated {α : Type} {separator : Token.Kind} {p : Parser α} (hp : Local true p) :
    Local takes (Parser.separated separator p) :=
  (eat _).andThen fun _ => hp.weaken.bind fun _ => (repeatWhile (eat _) hp).bind fun _ => .pure _

theorem implementedInterfaces : Local false Parser.implementedInterfaces :=
  (eat _).bind fun _ => .ite
    ((eat _).bind fun _ => name.bind fun _ =>
      (repeatWhile ((eat _).bind fun _ => .ite (.pure _) (nextIs _)) name).bind fun _ => .pure _)
    (.pure _)

theorem typeBody (keyword : Token.Kind) : Local false (Parser.typeBody keyword) := by
  unfold Parser.typeBody
  split
  · exact constDirectives.bind fun _ => .pure _
  · exact implementedInterfaces.bind fun _ => constDirectives.bind fun _ =>
      (optionalDelimited fieldDefinition).bind fun _ => .pure _
  · exact implementedInterfaces.bind fun _ => constDirectives.bind fun _ =>
      (optionalDelimited fieldDefinition).bind fun _ => .pure _
  · exact constDirectives.bind fun _ => (eat _).bind fun _ => .ite
      ((separated name).bind fun _ => .pure _) (.pure _)
  · exact constDirectives.bind fun _ => (optionalDelimited enumValueDefinition).bind
      fun _ => .pure _
  · exact constDirectives.bind fun _ => (optionalDelimited inputValueDefinition).bind
      fun _ => .pure _

theorem typeDefinition (pos : Position) (description : Option (Located String)) :
    Local takes (Parser.typeDefinition pos description) :=
  next.bind fun _ => name.bind fun _ => (typeBody _).bind fun _ => .pure _

theorem directiveLocation : Local takes Parser.directiveLocation := by
  refine peek.andThen fun token => ?_
  cases token with
  | none => exact unexpected
  | some token =>
    refine .ite ?_ unexpected
    split
    · exact name.bind fun _ => .pure _
    · exact .fail _

theorem directiveDefinition (pos : Position) (description : Option (Located String)) :
    Local takes (Parser.directiveDefinition pos description) :=
  (expect _).bind fun _ => (expect _).bind fun _ => name.bind fun _ =>
    argumentDefinitions.bind fun _ => (expect _).bind fun _ =>
      (separated directiveLocation).bind fun _ => .pure _

theorem typeSystemDefinition : Local takes Parser.typeSystemDefinition := by
  refine position.andThen fun pos => description?.andThen fun description =>
    peekKind.andThen fun kind => ?_
  have htype : Local takes (do return Definition.type (← Parser.typeDefinition pos description)) :=
    (typeDefinition pos description).bind fun _ => .pure _
  split
  · exact (schemaDefinition pos description).bind fun _ => .pure _
  · exact (directiveDefinition pos description).bind fun _ => .pure _
  all_goals first
    | exact htype
    | exact unexpected

theorem definition : Local takes Parser.definition := by
  refine peekKind.andThen fun kind => ?_
  split <;> first
    | exact operation.bind fun _ => .pure _
    | exact fragment.bind fun _ => .pure _
    | exact typeSystemDefinition
    | exact unexpected

theorem definitions : Local false Parser.definitions :=
  repeatWhile (peek.bind fun _ => .pure _) definition

end Parser.Local

/-! ## Whole sources -/

variable {tokens tokens' xs r : List Token} {finish : Position}

/-- What fails at one of some tokens fails whatever comes after them. -/
theorem Parser.Local.error_of_prefix {α : Type} {takes : Bool} {p : Parser α} (hp : Local takes p)
    {e : ParseFailure} (h : p ⟨xs ++ r, finish⟩ = .error e) (hpos : e.pos ∉ stops r finish)
    (r' : List Token) (finish' : Position) : p ⟨xs ++ r', finish'⟩ = .error e := by
  have hsame := hp.same xs r finish r' finish'
  rw [h] at hsame
  generalize p ⟨xs ++ r', finish'⟩ = other at hsame ⊢
  cases hsame with
  | wrong => rfl
  | wrongBeyond he => exact absurd he hpos

theorem Token.nodup_stops_take (h : (stops tokens finish).Nodup) (n : Nat) :
    (stops (tokens.take n) finish).Nodup := by
  apply List.Nodup.sublist _ h
  exact ((List.take_sublist n tokens).map Token.pos).append (List.Sublist.refl [finish])

theorem Token.getElem?_stops {k : Nat} {t : Token} (ht : tokens[k]? = some t) :
    (stops tokens finish)[k]? = some t.pos := by
  have hlt : k < (tokens.map Token.pos).length := by
    rw [List.length_map]
    exact (List.getElem?_eq_some_iff.1 ht).1
  unfold stops
  rw [List.getElem?_append_left hlt, List.getElem?_map, ht]
  rfl

/-- A token is not where a later one is, nor at the end. -/
theorem Token.pos_not_mem_stops_drop (h : (stops tokens finish).Nodup) {k : Nat} {t : Token}
    (ht : tokens[k]? = some t) : t.pos ∉ stops (tokens.drop (k + 1)) finish := by
  have hsplit : stops tokens finish =
      (tokens.take (k + 1)).map Token.pos ++ stops (tokens.drop (k + 1)) finish := by
    unfold stops
    rw [← List.append_assoc, ← List.map_append, List.take_append_drop]
  have hmem : t ∈ tokens.take (k + 1) := by
    rw [List.take_add_one, ht]
    exact List.mem_append_right _ (List.mem_singleton_self t)
  rw [hsplit] at h
  exact fun hlater => (List.nodup_append.1 h).2.2 _ (List.mem_map_of_mem hmem) _ hlater rfl

namespace Parser

variable {α : Type} {p : Parser α} {f : Move → α → α} {k : Nat} {t : Token} {e : ParseFailure}

/-- Tokens with the same lexemes are wrong at the same index. -/
theorem Uniform.error_alike (hp : ∀ m, Uniform m p p (f m))
    (hsame : tokens'.map lexeme = tokens.map lexeme) (hnodup : (stops tokens finish).Nodup)
    (h : p ⟨tokens, finish⟩ = .error e) (ht : tokens[k]? = some t) (hpos : e.pos = t.pos)
    (finish' : Position) : ∃ t' e', tokens'[k]? = some t' ∧ p ⟨tokens', finish'⟩ = .error e' ∧
      e'.pos = t'.pos ∧ e'.cause.unplaced = e.cause.unplaced := by
  have halike := Uniform.alike hp hsame hnodup finish'
  rw [h] at halike
  cases h' : p ⟨tokens', finish'⟩ with
  | ok result =>
    rw [h'] at halike
    exact halike.elim
  | error e' =>
    rw [h'] at halike
    obtain ⟨i, hi, hi', hcause⟩ := halike
    have hstop : (stops tokens finish)[k]? = some t.pos := Token.getElem?_stops ht
    obtain rfl : k = i := by
      rw [← List.getElem?_inj (List.getElem?_eq_some_iff.1 hstop).1 hnodup, hi, hstop, hpos]
    obtain ⟨t', ht'⟩ : ∃ t', tokens'[k]? = some t' := by
      have hlexeme := congrArg (·[k]?) hsame
      simp only [List.getElem?_map, ht, Option.map_some] at hlexeme
      obtain ⟨t', ht', -⟩ := Option.map_eq_some_iff.1 hlexeme
      exact ⟨t', ht'⟩
    rw [Token.getElem?_stops ht'] at hi'
    exact ⟨t', e', ht', rfl, (Option.some.inj hi').symm, hcause⟩

/-- Tokens that begin with the same lexemes are wrong at the same index, if that is among these. -/
theorem Local.error_alike {takes : Bool} (hlocal : Local takes p) (hp : ∀ m, Uniform m p p (f m))
    {finish' : Position} (hnodup : (stops tokens finish).Nodup)
    (hnodup' : (stops tokens' finish').Nodup)
    (hsame : (tokens'.take (k + 1)).map lexeme = (tokens.take (k + 1)).map lexeme)
    (h : p ⟨tokens, finish⟩ = .error e) (ht : tokens[k]? = some t) (hpos : e.pos = t.pos) :
    ∃ t' e', tokens'[k]? = some t' ∧ p ⟨tokens', finish'⟩ = .error e' ∧ e'.pos = t'.pos ∧
      e'.cause.unplaced = e.cause.unplaced := by
  have htake : ∀ ts : List Token, (ts.take (k + 1))[k]? = ts[k]? := fun ts =>
    List.getElem?_take_of_lt (Nat.lt_succ_self k)
  -- The tokens up to the wrong one, with nothing after them.
  have hshort : p ⟨tokens.take (k + 1), finish⟩ = .error e := by
    rw [← List.take_append_drop (k + 1) tokens] at h
    have hbeyond := Token.pos_not_mem_stops_drop hnodup ht
    rw [← hpos] at hbeyond
    have := hlocal.error_of_prefix h hbeyond [] finish
    rwa [List.append_nil] at this
  obtain ⟨t', e', ht', hshort', hpos', hcause⟩ := Uniform.error_alike hp hsame
    (Token.nodup_stops_take hnodup (k + 1)) hshort ((htake tokens).trans ht) hpos finish'
  rw [htake] at ht'
  have hbeyond := Token.pos_not_mem_stops_drop hnodup' ht'
  rw [← hpos'] at hbeyond
  have hend : e'.pos ∉ stops [] finish' := fun hmem =>
    hbeyond (stops_subset (List.nil_suffix) hmem)
  rw [← List.append_nil (tokens'.take (k + 1))] at hshort'
  have := hlocal.error_of_prefix hshort' hend (tokens'.drop (k + 1)) finish'
  rw [List.take_append_drop] at this
  exact ⟨t', e', ht', this, hpos', hcause⟩

end Parser

/-- If a source is wrong at a token, then every source with the same tokens up to it is wrong at
that token, and for the same reason. -/
theorem Document.parse_offending {source source' : String} (h : Token.scan source = .ok tokens)
    (h' : Token.scan source' = .ok tokens') {k : Nat} {t : Token} (ht : tokens[k]? = some t)
    (hsame : (tokens'.take (k + 1)).map lexeme = (tokens.take (k + 1)).map lexeme)
    {filename : Option String} {e : ParseError} (he : Document.parse source filename = .error e)
    (hpos : e.pos = t.pos) : ∃ t' e', tokens'[k]? = some t' ∧
      Document.parse source' filename = .error e' ∧ e'.pos = t'.pos ∧
        e'.cause.unplaced = e.cause.unplaced := by
  rw [Document.parse_eq h] at he
  rw [Document.parse_eq h']
  cases hread : Parser.definitions ⟨tokens, Position.start.after source.toList⟩ with
  | ok result =>
    rw [hread] at he
    cases he
  | error failure =>
    rw [hread] at he
    cases he
    obtain ⟨t', failure', ht', hread', hpos', hcause⟩ := Parser.Local.definitions.error_alike
      (fun _ => .definitions) (Token.nodup_stops h) (Token.nodup_stops h') hsame hread ht hpos
    rw [hread']
    exact ⟨t', _, ht', rfl, hpos', hcause⟩

namespace Sample

/-- A fragment without a name, and a brace where its type should be. -/
def fragmentTokens : List Token :=
  [⟨.fragment, "fragment", "fragment", ⟨1, 1⟩, 0, "", none⟩,
    ⟨.on, "on", "on", ⟨1, 10⟩, 9, " ", some 0⟩,
    ⟨.leftBrace, "\x7b", "\x7b", ⟨1, 13⟩, 12, " ", some 1⟩]

/-- The same on three lines, with more of a fragment after it. -/
def longerTokens : List Token :=
  [⟨.fragment, "fragment", "fragment", ⟨1, 1⟩, 0, "", none⟩,
    ⟨.on, "on", "on", ⟨2, 1⟩, 9, "\n", some 0⟩,
    ⟨.leftBrace, "\x7b", "\x7b", ⟨3, 1⟩, 12, "\n", some 1⟩,
    ⟨.identifier, "a", "a", ⟨3, 2⟩, 13, "", some 2⟩,
    ⟨.rightBrace, "\x7d", "\x7d", ⟨3, 3⟩, 14, "", some 3⟩]

/-- Whether the source is wrong at the brace. -/
def isOffending : Bool :=
  match Document.parse "fragment on \x7b" none with
  | .error e => e.pos = ⟨1, 13⟩
  | .ok _ => false

end Sample

theorem Document.parse_offending_brace : ∃ e, Document.parse "fragment on \x7b" none = .error e ∧
    e.pos = ⟨1, 13⟩ ∧ ∃ t' e', Sample.longerTokens[2]? = some t' ∧
      Document.parse "fragment\non\n\x7ba\x7d" none = .error e' ∧ e'.pos = t'.pos ∧
        e'.cause.unplaced = e.cause.unplaced := by
  have h : Token.scan "fragment on \x7b" = .ok Sample.fragmentTokens := rfl
  have h' : Token.scan "fragment\non\n\x7ba\x7d" = .ok Sample.longerTokens := rfl
  have hsame : (Sample.longerTokens.take 3).map lexeme =
      (Sample.fragmentTokens.take 3).map lexeme := rfl
  have hwrong : Sample.isOffending = true := by decide +kernel
  unfold Sample.isOffending at hwrong
  split at hwrong
  · next e he =>
    have hpos := of_decide_eq_true hwrong
    exact ⟨e, he, hpos, Document.parse_offending h h' rfl hsame he hpos⟩
  · cases hwrong

end GraphQL
