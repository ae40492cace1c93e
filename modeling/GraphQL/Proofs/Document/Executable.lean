import GraphQL.Document.Parser.Executable
import GraphQL.Proofs.Document.Values

/-!
# Reading operations and fragments

What follows a selection decides where it ends, so that a selection is read in front of anything
that neither goes on with it nor opens selections.
-/

namespace GraphQL

open Token

/-- What selections are echoed by, at whatever level they are printed. -/
abbrev EchoesSelection : Selection → Selection → Prop :=
  Echoes Selection.same fun item depth => Printer.selection depth item

theorem sameSelections_eq (as bs : List Selection) :
    sameSelections as bs = sameList Selection.same as bs := by
  induction as generalizing bs with
  | nil => cases bs <;> rfl
  | cons a as ih =>
    cases bs with
    | nil => rfl
    | cons b bs => rw [sameSelections, sameList, ih]

namespace Printer

/-- Selections in braces after a blank, closed at the level that they are nested in. -/
def nested (depth : Nat) (items : List Selection) : List Char :=
  ' ' :: '{' :: '\n' :: (selections (depth + 1) items ++ (indent depth ++ ['}']))

def aliasPart (name : Option (Located Name)) : List Char :=
  name.elim [] fun name => name.node.toList ++ [':', ' ']

def conditionPart (condition : Option TypeCondition) : List Char :=
  condition.elim [] fun condition => ' ' :: ("on ".toList ++ condition.on.node.toList)

theorem selection_field (depth : Nat) (f : Field) : selection depth (.field f) =
    aliasPart f.aliasName ++ (f.name.node.toList ++ (arguments f.arguments ++
      (directives f.directives ++
        if f.selections.items = [] then [] else nested depth f.selections.items))) := by
  obtain ⟨pos, aliasName, name, args, dirs, pos', items⟩ := f
  unfold selection aliasPart nested
  cases aliasName <;> simp

theorem selection_inline (depth : Nat) (f : InlineFragment) : selection depth (.inline f) =
    '.' :: '.' :: '.' :: (conditionPart f.condition ++ (directives f.directives ++
      nested depth f.selections.items)) := by
  obtain ⟨pos, condition, dirs, pos', items⟩ := f
  unfold selection conditionPart nested
  cases condition <;> simp

/-- A selection on a line of its own. -/
def selectionLine (depth : Nat) (item : Selection) : List Char :=
  indent depth ++ selection depth item ++ ['\n']

theorem selections_eq (depth : Nat) (items : List Selection) :
    selections depth items = (items.map (selectionLine depth)).flatten := by
  induction items with
  | nil => rfl
  | cons item items ih =>
    rw [selections, ih, List.map_cons, List.flatten_cons, selectionLine]
    simp

end Printer

theorem EchoesSelection.selections {as bs : List Selection} (h : List.Forall₂ EchoesSelection as bs)
    (depth : Nat) : Printer.selections depth bs = Printer.selections depth as := by
  induction h with
  | nil => rfl
  | @cons a b as bs h _ ih =>
    have hline : Printer.selection depth b = Printer.selection depth a := congrFun h.2 depth
    rw [Printer.selections, Printer.selections, ih, hline]

theorem EchoesSelection.same {as bs : List Selection} (h : List.Forall₂ EchoesSelection as bs) :
    sameSelections bs as = true := by
  rw [sameSelections_eq]
  exact (Echoes.list h).1

theorem EchoesSelection.isEmpty {as bs : List Selection} (h : List.Forall₂ EchoesSelection as bs) :
    bs = [] ↔ as = [] := by
  cases h <;> simp

theorem sameOption_of_map {α : Type} [DecidableEq α] {a b : Option (Located α)}
    (h : b.map Located.node = a.map Located.node) : sameOption Located.same b a = true := by
  cases a with
  | none =>
    cases b with
    | none => rfl
    | some y => cases h
  | some x =>
    cases b with
    | none => cases h
    | some y => simpa [sameOption, Located.same] using h

theorem Printer.aliasPart_eq (name : Option (Located Name)) : aliasPart name =
    (name.map Located.node).elim [] fun name => name.toList ++ [':', ' '] := by
  cases name <;> rfl

theorem EchoesSelection.field {f g : Field}
    (halias : g.aliasName.map Located.node = f.aliasName.map Located.node)
    (hname : g.name.node = f.name.node)
    (hargs : Echoes (sameList Argument.same) Printer.arguments f.arguments g.arguments)
    (hdirs : Echoes (sameList Directive.same) Printer.directives f.directives g.directives)
    (hitems : List.Forall₂ EchoesSelection f.selections.items g.selections.items) :
    EchoesSelection (.field f) (.field g) := by
  constructor
  · have halias := sameOption_of_map halias
    have hitems := EchoesSelection.same hitems
    obtain ⟨pos, aliasName, name, args, dirs, pos', items⟩ := g
    simp only at halias hname hargs hdirs hitems
    rw [Selection.same]
    simp [Located.same, halias, hname, hargs.1, hdirs.1, hitems]
  · funext depth
    show Printer.selection depth _ = Printer.selection depth _
    rw [Printer.selection_field, Printer.selection_field, Printer.aliasPart_eq, Printer.aliasPart_eq,
      halias, hname, hargs.2, hdirs.2, Printer.nested, Printer.nested,
      EchoesSelection.selections hitems]
    simp only [EchoesSelection.isEmpty hitems]

theorem EchoesSelection.spread {s t : FragmentSpread} (hname : t.name.node = s.name.node)
    (hdirs : Echoes (sameList Directive.same) Printer.directives s.directives t.directives) :
    EchoesSelection (.spread s) (.spread t) := by
  constructor
  · rw [Selection.same, FragmentSpread.same, Located.same, hname, hdirs.1]
    simp
  · funext depth
    show Printer.selection depth _ = Printer.selection depth _
    rw [Printer.selection, Printer.selection, hname, hdirs.2]

theorem Printer.conditionPart_eq (c : Option TypeCondition) : conditionPart c =
    (c.map fun c => c.on.node).elim [] fun name => ' ' :: ("on ".toList ++ name.toList) := by
  cases c <;> rfl

theorem sameCondition {a b : Option TypeCondition}
    (h : b.map (fun c => c.on.node) = a.map fun c => c.on.node) :
    sameOption TypeCondition.same b a = true := by
  cases a with
  | none =>
    cases b with
    | none => rfl
    | some y => cases h
  | some x =>
    cases b with
    | none => cases h
    | some y => simpa [sameOption, TypeCondition.same, Located.same] using h

theorem EchoesSelection.inline {f g : InlineFragment}
    (hcondition : g.condition.map (fun c => c.on.node) = f.condition.map fun c => c.on.node)
    (hdirs : Echoes (sameList Directive.same) Printer.directives f.directives g.directives)
    (hitems : List.Forall₂ EchoesSelection f.selections.items g.selections.items) :
    EchoesSelection (.inline f) (.inline g) := by
  constructor
  · have hcondition := sameCondition hcondition
    have hitems := EchoesSelection.same hitems
    obtain ⟨pos, condition, dirs, pos', items⟩ := g
    simp only at hcondition hdirs hitems
    rw [Selection.same, hcondition, hdirs.1, hitems]
    rfl
  · funext depth
    show Printer.selection depth _ = Printer.selection depth _
    rw [Printer.selection_inline, Printer.selection_inline, Printer.conditionPart_eq,
      Printer.conditionPart_eq, hcondition, hdirs.2, Printer.nested, Printer.nested,
      EchoesSelection.selections hitems]

/-! ## What is ignored in front of a line -/

theorem Token.begins_indent {cs rest : List Char} {l : Lexeme} (depth : Nat)
    (h : Begins cs l rest) : Begins (Printer.indent depth ++ cs) l rest := by
  unfold Printer.indent
  induction 2 * depth with
  | zero => exact h
  | succ n ih => exact (begins_ignored rfl).2 ih

theorem Token.avoids_indent {cs : List Char} {kinds : List Kind} (depth : Nat)
    (h : Avoids cs kinds) : Avoids (Printer.indent depth ++ cs) kinds := by
  unfold Printer.indent
  induction 2 * depth with
  | zero => exact h
  | succ n ih => exact (avoids_ignored rfl).2 ih

namespace Parser.Reads

variable {rest : List Char} {levels : Nat}

theorem indent {α : Type} {n : Nat} {p : Parser α} {cs : List Char} {Q : α → Prop} (depth : Nat)
    (h : Reads n p cs rest Q) : Reads n p (Printer.indent depth ++ cs) rest Q := by
  unfold Printer.indent
  induction 2 * depth with
  | zero => exact h
  | succ n ih => exact ignored rfl ih

/-! ## Selections -/

/-- What goes on with a selection. -/
def selectionFollow : List Token.Kind :=
  [.colon, .leftParen, .atSign, .leftBrace]

theorem avoids_field {f : Field} {kinds : List Token.Kind}
    (halias : ∀ name ∈ f.aliasName, name.node.isValid = true) (hname : f.name.node.isValid = true)
    (hk : ∀ k ∈ kinds, k.isName = false) (depth : Nat) (rest : List Char) :
    Avoids (Printer.selection depth (.field f) ++ rest) kinds := by
  rw [Printer.selection_field, Printer.aliasPart]
  cases hx : f.aliasName with
  | some x =>
    simp only [Option.elim_some, List.append_assoc]
    exact avoids_name (halias x hx) hk _
  | none =>
    simp only [Option.elim_none, List.append_assoc, List.nil_append]
    exact avoids_name hname hk _

theorem avoids_selection {item : Selection} (h : item.Writable levels) (depth : Nat)
    (rest : List Char) :
    Avoids (Printer.selection depth item ++ rest) (.rightBrace :: selectionFollow) := by
  cases h with
  | field halias hname => exact avoids_field halias hname (by decide) depth rest
  | spread =>
    rw [Printer.selection]
    exact avoids_ellipsis (by decide) _
  | inline =>
    rw [Printer.selection_inline]
    exact avoids_ellipsis (by decide) _

/-- How a selection is read wherever it is printed. -/
def ReadsSelection (levels : Nat) (item : Selection) : Prop :=
  ∀ (depth : Nat) {rest : List Char}, Cut rest → Avoids rest selectionFollow →
    Reads 1 (Parser.selection levels (Parser.selectionSet levels))
      (Printer.selection depth item ++ rest) rest (EchoesSelection item)

/-- Selections in braces, closed at any indentation. -/
theorem block {items : List Selection} (hw : ∀ item ∈ items, item.Writable levels)
    (h : ∀ item ∈ items, ReadsSelection levels item) (depth outer : Nat) (rest : List Char) :
    Reads 1 (Parser.selectionSet (levels + 1))
      ('{' :: '\n' :: (Printer.selections depth items ++ (Printer.indent outer ++ '}' :: rest))) rest
      fun b => List.Forall₂ EchoesSelection items b.items := by
  rw [Parser.selectionSet, Printer.selections_eq]
  refine position.andThen fun pos _ => ?_
  refine (lines selectionFollow rfl (begins_indent outer (begins_punctuator rfl rest)) rfl
    (by decide) ?_ ?_).bind fun items' hitems => .pure hitems
  · intro item hi tail
    simp only [Printer.selectionLine, List.append_assoc]
    exact avoids_indent depth (avoids_selection (hw item hi) depth _)
  · intro item hi tail ht
    simp only [Printer.selectionLine, List.append_assoc]
    refine indent depth ((h item hi depth (cut_newline _) ?_).leavesIgnored rfl)
    exact (avoids_ignored rfl).2 ht

theorem typeCondition {c : TypeCondition} (h : c.on.node.isValid = true) (hrest : Cut rest) :
    Reads 1 Parser.typeCondition ("on ".toList ++ c.on.node.toList ++ rest) rest fun c' =>
      c'.on.node = c.on.node := by
  have hb : Begins ("on ".toList ++ c.on.node.toList ++ rest) (.plain .on "on".toList)
      (' ' :: (c.on.node.toList ++ rest)) :=
    begins_name (n := "on") rfl (cut_blank _).isNameContinue
  refine position.andThen fun pos _ => (expect hb rfl).bind fun _ _ => ignored rfl ?_
  exact (Reads.name h hrest).weaken.bind fun x hx => .pure hx

theorem cut_nested (items : List Selection) (depth : Nat) (hrest : Cut rest) :
    Cut ((if items = [] then [] else Printer.nested depth items) ++ rest) := by
  split
  · exact hrest
  · exact cut_blank _

theorem avoids_nested {kinds : List Token.Kind} (items : List Selection) (depth : Nat)
    (hrest : Avoids rest kinds) (hk : .leftBrace ∉ kinds) :
    Avoids ((if items = [] then [] else Printer.nested depth items) ++ rest) kinds := by
  split
  · exact hrest
  · exact (avoids_ignored rfl).2 (avoids_punctuator rfl hk _)

/-- Arguments, directives and selections of a field. -/
theorem fieldParts {f : Field} {levels : Nat} {γ : Type}
    (hargs : ∀ a ∈ f.arguments, a.Writable (fun name => Name.isValid name = true) levels)
    (hdirs : DirectivesWritable levels f.directives) (hlevels : f.selections.items ≠ [] → 0 < levels)
    (hw : ∀ item ∈ f.selections.items, item.Writable (levels - 1))
    (h : ∀ item ∈ f.selections.items, ReadsSelection (levels - 1) item) (depth : Nat)
    (hrest : Cut rest) (havoids : Avoids rest selectionFollow)
    (g : List (Argument Name) → List (Directive Name) → SelectionSet → γ) :
    Reads 0 (do
      let arguments ← Parser.arguments (literal levels)
      let directives ← Parser.directives (literal levels)
      let selections ←
        if ← nextIs .leftBrace then Parser.selectionSet levels
        else Pure.pure ⟨← Parser.position, []⟩
      Pure.pure (g arguments directives selections))
      (Printer.arguments f.arguments ++ (Printer.directives f.directives ++
        ((if f.selections.items = [] then [] else Printer.nested depth f.selections.items) ++ rest)))
      rest fun f' => ∃ as ds b, f' = g as ds b ∧
        Echoes (sameList Argument.same) Printer.arguments f.arguments as ∧
        Echoes (sameList Directive.same) Printer.directives f.directives ds ∧
        List.Forall₂ EchoesSelection f.selections.items b.items := by
  have hbody := cut_nested f.selections.items depth hrest
  have hfollow : Avoids (_ ++ rest) [.atSign, .leftParen] :=
    avoids_nested f.selections.items depth (havoids.of_subset (by decide)) (by decide)
  refine (literalArguments hargs ?_).bind fun as has => ?_
  · exact avoids_literalDirectives _ (hfollow.of_subset (by decide)) (by decide)
  refine (literalDirectives hdirs hbody hfollow).bind fun ds hds => ?_
  by_cases hnil : f.selections.items = []
  · rw [if_pos hnil]
    refine (nextIs_false (havoids.of_subset ?_) (List.mem_singleton_self _)).bind fun _ hf => ?_
    · decide
    subst hf
    refine position.bind fun pos _ => .pure ⟨as, ds, _, rfl, has, hds, ?_⟩
    rw [hnil]
    exact .nil
  · obtain ⟨m, rfl⟩ : ∃ m, levels = m + 1 := ⟨levels - 1, by have := hlevels hnil; omega⟩
    rw [if_neg hnil]
    unfold Printer.nested
    simp only [List.cons_append, List.append_assoc, List.nil_append]
    refine (nextIs_true ((begins_ignored rfl).2 (begins_punctuator rfl _)) rfl).bind fun _ ht => ?_
    subst ht
    exact (ignored rfl (block hw h (depth + 1) depth rest)).weaken.bind fun b hb =>
      .pure ⟨as, ds, b, rfl, has, hds, hb⟩

theorem fieldSelection {f : Field} (halias : ∀ name ∈ f.aliasName, name.node.isValid = true)
    (hname : f.name.node.isValid = true)
    (hargs : ∀ a ∈ f.arguments, a.Writable (fun name => Name.isValid name = true) levels)
    (hdirs : DirectivesWritable levels f.directives) (hlevels : f.selections.items ≠ [] → 0 < levels)
    (hw : ∀ item ∈ f.selections.items, item.Writable (levels - 1))
    (h : ∀ item ∈ f.selections.items, ReadsSelection (levels - 1) item) :
    ReadsSelection levels (.field f) := by
  intro depth rest hrest havoids
  have hellipsis : Avoids _ [.ellipsis] := avoids_field halias hname (by decide) depth rest
  unfold Parser.selection Parser.field
  refine position.andThen fun pos _ =>
    (eat_false hellipsis (List.mem_singleton_self _)).andThen fun _ hf => ?_
  subst hf
  rw [Printer.selection_field, Printer.aliasPart_eq]
  simp only [List.append_assoc]
  have hcolon : Avoids _ [.colon] := avoids_parenthesized (f.arguments.map Printer.argument)
    (avoids_literalDirectives f.directives (avoids_nested f.selections.items depth
      (havoids.of_subset (by decide)) (by decide)) (by decide)) (by decide)
  have hcut := cut_parenthesized (f.arguments.map Printer.argument)
    (cut_literalDirectives f.directives (cut_nested f.selections.items depth hrest))
  have hparts := fun γ => fieldParts (γ := γ) hargs hdirs hlevels hw h depth hrest havoids
  rw [← Printer.arguments] at hcolon hcut
  generalize Printer.arguments f.arguments ++ _ = tail at *
  cases hx : f.aliasName with
  | none =>
    simp only [Option.map_none, Option.elim_none, List.nil_append]
    refine bind (position.andThen fun pos _ => (Reads.name hname hcut).bind fun first hfirst => ?_)
      fun f' hf' => .pure hf'
    refine (eat_false hcolon (List.mem_singleton_self _)).bind fun _ hf => ?_
    subst hf
    refine (hparts _ _).imp ?_
    rintro _ ⟨as, ds, b, rfl, has, hds, hb⟩
    exact .field (by rw [hx]; rfl) hfirst has hds hb
  | some x =>
    simp only [Option.map_some, Option.elim_some, List.append_assoc]
    refine bind (position.andThen fun pos _ => (Reads.name (halias x hx)
      (cut_punctuator rfl _)).bind fun first hfirst => ?_) fun f' hf' => .pure hf'
    refine (eatPunctuator rfl _).weaken.bind fun _ ht => ?_
    subst ht
    refine (Reads.name hname hcut).weaken.ignored rfl |>.bind fun actual hactual => ?_
    refine (hparts _ _).imp ?_
    rintro _ ⟨as, ds, b, rfl, has, hds, hb⟩
    exact .field (by rw [hx]; exact congrArg some hfirst) hactual has hds hb

theorem spreadSelection {s : FragmentSpread} (hname : s.name.node.isValid = true)
    (hon : s.name.node ≠ "on") (hdirs : DirectivesWritable levels s.directives) :
    ReadsSelection levels (.spread s) := by
  intro depth rest hrest havoids
  rw [Printer.selection]
  simp only [List.cons_append, List.append_assoc, List.nil_append]
  refine position.andThen fun pos _ => (eat_true (begins_ellipsis _) rfl).bind fun _ ht => ?_
  subst ht
  have hcut := cut_literalDirectives s.directives hrest
  have hb := begins_name hname hcut.isNameContinue
  refine (peekKind hb).bind fun kind hkind => ?_
  replace hkind : kind = some (Kind.ofName s.name.node) := hkind
  have hne : kind ≠ some .on ∧ kind ≠ some .leftBrace ∧ kind ≠ some .atSign := by
    have hisName := isName_ofName s.name.node
    rw [hkind]
    refine ⟨fun he => hon (eq_of_ofName (Option.some.inj he) rfl (by decide)), fun he => ?_,
      fun he => ?_⟩ <;>
    · rw [Option.some.inj he] at hisName
      cases hisName
  rw [if_neg (by simpa [and_assoc] using hne)]
  refine (Reads.name hname hcut).weaken.bind fun x hx => ?_
  exact (literalDirectives hdirs hrest (havoids.of_subset (by decide))).bind fun ds hds =>
    .pure (.spread hx hds)

theorem cut_nestedItems (items : List Selection) (depth : Nat) (rest : List Char) :
    Cut (Printer.nested depth items ++ rest) :=
  cut_blank _

/-- Directives and selections of an inline fragment. -/
theorem inlineParts {f : InlineFragment} {γ : Type}
    (hdirs : DirectivesWritable (levels + 1) f.directives)
    (hw : ∀ item ∈ f.selections.items, item.Writable levels)
    (h : ∀ item ∈ f.selections.items, ReadsSelection levels item) (depth : Nat) (rest : List Char)
    (g : List (Directive Name) → SelectionSet → γ) :
    Reads 0 (do
      let directives ← Parser.directives (literal (levels + 1))
      let selections ← Parser.selectionSet (levels + 1)
      Pure.pure (g directives selections))
      (Printer.directives f.directives ++ (Printer.nested depth f.selections.items ++ rest)) rest
      fun f' => ∃ ds b, f' = g ds b ∧
        Echoes (sameList Directive.same) Printer.directives f.directives ds ∧
        List.Forall₂ EchoesSelection f.selections.items b.items := by
  have havoids : Avoids (Printer.nested depth f.selections.items ++ rest) [.atSign, .leftParen] :=
    (avoids_ignored rfl).2 (avoids_punctuator rfl (by decide) _)
  refine (literalDirectives hdirs (cut_nestedItems _ depth rest) havoids).bind fun ds hds => ?_
  unfold Printer.nested
  simp only [List.cons_append, List.append_assoc, List.nil_append]
  exact (ignored rfl (block hw h (depth + 1) depth rest)).weaken.bind fun b hb =>
    .pure ⟨ds, b, rfl, hds, hb⟩

theorem begins_inlineParts (f : InlineFragment) (depth : Nat) (rest : List Char) : ∃ l mid,
    Begins (Printer.directives f.directives ++ (Printer.nested depth f.selections.items ++ rest)) l
      mid ∧ (l.kind = .atSign ∨ l.kind = .leftBrace) := by
  cases hd : f.directives with
  | nil => exact ⟨_, _, (begins_ignored rfl).2 (begins_punctuator rfl _), .inr rfl⟩
  | cons d ds =>
    exact ⟨_, _, (begins_ignored rfl).2 (begins_punctuator rfl _), .inl rfl⟩

theorem inlineSelection {f : InlineFragment}
    (hcondition : ∀ c ∈ f.condition, c.on.node.isValid = true)
    (hdirs : DirectivesWritable (levels + 1) f.directives)
    (hw : ∀ item ∈ f.selections.items, item.Writable levels)
    (h : ∀ item ∈ f.selections.items, ReadsSelection levels item) :
    ReadsSelection (levels + 1) (.inline f) := by
  intro depth rest hrest havoids
  rw [Printer.selection_inline]
  simp only [List.cons_append, List.append_assoc]
  refine position.andThen fun pos _ => (eat_true (begins_ellipsis _) rfl).bind fun _ ht => ?_
  subst ht
  have hparts := fun γ => inlineParts (γ := γ) hdirs hw h depth rest
  have hcut := cut_literalDirectives f.directives (cut_nestedItems f.selections.items depth rest)
  obtain ⟨kind, mid, hb, hk⟩ := begins_inlineParts f depth rest
  generalize Printer.directives f.directives ++ _ = tail at *
  cases hx : f.condition with
  | none =>
    simp only [Printer.conditionPart, Option.elim_none, List.nil_append]
    refine (peekKind hb).bind fun kind hkind => ?_
    subst hkind
    rcases hk with hk | hk <;>
    · rw [hk]
      refine (hparts _ _).imp ?_
      rintro _ ⟨ds, b, rfl, hds, hb⟩
      exact .inline (by rw [hx]) hds hb
  | some c =>
    simp only [Printer.conditionPart, Option.elim_some, List.cons_append, List.append_assoc]
    have hb : Begins ("on ".toList ++ (c.on.node.toList ++ tail)) (.plain .on "on".toList)
        (' ' :: (c.on.node.toList ++ tail)) :=
      begins_name (n := "on") rfl (cut_blank _).isNameContinue
    refine ignored rfl ((peekKind hb).bind fun kind hkind => ?_)
    subst hkind
    have hcondition := typeCondition (hcondition c hx) hcut
    rw [List.append_assoc] at hcondition
    refine (hcondition.weaken.map (R := fun c' => c'.map (fun c => c.on.node) = some c.on.node)
      fun c' hc' => congrArg some hc').bind fun c' hc' => (hparts _ _).imp ?_
    rintro _ ⟨ds, b, rfl, hds, hb⟩
    exact .inline (by rw [hx]; exact hc') hds hb

theorem selection {item : Selection} (h : item.Writable levels) : ReadsSelection levels item := by
  induction h with
  | field halias hname hargs hdirs hlevels hw ih =>
    exact fieldSelection halias hname hargs hdirs hlevels hw ih
  | spread hname hon hdirs => exact spreadSelection hname hon hdirs
  | inline hcondition hdirs hw ih => exact inlineSelection hcondition hdirs hw ih

/-- Selections outside of any others. -/
theorem selectionSet {s : SelectionSet} (h : s.Writable) (rest : List Char) :
    Reads 1 (Parser.selectionSet nestingLimit) (Printer.selectionSet s ++ rest) rest fun b =>
      List.Forall₂ EchoesSelection s.items b.items := by
  unfold Printer.selectionSet
  simp only [List.cons_append, List.append_assoc, List.nil_append]
  have hw : ∀ item ∈ s.items, item.Writable 63 := h
  exact block hw (fun item hi => selection (hw item hi)) 1 0 rest

end Parser.Reads

/-! ## Operations -/

theorem sameDefault {a b : Option (Located Const)}
    (h : ∀ v ∈ a, Const.Writable nestingLimit v.node)
    (heq : b.map Located.node = a.map Located.node) :
    sameOption (Located.sameBy Value.same) b a = true := by
  cases a with
  | none =>
    cases b with
    | none => rfl
    | some y => cases heq
  | some x =>
    cases b with
    | none => cases heq
    | some y =>
      have hnode : y.node = x.node := Option.some.inj heq
      rw [sameOption, Located.sameBy, hnode]
      exact Value.same_self (h x rfl)

theorem Printer.default_eq (v : Option (Located Const)) : default v =
    (v.map Located.node).elim [] fun c => ' ' :: '=' :: ' ' :: c.chars := by
  cases v <;> rfl

namespace Printer

/-- A type, a default value and directives, after a colon. -/
def typed (type : Located TypeRef) (value : Option (Located Const)) (ds : List (Directive Empty)) :
    List Char :=
  ':' :: ' ' :: (type.node.chars ++ (default value ++ constDirectives ds))

theorem variableDefinition_eq (v : VariableDefinition) : variableDefinition v =
    '$' :: (v.name.node.toList ++ typed v.type v.default v.directives) := by
  unfold variableDefinition typed
  simp

/-- A name after a blank, if there is one. -/
def namePart (name : Option (Located Name)) : List Char :=
  (name.map Located.node).elim [] fun name => ' ' :: name.toList

/-- An operation with its keyword, up to its selections. -/
def operationHead (o : Operation) : List Char :=
  o.kind.text.toList ++ (namePart o.name ++
    (parenthesized (o.variableDefinitions.map variableDefinition) ++ (directives o.directives ++ [' '])))

theorem operation_eq (o : Operation) : operation o =
    (if isShorthand o then [] else operationHead o) ++ selectionSet o.selections := by
  unfold operation operationHead namePart
  cases o.name <;> simp

theorem fragment_eq (f : Fragment) : fragment f = "fragment".toList ++ (namePart f.name ++
    (' ' :: ("on ".toList ++ f.condition.on.node.toList) ++ (directives f.directives ++ ' ' ::
      selectionSet f.selections))) := by
  unfold fragment namePart
  cases f.name <;> simp

theorem inputValue_eq (v : InputValueDefinition) : inputValue v =
    v.name.node.toList ++ typed v.type v.default v.directives := by
  unfold inputValue typed
  simp

end Printer

theorem echoesOperation {o p : Operation} (hkind : p.kind = o.kind)
    (hname : p.name.map Located.node = o.name.map Located.node)
    (hvariables : Echoes (sameList VariableDefinition.same) (List.map Printer.variableDefinition)
      o.variableDefinitions p.variableDefinitions)
    (hdirs : Echoes (sameList Directive.same) Printer.directives o.directives p.directives)
    (hitems : List.Forall₂ EchoesSelection o.selections.items p.selections.items) :
    Echoes Operation.same Printer.operation o p := by
  constructor
  · have hsame := EchoesSelection.same hitems
    simp [Operation.same, SelectionSet.same, hkind, sameOption_of_map hname, hvariables.1, hdirs.1,
      hsame]
  · have hshorthand : Printer.isShorthand p = Printer.isShorthand o := by
      have hnone : p.name.isNone = o.name.isNone := by
        simpa using congrArg Option.isNone hname
      rw [Printer.isShorthand, Printer.isShorthand, hkind, hnone, isEmpty_of_sameList hvariables.1,
        isEmpty_of_sameList hdirs.1]
    rw [Printer.operation_eq, Printer.operation_eq, hshorthand, Printer.operationHead,
      Printer.operationHead, Printer.namePart, Printer.namePart, hkind, hname, hvariables.2, hdirs.2,
      Printer.selectionSet, Printer.selectionSet, EchoesSelection.selections hitems]

namespace Parser.Reads

variable {rest : List Char}

/-- What goes on with a typed part. -/
def typedFollow : List Token.Kind :=
  [.bang, .equals, .atSign, .leftParen]

theorem typed {type : Located TypeRef} {value : Option (Located Const)}
    {ds : List (Directive Empty)} {γ : Type} (htype : type.node.Writable nestingLimit)
    (hvalue : ∀ v ∈ value, Const.Writable nestingLimit v.node) (hds : ConstDirectivesWritable ds)
    (hrest : Cut rest) (havoids : Avoids rest typedFollow)
    (g : Located TypeRef → Option (Located Const) → List (Directive Empty) → γ) :
    Reads 0 (do
      let _ ← Parser.expect .colon
      let type ← Parser.typeRef nestingLimit
      let default ← Parser.default?
      let directives ← Parser.constDirectives
      Pure.pure (g type default directives)) (Printer.typed type value ds ++ rest) rest
      fun x => ∃ t v es, x = g t v es ∧ t.node = type.node ∧
        v.map Located.node = value.map Located.node ∧
        Echoes (sameList Directive.same) Printer.constDirectives ds es := by
  unfold Printer.typed
  simp only [List.cons_append, List.append_assoc]
  refine (punctuator rfl _).weaken.bind fun _ _ => ignored rfl ?_
  have hcut := cut_constDirectives ds hrest
  have hdirectives : Avoids (Printer.constDirectives ds ++ rest) [.bang, .equals] :=
    avoids_constDirectives ds (havoids.of_subset (by decide)) (by decide)
  refine (typeRef htype ?_ ?_).weaken.bind fun t ht => ?_
  · rw [Printer.default_eq]
    cases value with
    | none => exact hcut
    | some v => exact cut_blank _
  · rw [Printer.default_eq]
    cases value with
    | none => exact hdirectives.of_subset (by decide)
    | some v => exact (avoids_ignored rfl).2 (avoids_punctuator rfl (by decide) _)
  refine (default? hvalue hcut (hdirectives.of_subset (by decide))).bind fun v hv => ?_
  exact (constDirectives hds hrest (havoids.of_subset (by decide))).bind fun es hes =>
    .pure ⟨t, v, es, rfl, ht, hv, hes⟩

theorem variableDefinition {v : VariableDefinition} (h : v.Writable) (hrest : Cut rest)
    (havoids : Avoids rest typedFollow) :
    Reads 1 Parser.variableDefinition (Printer.variableDefinition v ++ rest) rest
      (Echoes VariableDefinition.same Printer.variableDefinition v) := by
  rw [Printer.variableDefinition_eq]
  simp only [List.cons_append, List.append_assoc]
  refine position.andThen fun pos _ => (punctuator rfl _).bind fun _ _ => ?_
  refine (Reads.name h.name (cut_punctuator rfl _)).weaken.bind fun x hx => ?_
  refine (typed h.type h.default h.directives hrest havoids _).imp ?_
  rintro _ ⟨t, value, ds, rfl, ht, hvalue, hds⟩
  refine ⟨?_, ?_⟩
  · simp [VariableDefinition.same, Located.same, hx, ht, sameDefault h.default hvalue, hds.1]
  · rw [Printer.variableDefinition_eq, Printer.variableDefinition_eq, Printer.typed, Printer.typed,
      Printer.default_eq, Printer.default_eq, hx, ht, hvalue, hds.2]

theorem cut_namePart (name : Option (Located Name)) (hrest : Cut rest) :
    Cut (Printer.namePart name ++ rest) := by
  cases name with
  | none => exact hrest
  | some x => exact cut_blank _

theorem variableDefinitions {vs : List VariableDefinition} (h : ∀ v ∈ vs, v.Writable)
    (hrest : Avoids rest [.leftParen]) :
    Reads 0 (optionalDelimited .leftParen .rightParen Parser.variableDefinition)
      (Printer.parenthesized (vs.map Printer.variableDefinition) ++ rest) rest
      (Echoes (sameList VariableDefinition.same) (List.map Printer.variableDefinition) vs) := by
  refine (parenthesized typedFollow hrest (by decide) (fun v hv tail ht => ?_)
    fun v hv tail hcut ht => variableDefinition (h v hv) hcut ht).imp fun _ => Echoes.list
  rw [Printer.variableDefinition_eq]
  exact avoids_punctuator rfl (by decide) _

theorem optionalName {name : Option (Located Name)} (h : ∀ x ∈ name, x.node.isValid = true)
    (hrest : Cut rest) (havoids : Avoids rest Kind.names) :
    Reads 0 Parser.optionalName
      (Printer.namePart name ++ rest) rest fun x => x.map Located.node = name.map Located.node := by
  unfold Printer.namePart
  cases name with
  | none =>
    refine (peekKind_avoids havoids).bind fun kind hkind => ?_
    cases kind with
    | none => exact .pure rfl
    | some kind =>
      have hno : kind.isName = false :=
        Bool.eq_false_iff.2 fun ht => hkind kind (mem_names_of_isName ht) rfl
      simp only [hno]
      exact .pure rfl
  | some x =>
    simp only [Option.map_some, Option.elim_some, List.cons_append]
    refine ignored rfl ((peekKind (begins_name (h x rfl) hrest.isNameContinue)).bind
      fun kind hkind => ?_)
    subst hkind
    simp only [Lexeme.plain, isName_ofName, if_true]
    exact ((Reads.name (h x rfl) hrest).weaken.map fun y hy => congrArg some hy)

theorem shorthand {o : Operation} (h : o.Writable) (hs : Printer.isShorthand o = true)
    (rest : List Char) :
    Reads 1 Parser.operation (Printer.operation o ++ rest) rest
      (Echoes Operation.same Printer.operation o) := by
  rw [Printer.operation_eq, hs]
  simp only [if_true, List.nil_append]
  simp only [Printer.isShorthand, Bool.and_eq_true, decide_eq_true_eq, Option.isNone_iff_eq_none,
    List.isEmpty_iff] at hs
  obtain ⟨⟨⟨hkind, hname⟩, hvariables⟩, hdirectives⟩ := hs
  have hset : Begins (Printer.selectionSet o.selections ++ rest) (.plain .leftBrace ['{']) _ :=
    begins_punctuator rfl _
  refine position.andThen fun pos _ => (nextIs_true hset rfl).andThen fun _ ht => ?_
  subst ht
  refine (selectionSet h.selections rest).bind fun b hb => .pure ?_
  refine echoesOperation hkind.symm (by rw [hname]) ?_ ?_ hb
  · rw [hvariables]
    exact ⟨rfl, rfl⟩
  · rw [hdirectives]
    exact ⟨rfl, rfl⟩

theorem keywordOperation {o : Operation} (h : o.Writable) (hs : Printer.isShorthand o = false)
    (rest : List Char) :
    Reads 1 Parser.operation (Printer.operation o ++ rest) rest
      (Echoes Operation.same Printer.operation o) := by
  rw [Printer.operation_eq, hs, Printer.operationHead]
  simp only [Bool.false_eq_true, if_false, List.append_assoc, List.cons_append, List.nil_append]
  have hselections := selectionSet h.selections rest
  have hset : Begins (Printer.selectionSet o.selections ++ rest) (.plain .leftBrace ['{']) _ :=
    begins_punctuator rfl _
  have hbrace : Avoids (' ' :: (Printer.selectionSet o.selections ++ rest))
      (.leftParen :: .atSign :: Kind.names) :=
    (avoids_ignored rfl).2 (hset.avoids (show Kind.leftBrace ∉ _ by decide))
  generalize Printer.selectionSet o.selections ++ rest = tail at hselections hbrace
  have hdirectives := cut_literalDirectives o.directives (cut_blank tail)
  have hparen : Avoids _ (.leftParen :: Kind.names) :=
    avoids_literalDirectives o.directives (hbrace.of_subset (by decide)) (by decide)
  have hvariables := cut_parenthesized (o.variableDefinitions.map Printer.variableDefinition)
    hdirectives
  have hnames : Avoids _ Kind.names := avoids_parenthesized
    (o.variableDefinitions.map Printer.variableDefinition) (hparen.of_subset (by decide)) (by decide)
  have hkeyword := begins_name (n := o.kind.text) (by cases o.kind <;> rfl)
    (cut_namePart o.name hvariables).isNameContinue
  have hbraceless : Avoids _ [.leftBrace] := hkeyword.avoids (by
    simp only [Lexeme.plain]
    cases o.kind <;> decide)
  refine position.andThen fun pos _ =>
    (nextIs_false hbraceless (List.mem_singleton_self _)).andThen fun _ hf => ?_
  subst hf
  refine (next hkeyword).bind fun keyword hkind => ?_
  replace hkind : keyword.kind = .ofName o.kind.text := congrArg Lexeme.kind hkind
  refine (optionalName h.name hvariables hnames).bind fun name hname => ?_
  refine (variableDefinitions h.variableDefinitions (hparen.of_subset (by decide))).bind
    fun vs hvs => ?_
  refine (literalDirectives h.directives (cut_blank _) (hbrace.of_subset (by decide))).bind
    fun ds hds => ?_
  refine (ignored rfl hselections).weaken.bind fun b hb => .pure ?_
  refine echoesOperation ?_ hname hvs hds hb
  rw [hkind]
  cases o.kind <;> rfl

theorem operation {o : Operation} (h : o.Writable) (rest : List Char) :
    Reads 1 Parser.operation (Printer.operation o ++ rest) rest
      (Echoes Operation.same Printer.operation o) := by
  cases hs : Printer.isShorthand o with
  | true => exact shorthand h hs rest
  | false => exact keywordOperation h hs rest

/-! ## Fragments -/

/-- The name of a fragment, up to its type condition. -/
theorem fragmentName {f : Fragment} (h : f.Writable) {γ : Type} {Q : γ → Prop} {mid : List Char}
    (hmid : Cut mid) (k : Option (Located Name) → Parser γ)
    (hk : ∀ name, name.map Located.node = f.name.map Located.node →
      Reads 0 (k name) (' ' :: ("on ".toList ++ f.condition.on.node.toList ++ mid)) rest Q) :
    Reads 0 (do
      let anonymous := (← Parser.peekKind) = some .on && !((← Parser.peekSecondKind) = some .on)
      let name ← if anonymous then Pure.pure none else some <$> Parser.name
      k name)
      (Printer.namePart f.name ++ (' ' :: ("on ".toList ++ f.condition.on.node.toList ++ mid))) rest Q := by
  have hon : Begins (' ' :: ("on ".toList ++ f.condition.on.node.toList ++ mid))
      (.plain .on "on".toList) (' ' :: (f.condition.on.node.toList ++ mid)) :=
    (begins_ignored rfl).2 (begins_name (n := "on") rfl (cut_blank _).isNameContinue)
  have hcut : Cut (' ' :: ("on ".toList ++ f.condition.on.node.toList ++ mid)) := cut_blank _
  have hcondition : Begins (' ' :: (f.condition.on.node.toList ++ mid)) _ _ :=
    (begins_ignored rfl).2 (begins_name h.condition hmid.isNameContinue)
  generalize ' ' :: ("on ".toList ++ f.condition.on.node.toList ++ mid) = tail at *
  cases hx : f.name with
  | none =>
    have hne : Kind.ofName f.condition.on.node ≠ .on :=
      fun he => h.anonymous hx (eq_of_ofName he rfl (by decide))
    refine (peekKind hon).bind fun first hfirst => (peekSecondKind hon hcondition).bind
      fun second hsecond => ?_
    replace hsecond : second = some (Kind.ofName f.condition.on.node) := hsecond
    rw [hfirst, hsecond]
    simp only [Lexeme.plain, Option.some.injEq, hne]
    exact hk none (by rw [hx])
  | some x =>
    have hname : Begins (Printer.namePart (some x) ++ tail) (.plain (.ofName x.node) x.node.toList)
        tail := (begins_ignored rfl).2 (begins_name (h.name x hx) hcut.isNameContinue)
    refine (peekKind hname).bind fun first hfirst => (peekSecondKind hname hon).bind
      fun second hsecond => ?_
    rw [hfirst, hsecond]
    simp only [Lexeme.plain, decide_true, Bool.not_true, Bool.and_false]
    refine ignored rfl ((Reads.name (h.name x hx) hcut).weaken.map
      (R := fun name => name.map Located.node = some x.node) fun y hy => congrArg some hy) |>.bind
      fun name hname => ?_
    exact hk name (by rw [hx]; exact hname)

theorem fragment {f : Fragment} (h : f.Writable) (rest : List Char) :
    Reads 1 Parser.fragment (Printer.fragment f ++ rest) rest
      (Echoes Fragment.same Printer.fragment f) := by
  rw [Printer.fragment_eq]
  simp only [List.append_assoc, List.cons_append]
  have hselections := selectionSet h.selections rest
  have hset : Begins (Printer.selectionSet f.selections ++ rest) (.plain .leftBrace ['{']) _ :=
    begins_punctuator rfl _
  have hbrace : Avoids (' ' :: (Printer.selectionSet f.selections ++ rest)) [.atSign, .leftParen] :=
    (avoids_ignored rfl).2 (hset.avoids (show Kind.leftBrace ∉ _ by decide))
  generalize Printer.selectionSet f.selections ++ rest = tail at hselections hbrace
  have hdirectives := cut_literalDirectives f.directives (cut_blank tail)
  have hkeyword := begins_name (n := "fragment") rfl
    (cut_namePart f.name (cut_blank ("on ".toList ++ (f.condition.on.node.toList ++
      (Printer.directives f.directives ++ ' ' :: tail))))).isNameContinue
  have hcondition := typeCondition h.condition hdirectives
  refine position.andThen fun pos _ => (expect hkeyword rfl).bind fun _ _ => ?_
  refine fragmentName h hdirectives _ fun name hname => ignored rfl (hcondition.weaken.bind
    fun condition hc => ?_)
  refine (literalDirectives h.directives (cut_blank _) hbrace).bind fun ds hds => ?_
  refine (ignored rfl hselections).weaken.bind fun b hb => .pure ⟨?_, ?_⟩
  · simp [Fragment.same, TypeCondition.same, SelectionSet.same, Located.same, hc,
      sameOption_of_map hname, hds.1, EchoesSelection.same hb]
  · rw [Printer.fragment_eq, Printer.fragment_eq, Printer.namePart, Printer.namePart, hname, hc, hds.2,
      Printer.selectionSet, Printer.selectionSet, EchoesSelection.selections hb]

end Parser.Reads

end GraphQL
