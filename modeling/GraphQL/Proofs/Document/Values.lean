import GraphQL.Document.Parser.Value
import GraphQL.Proofs.Document.Echoes
import GraphQL.Proofs.Number.Double

/-!
# Reading values, types and directives

Literals and constants are written in the same way but for variables: a `Spelling` is a way to
write values, with the rule that reads its variables.
-/

namespace GraphQL

open Token

/-- How values are written whose variables are of type `ν`. -/
structure Spelling (ν : Type) where
  text : Value ν → List Char
  rule : Parser ν
  ok : ν → Prop
  text_null : text .null = "null".toList
  text_number : ∀ n, text (.number n) = n.chars
  text_string : ∀ s, text (.string s) = Text.quoted s.toList
  text_true : text (.bool true) = "true".toList
  text_false : text (.bool false) = "false".toList
  text_enum : ∀ name, text (.enum name) = name.toList
  text_list : ∀ items, text (.list items) =
    '[' :: Text.joined [',', ' '] (items.map text) ++ [']']
  text_object : ∀ fields, text (.object fields) =
    '{' :: Text.joined [',', ' '] (fields.map fun f => f.1.toList ++ ':' :: ' ' :: text f.2) ++ ['}']
  text_variable : ∀ x, ok x → ∃ cs, text (.variable x) = '$' :: cs ∧
    ∀ rest, Cut rest → Parser.Reads 1 rule ('$' :: cs ++ rest) rest (· = x)

namespace Spelling

variable {ν : Type} (s : Spelling ν)

def argument (a : Argument ν) : List Char :=
  a.name.node.toList ++ ':' :: ' ' :: s.text a.value.node

def directive (d : Directive ν) : List Char :=
  ' ' :: '@' :: d.name.node.toList ++ Printer.parenthesized (d.arguments.map s.argument)

end Spelling

/-! ## Literals and constants -/

theorem Value.itemChars_eq (items : List Literal) : itemChars items = items.map chars := by
  induction items with
  | nil => rfl
  | cons item items ih => rw [itemChars, ih, List.map_cons]

theorem Value.fieldChars_eq (fields : List (Name × Literal)) : fieldChars fields =
    fields.map fun f => f.1.toList ++ ':' :: ' ' :: chars f.2 := by
  induction fields with
  | nil => rfl
  | cons f fields ih => rw [fieldChars, ih, List.map_cons]

theorem Value.ofConstItems_eq {ν : Type} (items : List Const) :
    (ofConstItems items : List (Value ν)) = items.map ofConst := by
  induction items with
  | nil => rfl
  | cons item items ih => rw [ofConstItems, ih, List.map_cons]

theorem Value.ofConstFields_eq {ν : Type} (fields : List (Name × Const)) :
    (ofConstFields fields : List (Name × Value ν)) = fields.map fun f => (f.1, ofConst f.2) := by
  induction fields with
  | nil => rfl
  | cons f fields ih => rw [ofConstFields, ih, List.map_cons]

namespace Spelling

theorem reads_variableName {x : Name} {rest : List Char} (h : x.isValid = true) (hrest : Cut rest) :
    Parser.Reads 1 Parser.variableName ('$' :: x.toList ++ rest) rest (· = x) :=
  (Parser.Reads.punctuator rfl _).bind fun _ _ =>
    (Parser.Reads.name h hrest).weaken.bind fun _ hx => .pure hx

def literal : Spelling Name where
  text := Value.chars
  rule := Parser.variableName
  ok := fun name => name.isValid = true
  text_null := rfl
  text_number _ := rfl
  text_string _ := rfl
  text_true := rfl
  text_false := rfl
  text_enum _ := rfl
  text_list items := by rw [Value.chars, Value.itemChars_eq]
  text_object fields := by rw [Value.chars, Value.fieldChars_eq]
  text_variable x h := ⟨x.toList, rfl, fun _ hrest => reads_variableName h hrest⟩

def constant : Spelling Empty where
  text := Const.chars
  rule := Parser.unexpected
  ok := fun _ => True
  text_null := rfl
  text_number _ := rfl
  text_string _ := rfl
  text_true := rfl
  text_false := rfl
  text_enum _ := rfl
  text_list items := by
    rw [Const.chars, Value.ofConst, Value.chars, Value.itemChars_eq, Value.ofConstItems_eq,
      List.map_map]
    rfl
  text_object fields := by
    rw [Const.chars, Value.ofConst, Value.chars, Value.fieldChars_eq, Value.ofConstFields_eq,
      List.map_map]
    rfl
  text_variable x := x.elim

end Spelling

namespace Parser.Reads

variable {ν : Type} {s : Spelling ν} {rest : List Char} {levels : Nat}

/-! ## Values -/

theorem intLiteral {i : Int} (h : Number.isInt64 i = true) (hrest : Cut rest) :
    Begins (Number.intChars i ++ rest) (.plain .int (Number.intChars i)) rest ∧
      ∀ t : Token, t.lexeme = .plain .int (Number.intChars i) →
        Reads 1 (intLiteral t) (Number.intChars i ++ rest) rest (· = .int i) := by
  have hb := begins_numeral (Numeral.written_ofInt i) hrest.ends
  rw [Numeral.chars_ofInt] at hb
  refine ⟨hb, fun t ht => ?_⟩
  have hraw : t.raw.toList = (Numeral.ofInt i).chars :=
    (congrArg Lexeme.raw ht).trans (Numeral.chars_ofInt i).symm
  unfold Parser.intLiteral
  simp only [hraw, Numeral.ofChars_chars (Numeral.written_ofInt i), Numeral.toInt_ofInt, h, if_true]
  exact (next hb).bind fun _ _ => .pure rfl

theorem floatLiteral (x : Binary64) (hrest : Cut rest) :
    Begins (Number.doubleChars x ++ rest) (.plain .float (Number.doubleChars x)) rest ∧
      ∀ t : Token, t.lexeme = .plain .float (Number.doubleChars x) →
        Reads 1 (floatLiteral t) (Number.doubleChars x ++ rest) rest (· = .double x) := by
  obtain ⟨n, hn, hw, hc, hx⟩ := Binary64.exists_numeral x
  have hb := begins_numeral hn hrest.ends
  rw [hc, hw] at hb
  refine ⟨hb, fun t ht => ?_⟩
  have hraw : t.raw.toList = n.chars := (congrArg Lexeme.raw ht).trans hc.symm
  unfold Parser.floatLiteral
  simp only [hraw, Numeral.ofChars_chars hn, hx]
  exact (next hb).bind fun _ _ => .pure rfl

/-- A name that is no literal of another kind is an enum value. -/
theorem enumKind {name : Name} (h : name ∉ ["true", "false", "null"]) :
    (Kind.ofName name).isName = true ∧ Kind.ofName name ≠ .true ∧ Kind.ofName name ≠ .false ∧
      Kind.ofName name ≠ .null := by
  simp only [List.mem_cons, List.not_mem_nil, or_false, not_or] at h
  obtain ⟨htrue, hfalse, hnull⟩ := h
  refine ⟨isName_ofName name, fun he => htrue ?_, fun he => hfalse ?_, fun he => hnull ?_⟩
  · exact eq_of_ofName he rfl (by decide)
  · exact eq_of_ofName he rfl (by decide)
  · exact eq_of_ofName he rfl (by decide)

/-- A value is not taken for the end of a list. -/
theorem avoids_value {v : Value ν} (h : v.Writable s.ok levels) (hrest : Cut rest) :
    Avoids (s.text v ++ rest) [.rightBracket] := by
  cases h with
  | @var _ x hx =>
    obtain ⟨cs, ht, -⟩ := s.text_variable x hx
    rw [ht]
    exact avoids_punctuator rfl (by decide) _
  | null =>
    rw [s.text_null]
    exact avoids_name rfl (by decide) rest
  | int hi =>
    rw [s.text_number]
    exact (intLiteral hi hrest).1.avoids (show Kind.int ∉ _ by decide)
  | double =>
    rw [s.text_number]
    exact (floatLiteral _ hrest).1.avoids (show Kind.float ∉ _ by decide)
  | string =>
    rw [s.text_string]
    exact avoids_quoted _ hrest (by decide)
  | @bool _ b =>
    cases b with
    | true =>
      rw [s.text_true]
      exact avoids_name rfl (by decide) rest
    | false =>
      rw [s.text_false]
      exact avoids_name rfl (by decide) rest
  | enum hname =>
    rw [s.text_enum]
    exact avoids_name hname (by decide) rest
  | list =>
    rw [s.text_list]
    exact avoids_punctuator rfl (by decide) _
  | object =>
    rw [s.text_object]
    exact avoids_punctuator rfl (by decide) _

theorem enumLiteral {name : Name} (hname : name.isValid = true)
    (hne : name ∉ ["true", "false", "null"]) (hrest : Cut rest) :
    Reads 1 (Parser.value s.rule (levels + 1)) (name.toList ++ rest) rest
      fun x => x.node = .enum name := by
  rw [Parser.value]
  refine position.andThen fun pos _ => peeked (begins_name hname hrest.isNameContinue)
    fun token ht => ?_
  obtain ⟨hkind, htrue, hfalse, hnull⟩ := enumKind hne
  have hk : token.kind = .ofName name := congrArg Lexeme.kind ht
  rw [← hk] at hkind htrue hfalse hnull
  have hread : Reads 1 (do return ⟨pos, .enum (← Parser.name).node⟩ : Parser (Located (Value ν)))
      (name.toList ++ rest) rest fun x => x.node = .enum name :=
    (Reads.name hname hrest).bind fun x hx => .pure (by rw [hx])
  dsimp only
  generalize token.kind = kind at *
  cases kind <;> first
    | exact hread
    | exact absurd rfl htrue
    | exact absurd rfl hfalse
    | exact absurd rfl hnull
    | cases hkind

theorem objectField {name : Name} {v : Value ν} {p : Parser (Located (Value ν))} {cs : List Char}
    (hname : name.isValid = true) (hv : Reads 1 p (cs ++ rest) rest fun x => x.node = v) :
    Reads 1 (Parser.objectField p) (name.toList ++ ':' :: ' ' :: cs ++ rest) rest
      (· = (name, v)) := by
  rw [List.append_assoc]
  unfold Parser.objectField
  refine (Reads.name hname (cut_punctuator rfl _)).bind fun x hx => ?_
  refine (punctuator rfl _).weaken.bind fun _ _ => ignored rfl ?_
  refine hv.weaken.bind fun y hy => .pure ?_
  rw [hx, hy]

theorem value {v : Value ν} (h : v.Writable s.ok levels) : ∀ {rest : List Char}, Cut rest →
    Reads 1 (Parser.value s.rule levels) (s.text v ++ rest) rest fun x => x.node = v := by
  induction h with
  | @var levels x hx =>
    intro rest hrest
    obtain ⟨cs, ht, hr⟩ := s.text_variable x hx
    rw [ht, Parser.value]
    refine position.andThen fun pos _ => peeked (begins_punctuator rfl _) fun token ht => ?_
    simp only [show token.kind = .dollar from congrArg Lexeme.kind ht]
    exact (hr rest hrest).bind fun y hy => .pure (by rw [hy])
  | null =>
    intro rest hrest
    have hb := begins_name (n := "null") rfl hrest.isNameContinue
    rw [s.text_null, Parser.value]
    refine position.andThen fun pos _ => peeked hb fun token ht => ?_
    simp only [show token.kind = .null from congrArg Lexeme.kind ht]
    exact (next hb).bind fun _ _ => .pure rfl
  | int hi =>
    intro rest hrest
    obtain ⟨hb, hr⟩ := intLiteral hi hrest
    rw [s.text_number, Parser.value]
    refine position.andThen fun pos _ => peeked hb fun token ht => ?_
    simp only [show token.kind = .int from congrArg Lexeme.kind ht]
    exact (hr token ht).bind fun n hn => .pure (by rw [hn])
  | @double levels x =>
    intro rest hrest
    obtain ⟨hb, hr⟩ := floatLiteral x hrest
    rw [s.text_number, Parser.value]
    refine position.andThen fun pos _ => peeked hb fun token ht => ?_
    simp only [show token.kind = .float from congrArg Lexeme.kind ht]
    exact (hr token ht).bind fun n hn => .pure (by rw [hn])
  | @string levels t =>
    intro rest hrest
    have hb := begins_quoted t.toList hrest.not_quote
    rw [s.text_string, Parser.value]
    refine position.andThen fun pos _ => peeked hb fun token ht => ?_
    simp only [show token.kind = .string from congrArg Lexeme.kind ht]
    refine (next hb).bind fun token ht => .pure ?_
    have hvalue : token.value.toList = t.toList := congrArg Lexeme.value ht
    rw [String.toList_injective hvalue]
  | @bool levels b =>
    intro rest hrest
    cases b with
    | true =>
      have hb := begins_name (n := "true") rfl hrest.isNameContinue
      rw [s.text_true, Parser.value]
      refine position.andThen fun pos _ => peeked hb fun token ht => ?_
      simp only [show token.kind = .true from congrArg Lexeme.kind ht]
      exact (next hb).bind fun _ _ => .pure rfl
    | false =>
      have hb := begins_name (n := "false") rfl hrest.isNameContinue
      rw [s.text_false, Parser.value]
      refine position.andThen fun pos _ => peeked hb fun token ht => ?_
      simp only [show token.kind = .false from congrArg Lexeme.kind ht]
      exact (next hb).bind fun _ _ => .pure rfl
  | enum hname hne =>
    intro rest hrest
    rw [s.text_enum]
    exact enumLiteral hname hne hrest
  | @list levels items hitems ih =>
    intro rest hrest
    rw [s.text_list, Parser.value]
    refine position.andThen fun pos _ => peeked (begins_punctuator rfl _) fun token ht => ?_
    simp only [show token.kind = .leftBracket from congrArg Lexeme.kind ht, List.cons_append,
      List.append_assoc, List.nil_append]
    refine (joined [] (S := fun b a => a.node = b) rfl rfl (by decide)
      (fun item hi tail ht => avoids_value (hitems item hi) ht)
      fun item hi tail ht _ => ih item hi ht).bind fun xs hxs => .pure ?_
    rw [map_eq_of_forall₂ hxs, List.map_id']
  | @object levels fields hnodup hnames hfields ih =>
    intro rest hrest
    rw [s.text_object, Parser.value]
    refine position.andThen fun pos _ => peeked (begins_punctuator rfl _) fun token ht => ?_
    simp only [show token.kind = .leftBrace from congrArg Lexeme.kind ht, List.cons_append,
      List.append_assoc, List.nil_append]
    refine (joined [] (S := fun b a => a = b) rfl rfl (by decide) ?_ ?_).bind
      fun xs hxs => .pure ?_
    · intro f hf tail ht
      rw [List.append_assoc]
      exact avoids_name (hnames f hf) (by decide) _
    · exact fun f hf tail ht _ => objectField (hnames f hf) (ih f hf ht)
    · have heq : xs = fields := by simpa using map_eq_of_forall₂ (f := id) (g := id) hxs
      rw [heq, Value.ofPairs, Assoc.ofList_of_nodup hnodup]

theorem default? {value : Option (Located Const)} {rest : List Char}
    (h : ∀ v ∈ value, Const.Writable nestingLimit v.node) (hrest : Cut rest)
    (heq : Avoids rest [.equals]) :
    Reads 0 Parser.default? (Printer.default value ++ rest) rest fun x =>
      x.map Located.node = value.map Located.node := by
  unfold Parser.default? Printer.default
  cases value with
  | none =>
    refine (eat_false heq (List.mem_singleton_self _)).bind fun _ hf => ?_
    subst hf
    exact .pure rfl
  | some v =>
    simp only [List.cons_append, List.nil_append]
    refine ((eatPunctuator rfl _).weaken.bind fun _ ht => ?_).ignored rfl
    subst ht
    refine (Reads.ignored rfl (value (s := .constant) (h v rfl) hrest)).weaken.bind fun x hx =>
      .pure ?_
    rw [Option.map_some, Option.map_some, hx]

/-! ## Types -/

theorem eatBang {nullable : Bool} (hbang : Avoids rest [.bang]) :
    Reads 0 (eat .bang) (TypeRef.bang nullable ++ rest) rest fun b => (!b) = nullable := by
  cases nullable with
  | true => exact (eat_false hbang (List.mem_singleton_self _)).imp fun _ hf => by rw [hf]; rfl
  | false => exact (eatPunctuator rfl _).weaken.imp fun _ ht => by rw [ht]; rfl

theorem cut_bang {nullable : Bool} (hrest : Cut rest) : Cut (TypeRef.bang nullable ++ rest) := by
  cases nullable with
  | true => exact hrest
  | false => exact cut_punctuator rfl _

theorem typeRef {t : TypeRef} (h : t.Writable levels) : ∀ {rest : List Char}, Cut rest →
    Avoids rest [.bang] →
      Reads 1 (Parser.typeRef levels) (t.chars ++ rest) rest fun x => x.node = t := by
  induction h with
  | @named levels name nullable hname =>
    intro rest hrest hbang
    rw [TypeRef.chars, List.append_assoc, Parser.typeRef]
    refine position.andThen fun pos _ => ?_
    refine (eat_false (avoids_name hname (by decide) _)
      (List.mem_singleton_self _)).andThen fun _ hf => ?_
    subst hf
    refine (Reads.name hname (cut_bang hrest)).bind fun x hx => ?_
    refine (eatBang hbang).bind fun b hb => .pure ?_
    rw [hx, hb]
  | @list levels item nullable hitem ih =>
    intro rest hrest hbang
    rw [TypeRef.chars, Parser.typeRef]
    simp only [List.cons_append, List.append_assoc]
    refine position.andThen fun pos _ => (eatPunctuator rfl _).bind fun _ ht => ?_
    subst ht
    refine (ih (cut_punctuator rfl _) (avoids_punctuator rfl (by decide) _)).weaken.bind fun x hx => ?_
    refine (punctuator rfl _).weaken.bind fun _ _ => (eatBang hbang).bind fun b hb => .pure ?_
    rw [hx, hb]

/-! ## Arguments and directives -/

theorem cut_parenthesized (items : List (List Char)) (hrest : Cut rest) :
    Cut (Printer.parenthesized items ++ rest) := by
  unfold Printer.parenthesized
  split
  · exact hrest
  · exact cut_punctuator rfl _

theorem avoids_parenthesized {kinds : List Token.Kind} (items : List (List Char))
    (hrest : Avoids rest kinds) (hk : .leftParen ∉ kinds) :
    Avoids (Printer.parenthesized items ++ rest) kinds := by
  unfold Printer.parenthesized
  split
  · exact hrest
  · exact avoids_punctuator rfl hk _

theorem begins_directive (d : Directive ν) (cs : List Char) :
    ∃ mid, Begins (s.directive d ++ cs) (.plain .atSign ['@']) mid :=
  ⟨_, (begins_ignored rfl).2 (begins_punctuator rfl _)⟩

theorem cut_directives (ds : List (Directive ν)) (hrest : Cut rest) :
    Cut (ds.flatMap s.directive ++ rest) := by
  cases ds with
  | nil => exact hrest
  | cons d ds => exact cut_blank _

theorem avoids_directives {kinds : List Token.Kind} (ds : List (Directive ν))
    (hrest : Avoids rest kinds) (hk : .atSign ∉ kinds) :
    Avoids (ds.flatMap s.directive ++ rest) kinds := by
  cases ds with
  | nil => exact hrest
  | cons d ds =>
    obtain ⟨mid, hb⟩ := begins_directive (s := s) d (ds.flatMap s.directive ++ rest)
    rw [List.flatMap_cons, List.append_assoc]
    exact hb.avoids hk

variable [DecidableEq ν]

theorem argument {a : Argument ν} (h : a.Writable s.ok levels) (hrest : Cut rest) :
    Reads 1 (Parser.argument (Parser.value s.rule levels)) (s.argument a ++ rest) rest
      (Echoes Argument.same s.argument a) := by
  unfold Parser.argument Spelling.argument
  simp only [List.append_assoc, List.cons_append]
  refine (Reads.name h.name (cut_punctuator rfl _)).bind fun x hx => ?_
  refine (punctuator rfl _).weaken.bind fun _ _ => ignored rfl ?_
  refine (value h.value hrest).weaken.bind fun y hy => .pure ⟨?_, ?_⟩
  · simp [Argument.same, Located.same, Located.sameBy, hx, hy, Value.same_self h.value]
  · simp only [hx, hy]

theorem arguments {as : List (Argument ν)} (h : ∀ a ∈ as, a.Writable s.ok levels)
    (hrest : Avoids rest [.leftParen]) :
    Reads 0 (Parser.arguments (Parser.value s.rule levels))
      (Printer.parenthesized (as.map s.argument) ++ rest) rest
      (Echoes (sameList Argument.same) (List.map s.argument) as) :=
  (parenthesized [] hrest (by decide)
    (fun a ha tail _ => by
      rw [Spelling.argument, List.append_assoc]
      exact avoids_name (h a ha).name (by decide) _)
    fun a ha tail ht _ => argument (h a ha) ht).imp fun _ => Echoes.list

theorem directive {d : Directive ν} (h : d.Writable s.ok levels) (hrest : Cut rest)
    (hparen : Avoids rest [.leftParen]) :
    Reads 1 (Parser.directive (Parser.value s.rule levels)) (s.directive d ++ rest) rest
      (Echoes Directive.same s.directive d) := by
  unfold Parser.directive Spelling.directive
  simp only [List.cons_append, List.append_assoc]
  refine ignored rfl (position.andThen fun pos _ => (punctuator rfl _).bind fun _ _ => ?_)
  refine (Reads.name h.name (cut_parenthesized _ hrest)).weaken.bind fun x hx => ?_
  refine (arguments h.arguments hparen).bind fun as has => .pure ⟨?_, ?_⟩
  · simp [Directive.same, Located.same, hx, has.1]
  · simp only [hx, has.2]

theorem directives {ds : List (Directive ν)} (h : ∀ d ∈ ds, d.Writable s.ok levels)
    (hrest : Cut rest) (havoids : Avoids rest [.atSign, .leftParen]) :
    Reads 0 (Parser.directives (Parser.value s.rule levels)) (ds.flatMap s.directive ++ rest) rest
      (Echoes (sameList Directive.same) (List.map s.directive) ds) := by
  refine (repeatWhile (fun ds => ds.flatMap s.directive ++ rest)
    (nextIs_false havoids (List.mem_cons_self ..)) fun d tail hs => ?_).imp fun _ => Echoes.list
  rw [List.flatMap_cons, List.append_assoc]
  obtain ⟨mid, hb⟩ := begins_directive (s := s) d (tail.flatMap s.directive ++ rest)
  refine ⟨_, nextIs_true hb rfl, ?_⟩
  refine directive (h d (hs.subset (List.mem_cons_self ..))) (cut_directives tail hrest) ?_
  exact avoids_directives tail (havoids.of_subset (by decide)) (by decide)

/-! ## In operations and in type systems -/

theorem literalArguments {as : List (Argument Name)}
    (h : ∀ a ∈ as, a.Writable (fun name => Name.isValid name = true) levels)
    (hrest : Avoids rest [.leftParen]) :
    Reads 0 (Parser.arguments (literal levels)) (Printer.arguments as ++ rest) rest
      (Echoes (sameList Argument.same) Printer.arguments as) :=
  (arguments (s := .literal) h hrest).imp fun _ hbs =>
    ⟨hbs.1, congrArg Printer.parenthesized hbs.2⟩

theorem literalDirectives {ds : List (Directive Name)} (h : DirectivesWritable levels ds)
    (hrest : Cut rest) (havoids : Avoids rest [.atSign, .leftParen]) :
    Reads 0 (Parser.directives (literal levels)) (Printer.directives ds ++ rest) rest
      (Echoes (sameList Directive.same) Printer.directives ds) :=
  (directives (s := .literal) h hrest havoids).imp fun _ hds => ⟨hds.1, hds.flatMap⟩

theorem cut_literalDirectives (ds : List (Directive Name)) (hrest : Cut rest) :
    Cut (Printer.directives ds ++ rest) :=
  cut_directives (s := .literal) ds hrest

theorem avoids_literalDirectives {kinds : List Token.Kind} (ds : List (Directive Name))
    (hrest : Avoids rest kinds) (hk : .atSign ∉ kinds) :
    Avoids (Printer.directives ds ++ rest) kinds :=
  avoids_directives (s := .literal) ds hrest hk

theorem constDirectives_eq (ds : List (Directive Empty)) :
    Printer.constDirectives ds = ds.flatMap Spelling.constant.directive := by
  have hdirective : ∀ d : Directive Empty,
      Printer.directive (Directive.ofConst d) = Spelling.constant.directive d := by
    intro d
    unfold Printer.directive Printer.arguments Spelling.directive Directive.ofConst
    rw [List.map_map]
    rfl
  rw [Printer.constDirectives, Printer.directives, List.flatMap_map]
  exact congrArg (ds.flatMap ·) (funext hdirective)

theorem constDirectives {ds : List (Directive Empty)} (h : ConstDirectivesWritable ds)
    (hrest : Cut rest) (havoids : Avoids rest [.atSign, .leftParen]) :
    Reads 0 Parser.constDirectives (Printer.constDirectives ds ++ rest) rest
      (Echoes (sameList Directive.same) Printer.constDirectives ds) := by
  rw [constDirectives_eq]
  refine (directives (s := .constant) h hrest havoids).imp fun ds' hds => ⟨hds.1, ?_⟩
  rw [constDirectives_eq, constDirectives_eq]
  exact hds.flatMap

theorem cut_constDirectives (ds : List (Directive Empty)) (hrest : Cut rest) :
    Cut (Printer.constDirectives ds ++ rest) := by
  rw [constDirectives_eq]
  exact cut_directives ds hrest

theorem avoids_constDirectives {kinds : List Token.Kind} (ds : List (Directive Empty))
    (hrest : Avoids rest kinds) (hk : .atSign ∉ kinds) :
    Avoids (Printer.constDirectives ds ++ rest) kinds := by
  rw [constDirectives_eq]
  exact avoids_directives ds hrest hk

end Parser.Reads

end GraphQL
