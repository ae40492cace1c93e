import GraphQL.Proofs.Document.Held
import GraphQL.Proofs.Document.Parsed
import GraphQL.Proofs.Document.Values
import GraphQL.Proofs.Token.Extent

/-!
# The two readers of type references

`TypeRef.read?` takes marks off both ends of a text, `TypeRef.parse` takes tokens off its front.
Both read the text of a type reference as that reference, `read?` however deeply its lists nest. The
other way round, a text without anything between its tokens is the text of what it is parsed as,
because the tokens of a reference spell it (`Parser.spells_typeRef`). So there the readers agree.
-/

namespace GraphQL

theorem Name.forall_isNameContinue {name : Name} (h : name.isValid = true) :
    ∀ c ∈ name.toList, Text.isNameContinue c = true := by
  unfold Name.isValid at h
  split at h
  · cases h
  · next c cs hname =>
    rw [Bool.and_eq_true, List.all_eq_true] at h
    rw [hname]
    exact List.forall_mem_cons.2 ⟨Text.isNameContinue_of_isNameStart h.1, h.2⟩

namespace Token

variable {c d : Char} {cs rest : List Char} {l : Lexeme} {ls : List Lexeme}

/-- A text without anything between its lexemes is these one after the other. -/
theorem Lexes.flatMap_raw (h : Lexes cs ls) : (∀ c ∈ cs, isIgnored c = false ∧ c ≠ '#') →
    ls.flatMap Lexeme.raw = cs := by
  induction h with
  | @done cs hnil =>
    intro hcs
    cases cs with
    | nil => rfl
    | cons c cs =>
      obtain ⟨hc, hhash⟩ := hcs c (List.mem_cons_self ..)
      rw [splitIgnored_plain hc hhash] at hnil
      cases hnil
  | @more cs l rest ls hb _ ih =>
    intro hcs
    obtain ⟨c, text, hsplit, hl⟩ := hb
    obtain ⟨tail, hraw, htext, -⟩ := splitLexeme_extent hl
    -- nothing is ignored in front, so the first character is that of the lexeme
    have hcs' : cs = l.raw ++ rest := by
      cases cs with
      | nil => cases hsplit
      | cons d ds =>
        obtain ⟨hd, hhash⟩ := hcs d (List.mem_cons_self ..)
        rw [splitIgnored_plain hd hhash, List.cons.injEq] at hsplit
        rw [hsplit.1, hsplit.2, hraw, htext, List.cons_append]
    rw [List.flatMap_cons, ih fun c hc => hcs c (by rw [hcs']; exact List.mem_append_right _ hc),
      ← hcs']

/-! ## Punctuators -/

/-- The one character of which the tokens of a kind consist. -/
def Kind.mark? : Kind → Option Char
  | .leftBrace => some '{'
  | .rightBrace => some '}'
  | .leftParen => some '('
  | .rightParen => some ')'
  | .leftBracket => some '['
  | .rightBracket => some ']'
  | .colon => some ':'
  | .equals => some '='
  | .bang => some '!'
  | .pipe => some '|'
  | .amp => some '&'
  | .dollar => some '$'
  | .atSign => some '@'
  | _ => none

/-- A lexeme of the kind of a punctuator is that punctuator. -/
def Lexeme.IsMark (l : Lexeme) : Prop :=
  ∀ c, l.kind.mark? = some c → l.raw = [c]

theorem isMark_of_mark?_eq_none (h : l.kind.mark? = none) : l.IsMark := by
  intro c hc
  rw [h] at hc
  cases hc

theorem mark?_of_punctuator? {kind : Kind} (h : punctuator? c = some kind) :
    kind.mark? = some c := by
  have hall : ∀ c ∈ ['{', '}', '(', ')', '[', ']', ':', '=', '!', '|', '&', '$', '@'],
      ∀ kind ∈ punctuator? c, kind.mark? = some c :=
    Text.forall_of_all (by decide)
  exact hall c (mem_of_punctuator? h) kind h

theorem mark?_of_isOther {kind : Kind} (h : kind.isOther = true) : kind.mark? = none := by
  have hall : ∀ kind ∈ [Kind.ellipsis, .int, .float, .string, .badUnicodeEscape, .unknownChar],
      kind.mark? = none := by decide
  exact hall kind (List.contains_iff_mem.1 h)

theorem mark?_of_isName {kind : Kind} (h : kind.isName = true) : kind.mark? = none := by
  have hall : ∀ kind ∈ Kind.names, kind.mark? = none := by decide
  exact hall kind (mem_names_of_isName h)

theorem isMark_splitLexeme (h : splitLexeme c cs = some (l, rest)) : l.IsMark := by
  cases splitOff_of_splitLexeme h with
  | punctuator hp =>
    intro d hd
    rw [Option.some.inj ((mark?_of_punctuator? hp).symm.trans hd), Lexeme.plain]
  | points => exact isMark_of_mark?_eq_none (mark?_of_isOther (isOther_splitPoints _))
  | block | quoted => exact isMark_of_mark?_eq_none (mark?_of_isOther (isOther_ofString ..))
  | number => exact isMark_of_mark?_eq_none (mark?_of_isOther (isOther_splitNumber _))
  | name => exact isMark_of_mark?_eq_none (mark?_of_isName (isName_ofName _))
  | unknown => exact isMark_of_mark?_eq_none rfl

theorem Lexes.isMark (h : Lexes cs ls) : ∀ l ∈ ls, l.IsMark := by
  induction h with
  | done => simp
  | more hb _ ih =>
    obtain ⟨c, cs', -, hl⟩ := hb
    exact List.forall_mem_cons.2 ⟨isMark_splitLexeme hl, ih⟩

end Token

open Token

namespace Parser

variable {α : Type} {n : Nat} {p : Parser α} {Q : α → Prop} {source : String} {c d : Cursor}
  {f : α → List Char}

/-- The punctuators among the tokens still to be read are spelled as such. -/
def Marked (c : Cursor) : Prop :=
  ∀ t ∈ c.rest, t.lexeme.IsMark

/-- What the parser takes at the cursor is spelled as `f` of its result. -/
def SpellsAt (p : Parser α) (f : α → List Char) (c : Cursor) : Prop :=
  ∀ a d, p c = .ok (a, d) →
    ∃ ts, c.rest = ts ++ d.rest ∧ (ts.map lexeme).flatMap Lexeme.raw = f a

theorem Marked.of_append (h : Marked c) (ts : List Token) (hrest : c.rest = ts ++ d.rest) :
    Marked d :=
  fun t ht => h t (by rw [hrest]; exact List.mem_append_right _ ht)

theorem Marked.raw {t : Token} {rest : List Token} (h : Marked c) (mark : Char)
    (hrest : c.rest = t :: rest) (hmark : t.kind.mark? = some mark) :
    t.lexeme.raw = [mark] :=
  h t (by rw [hrest]; exact List.mem_cons_self ..) mark hmark

theorem spells_bang (hc : Marked c) :
    SpellsAt (eat .bang) (fun required => TypeRef.bang !required) c := by
  intro b d hb
  rcases eat_eq_ok hb with ⟨rfl, t, hrest, ht⟩ | ⟨rfl, rfl⟩
  · refine ⟨[t], hrest, ?_⟩
    rw [List.map_singleton, List.flatMap_singleton, hc.raw '!' hrest (by rw [ht]; rfl)]
    rfl
  · exact ⟨[], rfl, rfl⟩

/-- The tokens of a type reference are spelled as its text, by recursion on the levels left. -/
theorem spells_typeRef : ∀ (levels : Nat) {c : Cursor}, Marked c →
    SpellsAt (Parser.typeRef levels) (fun x => x.node.chars) c
  | 0, _, _ => by
    intro x d h
    cases h
  | levels + 1, c, hc => by
    intro x d h
    obtain ⟨pos, c0, hpos, h⟩ := bind_eq_ok h
    cases hpos
    obtain ⟨isList, c1, hopen, h⟩ := bind_eq_ok h
    rcases eat_eq_ok hopen with ⟨rfl, o, hrest, ho⟩ | ⟨rfl, rfl⟩
    · obtain ⟨item, c2, hitem, h⟩ := bind_eq_ok h
      obtain ⟨t, c3, hclose, h⟩ := bind_eq_ok h
      obtain ⟨required, c4, hbang, h⟩ := bind_eq_ok h
      cases h
      have hc1 : Marked c1 := hc.of_append [o] hrest
      obtain ⟨ts, hts, hraw⟩ := spells_typeRef levels hc1 item c2 hitem
      have hc2 := hc1.of_append ts hts
      have hrest' := expect_eq_ok hclose
      obtain ⟨us, hus, hraw'⟩ := spells_bang (hc2.of_append [t] hrest') required d hbang
      refine ⟨o :: (ts ++ t :: us), by simp [hrest, hts, hrest', hus], ?_⟩
      have hopening := hc.raw '[' hrest (by rw [ho]; rfl)
      have hclosing := hc2.raw ']' hrest' (by rw [kind_of_expect hclose]; rfl)
      simp only [List.map_cons, List.map_append, List.flatMap_cons, List.flatMap_append, hraw,
        hraw', hopening, hclosing, TypeRef.chars, List.cons_append, List.nil_append]
    · obtain ⟨name, c2, hname, h⟩ := bind_eq_ok h
      obtain ⟨required, c3, hbang, h⟩ := bind_eq_ok h
      cases h
      obtain ⟨t, hrest, -, rfl⟩ := name_eq_ok hname
      obtain ⟨us, hus, hraw⟩ := spells_bang (hc.of_append [t] hrest) required d hbang
      refine ⟨t :: us, by simp [hrest, hus], ?_⟩
      simp only [List.map_cons, List.flatMap_cons, hraw, TypeRef.chars, lexeme]

/-! ## Whole sources -/

theorem parseAll_eq_ok {a : α} (h : parseAll p source = .ok a) : ∃ tokens d,
    scan source = .ok tokens ∧ p ⟨tokens, Position.start.after source.toList⟩ = .ok (a, d) ∧
      d.rest = [] := by
  obtain ⟨tokens, d, hscan, hrun⟩ := parse_eq_ok h
  obtain ⟨a', c1, hp, hrun⟩ := bind_eq_ok hrun
  obtain ⟨_, c2, hfinished, hrun⟩ := bind_eq_ok hrun
  cases hrun
  obtain ⟨token, c3, hpeek, hfinished⟩ := bind_eq_ok hfinished
  cases hpeek
  refine ⟨tokens, c1, hscan, hp, ?_⟩
  cases hrest : c1.rest with
  | nil => rfl
  | cons t rest =>
    rw [hrest] at hfinished
    cases hfinished

/-- What is read as the whole of a text is what the text is parsed as. -/
theorem Reads.parseAll (h : Reads n p source.toList [] Q) :
    ∃ a, Parser.parseAll p source = .ok a ∧ Q a :=
  Reads.parse (h.bind fun _ ha => Reads.finished.bind fun _ _ => .pure ha) none

end Parser

namespace TypeRef

variable {cs : List Char} {nullable : Bool} {fuel levels : Nat}

/-- How many lists are around the innermost name. -/
def lists : TypeRef → Nat
  | named _ _ => 0
  | list item _ => item.lists + 1

theorem writable_iff {t : TypeRef} :
    t.Writable levels ↔ t.innermost.isValid = true ∧ t.lists < levels := by
  constructor
  · intro h
    induction h with
    | named hname => exact ⟨hname, Nat.succ_pos _⟩
    | list _ ih => exact ⟨ih.1, Nat.succ_lt_succ ih.2⟩
  · induction t generalizing levels with
    | named name nullable =>
      rintro ⟨hname, hlists⟩
      obtain ⟨m, rfl⟩ : ∃ m, levels = m + 1 := ⟨levels - 1, by simp [lists] at hlists; omega⟩
      exact .named hname
    | list item nullable ih =>
      rintro ⟨hname, hlists⟩
      obtain ⟨m, rfl⟩ : ∃ m, levels = m + 1 := ⟨levels - 1, by simp [lists] at hlists; omega⟩
      exact .list (ih ⟨hname, Nat.lt_of_succ_lt_succ hlists⟩)

/-! ## Reading from both ends -/

theorem stripLast_concat (c : Char) (cs : List Char) : stripLast c (cs ++ [c]) = some cs := by
  rw [stripLast, List.getLast?_concat, if_pos rfl, List.dropLast_concat]

theorem stripLast_of_ne {c : Char} (h : cs.getLast? ≠ some c) : stripLast c cs = none :=
  if_neg h

/-- A mark at the end says of what comes before it whether null is among the values. -/
theorem ofChars?_bang (h : cs.getLast? ≠ some '!') : ofChars? (fuel + 1) (cs ++ bang nullable) =
    (ofChars? (fuel + 1) cs).map fun t => t.withNullable nullable := by
  have hstrip : stripLast '!' (cs ++ bang nullable) = if nullable then none else some cs := by
    cases nullable with
    | true => rw [bang, if_pos rfl, List.append_nil, stripLast_of_ne h, if_pos rfl]
    | false => rw [bang, if_neg (by decide), stripLast_concat, if_neg (by decide)]
  unfold ofChars?
  rw [hstrip, stripLast_of_ne h]
  cases nullable with
  | true =>
    simp only [bang, if_pos, List.append_nil]
    split
    · simp only [Option.bind_eq_bind, Option.pure_def, Option.map_bind, Function.comp_def,
        Option.map_some, withNullable]
    · rfl
  | false =>
    simp only [Bool.false_eq_true, if_false]
    split
    · simp only [Option.bind_eq_bind, Option.pure_def, Option.map_bind, Function.comp_def,
        Option.map_some, withNullable]
    · rfl

theorem ofChars?_name {name : Name} (h : name.isValid = true) :
    ofChars? (fuel + 1) (name.toList ++ bang nullable) = some (.named name nullable) := by
  have hlast : name.toList.getLast? ≠ some '!' := fun hlast =>
    absurd (Name.forall_isNameContinue h '!' (List.mem_of_getLast? hlast)) (by decide)
  rw [ofChars?_bang hlast]
  unfold ofChars?
  rw [stripLast_of_ne hlast]
  simp only
  split
  · next rest hfirst =>
    have hmem : '[' ∈ name.toList := by
      rw [hfirst]
      exact List.mem_cons_self ..
    exact absurd (Name.forall_isNameContinue h '[' hmem) (by decide)
  · rw [String.ofList_toList, Option.map_some]
    rfl

theorem ofChars?_list {item : TypeRef} (nullable : Bool)
    (h : ofChars? fuel item.chars = some item) :
    ofChars? (fuel + 1) ('[' :: item.chars ++ [']'] ++ bang nullable) =
      some (.list item nullable) := by
  have hlast : ('[' :: item.chars ++ [']']).getLast? ≠ some '!' := by
    rw [List.getLast?_concat]
    decide
  rw [ofChars?_bang hlast]
  unfold ofChars?
  rw [stripLast_of_ne hlast]
  simp only [List.cons_append, stripLast_concat, h, Option.bind_eq_bind, Option.bind_some,
    Option.pure_def, Option.map_some]
  rfl

theorem ofChars?_chars {t : TypeRef} (h : t.innermost.isValid = true) :
    t.chars.length < fuel → ofChars? fuel t.chars = some t := by
  induction t generalizing fuel with
  | named name nullable =>
    intro hfuel
    obtain ⟨m, rfl⟩ : ∃ m, fuel = m + 1 := ⟨fuel - 1, by omega⟩
    exact ofChars?_name h
  | list item nullable ih =>
    intro hfuel
    obtain ⟨m, rfl⟩ : ∃ m, fuel = m + 1 := ⟨fuel - 1, by omega⟩
    have hitem : ofChars? m item.chars = some item := ih h (by
      simp only [chars, List.length_append, List.length_cons] at hfuel
      omega)
    have hlist := ofChars?_list nullable hitem
    rwa [List.append_assoc, List.singleton_append] at hlist

theorem read?_text {t : TypeRef} (h : t.innermost.isValid = true) : read? t.text = some t := by
  rw [read?, text, String.toList_ofList]
  exact ofChars?_chars h (Nat.lt_succ_self _)

/-! ## Reading from the front -/

theorem parse_eq_ok {source : String} {t : TypeRef} (h : parse source = .ok t) :
    ∃ x, Parser.parseAll (Parser.typeRef nestingLimit) source = .ok x ∧ x.node = t := by
  unfold parse at h
  cases hx : Parser.parseAll (Parser.typeRef nestingLimit) source with
  | error e =>
    rw [hx] at h
    cases h
  | ok x =>
    rw [hx] at h
    cases h
    exact ⟨x, rfl, rfl⟩

theorem parse_text {t : TypeRef} (h : t.Writable nestingLimit) : parse t.text = .ok t := by
  have hreads := Parser.Reads.typeRef h cut_nil (avoids_nil _)
  rw [List.append_nil, ← String.toList_ofList (l := t.chars)] at hreads
  obtain ⟨x, hx, rfl⟩ := hreads.parseAll
  unfold parse text
  rw [hx]
  rfl

theorem writable_of_parse {source : String} {t : TypeRef} (h : parse source = .ok t) :
    t.Writable nestingLimit := by
  obtain ⟨x, hx, rfl⟩ := parse_eq_ok h
  obtain ⟨tokens, d, hscan, hrun, -⟩ := Parser.parseAll_eq_ok hx
  have hat : Cursor.At ⟨tokens, Position.start.after source.toList⟩ source.toList :=
    lexes_of_scan hscan
  exact (Parser.Gives.typeRef _ _ hat.proper x d hrun).1

/-- The characters of type references. -/
def IsTypeChar (c : Char) : Prop :=
  c ∈ ['[', ']', '!'] ∨ Text.isNameContinue c = true

theorem IsTypeChar.not_ignored {c : Char} (h : IsTypeChar c) : isIgnored c = false ∧ c ≠ '#' := by
  rcases h with hmark | hname
  · have hmarks : ∀ c ∈ ['[', ']', '!'], isIgnored c = false ∧ c ≠ '#' :=
      Text.forall_of_all (by decide)
    exact hmarks c hmark
  · have hseparating := mt (isNameContinue_separating c) (by rw [hname]; decide)
    rw [not_or, Bool.not_eq_true] at hseparating
    exact hseparating

/-- A text without anything between its tokens is the text of what it is parsed as. -/
theorem text_of_parse {source : String} {t : TypeRef} (hsource : ∀ c ∈ source.toList, IsTypeChar c)
    (h : parse source = .ok t) : t.text = source := by
  obtain ⟨x, hx, rfl⟩ := parse_eq_ok h
  obtain ⟨tokens, d, hscan, hrun, hrest⟩ := Parser.parseAll_eq_ok hx
  have hlexes := lexes_of_scan hscan
  have hmarked : Parser.Marked ⟨tokens, Position.start.after source.toList⟩ :=
    fun t ht => hlexes.isMark t.lexeme (List.mem_map_of_mem ht)
  obtain ⟨ts, hts, hraw⟩ := Parser.spells_typeRef nestingLimit hmarked x d hrun
  rw [hrest, List.append_nil] at hts
  obtain rfl : tokens = ts := hts
  rw [hlexes.flatMap_raw fun c hc => (hsource c hc).not_ignored] at hraw
  rw [text, ← show source.toList = x.node.chars from hraw, String.ofList_toList]

/-- Both readers read the text of a type reference as that reference, the parser as long as the
lists do not nest too deeply. What the parser accepts of a text that is only brackets, exclamation
marks and names is what the other reader reads as well. -/
theorem readers_agree :
    (∀ t : TypeRef, t.innermost.isValid = true →
      read? t.text = some t ∧ (parse t.text = .ok t ↔ t.lists ≤ nestingLimit - 1)) ∧
    ∀ source t, (∀ c ∈ source.toList, IsTypeChar c) → parse source = .ok t →
      read? source = some t := by
  refine ⟨fun t ht => ⟨read?_text ht, fun h => ?_, fun h => ?_⟩, fun source t hsource h => ?_⟩
  · exact Nat.le_sub_one_of_lt (writable_iff.1 (writable_of_parse h)).2
  · exact parse_text (writable_iff.2 ⟨ht, Nat.lt_of_le_sub_one (by decide) h⟩)
  · rw [← text_of_parse hsource h]
    exact read?_text (writable_iff.1 (writable_of_parse h)).1

end TypeRef

end GraphQL
