import GraphQL.Proofs.Document.Reads

/-!
# What parsers give

`Yields p c Q` says that whatever the parser gives at `c`, `Q` holds of it, and the tokens left are
still proper ones. A token that may stand for a name has the text of one, as scanning makes it.
-/

namespace GraphQL

namespace Token

/-- A lexeme that may stand for a name is one. -/
def Lexeme.IsProper (l : Lexeme) : Prop :=
  l.kind.isName = true →
    Name.isValid (String.ofList l.raw) = true ∧ l.kind = .ofName (String.ofList l.raw)

theorem isProper_of_isName_eq_false {l : Lexeme} (h : l.kind.isName = false) : l.IsProper := by
  intro ht
  rw [h] at ht
  cases ht

theorem isName_of_punctuator? {c : Char} {kind : Kind} (h : punctuator? c = some kind) :
    kind.isName = false := by
  have hall : ∀ c ∈ ['{', '}', '(', ')', '[', ']', ':', '=', '!', '|', '&', '$', '@'],
      ∀ kind ∈ punctuator? c, kind.isName = false :=
    Text.forall_of_all (by decide)
  exact hall c (mem_of_punctuator? h) kind h

/-- The kinds of lexemes that are neither punctuators nor names. -/
def Kind.isOther (kind : Kind) : Bool :=
  [.ellipsis, .int, .float, .string, .badUnicodeEscape, .unknownChar].contains kind

theorem isProper_of_isOther {l : Lexeme} (h : l.kind.isOther = true) : l.IsProper := by
  have hall : ∀ kind ∈ [Kind.ellipsis, .int, .float, .string, .badUnicodeEscape, .unknownChar],
      kind.isName = false := by decide
  exact isProper_of_isName_eq_false (hall l.kind (List.contains_iff_mem.1 h))

theorem isOther_splitNumber (cs : List Char) : (splitNumber cs).1.isOther = true := by
  unfold splitNumber
  simp only
  split
  · rfl
  · simp only
    split <;> rfl

theorem isOther_splitPoints (cs : List Char) : (splitPoints cs).1.isOther = true := by
  unfold splitPoints
  split <;> rfl

theorem isOther_ofString (quotes content value : List Char) :
    (Lexeme.ofString quotes content value).kind.isOther = true := by
  unfold Lexeme.ofString
  simp only
  split <;> rfl

theorem isProper_splitLexeme {c : Char} {cs rest : List Char} {l : Lexeme}
    (h : splitLexeme c cs = some (l, rest)) : l.IsProper := by
  cases splitOff_of_splitLexeme h with
  | punctuator hp => exact isProper_of_isName_eq_false (isName_of_punctuator? hp)
  | points => exact isProper_of_isOther (isOther_splitPoints _)
  | block | quoted => exact isProper_of_isOther (isOther_ofString ..)
  | number => exact isProper_of_isOther (isOther_splitNumber _)
  | name hc =>
    refine fun _ => ⟨?_, rfl⟩
    simp only [Lexeme.plain, Name.isValid, String.toList_ofList]
    rw [splitWhile, List.takeWhile_cons_of_pos (Text.isNameContinue_of_isNameStart hc)]
    simp [hc]
  | unknown => exact isProper_of_isOther rfl

theorem Lexes.isProper {cs : List Char} {ls : List Lexeme} (h : Lexes cs ls) :
    ∀ l ∈ ls, l.IsProper := by
  induction h with
  | done => exact nofun
  | more hb _ ih =>
    obtain ⟨c, cs', -, hl⟩ := hb
    exact List.forall_mem_cons.2 ⟨isProper_splitLexeme hl, ih⟩

end Token

open Token

/-- The tokens still to be read are as scanning makes them. -/
def Cursor.Proper (c : Cursor) : Prop :=
  ∀ t ∈ c.rest, t.lexeme.IsProper

theorem Cursor.At.proper {c : Cursor} {cs : List Char} (h : c.At cs) : c.Proper :=
  fun _ ht => h.isProper _ (List.mem_map_of_mem ht)

namespace Parser

variable {α β ν : Type} {p : Parser α} {c : Cursor} {Q : α → Prop} {R : β → Prop}

def Yields (p : Parser α) (c : Cursor) (Q : α → Prop) : Prop :=
  ∀ a c', p c = .ok (a, c') → Q a ∧ c'.Proper

/-- The parser yields such values wherever the tokens are proper. -/
def Gives (p : Parser α) (Q : α → Prop) : Prop :=
  ∀ c : Cursor, c.Proper → Yields p c Q

theorem bind_eq_ok {f : α → Parser β} {b : β} {c' : Cursor} (h : (p >>= f) c = .ok (b, c')) :
    ∃ a c1, p c = .ok (a, c1) ∧ f a c1 = .ok (b, c') := by
  rw [bind_apply] at h
  cases hp : p c with
  | ok r =>
    rw [hp] at h
    exact ⟨r.1, r.2, rfl, h⟩
  | error e =>
    rw [hp] at h
    cases h

/-! ## Rules of the logic -/

theorem Yields.bind {f : α → Parser β} (hp : Yields p c Q)
    (hf : ∀ a c', Q a → c'.Proper → Yields (f a) c' R) : Yields (p >>= f) c R := by
  intro b c' h
  obtain ⟨a, c1, hp1, hf1⟩ := bind_eq_ok h
  obtain ⟨ha, hc1⟩ := hp a c1 hp1
  exact hf a c1 ha hc1 b c' hf1

/-- Looking at the next token takes none. -/
theorem Yields.peek {f : Option Token → Parser β} (h : Yields (f c.rest.head?) c R) :
    Yields (Parser.peek >>= f) c R :=
  h

theorem Yields.peekKind {f : Option Token.Kind → Parser β}
    (h : Yields (f (c.rest.head?.map Token.kind)) c R) : Yields (Parser.peekKind >>= f) c R :=
  h

theorem Yields.peekSecondKind {f : Option Token.Kind → Parser β}
    (h : Yields (f (c.rest.tail.head?.map Token.kind)) c R) :
    Yields (Parser.peekSecondKind >>= f) c R :=
  h

/-- A name is the text of the token that it is taken from. -/
theorem Yields.name (hc : c.Proper) : Yields Parser.name c fun x =>
    Name.isValid x.node = true ∧ c.rest.head?.map Token.kind = some (.ofName x.node) := by
  refine Yields.peek ?_
  cases hts : c.rest with
  | nil => rintro _ _ ⟨⟩
  | cons t ts =>
    rw [Cursor.Proper, hts] at hc
    obtain ⟨ht, hts'⟩ := List.forall_mem_cons.1 hc
    simp only [List.head?_cons, Option.map_some, Option.some.injEq]
    split
    · next hname =>
      intro x c' h
      obtain ⟨t', c1, hnext, hpure⟩ := bind_eq_ok h
      unfold Parser.next at hnext
      rw [hts] at hnext
      cases hnext
      cases hpure
      have hproper := ht hname
      simp only [lexeme, String.ofList_toList] at hproper
      exact ⟨hproper, hts'⟩
    · rintro _ _ ⟨⟩

theorem expect_eq_ok {kind : Token.Kind} {t : Token} {c' : Cursor}
    (h : Parser.expect kind c = .ok (t, c')) : c.rest = t :: c'.rest := by
  obtain ⟨b, c1, hnext, hb⟩ := bind_eq_ok h
  cases hnext
  split at hb
  · unfold Parser.next at hb
    split at hb
    · next hts =>
      cases hb
      exact hts
    · cases hb
  · cases hb

namespace Gives

theorem imp {P : α → Prop} (h : Gives p Q) (hqp : ∀ a, Q a → P a) : Gives p P :=
  fun c hc a c' hp => ⟨hqp a (h c hc a c' hp).1, (h c hc a c' hp).2⟩

theorem pure {a : α} (h : Q a) : Gives (Pure.pure a : Parser α) Q := by
  rintro c hc _ _ ⟨⟩
  exact ⟨h, hc⟩

theorem bind {f : α → Parser β} (hp : Gives p Q) (hf : ∀ a, Q a → Gives (f a) R) :
    Gives (p >>= f) R :=
  fun c hc => (hp c hc).bind fun a c' ha hc' => hf a ha c' hc'

theorem map {f : α → β} (hp : Gives p Q) (hf : ∀ a, Q a → R (f a)) : Gives (f <$> p) R :=
  hp.bind fun a ha => .pure (hf a ha)

theorem ite {q : Parser α} {b : Prop} [Decidable b] (hp : Gives p Q) (hq : Gives q Q) :
    Gives (if b then p else q) Q := by
  split
  · exact hp
  · exact hq

theorem fail (cause : ParseError.Cause) : Gives (Parser.fail cause : Parser α) Q :=
  fun _ _ _ _ h => nomatch h

theorem unexpected : Gives (Parser.unexpected : Parser α) Q :=
  fun _ _ _ _ h => nomatch h

/-! ## Primitive parsers -/

theorem position : Gives Parser.position fun _ => True := by
  rintro c hc _ _ ⟨⟩
  exact ⟨trivial, hc⟩

theorem peekKind : Gives Parser.peekKind fun _ => True := by
  rintro c hc _ _ ⟨⟩
  exact ⟨trivial, hc⟩

theorem peek : Gives Parser.peek fun t => ∀ token ∈ t, token.lexeme.IsProper := by
  rintro c hc _ _ ⟨⟩
  exact ⟨fun token ht => hc token (List.mem_of_head? ht), hc⟩

theorem next : Gives Parser.next fun token => token.lexeme.IsProper := by
  intro c hc token c' h
  unfold Parser.next at h
  split at h
  · next t ts hts =>
    cases h
    rw [Cursor.Proper, hts] at hc
    exact List.forall_mem_cons.1 hc
  · cases h

theorem nextIs (kind : Token.Kind) : Gives (Parser.nextIs kind) fun _ => True :=
  peekKind.bind fun _ _ => .pure trivial

theorem eat (kind : Token.Kind) : Gives (Parser.eat kind) fun _ => True :=
  (nextIs kind).bind fun _ _ => .ite (next.bind fun _ _ => .pure trivial) (.pure trivial)

theorem expect (kind : Token.Kind) : Gives (Parser.expect kind) fun _ => True :=
  (nextIs kind).bind fun _ _ => .ite (next.imp fun _ _ => trivial) unexpected

theorem name : Gives Parser.name fun x => Name.isValid x.node = true :=
  fun _ hc a c' h => ⟨(Yields.name hc a c' h).1.1, (Yields.name hc a c' h).2⟩

/-! ## Repetition -/

variable {more : Parser Bool} {item : Parser α}

theorem repeatWithin (hmore : Gives more fun _ => True) (hitem : Gives item Q) :
    ∀ allowance : List Token, Gives (Parser.repeatWithin more item allowance) fun as =>
      ∀ a ∈ as, Q a
  | [] => hmore.bind fun _ _ => .ite
    (hitem.bind fun _ ha => .pure (List.forall_mem_singleton.2 ha)) (.pure nofun)
  | _ :: allowance => hmore.bind fun _ _ => .ite
    (hitem.bind fun _ ha => (repeatWithin hmore hitem allowance).bind fun _ has =>
      .pure (List.forall_mem_cons.2 ⟨ha, has⟩)) (.pure nofun)

theorem repeatWhile (hmore : Gives more fun _ => True) (hitem : Gives item Q) :
    Gives (Parser.repeatWhile more item) fun as => ∀ a ∈ as, Q a :=
  fun c hc => repeatWithin hmore hitem c.rest c hc

theorem delimited {opening closing : Token.Kind} (hitem : Gives item Q) :
    Gives (Parser.delimited opening closing item) fun as => ∀ a ∈ as, Q a :=
  (expect opening).bind fun _ _ =>
    repeatWhile ((eat closing).bind fun _ _ => .pure trivial) hitem

theorem optionalDelimited {opening closing : Token.Kind} (hitem : Gives item Q) :
    Gives (Parser.optionalDelimited opening closing item) fun as => ∀ a ∈ as, Q a :=
  (nextIs opening).bind fun _ _ => .ite (delimited hitem) (.pure nofun)

end Gives

end Parser

end GraphQL
