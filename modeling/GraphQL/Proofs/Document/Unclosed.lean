import GraphQL.Proofs.Document.Nesting
import GraphQL.Proofs.Document.Offending
import GraphQL.Proofs.Token.Brackets

/-!
# Where a source nests too deeply

A rule that succeeds has closed all braces and brackets that it opened. A rule with `n` levels left
that finds none of them left has opened `n` braces or brackets by then, and closed none of these
(`Parser.Opens n`). So a source is refused as too deep only where as many are open as the limit says
(`Document.parse_limited`).
-/

namespace GraphQL

/-! ## Braces and brackets -/

namespace Token

/-- Closes the innermost brace or bracket, if it is of the kind. -/
def close (kind : Kind) : List Token → List Token
  | o :: rest => if o.kind = kind then rest else o :: rest
  | [] => []

/-- What is open after a token, innermost first. -/
def track (opened : List Token) (t : Token) : List Token :=
  match t.kind with
  | .leftBrace | .leftBracket => t :: opened
  | .rightBrace => close .leftBrace opened
  | .rightBracket => close .leftBracket opened
  | _ => opened

/-- The braces and brackets among tokens that none of the tokens closes, innermost first. -/
def unclosed (ts : List Token) : List Token :=
  ts.foldl track []

/-- How many levels a token of the kind opens. -/
def Kind.weight : Kind → Nat
  | .leftBrace | .leftBracket => 1
  | _ => 0

/-- The kinds of tokens that open or close nothing. -/
def Kind.isPlain (kind : Kind) : Bool :=
  !([leftBrace, rightBrace, leftBracket, rightBracket].contains kind)

/-- Tokens after which the same is open as before. -/
def Neutral (ts : List Token) : Prop :=
  ∀ opened, ts.foldl track opened = opened

section

variable {o t : Token} {ts us : List Token} {kind opening closing : Kind}

theorem isPlain_of_isName (h : kind.isName = true) : kind.isPlain = true := by
  cases kind <;> first
    | rfl
    | cases h

theorem length_track (opened : List Token) (ho : o.kind.closing?.isSome = true) :
    (track opened o).length = opened.length + o.kind.weight := by
  unfold track
  generalize o.kind = kind at ho ⊢
  cases kind <;> first
    | rfl
    | cases ho

namespace Neutral

theorem nil : Neutral [] := fun _ => rfl

theorem append (h : Neutral ts) (h' : Neutral us) : Neutral (ts ++ us) := by
  intro opened
  rw [List.foldl_append, h, h']

theorem singleton (h : t.kind.isPlain = true) : Neutral [t] := by
  intro opened
  show track opened t = opened
  unfold track
  generalize t.kind = kind at h
  cases kind <;> first
    | rfl
    | cases h

theorem pair (h : o.kind.closing? = some t.kind) : Neutral [o, t] := by
  intro opened
  show track (track opened o) t = opened
  unfold track
  cases ho : o.kind with
  | leftParen =>
    rw [ho] at h
    rw [← Option.some.inj h]
  | leftBrace | leftBracket =>
    rw [ho] at h
    rw [← Option.some.inj h]
    exact if_pos ho
  | _ =>
    rw [ho] at h
    cases h

/-- What changes nothing may come after what is still open. -/
theorem insert {before : List Token} (h : Neutral ts) (h' : Neutral (before ++ us)) :
    Neutral (before ++ (ts ++ us)) := by
  intro opened
  rw [List.foldl_append, List.foldl_append, h, ← List.foldl_append, h']

end Neutral

end

end Token

open Token (Neutral track unclosed)

/-! ## Rules of the grammar -/

namespace Parser

variable {α β ν : Type} {n m : Nat} {p q : Parser α} {c d : Cursor} {before : List Token}

/-- Tokens that lead from one cursor to another. -/
structure Leads (c : Cursor) (ts : List Token) (d : Cursor) : Prop where
  rest : c.rest = ts ++ d.rest
  finish : c.finish = d.finish

theorem Leads.refl (c : Cursor) : Leads c [] c :=
  ⟨rfl, rfl⟩

theorem Leads.trans {e : Cursor} {ts us : List Token} (h : Leads c ts d) (h' : Leads d us e) :
    Leads c (ts ++ us) e := by
  refine ⟨?_, h.finish.trans h'.finish⟩
  rw [h.rest, h'.rest, List.append_assoc]

/-- Together with the tokens taken before, the parser leaves nothing open when it succeeds. When it
finds no levels left, it has opened `n` of them itself. -/
structure OpensAt (before : List Token) (n : Nat) (p : Parser α) (c : Cursor) : Prop where
  neutral : ∀ a d, p c = .ok (a, d) → ∃ ts, Leads c ts d ∧ Neutral (before ++ ts)
  deep : ∀ e, p c = .error e → e.cause = .tooDeep → ∃ ts d, Leads c ts d ∧ e.pos = d.pos ∧
    ∀ opened, opened.length + n ≤ (ts.foldl track opened).length

def Opens (n : Nat) (p : Parser α) : Prop :=
  ∀ c, OpensAt [] n p c

namespace OpensAt

theorem weaken (h : OpensAt before n p c) (hle : m ≤ n) : OpensAt before m p c := by
  refine ⟨h.neutral, fun e he hdeep => ?_⟩
  obtain ⟨ts, d, hleads, hpos, hlength⟩ := h.deep e he hdeep
  exact ⟨ts, d, hleads, hpos, fun opened => Nat.le_trans (Nat.add_le_add_left hle _)
    (hlength opened)⟩

theorem bind {f : α → Parser β} (hp : OpensAt [] n p c)
    (hf : ∀ a d, p c = .ok (a, d) → OpensAt before n (f a) d) :
    OpensAt before n (p >>= f) c := by
  constructor
  · intro b d h
    obtain ⟨a, c', hpa, hfb⟩ := bind_eq_ok h
    obtain ⟨ts, hts, hneutral⟩ := hp.neutral a c' hpa
    obtain ⟨us, hus, hneutral'⟩ := (hf a c' hpa).neutral b d hfb
    exact ⟨ts ++ us, hts.trans hus, hneutral.insert hneutral'⟩
  · intro e h hdeep
    rw [bind_apply] at h
    cases hpa : p c with
    | error e' =>
      rw [hpa] at h
      cases h
      exact hp.deep e hpa hdeep
    | ok r =>
      obtain ⟨a, c'⟩ := r
      rw [hpa] at h
      obtain ⟨ts, hts, hneutral⟩ := hp.neutral a c' hpa
      obtain ⟨us, d, hus, hpos, hlength⟩ := (hf a c' hpa).deep e h hdeep
      refine ⟨ts ++ us, d, hts.trans hus, hpos, fun opened => ?_⟩
      rw [List.foldl_append, show ts.foldl track opened = opened from hneutral opened]
      exact hlength opened

theorem congr (hq : OpensAt before n q c) (h : p c = q c) : OpensAt before n p c :=
  ⟨fun a d ha => hq.neutral a d (h ▸ ha), fun e he => hq.deep e (h ▸ he)⟩

/-- What looks at the tokens without taking any. -/
theorem look {f : α → Parser β} {a : α} (hp : p c = .ok (a, c)) (hf : OpensAt before n (f a) c) :
    OpensAt before n (p >>= f) c :=
  hf.congr (bind_ok hp)

/-- What comes after the closing token opens no levels. -/
theorem andThen {f : α → Parser β} (hp : OpensAt before n p c) (hf : ∀ a, Opens n (f a))
    (hne : ∀ a d e, f a d = .error e → e.cause ≠ .tooDeep) : OpensAt before n (p >>= f) c := by
  constructor
  · intro b d h
    obtain ⟨a, c', hpa, hfb⟩ := bind_eq_ok h
    obtain ⟨ts, hts, hneutral⟩ := hp.neutral a c' hpa
    obtain ⟨us, hus, hneutral'⟩ := (hf a c').neutral b d hfb
    refine ⟨ts ++ us, hts.trans hus, ?_⟩
    rw [← List.append_assoc]
    exact hneutral.append hneutral'
  · intro e h hdeep
    rw [bind_apply] at h
    cases hpa : p c with
    | error e' =>
      rw [hpa] at h
      cases h
      exact hp.deep e hpa hdeep
    | ok r =>
      rw [hpa] at h
      exact absurd hdeep (hne _ _ e h)

/-- The next token is known to open or close nothing. -/
theorem next {kind : Token.Kind} (hc : c.rest.head?.map Token.kind = some kind)
    (hkind : kind.isPlain = true) : OpensAt [] n Parser.next c := by
  obtain ⟨t, ht, rfl⟩ := Option.map_eq_some_iff.1 hc
  obtain ⟨rest, hrest⟩ := List.head?_eq_some_iff.1 ht
  have hnext : Parser.next c = .ok (t, ⟨rest, c.finish⟩) := by
    unfold Parser.next
    rw [hrest]
  refine ⟨fun a d h => ?_, fun e h => ?_⟩
  · cases hnext.symm.trans h
    exact ⟨[t], ⟨hrest, rfl⟩, .singleton hkind⟩
  · cases hnext.symm.trans h

/-- After an opening token comes what closes it in the end. -/
theorem opened {o : Token} {rest : List Token} (hc : c.rest = o :: rest)
    (ho : o.kind.closing?.isSome = true) (hp : p c = q ⟨rest, c.finish⟩)
    (hq : OpensAt [o] n q ⟨rest, c.finish⟩) : OpensAt [] (n + o.kind.weight) p c := by
  constructor
  · intro a d h
    obtain ⟨ts, hts, hneutral⟩ := hq.neutral a d (hp ▸ h)
    refine ⟨o :: ts, ⟨?_, hts.finish⟩, hneutral⟩
    rw [hc, show rest = ts ++ d.rest from hts.rest, List.cons_append]
  · intro e h hdeep
    obtain ⟨ts, d, hts, hpos, hlength⟩ := hq.deep e (hp ▸ h) hdeep
    refine ⟨o :: ts, d, ⟨?_, hts.finish⟩, hpos, fun opened => ?_⟩
    · rw [hc, show rest = ts ++ d.rest from hts.rest, List.cons_append]
    · have hmore := hlength (track opened o)
      rw [Token.length_track opened ho] at hmore
      rw [List.foldl_cons]
      omega

end OpensAt

namespace Opens

theorem pure (a : α) : Opens n (Pure.pure a) := by
  intro c
  constructor
  · rintro _ _ ⟨⟩
    exact ⟨[], .refl c, .nil⟩
  · rintro _ ⟨⟩

theorem bind {f : α → Parser β} (hp : Opens n p) (hf : ∀ a, Opens n (f a)) : Opens n (p >>= f) :=
  fun c => (hp c).bind fun a d _ => hf a d

theorem map {f : α → β} (hp : Opens n p) : Opens n (f <$> p) :=
  hp.bind fun a => .pure (f a)

theorem ite {b : Prop} [Decidable b] (hp : Opens n p) (hq : Opens n q) :
    Opens n (if b then p else q) := by
  split
  · exact hp
  · exact hq

/-- A rule without any levels left fails at once. -/
theorem tooDeep : Opens 0 (Parser.fail .tooDeep : Parser α) := by
  intro c
  constructor
  · rintro _ _ ⟨⟩
  · rintro _ ⟨⟩ -
    exact ⟨[], c, .refl c, rfl, fun _ => Nat.le_refl _⟩

theorem fail {cause : ParseError.Cause} (h : cause ≠ .tooDeep) :
    Opens n (Parser.fail cause : Parser α) := by
  intro c
  constructor
  · rintro _ _ ⟨⟩
  · rintro _ ⟨⟩ hdeep
    exact absurd hdeep h

theorem mismatch_ne_tooDeep (c : Cursor) : c.mismatch ≠ .tooDeep := by
  unfold Cursor.mismatch
  split
  · rintro ⟨⟩
  · rintro ⟨⟩

theorem unexpected : Opens n (Parser.unexpected : Parser α) := by
  intro c
  constructor
  · rintro _ _ ⟨⟩
  · rintro _ ⟨⟩ hdeep
    exact absurd hdeep (mismatch_ne_tooDeep c)

/-! ## Primitive parsers -/

theorem of_look {look : Cursor → α} : Opens n fun c => .ok (look c, c) := by
  intro c
  constructor
  · rintro _ _ ⟨⟩
    exact ⟨[], .refl c, .nil⟩
  · rintro _ ⟨⟩

theorem position : Opens n Parser.position :=
  of_look

theorem peek : Opens n Parser.peek :=
  of_look

theorem peekKind : Opens n Parser.peekKind :=
  of_look

theorem peekSecondKind : Opens n Parser.peekSecondKind :=
  of_look

theorem nextIs (kind : Token.Kind) : Opens n (Parser.nextIs kind) :=
  peekKind.bind fun _ => .pure _

theorem eat {kind : Token.Kind} (hkind : kind.isPlain = true) : Opens n (Parser.eat kind) := by
  intro c
  refine OpensAt.look rfl ?_
  split
  · next h => exact (OpensAt.next (by simpa using h) hkind).bind fun _ d _ => pure _ d
  · exact pure _ c

theorem expect {kind : Token.Kind} (hkind : kind.isPlain = true) :
    Opens n (Parser.expect kind) := by
  intro c
  refine OpensAt.look rfl ?_
  split
  · next h => exact OpensAt.next (by simpa using h) hkind
  · exact unexpected c

theorem name : Opens n Parser.name := by
  intro c
  refine OpensAt.look rfl ?_
  cases hc : c.rest with
  | nil => exact unexpected c
  | cons t rest =>
    simp only [List.head?_cons]
    split
    · next ht =>
      have hkind : c.rest.head?.map Token.kind = some t.kind := by rw [hc]; rfl
      exact (OpensAt.next hkind (Token.isPlain_of_isName ht)).bind fun _ d _ => pure _ d
    · exact unexpected c

/-! ## Repetition -/

section

variable {more : Parser Bool} {item : Parser α} {opening closing : Token.Kind}

theorem repeatWithin (hmore : Opens n more) (hitem : Opens n item) :
    ∀ allowance : List Token, Opens n (Parser.repeatWithin more item allowance)
  | [] => hmore.bind fun _ => .ite (hitem.bind fun _ => .pure _) (.pure _)
  | _ :: allowance => hmore.bind fun _ => .ite
    (hitem.bind fun _ => (repeatWithin hmore hitem allowance).bind fun _ => .pure _) (.pure _)

theorem repeatWhile (hmore : Opens n more) (hitem : Opens n item) :
    Opens n (Parser.repeatWhile more item) :=
  fun c => (repeatWithin hmore hitem c.rest c).congr rfl

theorem eat_cases (kind : Token.Kind) (c : Cursor) :
    (∃ t rest, c.rest = t :: rest ∧ t.kind = kind ∧
      Parser.eat kind c = .ok (true, ⟨rest, c.finish⟩)) ∨
    Parser.eat kind c = .ok (false, c) := by
  obtain ⟨rest, finish⟩ := c
  have heat : Parser.eat kind ⟨rest, finish⟩ =
      (if decide (rest.head?.map Token.kind = some kind) = true then do
        let _ ← Parser.next
        Pure.pure true
      else Pure.pure false : Parser Bool) ⟨rest, finish⟩ := rfl
  rw [heat]
  split
  · next h =>
    obtain ⟨t, ht, hk⟩ := Option.map_eq_some_iff.1 (of_decide_eq_true h)
    obtain ⟨rest', rfl⟩ := List.head?_eq_some_iff.1 ht
    exact .inl ⟨t, rest', rfl, hk, rfl⟩
  · exact .inr rfl

theorem expect_cases (kind : Token.Kind) (c : Cursor) :
    (∃ t rest, c.rest = t :: rest ∧ t.kind = kind ∧
      Parser.expect kind c = .ok (t, ⟨rest, c.finish⟩)) ∨
    Parser.expect kind c = .error ⟨c.mismatch, c.pos⟩ := by
  obtain ⟨rest, finish⟩ := c
  have hexpect : Parser.expect kind ⟨rest, finish⟩ =
      (if decide (rest.head?.map Token.kind = some kind) = true then Parser.next
      else Parser.unexpected) ⟨rest, finish⟩ := rfl
  rw [hexpect]
  split
  · next h =>
    obtain ⟨t, ht, hk⟩ := Option.map_eq_some_iff.1 (of_decide_eq_true h)
    obtain ⟨rest', rfl⟩ := List.head?_eq_some_iff.1 ht
    exact .inl ⟨t, rest', rfl, hk, rfl⟩
  · exact .inr rfl

/-- The next token closes the one before, if it is of the kind. -/
theorem close {o t : Token} {rest : List Token} {a : α} (hc : c.rest = t :: rest)
    (hclose : o.kind.closing? = some t.kind) (hp : p c = .ok (a, ⟨rest, c.finish⟩)) :
    OpensAt [o] n p c := by
  constructor
  · intro b d h
    cases hp.symm.trans h
    exact ⟨[t], ⟨hc, rfl⟩, .pair hclose⟩
  · intro e h
    cases hp.symm.trans h

theorem expect_closing {o : Token} (hclose : o.kind.closing? = some closing) (c : Cursor) :
    OpensAt [o] n (Parser.expect closing) c := by
  rcases expect_cases closing c with ⟨t, rest, hc, ht, hexpect⟩ | hexpect
  · exact close hc (by rw [hclose, ht]) hexpect
  · refine ⟨fun a d h => ?_, fun e h hdeep => ?_⟩
    · cases hexpect.symm.trans h
    · cases hexpect.symm.trans h
      exact absurd hdeep (mismatch_ne_tooDeep c)

/-- Either the next token closes the one before, or something comes first. -/
theorem unlessClosed {o : Token} {a : α} (hclose : o.kind.closing? = some closing)
    (hp : OpensAt [o] n p c) : OpensAt [o] n (do
      if ← (return !(← Parser.eat closing) : Parser Bool) then p else return a) c := by
  rcases eat_cases closing c with ⟨t, rest, hc, ht, heat⟩ | heat
  · have hmore : (return !(← Parser.eat closing) : Parser Bool) c = .ok (false, ⟨rest, c.finish⟩) :=
      bind_ok heat
    exact close hc (by rw [hclose, ht]) (bind_ok hmore)
  · have hmore : (return !(← Parser.eat closing) : Parser Bool) c = .ok (true, c) := bind_ok heat
    exact OpensAt.look hmore hp

/-- Every item takes a token, so one is left after the last of them, and it closes. -/
theorem untilClosed {o : Token} (hclose : o.kind.closing? = some closing)
    (hlocal : Local true item) (hitem : Opens n item) :
    ∀ (allowance : List Token) (c : Cursor), c.rest.length ≤ allowance.length →
      OpensAt [o] n (Parser.repeatWithin (return !(← Parser.eat closing)) item allowance) c := by
  intro allowance
  induction allowance with
  | nil =>
    intro c hle
    refine unlessClosed hclose ((hitem c).bind fun a d ha => ?_)
    have hlt := hlocal.lt rfl c a d ha
    rw [List.length_nil] at hle
    omega
  | cons u allowance ih =>
    intro c hle
    refine unlessClosed hclose ((hitem c).bind fun a d ha => ?_)
    have hlt := hlocal.lt rfl c a d ha
    rw [List.length_cons] at hle
    refine (ih d (by omega)).andThen (fun _ => pure _) ?_
    rintro _ _ _ ⟨⟩

/-- Between braces or brackets items have a level less. -/
theorem delimited (hclose : opening.closing? = some closing) (hle : m ≤ n + opening.weight)
    (hlocal : Local true item) (hitem : Opens n item) :
    Opens m (Parser.delimited opening closing item) := by
  intro c
  rcases expect_cases opening c with ⟨o, rest, hc, rfl, hexpect⟩ | hexpect
  · have hitems := untilClosed hclose hlocal hitem rest ⟨rest, c.finish⟩ (Nat.le_refl _)
    refine (OpensAt.opened hc ?_ (bind_ok hexpect) (hitems.congr rfl)).weaken hle
    rw [hclose, Option.isSome_some]
  · refine (unexpected c).congr ?_
    unfold Parser.delimited
    rw [bind_apply, hexpect]
    rfl

theorem optionalDelimited (hclose : opening.closing? = some closing) (hlocal : Local true item)
    (hitem : Opens n item) : Opens n (Parser.optionalDelimited opening closing item) :=
  (nextIs _).bind fun _ => .ite (delimited hclose (Nat.le_add_right ..) hlocal hitem) (.pure _)

end

/-! ## Values and types -/

theorem variableName : Opens n Parser.variableName :=
  (expect rfl).bind fun _ => name.bind fun _ => .pure _

theorem intLiteral {token : Token} (hc : c.rest.head?.map Token.kind = some .int) :
    OpensAt [] n (Parser.intLiteral token) c := by
  unfold Parser.intLiteral
  dsimp only
  split
  · exact (OpensAt.next hc rfl).bind fun _ d _ => pure _ d
  · exact fail (by simp) c

theorem floatLiteral {token : Token} (hc : c.rest.head?.map Token.kind = some .float) :
    OpensAt [] n (Parser.floatLiteral token) c := by
  unfold Parser.floatLiteral
  split
  · exact (OpensAt.next hc rfl).bind fun _ d _ => pure _ d
  · exact fail (by simp) c

theorem objectField {value : Parser (Located (Value ν))} (hv : Opens n value) :
    Opens n (Parser.objectField value) :=
  name.bind fun _ => (expect rfl).bind fun _ => hv.bind fun _ => .pure _

theorem value {rule : Parser ν} (hlocal : Local true rule) (hrule : ∀ n, Opens n rule) :
    ∀ levels, Opens levels (Parser.value rule levels)
  | 0 => tooDeep
  | levels + 1 => by
    have ih := value hlocal hrule levels
    have hitem : Local true (Parser.value rule levels) := .value hlocal levels
    have hlist : Opens (levels + 1) (Parser.delimited .leftBracket .rightBracket
        (Parser.value rule levels)) := delimited rfl (Nat.le_refl _) hitem ih
    have hobject : Opens (levels + 1) (Parser.delimited .leftBrace .rightBrace
        (Parser.objectField (Parser.value rule levels))) :=
      delimited rfl (Nat.le_refl _) (.objectField hitem) (objectField ih)
    intro c
    refine OpensAt.look rfl (OpensAt.look rfl ?_)
    cases hc : c.rest with
    | nil => exact unexpected c
    | cons t rest =>
      have hhead : c.rest.head?.map Token.kind = some t.kind := by rw [hc]; rfl
      simp only [List.head?_cons]
      cases hkind : t.kind with
      | dollar => exact (hrule _).map c
      | int => exact (intLiteral (hkind ▸ hhead)).bind fun _ d _ => pure _ d
      | float => exact (floatLiteral (hkind ▸ hhead)).bind fun _ d _ => pure _ d
      | string | true | false | null =>
        exact (OpensAt.next (hkind ▸ hhead) rfl).bind fun _ d _ => pure _ d
      | leftBracket => exact hlist.map c
      | leftBrace => exact hobject.map c
      | _ => exact Opens.ite (name.bind fun _ => .pure _) unexpected c

theorem literal (levels : Nat) : Opens levels (Parser.literal levels) :=
  value .variableName (fun _ => variableName) levels

theorem constant (levels : Nat) : Opens levels (Parser.constant levels) :=
  value .unexpected (fun _ => unexpected) levels

theorem typeRef : ∀ levels, Opens levels (Parser.typeRef levels)
  | 0 => tooDeep
  | levels + 1 => by
    intro c
    refine OpensAt.look rfl ?_
    rcases eat_cases .leftBracket c with ⟨o, rest, hc, ho, heat⟩ | heat
    · refine (OpensAt.opened (n := levels) hc (by rw [ho]; rfl) (bind_ok heat) ?_).weaken ?_
      · -- The bracket is closed before the exclamation mark is looked for.
        rw [if_pos rfl]
        refine (typeRef levels _).bind fun item d _ => ?_
        refine (expect_closing (by rw [ho]; rfl) d).andThen
          (fun _ => (eat rfl).bind fun _ => .pure _) ?_
        intro _ d' e h
        rcases eat_cases .bang d' with ⟨_, _, _, _, heat'⟩ | heat'
        · rw [bind_ok heat'] at h
          cases h
        · rw [bind_ok heat'] at h
          cases h
      · rw [ho]
        exact Nat.le_refl _
    · exact OpensAt.look heat ((name.bind fun _ => (eat rfl).bind fun _ => .pure _) c)

/-! ## Arguments and directives -/

theorem argument {value : Parser (Located (Value ν))} (hv : Opens n value) :
    Opens n (Parser.argument value) :=
  name.bind fun _ => (expect rfl).bind fun _ => hv.bind fun _ => .pure _

theorem arguments {value : Parser (Located (Value ν))} (hlocal : Local true value)
    (hv : Opens n value) : Opens n (Parser.arguments value) :=
  optionalDelimited rfl (.argument hlocal) (argument hv)

theorem directive {value : Parser (Located (Value ν))} (hlocal : Local true value)
    (hv : Opens n value) : Opens n (Parser.directive value) :=
  position.bind fun _ => (expect rfl).bind fun _ => name.bind fun _ =>
    (arguments hlocal hv).bind fun _ => .pure _

theorem directives {value : Parser (Located (Value ν))} (hlocal : Local true value)
    (hv : Opens n value) : Opens n (Parser.directives value) :=
  repeatWhile (nextIs _) (directive hlocal hv)

theorem constDirectives : Opens nestingLimit Parser.constDirectives :=
  directives (.constant _) (constant _)

theorem default? : Opens nestingLimit Parser.default? :=
  (eat rfl).bind fun _ => .ite ((constant _).map) (.pure _)

/-! ## Selections -/

theorem typeCondition : Opens n Parser.typeCondition :=
  position.bind fun _ => (expect rfl).bind fun _ => name.bind fun _ => .pure _

variable {levels : Nat} {nested : Parser SelectionSet}

theorem field (hn : Opens levels nested) : Opens levels (Parser.field levels nested) := by
  have hparts : ∀ g : List (Argument Name) → List (Directive Name) → SelectionSet → Field,
      Opens levels (do
        let arguments ← Parser.arguments (Parser.literal levels)
        let directives ← Parser.directives (Parser.literal levels)
        let selections ← if ← Parser.nextIs .leftBrace then nested
          else Pure.pure ⟨← Parser.position, []⟩
        Pure.pure (g arguments directives selections)) := fun _ =>
    (arguments (.literal _) (literal _)).bind fun _ =>
      (directives (.literal _) (literal _)).bind fun _ => (nextIs _).bind fun _ =>
        .ite (hn.bind fun _ => .pure _) (position.bind fun _ => .pure _)
  refine position.bind fun pos => name.bind fun first => (eat rfl).bind fun aliased => ?_
  cases aliased with
  | true => exact name.bind fun actual => hparts _
  | false => exact hparts _

theorem fragmentSelection (pos : Position) (hn : Opens levels nested) :
    Opens levels (Parser.fragmentSelection pos levels nested) := by
  have hinline : ∀ condition : Option TypeCondition, Opens levels (do
        let directives ← Parser.directives (Parser.literal levels)
        let selections ← nested
        Pure.pure (Selection.inline ⟨pos, condition, directives, selections⟩)) := fun condition =>
    (directives (.literal _) (literal _)).bind fun _ => hn.bind fun _ => .pure _
  refine peekKind.bind fun kind => .ite ?_
    (name.bind fun _ => (directives (.literal _) (literal _)).bind fun _ => .pure _)
  split
  · exact typeCondition.map.bind hinline
  · exact hinline none

theorem selection (hn : Opens levels nested) : Opens levels (Parser.selection levels nested) :=
  position.bind fun pos => (eat rfl).bind fun _ => .ite (fragmentSelection pos hn)
    ((field hn).bind fun _ => .pure _)

theorem selectionSet : ∀ levels, Opens levels (Parser.selectionSet levels)
  | 0 => tooDeep
  | levels + 1 => by
    have hitems : Opens (levels + 1) (Parser.delimited .leftBrace .rightBrace
        (Parser.selection levels (Parser.selectionSet levels))) :=
      delimited rfl (Nat.le_refl _) (.selection levels (.selectionSet levels))
        (selection (selectionSet levels))
    exact position.bind fun _ => hitems.bind fun _ => .pure _

/-! ## Operations and fragments -/

theorem variableDefinition : Opens nestingLimit Parser.variableDefinition :=
  position.bind fun _ => (expect rfl).bind fun _ => name.bind fun _ => (expect rfl).bind fun _ =>
    (typeRef _).bind fun _ => default?.bind fun _ => constDirectives.bind fun _ => .pure _

theorem optionalName : Opens n Parser.optionalName :=
  peekKind.bind fun kind => by
    cases kind with
    | none => exact .pure _
    | some kind => exact .ite name.map (.pure _)

/-- Only at a keyword an operation takes the next token as such. -/
theorem operation {kind : Token.Kind} (hc : c.rest.head?.map Token.kind = some kind)
    (hkind : kind = .leftBrace ∨ kind.isPlain = true) :
    OpensAt [] nestingLimit Parser.operation c := by
  refine OpensAt.look rfl ?_
  have hnext : Parser.nextIs .leftBrace c = .ok (decide (kind = .leftBrace), c) := by
    show Except.ok (decide (c.rest.head?.map Token.kind = some .leftBrace), c) = _
    simp only [hc, Option.some.injEq]
  refine OpensAt.look hnext ?_
  rcases hkind with rfl | hkind
  · exact (selectionSet _).map c
  · rw [if_neg ?_]
    · refine (OpensAt.next hc hkind).bind fun keyword d _ => ?_
      refine (optionalName.bind fun _ => (optionalDelimited rfl .variableDefinition
        variableDefinition).bind fun _ => (directives (.literal _) (literal _)).bind fun _ =>
          (selectionSet _).bind fun _ => .pure _) d
    · rw [decide_eq_true_iff]
      rintro rfl
      cases hkind

theorem fragment : Opens nestingLimit Parser.fragment := by
  have hrest : ∀ (pos : Position) (x : Option (Located Name)), Opens nestingLimit (do
        let condition ← Parser.typeCondition
        let directives ← Parser.directives (Parser.literal nestingLimit)
        let selections ← Parser.selectionSet nestingLimit
        Pure.pure (⟨pos, x, condition, directives, selections⟩ : Fragment)) := fun pos x =>
    typeCondition.bind fun _ => (directives (.literal _) (literal _)).bind fun _ =>
      (selectionSet _).bind fun _ => .pure _
  refine position.bind fun pos => (expect rfl).bind fun _ => peekKind.bind fun kind =>
    peekSecondKind.bind fun second => Opens.ite (hrest pos none) (name.map.bind (hrest pos))

/-! ## Type systems -/

theorem description? : Opens n Parser.description? := by
  intro c
  refine OpensAt.look rfl (OpensAt.look (p := Parser.nextIs .string) rfl ?_)
  split
  · next h => exact (OpensAt.next (by simpa using h) rfl).bind fun _ d _ => pure _ d
  · exact pure _ c

theorem inputValueDefinition : Opens nestingLimit Parser.inputValueDefinition :=
  position.bind fun _ => description?.bind fun _ => name.bind fun _ => (expect rfl).bind fun _ =>
    (typeRef _).bind fun _ => default?.bind fun _ => constDirectives.bind fun _ => .pure _

theorem argumentDefinitions : Opens nestingLimit Parser.argumentDefinitions :=
  optionalDelimited rfl .inputValueDefinition inputValueDefinition

theorem fieldDefinition : Opens nestingLimit Parser.fieldDefinition :=
  position.bind fun _ => description?.bind fun _ => name.bind fun _ =>
    argumentDefinitions.bind fun _ => (expect rfl).bind fun _ => (typeRef _).bind fun _ =>
      constDirectives.bind fun _ => .pure _

theorem enumValueDefinition : Opens nestingLimit Parser.enumValueDefinition :=
  position.bind fun _ => description?.bind fun _ => name.bind fun _ =>
    constDirectives.bind fun _ => .pure _

theorem rootEntry : Opens n Parser.rootEntry := by
  intro c
  have hread : ∀ {keyword : Token.Kind} (kind : OperationKind),
      c.rest.head?.map Token.kind = some keyword → keyword.isPlain = true → OpensAt [] n (do
        let _ ← Parser.next
        let _ ← Parser.expect .colon
        let name ← Parser.name
        Pure.pure (kind, name)) c := fun kind hc hkind =>
    (OpensAt.next hc hkind).bind fun _ d _ =>
      ((expect rfl).bind fun _ => name.bind fun _ => .pure _) d
  refine OpensAt.look rfl ?_
  split
  · next hc => exact hread _ hc rfl
  · next hc => exact hread _ hc rfl
  · next hc => exact hread _ hc rfl
  · exact (unexpected c).bind fun _ _ h => by cases h

theorem schemaDefinition (pos : Position) (description : Option (Located String)) :
    Opens nestingLimit (Parser.schemaDefinition pos description) :=
  (expect rfl).bind fun _ => constDirectives.bind fun _ =>
    (delimited rfl (Nat.le_add_right ..) .rootEntry rootEntry).bind fun _ => .pure _

theorem separated {separator : Token.Kind} {item : Parser α} (hkind : separator.isPlain = true)
    (hitem : Opens n item) : Opens n (Parser.separated separator item) :=
  (eat hkind).bind fun _ => hitem.bind fun _ => (repeatWhile (eat hkind) hitem).bind
    fun _ => .pure _

theorem implementedInterfaces : Opens n Parser.implementedInterfaces :=
  (eat rfl).bind fun _ => .ite
    ((eat rfl).bind fun _ => name.bind fun _ =>
      (repeatWhile ((eat rfl).bind fun _ => .ite (.pure _) (nextIs _)) name).bind fun _ => .pure _)
    (.pure _)

theorem typeBody (keyword : Token.Kind) : Opens nestingLimit (Parser.typeBody keyword) := by
  unfold Parser.typeBody
  split
  · exact constDirectives.bind fun _ => .pure _
  · exact implementedInterfaces.bind fun _ => constDirectives.bind fun _ =>
      (optionalDelimited rfl .fieldDefinition fieldDefinition).bind fun _ => .pure _
  · exact implementedInterfaces.bind fun _ => constDirectives.bind fun _ =>
      (optionalDelimited rfl .fieldDefinition fieldDefinition).bind fun _ => .pure _
  · exact constDirectives.bind fun _ => (eat rfl).bind fun _ => .ite
      ((separated rfl name).bind fun _ => .pure _) (.pure _)
  · exact constDirectives.bind fun _ =>
      (optionalDelimited rfl .enumValueDefinition enumValueDefinition).bind fun _ => .pure _
  · exact constDirectives.bind fun _ =>
      (optionalDelimited rfl .inputValueDefinition inputValueDefinition).bind fun _ => .pure _

theorem typeDefinition (pos : Position) (description : Option (Located String))
    {keyword : Token.Kind} (hc : c.rest.head?.map Token.kind = some keyword)
    (hkind : keyword.isPlain = true) :
    OpensAt [] nestingLimit (Parser.typeDefinition pos description) c :=
  (OpensAt.next hc hkind).bind fun _ d _ =>
    (name.bind fun _ => (typeBody _).bind fun _ => .pure _) d

theorem directiveLocation : Opens n Parser.directiveLocation :=
  peek.bind fun token => by
    cases token with
    | none => exact unexpected
    | some token =>
      refine .ite ?_ unexpected
      split
      · exact name.bind fun _ => .pure _
      · exact fail (by simp)

theorem directiveDefinition (pos : Position) (description : Option (Located String)) :
    Opens nestingLimit (Parser.directiveDefinition pos description) :=
  (expect rfl).bind fun _ => (expect rfl).bind fun _ => name.bind fun _ =>
    argumentDefinitions.bind fun _ => (expect rfl).bind fun _ =>
      (separated rfl directiveLocation).bind fun _ => .pure _

theorem typeSystemDefinition : Opens nestingLimit Parser.typeSystemDefinition := by
  refine position.bind fun pos => description?.bind fun description => fun c => ?_
  have htype : ∀ {keyword : Token.Kind}, c.rest.head?.map Token.kind = some keyword →
      keyword.isPlain = true → OpensAt [] nestingLimit (do
        return Definition.type (← Parser.typeDefinition pos description)) c := fun hc hkind =>
    (typeDefinition pos description hc hkind).bind fun _ d _ => pure _ d
  refine OpensAt.look rfl ?_
  split
  · exact (schemaDefinition pos description).map c
  · exact (directiveDefinition pos description).map c
  all_goals first
    | next hc => exact htype hc rfl
    | exact unexpected c

theorem definition : Opens nestingLimit Parser.definition := by
  intro c
  have hoperation : ∀ {kind : Token.Kind}, c.rest.head?.map Token.kind = some kind →
      (kind = .leftBrace ∨ kind.isPlain = true) → OpensAt [] nestingLimit (do
        return Definition.operation (← Parser.operation)) c := fun hc hkind =>
    (operation hc hkind).bind fun _ d _ => pure _ d
  refine OpensAt.look rfl ?_
  split <;> first
    | next hc => exact hoperation hc (.inl rfl)
    | next hc => exact hoperation hc (.inr rfl)
    | exact fragment.map c
    | exact typeSystemDefinition c
    | exact unexpected c

theorem definitions : Opens nestingLimit Parser.definitions :=
  repeatWhile (peek.bind fun _ => .pure _) definition

theorem finished : Opens n Parser.finished :=
  peek.bind fun token => by
    cases token with
    | none => exact .pure _
    | some token => exact unexpected

/-- A rule that has to take up the whole source. -/
theorem whole (hp : Opens n p) : Opens n (do
    let a ← p
    Parser.finished
    return a) :=
  hp.bind fun _ => finished.bind fun _ => .pure _

end Opens

end Parser

/-! ## Whole sources -/

namespace ParseError

theorem Cause.message_eq_tooDeep {cause : Cause}
    (h : cause.message = "Recursion limit exceeded") : cause = .tooDeep := by
  have hfirst := congrArg (fun s => s.toList.head?) h
  unfold Cause.message at hfirst
  cases cause with
  | tooDeep => rfl
  | unexpected token =>
    dsimp only at hfirst
    split at hfirst <;> simp [toString] at hfirst
  | unterminatedString => simp [Unterminated.message] at hfirst
  | unexpectedEnd | intOutOfRange | floatOutOfRange | unknownLocation =>
    simp [toString] at hfirst

end ParseError

/-- The tokens before a position. -/
def Token.upTo (pos : Position) (tokens : List Token) : List Token :=
  tokens.filter fun t => t.pos.Precedes pos

theorem Token.upTo_append {ts us : List Token} {finish : Position}
    (h : (stops (ts ++ us) finish).Pairwise Position.Precedes) :
    upTo (Cursor.pos ⟨us, finish⟩) (ts ++ us) = ts := by
  have hstops : stops (ts ++ us) finish = ts.map Token.pos ++ stops us finish := by
    unfold stops
    rw [List.map_append, List.append_assoc]
  rw [hstops, List.pairwise_append] at h
  obtain ⟨-, hus, hts⟩ := h
  have hbefore : upTo (Cursor.pos ⟨us, finish⟩) ts = ts := by
    refine List.filter_eq_self.2 fun t ht => decide_eq_true (hts _ (List.mem_map_of_mem ht) _ ?_)
    cases us <;> exact List.mem_cons_self ..
  have hafter : upTo (Cursor.pos ⟨us, finish⟩) us = [] := by
    refine List.filter_eq_nil_iff.2 fun u hu => ?_
    rw [decide_eq_true_iff]
    cases us with
    | nil => cases hu
    | cons first us =>
      rcases List.mem_cons.1 hu with rfl | hu
      · exact fun hself => hself.asymm hself
      · apply Position.Precedes.asymm
        exact (List.pairwise_cons.1 hus).1 _ (List.mem_append_left _ (List.mem_map_of_mem hu))
  unfold upTo at hbefore hafter ⊢
  rw [List.filter_append, hbefore, hafter, List.append_nil]

/-- No path through what is read is longer than the limit; where a source is refused as too deep,
as many braces and brackets are open; and where fewer are open throughout, it is not refused. -/
structure Limited (source : String) {α : Type} (nests : α → Nat → Prop)
    (result : Except ParseError α) : Prop where
  nests : ∀ a, result = .ok a → ∀ n, nests a n → n ≤ nestingLimit
  unclosed : ∀ e, result = .error e → e.plainMessage = "Recursion limit exceeded" →
    ∃ tokens, Token.scan source = .ok tokens ∧
      nestingLimit ≤ (Token.unclosed (Token.upTo e.pos tokens)).length
  shallow : ∀ tokens, Token.scan source = .ok tokens →
    (∀ ts, ts <+: tokens → (Token.unclosed ts).length < nestingLimit) →
      ∀ e, result = .error e → e.plainMessage ≠ "Recursion limit exceeded"

namespace Parser

variable {α β : Type} {p : Parser α} {source : String}

theorem limited_parse {nests : α → Nat → Prop} (hp : Opens nestingLimit p)
    (hgives : Gives p fun a => ∀ n, nests a n → n ≤ nestingLimit) (filename : Option String) :
    Limited source nests (parse p source filename) := by
  have hdeep : ∀ e, parse p source filename = .error e →
      e.plainMessage = "Recursion limit exceeded" → ∃ ts tokens, ts <+: tokens ∧
        Token.scan source = .ok tokens ∧ Token.upTo e.pos tokens = ts ∧
          nestingLimit ≤ (Token.unclosed ts).length := by
    intro e h hmessage
    have hcause := ParseError.Cause.message_eq_tooDeep hmessage
    rcases parse_eq_error h with hother | ⟨tokens, failure, hscan, hrun, rfl⟩
    · rw [hother] at hcause
      cases hcause
    · obtain ⟨ts, ⟨rest, finish⟩, ⟨hrest, hfinish⟩, hpos, hlength⟩ :=
        (hp _).deep failure hrun hcause
      obtain rfl : tokens = ts ++ rest := hrest
      obtain rfl : Position.start.after source.toList = finish := hfinish
      have hstops := Token.pairwise_stops hscan
      refine ⟨ts, _, List.prefix_append ts rest, hscan, ?_, ?_⟩
      · show Token.upTo failure.pos (ts ++ rest) = ts
        rw [hpos, Token.upTo_append hstops]
      · have hopened := hlength []
        rwa [List.length_nil, Nat.zero_add] at hopened
  refine ⟨fun a h => ?_, fun e h hmessage => ?_, fun tokens hscan hshallow e h hmessage => ?_⟩
  · obtain ⟨tokens, d, hscan, hrun⟩ := parse_eq_ok h
    have hat : Cursor.At ⟨tokens, Position.start.after source.toList⟩ source.toList :=
      Token.lexes_of_scan hscan
    exact (hgives _ hat.proper a d hrun).1
  · obtain ⟨ts, tokens, -, hscan, rfl, hlength⟩ := hdeep e h hmessage
    exact ⟨tokens, hscan, hlength⟩
  · obtain ⟨ts, tokens', hprefix, hscan', -, hlength⟩ := hdeep e h hmessage
    cases hscan.symm.trans hscan'
    exact absurd hlength (Nat.not_le.2 (hshallow ts hprefix))

theorem limited_parseAll {nests : α → Nat → Prop} (hp : Opens nestingLimit p)
    (hgives : Gives p fun a => ∀ n, nests a n → n ≤ nestingLimit) :
    Limited source nests (parseAll p source) :=
  limited_parse hp.whole (hgives.bind fun _ ha => Gives.finished.bind fun _ _ => .pure ha) none

end Parser

theorem Limited.map {α β : Type} {source : String} {result : Except ParseError α}
    {nests : β → Nat → Prop} {f : α → β} (h : Limited source (fun a => nests (f a)) result) :
    Limited source nests (do return f (← result)) := by
  cases result with
  | error e =>
    refine ⟨fun a ha => ?_, fun e' he => ?_, fun ts hs hshallow e' he => ?_⟩
    · cases ha
    · cases he
      exact h.unclosed e rfl
    · cases he
      exact h.shallow ts hs hshallow e rfl
  | ok a =>
    refine ⟨fun b hb => ?_, fun e he => ?_, fun ts hs hshallow e he => ?_⟩
    · cases hb
      exact h.nests a rfl
    · cases he
    · cases he

/-- Whatever a source is read as, it is refused as too deep only where so many braces and brackets
are open. -/
theorem Document.parse_limited (source : String) (filename : Option String) :
    Limited source Document.Nests (Document.parse source filename) ∧
    Limited source Value.Nests (Value.parse source) ∧
    Limited source Value.Nests (Const.parse source) ∧
    Limited source TypeRef.Nests (TypeRef.parse source) ∧
    Limited source SelectionSet.Nests (SelectionSet.parse source) := by
  refine ⟨Limited.map ?_, Limited.map ?_, Limited.map ?_, Limited.map ?_, ?_⟩
  · refine Parser.limited_parse Parser.Opens.definitions (Parser.Gives.definitions.imp ?_) filename
    rintro ds hds n ⟨x, hx, hn⟩
    exact (hds x hx).nests_le hn
  · exact Parser.limited_parseAll (Parser.Opens.literal _)
      ((Parser.Gives.literal _).imp fun _ hx _ => Value.Writable.nests_le hx)
  · exact Parser.limited_parseAll (Parser.Opens.constant _)
      ((Parser.Gives.constant _).imp fun _ hx _ => Value.Writable.nests_le hx)
  · exact Parser.limited_parseAll (Parser.Opens.typeRef _)
      ((Parser.Gives.typeRef _).imp fun _ hx _ => TypeRef.Writable.nests_le hx)
  · exact Parser.limited_parseAll (Parser.Opens.selectionSet _)
      (Parser.Gives.selections.imp fun _ hs _ => SelectionSet.Writable.nests_le hs)

/-- As many brackets as the limit may be nested, and no more. -/
example : (Value.parse ("".pushn '[' 64 |>.pushn ']' 64)).isOk = true ∧
    (Value.parse ("".pushn '[' 65 |>.pushn ']' 65)).isOk = false := by decide +kernel

end GraphQL
