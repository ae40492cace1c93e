import GraphQL.Proofs.Document.Content
import GraphQL.Proofs.Document.Local
import GraphQL.Proofs.Token.Brackets

/-!
# What parsers keep

`Keeps inside acc p f` says of a parser that the content of the tokens it takes is that of its
result, which is `f` of it: `acc` is the content of what was read before, and is part of `f` as
well. Object literals are only kept if their keys differ. So all of this is under the proviso
`Clear`, which for tokens inside of parentheses is about all braces among them, and else about those
that are between parentheses.
-/

namespace GraphQL

namespace Token

/-- No two keys of an object are alike, inside of parentheses or outside of them. -/
def Clear : Bool → List Token → Prop
  | true, ts => DistinctKeys ts
  | false, ts => DistinctObjectKeys ts

/-- Brackets are closed, and the tokens have the content if the keys of objects differ. -/
structure Held (inside : Bool) (xs : List Content) (ts : List Token) : Prop where
  balanced : Balanced ts
  contents : Clear inside ts → Token.contents ts = xs

variable {inside : Bool} {xs ys : List Content} {ts us : List Token} {t o c : Token}

theorem Clear.of_infix (h : Clear inside ts) (hus : us <:+: ts) : Clear inside us := by
  cases inside with
  | true => exact DistinctKeys.of_infix h hus
  | false => exact DistinctObjectKeys.of_infix h hus

theorem content_bracket (h : t.kind.isBracket = true) : t.lexeme.content = none := by
  unfold Lexeme.content
  rw [show t.lexeme.kind = t.kind from rfl]
  generalize t.kind = kind at h
  cases kind <;> first
    | rfl
    | cases h

theorem isBracket_of_closing? (h : o.kind.closing? = some c.kind) :
    o.kind.isBracket = true ∧ c.kind.isBracket = true := by
  generalize o.kind = opening at h
  generalize c.kind = closing at h
  cases opening <;> cases h <;> exact ⟨rfl, rfl⟩

theorem contents_between (h : o.kind.closing? = some c.kind) (ts : List Token) :
    contents (o :: (ts ++ [c])) = contents ts := by
  obtain ⟨ho, hc⟩ := isBracket_of_closing? h
  have hend : contents [c] = [] := List.filterMap_cons_none (content_bracket hc)
  rw [show contents (o :: (ts ++ [c])) = contents (ts ++ [c]) from
    List.filterMap_cons_none (content_bracket ho), contents_append, hend, List.append_nil]

namespace Held

theorem nil : Held inside [] [] :=
  ⟨.nil, fun _ => rfl⟩

theorem append (h : Held inside xs ts) (h' : Held inside ys us) :
    Held inside (xs ++ ys) (ts ++ us) where
  balanced := h.balanced.append h'.balanced
  contents hclear := by
    rw [contents_append, h.contents (hclear.of_infix (List.prefix_append ts us).isInfix),
      h'.contents (hclear.of_infix (List.suffix_append ts us).isInfix)]

theorem singleton (h : t.kind.isBracket = false) : Held inside t.lexeme.content.toList [t] where
  balanced := .singleton h
  contents _ := by
    cases hx : t.lexeme.content with
    | none => exact List.filterMap_cons_none hx
    | some x => exact List.filterMap_cons_some hx

theorem infix_between (o c : Token) (ts : List Token) : ts <:+: o :: (ts ++ [c]) :=
  ⟨[o], [c], rfl⟩

theorem between (hc : o.kind.closing? = some c.kind) (h : Held inside xs ts) :
    Held inside xs (o :: (ts ++ [c])) where
  balanced := h.balanced.between hc
  contents hclear := by
    rw [contents_between hc, h.contents (hclear.of_infix (infix_between o c ts))]

/-- Inside of parentheses all braces are those of objects. -/
theorem parenthesized (ho : o.kind = .leftParen) (hc : c.kind = .rightParen) (h : Held true xs ts) :
    Held inside xs (o :: (ts ++ [c])) where
  balanced := h.balanced.between (by rw [ho, hc]; rfl)
  contents hclear := by
    rw [contents_between (by rw [ho, hc]; rfl)]
    refine h.contents ?_
    cases inside with
    | true => exact DistinctKeys.of_infix hclear (infix_between o c ts)
    | false => exact hclear [] o ts c [] rfl ho hc h.balanced

theorem flatten {α : Type} {f : α → List Content} {as : List α} {parts : List (List Token)}
    (h : List.Forall₂ (fun a part => Held inside (f a) part) as parts) :
    Held inside (as.flatMap f) parts.flatten := by
  induction h with
  | nil => exact nil
  | cons h _ ih => exact h.append ih

end Held

end Token

open Token

theorem Cursor.Proper.of_append {c d : Cursor} (h : c.Proper) (ts : List Token)
    (hrest : c.rest = ts ++ d.rest) : d.Proper :=
  fun t ht => h t (by rw [hrest]; exact List.mem_append_right _ ht)

namespace Parser

variable {α β : Type} {inside : Bool} {acc xs : List Content} {p : Parser α} {c : Cursor}
  {f : α → List Content} {g : α → Parser β} {h : β → List Content} {kind : Token.Kind}

/-- What is taken at the cursor has the content by which `f` of the result goes beyond `acc`. -/
def KeepsAt (inside : Bool) (acc : List Content) (p : Parser α) (f : α → List Content)
    (c : Cursor) : Prop :=
  ∀ a d, p c = .ok (a, d) → ∃ ts xs, c.rest = ts ++ d.rest ∧ Held inside xs ts ∧ f a = acc ++ xs

def Keeps (inside : Bool) (acc : List Content) (p : Parser α) (f : α → List Content) : Prop :=
  ∀ c : Cursor, c.Proper → KeepsAt inside acc p f c

theorem eat_eq_ok {b : Bool} {d : Cursor} (h : Parser.eat kind c = .ok (b, d)) :
    (b = true ∧ ∃ t, c.rest = t :: d.rest ∧ t.kind = kind) ∨ (b = false ∧ d = c) := by
  obtain ⟨rest, finish⟩ := c
  obtain ⟨again, c1, hnext, h⟩ := bind_eq_ok h
  cases hnext
  cases rest with
  | nil =>
    cases h
    exact .inr ⟨rfl, rfl⟩
  | cons t rest =>
    split at h
    · next hk =>
      cases h
      exact .inl ⟨rfl, t, rfl, by simpa using hk⟩
    · cases h
      exact .inr ⟨rfl, rfl⟩

theorem kind_of_expect {t : Token} {d : Cursor} (h : Parser.expect kind c = .ok (t, d)) :
    t.kind = kind := by
  have hrest := expect_eq_ok h
  obtain ⟨again, c1, hnext, h⟩ := bind_eq_ok h
  cases hnext
  split at h
  · next hk => simpa [hrest] using hk
  · cases h

theorem name_eq_ok {x : Located Name} {d : Cursor} (h : Parser.name c = .ok (x, d)) :
    ∃ t, c.rest = t :: d.rest ∧ t.kind.isName = true ∧ x = ⟨t.pos, t.raw⟩ := by
  obtain ⟨rest, finish⟩ := c
  obtain ⟨token, c1, hpeek, h⟩ := bind_eq_ok h
  cases hpeek
  cases rest with
  | nil => cases h
  | cons t rest =>
    simp only [List.head?_cons] at h
    split at h
    · next hname =>
      cases h
      exact ⟨t, rfl, hname, rfl⟩
    · cases h

namespace KeepsAt

theorem bind (hc : c.Proper) (hp : KeepsAt inside [] p f c)
    (hg : ∀ a d, d.Proper → KeepsAt inside (acc ++ f a) (g a) h d) :
    KeepsAt inside acc (p >>= g) h c := by
  intro b e hb
  obtain ⟨a, d, hpa, hgb⟩ := bind_eq_ok hb
  obtain ⟨ts, xs, hrest, hts, hxs⟩ := hp a d hpa
  obtain ⟨us, ys, hrest', hus, hys⟩ := hg a d (hc.of_append ts hrest) b e hgb
  refine ⟨ts ++ us, xs ++ ys, by rw [hrest, hrest', List.append_assoc], hts.append hus, ?_⟩
  rw [hys, hxs, List.nil_append, List.append_assoc]

/-- What looks at the tokens without taking any. -/
theorem look {a : α} (hp : p c = .ok (a, c)) (hg : KeepsAt inside acc (g a) h c) :
    KeepsAt inside acc (p >>= g) h c := by
  intro b e hb
  rw [bind_ok hp] at hb
  exact hg b e hb

/-- The next token is known and no bracket, and all that is read. -/
theorem taken {g : Token → α} {t : Token} {rest : List Token} (hc : c.rest = t :: rest)
    (ht : t.kind.isBracket = false) (hf : f (g t) = acc ++ t.lexeme.content.toList) :
    KeepsAt inside acc (do return g (← Parser.next)) f c := by
  intro a d ha
  obtain ⟨t', c1, hnext, ha⟩ := bind_eq_ok ha
  unfold Parser.next at hnext
  rw [hc] at hnext
  cases hnext
  cases ha
  exact ⟨[t], _, hc, .singleton ht, hf⟩

end KeepsAt

namespace Keeps

/-! ## Rules of the logic -/

theorem pure {a : α} (ha : f a = acc) : Keeps inside acc (Pure.pure a) f := by
  rintro c - _ _ ⟨⟩
  exact ⟨[], [], rfl, .nil, by rw [ha, List.append_nil]⟩

theorem bind (hp : Keeps inside [] p f) (hg : ∀ a, Keeps inside (acc ++ f a) (g a) h) :
    Keeps inside acc (p >>= g) h :=
  fun c hc => (hp c hc).bind hc fun a d hd => hg a d hd

/-- What comes first has no content. -/
theorem silent (hp : Keeps inside [] p fun _ => []) (hg : ∀ a, Keeps inside acc (g a) h) :
    Keeps inside acc (p >>= g) h :=
  hp.bind fun a => by
    rw [List.append_nil]
    exact hg a

theorem map {g : α → β} (hp : Keeps inside acc p f) (hg : ∀ a, h (g a) = f a) :
    Keeps inside acc (g <$> p) h := by
  intro c hc b d hb
  obtain ⟨a, d', hpa, hd⟩ := bind_eq_ok hb
  cases hd
  rw [hg]
  exact hp c hc a _ hpa

theorem ite {q : Parser α} {b : Prop} [Decidable b] (hp : Keeps inside acc p f)
    (hq : Keeps inside acc q f) : Keeps inside acc (if b then p else q) f := by
  split
  · exact hp
  · exact hq

theorem fail (cause : ParseError.Cause) : Keeps inside acc (Parser.fail cause : Parser α) f := by
  rintro c - _ _ ⟨⟩

theorem unexpected : Keeps inside acc (Parser.unexpected : Parser α) f := by
  rintro c - _ _ ⟨⟩

/-! ## Primitive parsers -/

theorem position : Keeps inside [] Parser.position fun _ => [] := by
  rintro c - _ _ ⟨⟩
  exact ⟨[], [], rfl, .nil, rfl⟩

theorem peekKind : Keeps inside [] Parser.peekKind fun _ => [] := by
  rintro c - _ _ ⟨⟩
  exact ⟨[], [], rfl, .nil, rfl⟩

theorem peekSecondKind : Keeps inside [] Parser.peekSecondKind fun _ => [] := by
  rintro c - _ _ ⟨⟩
  exact ⟨[], [], rfl, .nil, rfl⟩

theorem nextIs (kind : Token.Kind) : Keeps inside [] (Parser.nextIs kind) fun _ => [] :=
  peekKind.silent fun _ => .pure rfl

/-- The kinds of tokens without content that are no brackets. -/
def isSilent (kind : Token.Kind) : Bool :=
  [.colon, .equals, .bang, .ellipsis, .dollar, .atSign].contains kind

theorem held_silent {t : Token} (h : isSilent t.kind = true) : Held inside [] [t] := by
  have hcontent : t.kind.isBracket = false ∧ t.lexeme.content = none := by
    unfold Token.Lexeme.content
    rw [show t.lexeme.kind = t.kind from rfl]
    generalize t.kind = kind at h
    cases kind <;> first
      | exact ⟨rfl, rfl⟩
      | cases h
  have hheld : Held inside t.lexeme.content.toList [t] := .singleton hcontent.1
  rwa [hcontent.2] at hheld

theorem eat (hkind : isSilent kind = true) : Keeps inside [] (Parser.eat kind) fun _ => [] := by
  intro c _ b d hb
  rcases eat_eq_ok hb with ⟨rfl, t, hrest, ht⟩ | ⟨rfl, rfl⟩
  · exact ⟨[t], [], hrest, held_silent (by rw [ht, hkind]), rfl⟩
  · exact ⟨[], [], rfl, .nil, rfl⟩

theorem expect (hkind : isSilent kind = true) :
    Keeps inside [] (Parser.expect kind) fun _ => [] := by
  intro c _ t d ht
  exact ⟨[t], [], expect_eq_ok ht, held_silent (by rw [kind_of_expect ht, hkind]), rfl⟩

theorem held_name {t : Token} (h : t.kind.isName = true) : Held inside [.name t.raw] [t] := by
  have hcontent : t.kind.isBracket = false ∧ t.lexeme.content = some (.name t.raw) := by
    unfold Token.Lexeme.content
    rw [show t.lexeme.kind = t.kind from rfl, show t.lexeme.raw = t.raw.toList from rfl,
      String.ofList_toList]
    generalize t.kind = kind at h
    cases kind <;> first
      | exact ⟨rfl, rfl⟩
      | cases h
  have hheld : Held inside t.lexeme.content.toList [t] := .singleton hcontent.1
  rwa [hcontent.2] at hheld

theorem name : Keeps inside [] Parser.name fun x => [.name x.node] := by
  intro c _ x d hx
  obtain ⟨t, hrest, ht, rfl⟩ := name_eq_ok hx
  exact ⟨[t], _, hrest, held_name ht, rfl⟩

/-- A keyword is the only name of its kind. -/
theorem raw_of_keyword {t : Token} (ht : t.lexeme.IsProper) {word : Name} {kind : Token.Kind}
    (hkind : t.kind = kind) (hword : Token.Kind.ofName word = kind) (hne : kind ≠ .identifier) :
    t.raw = word := by
  have hname : t.lexeme.kind.isName = true := by
    rw [show t.lexeme.kind = kind from hkind, ← hword]
    exact isName_ofName word
  have hraw := (ht hname).2
  rw [show String.ofList t.lexeme.raw = t.raw from String.ofList_toList] at hraw
  exact eq_of_ofName (hraw.symm.trans hkind) hword hne

theorem held_keyword {t : Token} (ht : t.lexeme.IsProper) {word : Name} {kind : Token.Kind}
    (hkind : t.kind = kind) (hword : Token.Kind.ofName word = kind) (hne : kind ≠ .identifier) :
    Held inside [.name word] [t] := by
  rw [← raw_of_keyword ht hkind hword hne]
  refine held_name ?_
  rw [hkind, ← hword]
  exact isName_ofName word

theorem keyword (word : Name) (hword : Token.Kind.ofName word = kind) (hne : kind ≠ .identifier) :
    Keeps inside [] (Parser.expect kind) fun _ => [.name word] := by
  intro c hc t d ht
  have hrest := expect_eq_ok ht
  have hproper : t.lexeme.IsProper := hc t (by rw [hrest]; exact List.mem_cons_self ..)
  exact ⟨[t], _, hrest, held_keyword hproper (kind_of_expect ht) hword hne, rfl⟩

end Keeps

/-! ## Repetition -/

theorem Keeps.repeatWithin {more : Parser Bool} {item : Parser α}
    (hmore : Keeps inside [] more fun _ => []) (hitem : Keeps inside [] item f) :
    ∀ allowance : List Token,
      Keeps inside [] (Parser.repeatWithin more item allowance) fun as => as.flatMap f
  | [] => hmore.silent fun _ => .ite (hitem.bind fun a => .pure (by simp)) (.pure rfl)
  | _ :: allowance => hmore.silent fun _ => .ite
    (hitem.bind fun a => (repeatWithin hmore hitem allowance).bind fun as => .pure (by simp))
    (.pure rfl)

theorem Keeps.repeatWhile {more : Parser Bool} {item : Parser α}
    (hmore : Keeps inside [] more fun _ => []) (hitem : Keeps inside [] item f) :
    Keeps inside [] (Parser.repeatWhile more item) fun as => as.flatMap f :=
  fun c hc => repeatWithin hmore hitem c.rest c hc

/-- What an item leaves, and what is known of the tokens that it takes. -/
def Takes (item : Parser α) (Q : α → List Token → Prop) : Prop :=
  ∀ c : Cursor, c.Proper → ∀ a d, item c = .ok (a, d) → ∃ ts, c.rest = ts ++ d.rest ∧ Q a ts

theorem Keeps.takes (hp : Keeps inside [] p f) : Takes p fun a ts => Held inside (f a) ts := by
  intro c hc a d ha
  obtain ⟨ts, xs, hrest, hts, hxs⟩ := hp c hc a d ha
  have heq : f a = xs := hxs
  exact ⟨ts, hrest, show Held inside (f a) ts from heq ▸ hts⟩

section Delimited

variable {item : Parser α} {Q : α → List Token → Prop} {opening closing : Token.Kind}

/-- Items that are read one after the other, and the token that closes them. -/
inductive ReadUpTo (closing : Token.Kind) (item : Parser α) : Cursor → List α → Cursor → Prop where
  | closed {c d : Cursor} {t : Token} : c.rest = t :: d.rest → t.kind = closing →
      ReadUpTo closing item c [] d
  | item {c c' d : Cursor} {a : α} {as : List α} : item c = .ok (a, c') →
      ReadUpTo closing item c' as d → ReadUpTo closing item c (a :: as) d

/-- Every item takes a token, so there is one left after the last of them, which closes. -/
theorem readUpTo_repeatWithin (hlocal : Local true item) : ∀ (allowance : List Token) (c : Cursor),
    c.rest.length ≤ allowance.length → ∀ as d,
      Parser.repeatWithin (return !(← Parser.eat closing)) item allowance c = .ok (as, d) →
        ReadUpTo closing item c as d := by
  intro allowance
  induction allowance with
  | nil =>
    intro c hle as d has
    rw [Parser.repeatWithin] at has
    obtain ⟨more, c1, hmore, hloop⟩ := bind_eq_ok has
    obtain ⟨closed, c2, heat, hmore⟩ := bind_eq_ok hmore
    cases hmore
    rcases eat_eq_ok heat with ⟨rfl, t, hrest, ht⟩ | ⟨rfl, rfl⟩
    · cases hloop
      exact .closed hrest ht
    · obtain ⟨a, c3, ha, -⟩ := bind_eq_ok hloop
      have hlt := hlocal.lt rfl _ _ _ ha
      rw [List.length_nil] at hle
      omega
  | cons u allowance ih =>
    intro c hle as d has
    rw [Parser.repeatWithin] at has
    obtain ⟨more, c1, hmore, hloop⟩ := bind_eq_ok has
    obtain ⟨closed, c2, heat, hmore⟩ := bind_eq_ok hmore
    cases hmore
    rcases eat_eq_ok heat with ⟨rfl, t, hrest, ht⟩ | ⟨rfl, rfl⟩
    · cases hloop
      exact .closed hrest ht
    · obtain ⟨a, c3, ha, hloop⟩ := bind_eq_ok hloop
      obtain ⟨rest, c4, hrest, hloop⟩ := bind_eq_ok hloop
      cases hloop
      have hlt := hlocal.lt rfl _ _ _ ha
      rw [List.length_cons] at hle
      exact .item ha (ih c3 (by omega) rest _ hrest)

theorem readUpTo_delimited (hlocal : Local true item) {c d : Cursor} {as : List α}
    (h : Parser.delimited opening closing item c = .ok (as, d)) :
    ∃ o c1, c.rest = o :: c1.rest ∧ o.kind = opening ∧ ReadUpTo closing item c1 as d := by
  obtain ⟨o, c1, ho, h⟩ := bind_eq_ok h
  exact ⟨o, c1, expect_eq_ok ho, kind_of_expect ho,
    readUpTo_repeatWithin hlocal c1.rest c1 (Nat.le_refl _) as d h⟩

theorem ReadUpTo.parts {c d : Cursor} {as : List α} (h : ReadUpTo closing item c as d)
    (hc : c.Proper) (hitem : Takes item Q) : ∃ parts t,
      c.rest = parts.flatten ++ t :: d.rest ∧ t.kind = closing ∧ List.Forall₂ Q as parts := by
  induction h with
  | @closed c d t hrest ht => exact ⟨[], t, hrest, ht, .nil⟩
  | item ha _ ih =>
    obtain ⟨part, hpart, hq⟩ := hitem _ hc _ _ ha
    obtain ⟨parts, t, hparts, ht, hall⟩ := ih (hc.of_append part hpart)
    refine ⟨part :: parts, t, ?_, ht, .cons hq hall⟩
    rw [hpart, hparts, List.flatten_cons, List.append_assoc]

/-- Items between two tokens, and the tokens of each of them. -/
theorem parts_delimited (hlocal : Local true item) (hitem : Takes item Q) :
    Takes (Parser.delimited opening closing item) fun as ts => ∃ o parts t,
      ts = o :: (parts.flatten ++ [t]) ∧ o.kind = opening ∧ t.kind = closing ∧
        List.Forall₂ Q as parts := by
  intro c hc as d has
  obtain ⟨o, c1, hrest, ho, hread⟩ := readUpTo_delimited hlocal has
  obtain ⟨parts, t, hparts, ht, hall⟩ := hread.parts (hc.of_append [o] hrest) hitem
  refine ⟨_, ?_, o, parts, t, rfl, ho, ht, hall⟩
  rw [hrest, hparts]
  simp

theorem Keeps.delimited (hlocal : Local true item) (hitem : Keeps inside [] item f)
    (hclose : opening.closing? = some closing) :
    Keeps inside [] (Parser.delimited opening closing item) fun as => as.flatMap f := by
  intro c hc as d has
  obtain ⟨_, hrest, o, parts, t, rfl, ho, ht, hall⟩ :=
    parts_delimited hlocal hitem.takes c hc as d has
  exact ⟨_, _, hrest, (Held.flatten hall).between (by rw [ho, ht, hclose]), rfl⟩

/-- Outside of the parentheses less is assumed of the keys. -/
theorem Keeps.parenthesized (hlocal : Local true item) (hitem : Keeps true [] item f) :
    Keeps inside [] (Parser.optionalDelimited .leftParen .rightParen item)
      fun as => as.flatMap f := by
  refine (nextIs _).silent fun _ => .ite ?_ (.pure rfl)
  intro c hc as d has
  obtain ⟨_, hrest, o, parts, t, rfl, ho, ht, hall⟩ :=
    parts_delimited hlocal hitem.takes c hc as d has
  exact ⟨_, _, hrest, (Held.flatten hall).parenthesized ho ht, rfl⟩

end Delimited

end Parser

end GraphQL
