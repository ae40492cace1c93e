import Mathlib.Data.List.Forall2
import GraphQL.Document.Parser
import GraphQL.Document.Printer
import GraphQL.Proofs.Token.Follow

/-!
# What parsers read

`Reads least p cs rest Q` says of a parser that it succeeds on the text `cs`, takes so many tokens
at least, leaves the text `rest`, and gives something of which `Q` holds. Texts are compared as
their lexemes, so that what is ignored between tokens may be left out. There is one rule for each
primitive parser, and for each way to put parsers together.
-/

namespace GraphQL

/-- The tokens still to be read are those of a text. -/
def Cursor.At (c : Cursor) (cs : List Char) : Prop :=
  Token.Lexes cs (c.rest.map Token.lexeme)

open Token

theorem Cursor.At.begins {c : Cursor} {cs rest : List Char} {l : Lexeme} (h : c.At cs)
    (hb : Begins cs l rest) : ∃ t ts, c.rest = t :: ts ∧ t.lexeme = l ∧
      Cursor.At { c with rest := ts } rest := by
  obtain ⟨ls, hls, hrest⟩ := hb.lexes_iff.1 h
  obtain ⟨t, ts, hts, rfl, rfl⟩ := List.map_eq_cons_iff.1 hls
  exact ⟨t, ts, hts, rfl, hrest⟩

namespace Parser

variable {α β γ : Type} {n : Nat} {p : Parser α} {cs mid rest : List Char} {P Q : α → Prop}
  {R : β → Prop} {kind : Kind} {kinds : List Kind} {l : Lexeme}

theorem bind_apply (p : Parser α) (f : α → Parser β) (c : Cursor) :
    (p >>= f) c = (p c).bind fun r => f r.1 r.2 := by
  simp only [Bind.bind]
  cases p c <;> rfl

theorem bind_ok {f : α → Parser β} {c c' : Cursor} {a : α} (h : p c = .ok (a, c')) :
    (p >>= f) c = f a c' := by
  rw [bind_apply, h]
  rfl

structure Reads (least : Nat) (p : Parser α) (cs rest : List Char) (Q : α → Prop) : Prop where
  result : ∃ a, Q a
  lexed : Lexed rest → Lexed cs
  run : ∀ c : Cursor, c.At cs → ∃ a c', p c = .ok (a, c') ∧ c'.At rest ∧
    c'.rest.length + least ≤ c.rest.length ∧ Q a

namespace Reads

/-! ## Rules of the logic -/

theorem weaken (h : Reads n p cs rest Q) : Reads 0 p cs rest Q where
  result := h.result
  lexed := h.lexed
  run c hc := by
    obtain ⟨a, c', hp, hat, hle, hq⟩ := h.run c hc
    exact ⟨a, c', hp, hat, by omega, hq⟩

theorem imp (h : Reads n p cs rest P) (hpq : ∀ a, P a → Q a) : Reads n p cs rest Q where
  result := h.result.imp hpq
  lexed := h.lexed
  run c hc := by
    obtain ⟨a, c', hp, hat, hle, hq⟩ := h.run c hc
    exact ⟨a, c', hp, hat, hle, hpq a hq⟩

theorem pure {a : α} (h : Q a) : Reads 0 (Pure.pure a : Parser α) cs cs Q where
  result := ⟨a, h⟩
  lexed := id
  run c hc := ⟨a, c, rfl, hc, Nat.le_refl _, h⟩

theorem bindLeast {m : Nat} {f : α → Parser β} (hp : Reads n p cs mid P)
    (hf : ∀ a, P a → Reads m (f a) mid rest R) : Reads (n + m) (p >>= f) cs rest R where
  result := by
    obtain ⟨a, ha⟩ := hp.result
    exact (hf a ha).result
  lexed h := by
    obtain ⟨a, ha⟩ := hp.result
    exact hp.lexed ((hf a ha).lexed h)
  run c hc := by
    obtain ⟨a, c1, h1, hat1, hle1, ha⟩ := hp.run c hc
    obtain ⟨b, c2, h2, hat2, hle2, hb⟩ := (hf a ha).run c1 hat1
    exact ⟨b, c2, by rw [bind_ok h1, h2], hat2, by omega, hb⟩

/-- The first part takes as many tokens as are asked for. -/
theorem bind {f : α → Parser β} (hp : Reads n p cs mid P)
    (hf : ∀ a, P a → Reads 0 (f a) mid rest R) : Reads n (p >>= f) cs rest R :=
  hp.bindLeast hf

/-- The second part takes as many tokens as are asked for. -/
theorem andThen {f : α → Parser β} (hp : Reads 0 p cs mid P)
    (hf : ∀ a, P a → Reads n (f a) mid rest R) : Reads n (p >>= f) cs rest R :=
  Nat.zero_add n ▸ hp.bindLeast hf

theorem map {f : α → β} (hp : Reads n p cs rest Q) (hf : ∀ a, Q a → R (f a)) :
    Reads n (f <$> p) cs rest R :=
  hp.bind fun a ha => .pure (hf a ha)

theorem ignored {c : Char} (hc : isIgnored c = true) (h : Reads n p cs rest Q) :
    Reads n p (c :: cs) rest Q where
  result := h.result
  lexed hr := by
    obtain ⟨ls, hls⟩ := h.lexed hr
    exact ⟨ls, (lexes_ignored hc).2 hls⟩
  run cursor hat := h.run cursor ((lexes_ignored hc).1 hat)

theorem leavesIgnored {c : Char} (hc : isIgnored c = true) (h : Reads n p cs (c :: rest) Q) :
    Reads n p cs rest Q where
  result := h.result
  lexed := by
    rintro ⟨ls, hls⟩
    exact h.lexed ⟨ls, (lexes_ignored hc).2 hls⟩
  run cursor hat := by
    obtain ⟨a, c', hp, hat', hle, hq⟩ := h.run cursor hat
    exact ⟨a, c', hp, (lexes_ignored hc).1 hat', hle, hq⟩

/-! ## Primitive parsers -/

theorem position : Reads 0 position cs cs fun _ => True where
  result := ⟨.start, trivial⟩
  lexed := id
  run c hc := ⟨c.pos, c, rfl, hc, Nat.le_refl _, trivial⟩

theorem next (h : Begins cs l rest) : Reads 1 next cs rest fun t => t.lexeme = l where
  result := ⟨⟨l.kind, .ofList l.raw, .ofList l.value, .start, 0, "", none⟩, by simp [lexeme]⟩
  lexed := h.lexed
  run c hc := by
    obtain ⟨t, ts, hts, ht, hat⟩ := hc.begins h
    refine ⟨t, { c with rest := ts }, ?_, hat, ?_, ht⟩
    · unfold Parser.next
      rw [hts]
    · rw [hts]
      exact Nat.le_refl _

theorem peek (h : Begins cs l rest) :
    Reads 0 peek cs cs fun t => ∃ token, t = some token ∧ token.lexeme = l where
  result := ⟨some ⟨l.kind, .ofList l.raw, .ofList l.value, .start, 0, "", none⟩, _, rfl,
    by simp [lexeme]⟩
  lexed := id
  run c hc := by
    obtain ⟨t, ts, hts, ht, -⟩ := hc.begins h
    exact ⟨some t, c, by rw [Parser.peek, hts]; rfl, hc, Nat.le_refl _, t, rfl, ht⟩

theorem peek_nil : Reads 0 Parser.peek [] [] (· = none) where
  result := ⟨none, rfl⟩
  lexed := id
  run c hc := by
    have hrest : c.rest = [] := List.map_eq_nil_iff.1 (lexes_nil_iff.1 hc)
    exact ⟨none, c, by rw [Parser.peek, hrest]; rfl, hc, Nat.le_refl _, rfl⟩

theorem peeked {f : Option Token → Parser β} (hb : Begins cs l mid)
    (hf : ∀ token, token.lexeme = l → Reads n (f (some token)) cs rest R) :
    Reads n (Parser.peek >>= f) cs rest R :=
  (peek hb).andThen fun _ ⟨token, ht, hl⟩ => ht ▸ hf token hl

theorem peekKind (h : Begins cs l rest) : Reads 0 peekKind cs cs (· = some l.kind) where
  result := ⟨_, rfl⟩
  lexed := id
  run c hc := by
    obtain ⟨t, ts, hts, ht, -⟩ := hc.begins h
    exact ⟨some l.kind, c, by rw [Parser.peekKind, hts, ← ht]; rfl, hc, Nat.le_refl _, rfl⟩

theorem peekSecondKind {l' : Lexeme} (h : Begins cs l mid) (h' : Begins mid l' rest) :
    Reads 0 Parser.peekSecondKind cs cs (· = some l'.kind) where
  result := ⟨_, rfl⟩
  lexed := id
  run c hc := by
    obtain ⟨t, ts, hts, -, hat⟩ := hc.begins h
    obtain ⟨t', ts', hts', ht', -⟩ := hat.begins h'
    refine ⟨some l'.kind, c, ?_, hc, Nat.le_refl _, rfl⟩
    rw [Parser.peekSecondKind, hts, ← ht']
    simp only at hts'
    rw [hts']
    rfl

/-- The kind of the next token, if there is one, is none of those that the text avoids. -/
theorem peekKind_avoids (h : Avoids cs kinds) :
    Reads 0 Parser.peekKind cs cs fun k => ∀ kind ∈ kinds, k ≠ some kind where
  result := ⟨none, nofun⟩
  lexed := id
  run c hc := by
    refine ⟨_, c, rfl, hc, Nat.le_refl _, fun kind hk he => ?_⟩
    cases hts : c.rest with
    | nil =>
      rw [hts] at he
      cases he
    | cons t ts =>
      rw [hts] at he
      have hlex : Lexes cs (c.rest.map lexeme) := hc
      rw [hts] at hlex
      cases hlex with
      | more hb _ =>
        cases he
        exact h _ _ hb hk

theorem nextIs_true (h : Begins cs l rest) (hk : l.kind = kind) :
    Reads 0 (nextIs kind) cs cs (· = true) :=
  (peekKind h).bind fun _ hkind => .pure (by rw [hkind, hk]; simp)

theorem nextIs_false (h : Avoids cs kinds) (hk : kind ∈ kinds) :
    Reads 0 (nextIs kind) cs cs (· = false) :=
  (peekKind_avoids h).bind fun _ hkind => .pure (by simpa using hkind kind hk)

theorem eat_true (h : Begins cs l rest) (hk : l.kind = kind) :
    Reads 1 (eat kind) cs rest (· = true) :=
  (nextIs_true h hk).andThen fun _ ht => by
    subst ht
    exact (next h).bind fun _ _ => .pure rfl

theorem eat_false (h : Avoids cs kinds) (hk : kind ∈ kinds) :
    Reads 0 (eat kind) cs cs (· = false) :=
  (nextIs_false h hk).bind fun _ hf => by
    subst hf
    exact .pure rfl

theorem expect (h : Begins cs l rest) (hk : l.kind = kind) :
    Reads 1 (expect kind) cs rest fun t => t.lexeme = l :=
  (nextIs_true h hk).andThen fun _ ht => by
    subst ht
    exact next h

theorem nameOf (h : Begins cs l rest) (hk : l.kind.isName = true) :
    Reads 1 name cs rest fun x => x.node = String.ofList l.raw :=
  peeked h fun token hl => by
    have hname : token.kind.isName = true := by
      rw [← hl] at hk
      exact hk
    simp only [hname, if_true]
    refine (next h).bind fun t ht => .pure ?_
    rw [← ht]
    simp [lexeme]

theorem finished : Reads 0 Parser.finished [] [] fun _ => True :=
  peek_nil.bind fun _ ht => by
    subst ht
    exact .pure trivial

/-! ## Punctuators and names -/

theorem punctuator {c : Char} (h : punctuator? c = some kind) (cs : List Char) :
    Reads 1 (Parser.expect kind) (c :: cs) cs fun _ => True :=
  (expect (begins_punctuator h cs) rfl).imp fun _ _ => trivial

theorem eatPunctuator {c : Char} (h : punctuator? c = some kind) (cs : List Char) :
    Reads 1 (eat kind) (c :: cs) cs (· = true) :=
  eat_true (begins_punctuator h cs) rfl

theorem name {n : Name} (h : n.isValid = true) (hrest : Cut rest) :
    Reads 1 name (n.toList ++ rest) rest fun x => x.node = n :=
  (nameOf (begins_name h hrest.isNameContinue) (isName_ofName n)).imp fun x hx => by
    rw [hx, Lexeme.plain, String.ofList_toList]

/-! ## Repetition -/

variable {more : Parser Bool} {item : Parser α} {text : List β → List Char} {S : β → α → Prop}

theorem run_repeatWithin (text : List β → List Char) (hend : Reads 0 more (text []) rest (· = false)) {bs : List β}
    (hmore : ∀ b tail, b :: tail <:+ bs → ∃ mid, Reads 0 more (text (b :: tail)) mid (· = true) ∧
      Reads 1 item mid (text tail) (S b)) : ∀ {allowance : List Token} {c : Cursor},
      c.At (text bs) → c.rest.length ≤ allowance.length → ∃ as c',
        repeatWithin more item allowance c = .ok (as, c') ∧ c'.At rest ∧
          c'.rest.length ≤ c.rest.length ∧ List.Forall₂ S bs as := by
  induction bs with
  | nil =>
    intro allowance c hc _
    obtain ⟨_, c', hp, hat, hle, rfl⟩ := hend.run c hc
    refine ⟨[], c', ?_, hat, hle, .nil⟩
    cases allowance <;>
    · rw [repeatWithin, bind_ok hp]
      rfl
  | cons b bs ih =>
    intro allowance c hc hle
    obtain ⟨mid, hm, hi⟩ := hmore b bs (List.suffix_refl _)
    obtain ⟨_, c1, hp1, hat1, hle1, rfl⟩ := hm.run c hc
    obtain ⟨a, c2, hp2, hat2, hle2, ha⟩ := hi.run c1 hat1
    cases allowance with
    | nil =>
      rw [List.length_nil] at hle
      omega
    | cons t allowance =>
      rw [List.length_cons] at hle
      obtain ⟨as, c3, hp3, hat3, hle3, has⟩ :=
        ih (fun b tail hs => hmore b tail (hs.trans (List.suffix_cons _ _)))
          hat2 (Nat.le_of_lt_succ (Nat.lt_of_lt_of_le (Nat.lt_of_succ_le hle2) (Nat.le_trans hle1 hle)))
      refine ⟨a :: as, c3, ?_, hat3, by omega, .cons ha has⟩
      rw [repeatWithin, bind_ok hp1, if_pos rfl, bind_ok hp2, bind_ok hp3]
      rfl

theorem repeatWhile (text : List β → List Char) (hend : Reads 0 more (text []) rest (· = false)) {bs : List β}
    (hmore : ∀ b tail, b :: tail <:+ bs → ∃ mid, Reads 0 more (text (b :: tail)) mid (· = true) ∧
      Reads 1 item mid (text tail) (S b)) :
    Reads 0 (repeatWhile more item) (text bs) rest (List.Forall₂ S bs) where
  result := by
    induction bs with
    | nil => exact ⟨[], .nil⟩
    | cons b bs ih =>
      obtain ⟨mid, -, hi⟩ := hmore b bs (List.suffix_refl _)
      obtain ⟨a, ha⟩ := hi.result
      obtain ⟨as, has⟩ := ih fun b tail hs => hmore b tail (hs.trans (List.suffix_cons _ _))
      exact ⟨a :: as, .cons ha has⟩
  lexed hr := by
    induction bs with
    | nil => exact hend.lexed hr
    | cons b bs ih =>
      obtain ⟨mid, hm, hi⟩ := hmore b bs (List.suffix_refl _)
      exact hm.lexed (hi.lexed (ih fun b tail hs => hmore b tail (hs.trans (List.suffix_cons _ _))))
  run c hc := by
    obtain ⟨as, c', hp, hat, hle, has⟩ := run_repeatWithin text hend hmore hc (Nat.le_refl _)
    exact ⟨as, c', hp, hat, hle, has⟩

/-! ## Items between punctuators -/

variable {o c : Char} {opening closing : Kind} {bs : List β} {print : β → List Char}

/-- Any number of items up to a closing token. -/
theorem untilClosed (text : List β → List Char) (hc : Begins (text []) l rest) (hl : l.kind = closing)
    (hitem : ∀ b tail, b :: tail <:+ bs → Avoids (text (b :: tail)) [closing] ∧
      Reads 1 item (text (b :: tail)) (text tail) (S b)) :
    Reads 0 (Parser.repeatWhile (return !(← eat closing)) item) (text bs) rest
      (List.Forall₂ S bs) := by
  refine repeatWhile text ?_ fun b tail hs => ⟨_, ?_, (hitem b tail hs).2⟩
  · refine (eat_true hc hl).weaken.bind fun _ ht => .pure ?_
    rw [ht]
    rfl
  · refine (eat_false (hitem b tail hs).1 (List.mem_singleton_self _)).bind fun _ hf => .pure ?_
    rw [hf]
    rfl

/-- Items on lines of their own. -/
theorem lines (kinds : List Kind) (ho : punctuator? o = some opening) {finish : List Char} (hc : Begins finish l rest)
    (hl : l.kind = closing) (hkind : closing ∉ kinds)
    (hfirst : ∀ b ∈ bs, ∀ tail, Avoids (print b ++ tail) (closing :: kinds))
    (hitem : ∀ b ∈ bs, ∀ tail, Avoids tail kinds → Reads 1 item (print b ++ tail) tail (S b)) :
    Reads 1 (delimited opening closing item) (o :: '\n' :: ((bs.map print).flatten ++ finish)) rest
      (List.Forall₂ S bs) := by
  refine (punctuator ho _).bind fun _ _ => ignored rfl ?_
  refine untilClosed (fun bs => (bs.map print).flatten ++ finish) hc hl fun b tail hs => ?_
  simp only [List.map_cons, List.flatten_cons, List.append_assoc]
  have hmem := hs.subset
  refine ⟨(hfirst b (hmem (List.mem_cons_self ..)) _).of_subset (by simp),
    hitem b (hmem (List.mem_cons_self ..)) _ ?_⟩
  cases tail with
  | nil => exact hc.avoids (hl ▸ hkind)
  | cons b' tail =>
    simp only [List.map_cons, List.flatten_cons, List.append_assoc]
    exact (hfirst b' (hmem (List.mem_cons_of_mem _ (List.mem_cons_self ..))) _).of_subset
      fun _ h => List.mem_cons_of_mem _ h

/-- Items separated by a comma and a blank. -/
theorem joined (kinds : List Kind) (ho : punctuator? o = some opening) (hc : punctuator? c = some closing)
    (hkind : closing ∉ kinds)
    (hfirst : ∀ b ∈ bs, ∀ tail, Cut tail → Avoids (print b ++ tail) (closing :: kinds))
    (hitem : ∀ b ∈ bs, ∀ tail, Cut tail → Avoids tail kinds →
      Reads 1 item (print b ++ tail) tail (S b)) :
    Reads 1 (delimited opening closing item)
      (o :: (Text.joined [',', ' '] (bs.map print) ++ c :: rest)) rest (List.Forall₂ S bs) := by
  have hcut : Cut (c :: rest) := cut_punctuator hc rest
  refine (punctuator ho _).bind fun _ _ => ?_
  refine untilClosed (fun bs => Text.joined [',', ' '] (bs.map print) ++ c :: rest)
    (begins_punctuator hc rest) rfl fun b tail hs => ?_
  have hb : b ∈ bs := hs.subset (List.mem_cons_self ..)
  cases tail with
  | nil =>
    exact ⟨(hfirst b hb _ hcut).of_subset (by simp),
      hitem b hb _ hcut (avoids_punctuator hc hkind rest)⟩
  | cons b' tail =>
    have hb' : b' ∈ bs := hs.subset (List.mem_cons_of_mem _ (List.mem_cons_self ..))
    have htext : Text.joined [',', ' '] ((b :: b' :: tail).map print) ++ c :: rest = print b ++
        ',' :: ' ' :: (Text.joined [',', ' '] ((b' :: tail).map print) ++ c :: rest) := by
      simp [Text.joined]
    have hnext : Avoids (Text.joined [',', ' '] ((b' :: tail).map print) ++ c :: rest)
        (closing :: kinds) := by
      cases tail with
      | nil => exact hfirst b' hb' _ hcut
      | cons b'' tail =>
        simp only [List.map_cons, Text.joined, List.append_assoc]
        exact hfirst b' hb' _ (cut_comma _)
    rw [htext]
    refine ⟨(hfirst b hb _ (cut_comma _)).of_subset (by simp), ?_⟩
    refine ((hitem b hb _ (cut_comma _) ?_).leavesIgnored rfl).leavesIgnored rfl
    rw [avoids_ignored rfl, avoids_ignored rfl]
    exact hnext.of_subset fun _ h => List.mem_cons_of_mem _ h

/-- Nothing is read where the opening token is missing. -/
theorem optionalDelimited_nil (h : Avoids rest [opening]) :
    Reads 0 (optionalDelimited opening closing item) rest rest (List.Forall₂ S []) :=
  (nextIs_false h (List.mem_singleton_self _)).bind fun _ hf => by
    rw [hf]
    exact .pure .nil

theorem optionalDelimited_cons {Q : List α → Prop} (ho : punctuator? o = some opening)
    (h : Reads 1 (delimited opening closing item) (o :: cs) rest Q) :
    Reads 0 (optionalDelimited opening closing item) (o :: cs) rest Q :=
  (nextIs_true (begins_punctuator ho cs) rfl).bind fun _ ht => by
    rw [ht]
    exact h.weaken

theorem parenthesized (kinds : List Kind) (hrest : Avoids rest [.leftParen]) (hkind : .rightParen ∉ kinds)
    (hfirst : ∀ b ∈ bs, ∀ tail, Cut tail → Avoids (print b ++ tail) (.rightParen :: kinds))
    (hitem : ∀ b ∈ bs, ∀ tail, Cut tail → Avoids tail kinds →
      Reads 1 item (print b ++ tail) tail (S b)) :
    Reads 0 (optionalDelimited .leftParen .rightParen item)
      (Printer.parenthesized (bs.map print) ++ rest) rest (List.Forall₂ S bs) := by
  unfold Printer.parenthesized
  cases bs with
  | nil => exact optionalDelimited_nil hrest
  | cons b bs =>
    simp only [List.map_cons, List.isEmpty_cons, Bool.false_eq_true, if_false, List.cons_append,
      List.append_assoc, List.nil_append]
    exact optionalDelimited_cons rfl (joined kinds rfl rfl hkind hfirst hitem)

/-- A body that is left out when it is empty; what follows must not look like one then. -/
theorem braced (kinds : List Kind) (hrest : bs = [] → Avoids rest [.leftBrace]) (hkind : .rightBrace ∉ kinds)
    (hfirst : ∀ b ∈ bs, ∀ tail, Avoids (print b ++ tail) (.rightBrace :: kinds))
    (hitem : ∀ b ∈ bs, ∀ tail, Avoids tail kinds → Reads 1 item (print b ++ tail) tail (S b)) :
    Reads 0 (optionalDelimited .leftBrace .rightBrace item)
      (Printer.braced (bs.map print) ++ rest) rest (List.Forall₂ S bs) := by
  unfold Printer.braced
  by_cases hnil : bs = []
  · subst hnil
    exact optionalDelimited_nil (hrest rfl)
  · rw [if_neg (by simpa using hnil)]
    simp only [List.cons_append, List.append_assoc, List.nil_append]
    exact (optionalDelimited_cons rfl
      (lines kinds rfl (begins_punctuator rfl rest) rfl hkind hfirst hitem)).ignored rfl

end Reads

/-- Items that agree with what was read of them. -/
theorem map_eq_of_forall₂ {f : α → γ} {g : β → γ} {as : List α} {bs : List β}
    (h : List.Forall₂ (fun b a => f a = g b) bs as) : as.map f = bs.map g := by
  induction h with
  | nil => rfl
  | cons h _ ih => rw [List.map_cons, List.map_cons, h, ih]

end Parser

end GraphQL
