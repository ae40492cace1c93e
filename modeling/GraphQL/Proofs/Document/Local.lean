import GraphQL.Document.Parser.TypeSystem
import GraphQL.Proofs.Document.Yields
import GraphQL.Proofs.Token.Relaid

/-!
# Parsers look no further than they fail

What a parser does with tokens `xs` does not depend on what comes after them, as long as it leaves
one of them or fails at one of them. `Local p` says so of a parser: it compares what `p` makes of
`xs` followed by `r`, and of `xs` followed by anything else. Repetition has an allowance that
depends on all that follows; since every item takes a token (`Local true`), it never runs out.
-/

namespace GraphQL.Parser

open Token (stops)

variable {α β ν : Type} {xs ys zs r r' : List Token} {f f' : Position}

/-- What is made of `xs` followed by `r`, against the same followed by `r'`. Both leave the same of
`xs`, or they fail for the same reason; unless the first one gets as far as `r`. -/
inductive Same (xs r : List Token) (f : Position) (r' : List Token) (f' : Position) :
    Except ParseFailure (α × Cursor) → Except ParseFailure (α × Cursor) → Prop where
  | within {a : α} {ys : List Token} : ys ≠ [] → ys <:+ xs →
      Same xs r f r' f' (.ok (a, ⟨ys ++ r, f⟩)) (.ok (a, ⟨ys ++ r', f'⟩))
  | wrong {e : ParseFailure} : xs ≠ [] → Same xs r f r' f' (.error e) (.error e)
  | beyond {a : α} {zs : List Token} {other : Except ParseFailure (α × Cursor)} :
      zs <:+ r → Same xs r f r' f' (.ok (a, ⟨zs, f⟩)) other
  | wrongBeyond {e : ParseFailure} {other : Except ParseFailure (α × Cursor)} :
      e.pos ∈ stops r f → Same xs r f r' f' (.error e) other

/-- What the parser does with tokens does not depend on what comes after them; and it takes a token
whenever it succeeds, if it has to. -/
structure Local (takes : Bool) (p : Parser α) : Prop where
  same : ∀ xs r f r' f', Same xs r f r' f' (p ⟨xs ++ r, f⟩) (p ⟨xs ++ r', f'⟩)
  lt : takes = true → ∀ c a d, p c = .ok (a, d) → d.rest.length < c.rest.length

/-! ## Outcomes -/

theorem stops_subset (h : zs <:+ r) : stops zs f ⊆ stops r f := by
  obtain ⟨before, rfl⟩ := h
  intro pos hpos
  unfold stops at hpos ⊢
  rw [List.map_append, List.append_assoc]
  exact List.mem_append_right _ hpos

namespace Same

variable {x y : Except ParseFailure (α × Cursor)}

/-- What is left of some of the tokens is left of them all. -/
theorem mono (h : Same ys r f r' f' x y) (hsuffix : ys <:+ xs) : Same xs r f r' f' x y := by
  cases h with
  | within hne hys => exact .within hne (hys.trans hsuffix)
  | wrong hne =>
    refine .wrong ?_
    rintro rfl
    exact hne (List.suffix_nil.1 hsuffix)
  | beyond hzs => exact .beyond hzs
  | wrongBeyond he => exact .wrongBeyond he

/-- What starts beyond the tokens stays there. -/
theorem of_nil (h : Same [] zs f [] f x y) (hsuffix : zs <:+ r)
    (other : Except ParseFailure (α × Cursor)) : Same xs r f r' f' x other := by
  cases h with
  | within hne hys => exact absurd (List.suffix_nil.1 hys) hne
  | wrong hne => exact absurd rfl hne
  | beyond hzs => exact .beyond (hzs.trans hsuffix)
  | wrongBeyond he => exact .wrongBeyond (stops_subset hsuffix he)

end Same

namespace Local

variable {takes : Bool} {p q : Parser α}

theorem weaken (h : Local true p) : Local takes p :=
  ⟨h.same, fun _ => h.lt rfl⟩

theorem length_le (h : Local takes p) {c d : Cursor} {a : α} (hp : p c = .ok (a, d)) :
    d.rest.length ≤ c.rest.length := by
  have hsame := h.same [] c.rest c.finish [] c.finish
  rw [List.nil_append, show p ⟨c.rest, c.finish⟩ = .ok (a, d) from hp] at hsame
  generalize p ⟨[] ++ [], c.finish⟩ = other at hsame
  cases hsame with
  | within hne hys => exact absurd (List.suffix_nil.1 hys) hne
  | beyond hzs => exact hzs.length_le

/-! ## Rules of the logic -/

theorem pure (a : α) : Local false (Pure.pure a) where
  same xs r f r' f' := by
    cases xs with
    | nil => exact .beyond (List.suffix_refl r)
    | cons x xs => exact .within (List.cons_ne_nil x xs) (List.suffix_refl _)
  lt := by simp

theorem same_bind {takes' : Bool} {g : α → Parser β} (hp : Local takes p)
    (hg : ∀ a, Local takes' (g a)) (xs r : List Token) (f : Position) (r' : List Token)
    (f' : Position) : Same xs r f r' f' ((p >>= g) ⟨xs ++ r, f⟩) ((p >>= g) ⟨xs ++ r', f'⟩) := by
  have hsame := hp.same xs r f r' f'
  rw [bind_apply, bind_apply]
  generalize p ⟨xs ++ r, f⟩ = x at hsame ⊢
  generalize p ⟨xs ++ r', f'⟩ = y at hsame ⊢
  cases hsame with
  | @within a ys hne hys => exact ((hg a).same ys r f r' f').mono hys
  | wrong hne => exact .wrong hne
  | @beyond a zs _ hzs => exact ((hg a).same [] zs f [] f).of_nil hzs _
  | wrongBeyond he => exact .wrongBeyond he

/-- The first part takes a token if one has to be taken. -/
theorem bind {g : α → Parser β} (hp : Local takes p) (hg : ∀ a, Local false (g a)) :
    Local takes (p >>= g) where
  same := same_bind hp hg
  lt htakes c b d h := by
    obtain ⟨a, c', hc, hd⟩ := bind_eq_ok h
    exact Nat.lt_of_le_of_lt ((hg a).length_le hd) (hp.lt htakes c a c' hc)

/-- The second part takes a token if one has to be taken. -/
theorem andThen {g : α → Parser β} (hp : Local false p) (hg : ∀ a, Local takes (g a)) :
    Local takes (p >>= g) where
  same := same_bind hp hg
  lt htakes c b d h := by
    obtain ⟨a, c', hc, hd⟩ := bind_eq_ok h
    exact Nat.lt_of_lt_of_le ((hg a).lt htakes c' b d hd) (hp.length_le hc)

theorem map {g : α → β} (hp : Local takes p) : Local takes (g <$> p) :=
  hp.bind fun a => .pure (g a)

theorem ite {b : Prop} [Decidable b] (hp : Local takes p) (hq : Local takes q) :
    Local takes (if b then p else q) := by
  split
  · exact hp
  · exact hq

theorem fail (cause : ParseError.Cause) : Local takes (Parser.fail cause : Parser α) where
  same xs r f r' f' := by
    cases xs with
    | nil =>
      apply Same.wrongBeyond
      cases r <;> exact List.mem_cons_self ..
    | cons x xs => exact .wrong (List.cons_ne_nil x xs)
  lt _ c a d h := by cases h

theorem unexpected : Local takes (Parser.unexpected : Parser α) where
  same xs r f r' f' := by
    cases xs with
    | nil =>
      apply Same.wrongBeyond
      cases r <;> exact List.mem_cons_self ..
    | cons x xs => exact .wrong (List.cons_ne_nil x xs)
  lt _ c a d h := by cases h

/-! ## Primitive parsers -/

/-- A parser that only looks at the next token. -/
theorem of_head {look : Cursor → α} (h : ∀ x xs r f r' f',
    look ⟨x :: xs ++ r, f⟩ = look ⟨x :: xs ++ r', f'⟩) : Local false fun c => .ok (look c, c) where
  same xs r f r' f' := by
    cases xs with
    | nil => exact .beyond (List.suffix_refl r)
    | cons x xs =>
      rw [h x xs r f r' f']
      exact .within (List.cons_ne_nil x xs) (List.suffix_refl _)
  lt := by simp

theorem position : Local false Parser.position :=
  of_head fun _ _ _ _ _ _ => rfl

theorem peek : Local false Parser.peek :=
  of_head fun _ _ _ _ _ _ => rfl

theorem peekKind : Local false Parser.peekKind :=
  of_head fun _ _ _ _ _ _ => rfl

theorem next : Local takes Parser.next where
  same xs r f r' f' := by
    cases xs with
    | nil =>
      cases r with
      | nil => exact .wrongBeyond (List.mem_cons_self ..)
      | cons x r => exact .beyond (List.suffix_cons x r)
    | cons x xs =>
      cases xs with
      | nil => exact .beyond (List.suffix_refl r)
      | cons y xs => exact .within (List.cons_ne_nil y xs) (List.suffix_cons x _)
  lt _ c a d h := by
    obtain ⟨rest, finish⟩ := c
    cases rest with
    | nil => cases h
    | cons t rest =>
      cases h
      exact Nat.lt_succ_self _

theorem nextIs (kind : Token.Kind) : Local false (Parser.nextIs kind) :=
  peekKind.bind fun _ => .pure _

theorem eat (kind : Token.Kind) : Local false (Parser.eat kind) :=
  (nextIs kind).bind fun _ => .ite (next.bind fun _ => .pure _) (.pure _)

theorem expect (kind : Token.Kind) : Local takes (Parser.expect kind) :=
  (nextIs kind).andThen fun _ => .ite next unexpected

theorem name : Local takes Parser.name :=
  peek.andThen fun token => by
    cases token with
    | none => exact unexpected
    | some token => exact .ite (next.bind fun _ => .pure _) unexpected

end Local

/-! ## Repetition -/

section

variable {more : Parser Bool} {item : Parser α}

/-- At the end of the source there is no item. -/
theorem repeatWithin_end (hmore : Local false more) (hitem : Local true item) {c : Cursor}
    (hc : c.rest = []) (allowance : List Token) :
    repeatWithin more item allowance c = repeatWithin more item [] c := by
  cases allowance with
  | nil => rfl
  | cons t allowance =>
    rw [repeatWithin, repeatWithin, bind_apply, bind_apply]
    cases hm : more c with
    | error e => rfl
    | ok s =>
      obtain ⟨again, d⟩ := s
      cases again with
      | false => rfl
      | true =>
        show (item >>= _) d = (item >>= _) d
        rw [bind_apply, bind_apply]
        cases hi : item d with
        | error e => rfl
        | ok s =>
          have hlt := hitem.lt rfl d s.1 s.2 hi
          have hle := hmore.length_le hm
          rw [hc, List.length_nil] at hle
          omega

/-- Any allowance for all the tokens gives the same. -/
theorem repeatWithin_congr (hmore : Local false more) (hitem : Local true item) (c : Cursor)
    (as bs : List Token) (ha : c.rest.length ≤ as.length) (hb : c.rest.length ≤ bs.length) :
    repeatWithin more item as c = repeatWithin more item bs c := by
  induction as generalizing bs c with
  | nil =>
    have hc : c.rest = [] := List.eq_nil_of_length_eq_zero (Nat.le_zero.1 ha)
    rw [repeatWithin_end hmore hitem hc bs]
  | cons a as ih =>
    cases bs with
    | nil =>
      have hc : c.rest = [] := List.eq_nil_of_length_eq_zero (Nat.le_zero.1 hb)
      rw [repeatWithin_end hmore hitem hc (a :: as)]
    | cons b bs =>
      rw [repeatWithin, repeatWithin, bind_apply, bind_apply]
      cases hm : more c with
      | error e => rfl
      | ok s =>
        obtain ⟨again, d⟩ := s
        cases again with
        | false => rfl
        | true =>
          show (item >>= _) d = (item >>= _) d
          rw [bind_apply, bind_apply]
          cases hi : item d with
          | error e => rfl
          | ok s =>
            have hlt := hitem.lt rfl d s.1 s.2 hi
            have hle := hmore.length_le hm
            rw [List.length_cons] at ha hb
            show (repeatWithin more item as >>= _) s.2 = (repeatWithin more item bs >>= _) s.2
            rw [bind_apply, bind_apply, ih s.2 bs (by omega) (by omega)]

end

namespace Local

variable {takes : Bool} {more : Parser Bool} {p : Parser α} {opening closing : Token.Kind}

theorem repeatWithin (hmore : Local false more) (hp : Local true p) :
    ∀ allowance : List Token, Local false (Parser.repeatWithin more p allowance)
  | [] => hmore.bind fun _ => .ite (hp.weaken.bind fun _ => .pure _) (.pure _)
  | _ :: allowance => hmore.bind fun _ => .ite
    (hp.weaken.bind fun _ => (repeatWithin hmore hp allowance).bind fun _ => .pure _) (.pure _)

/-- With one allowance for both, repetition does the same. -/
theorem repeatWhile (hmore : Local false more) (hp : Local true p) :
    Local false (Parser.repeatWhile more p) where
  same xs r f r' f' := by
    have hsame := (repeatWithin hmore hp (xs ++ r ++ r')).same xs r f r' f'
    unfold Parser.repeatWhile
    rwa [repeatWithin_congr hmore hp ⟨xs ++ r, f⟩ (xs ++ r) (xs ++ r ++ r') (Nat.le_refl _)
        (by simp),
      repeatWithin_congr hmore hp ⟨xs ++ r', f'⟩ (xs ++ r') (xs ++ r ++ r') (Nat.le_refl _)
        (by simp)]
  lt := by simp

theorem delimited (hp : Local true p) : Local takes (Parser.delimited opening closing p) :=
  (expect opening).bind fun _ => repeatWhile ((eat closing).bind fun _ => .pure _) hp

theorem optionalDelimited (hp : Local true p) :
    Local false (Parser.optionalDelimited opening closing p) :=
  (nextIs opening).bind fun _ => .ite (delimited hp) (.pure _)

end Local

end GraphQL.Parser
