import GraphQL.Number
import GraphQL.Proofs.Token.Lexeme

/-!
# Numerals

A `Numeral` that is written as the grammar of documents has it is one lexeme, and is read as what it
is (`begins_numeral`, `ofChars_chars`). The text of an integer is such a numeral.
-/

namespace GraphQL

/-! ## Decimal digits -/

namespace Text

theorem isDigit_eq (c : Char) : isDigit c = c.isDigit := by
  simp [isDigit, Char.isDigit, Char.le_def]

theorem all_isDigit_decimal (n : Nat) : (decimal n).all isDigit = true := by
  rw [List.all_eq_true]
  intro c hc
  rw [isDigit_eq]
  exact Nat.isDigit_of_mem_toDigits (by decide) (by decide) hc

theorem decimal_ne_nil (n : Nat) : decimal n ≠ [] :=
  Nat.toDigits_ne_nil

/-- Only the decimal of zero starts with a zero. -/
theorem decimal_head {n : Nat} (h : n ≠ 0) : ∃ d ds, decimal n = d :: ds ∧ d ≠ '0' := by
  induction n using Nat.strongRecOn with
  | _ n ih =>
    by_cases hlt : n < 10
    · refine ⟨_, [], Nat.toDigits_of_lt_base hlt, ?_⟩
      have : ∀ k < 10, k ≠ 0 → Nat.digitChar k ≠ '0' := by decide
      exact this n hlt h
    · obtain ⟨d, ds, hd, hne⟩ := ih (n / 10) (by omega) (by omega)
      refine ⟨d, ds ++ [Nat.digitChar (n % 10)], ?_, hne⟩
      rw [decimal, Nat.toDigits_of_base_le (by decide) (by omega)]
      rw [decimal] at hd
      rw [hd, List.cons_append]

theorem decimalValue_eq {cs : List Char} (h : cs.all isDigit = true) (n : Nat) :
    decimalValue n cs = Nat.ofDigitChars 10 cs n := by
  induction cs generalizing n with
  | nil => rfl
  | cons c cs ih =>
    simp only [List.all_cons, Bool.and_eq_true] at h
    rw [decimalValue, ih h.2, Nat.ofDigitChars_cons, digitValue, if_pos h.1]

theorem decimalValue_decimal (n : Nat) : decimalValue 0 (decimal n) = n := by
  rw [decimalValue_eq (all_isDigit_decimal n)]
  exact Nat.ofDigitChars_ten_toDigits

end Text

/-! ## The text of a numeral -/

namespace Numeral

def exponentChars (e : Bool × List Char) : List Char :=
  'e' :: (if e.1 then '-' else '+') :: e.2

/-- A numeral as documents have it. The sign of its exponent is always written. -/
def chars (n : Numeral) : List Char :=
  (if n.negative then ['-'] else []) ++ n.whole ++ n.fraction.elim [] ('.' :: ·) ++
    n.exponent.elim [] exponentChars

def Digits (ds : List Char) : Prop :=
  ds ≠ [] ∧ ds.all Text.isDigit = true

/-- Digits where there have to be some, and no zero in front of others. -/
structure Written (n : Numeral) : Prop where
  whole : Digits n.whole
  first : n.whole = ['0'] ∨ ∀ d ∈ n.whole.head?, d ≠ '0'
  fraction : ∀ ds ∈ n.fraction, Digits ds
  exponent : ∀ e ∈ n.exponent, Digits e.2

/-- Where a numeral ends: neither a point nor a letter may follow, nor more digits. -/
def Ends (rest : List Char) : Prop :=
  ∀ c ∈ rest.head?, Text.isNameContinue c = false ∧ c ≠ '.'

end Numeral

namespace Token

open Numeral

variable {rest : List Char} {n : Numeral}

theorem not_isDigit_of_ends (h : Ends rest) : ∀ c ∈ rest.head?, Text.isDigit c = false := by
  intro c hc
  have hname := (h c hc).1
  simp only [Text.isNameContinue, Bool.or_eq_false_iff] at hname
  exact hname.2

/-- What may come after the integral digits. -/
theorem head?_exponent (h : Ends rest) : ∀ c ∈ (n.exponent.elim [] exponentChars ++ rest).head?,
    Text.isDigit c = false ∧ c ≠ '.' := by
  cases n.exponent with
  | none => exact fun c hc => ⟨not_isDigit_of_ends h c hc, (h c hc).2⟩
  | some e =>
    rintro c ⟨⟩
    decide

theorem head?_fraction (h : Ends rest) :
    ∀ c ∈ (n.fraction.elim [] ('.' :: ·) ++ (n.exponent.elim [] exponentChars ++ rest)).head?,
      Text.isDigit c = false := by
  cases n.fraction with
  | none => exact fun c hc => (head?_exponent h c hc).1
  | some ds =>
    rintro c ⟨⟩
    decide

theorem splitExponent_eq (h : n.Written) (hrest : Ends rest) :
    splitExponent (n.exponent.elim [] exponentChars ++ rest) =
      (n.exponent.elim [] exponentChars, rest) := by
  cases he : n.exponent with
  | none =>
    show splitExponent rest = ([], rest)
    unfold splitExponent
    split
    · rfl
    · next c cs =>
      have hname := (hrest c rfl).1
      rw [if_neg]
      intro hc
      have : c = 'e' ∨ c = 'E' := by simpa using hc
      rcases this with rfl | rfl <;> cases hname
  | some e =>
    obtain ⟨down, digits⟩ := e
    obtain ⟨hne, hall⟩ := h.exponent _ he
    have hsplit := splitWhile_append hall (not_isDigit_of_ends hrest)
    have hsign : splitSign ((if down then '-' else '+') :: (digits ++ rest)) =
        ([if down then '-' else '+'], digits ++ rest) := by cases down <;> rfl
    show splitExponent ('e' :: (if down then '-' else '+') :: (digits ++ rest)) = _
    unfold splitExponent
    simp only
    rw [if_pos (by decide), hsign]
    dsimp only at hsplit hne
    rw [hsplit]
    cases digits with
    | nil => exact absurd rfl hne
    | cons d ds => rfl

theorem splitFraction_eq (h : n.Written) (hrest : Ends rest) :
    splitFraction (n.fraction.elim [] ('.' :: ·) ++ (n.exponent.elim [] exponentChars ++ rest)) =
      (n.fraction.elim [] ('.' :: ·), n.exponent.elim [] exponentChars ++ rest) := by
  have hhead := head?_exponent (n := n) hrest
  cases hf : n.fraction with
  | none =>
    show splitFraction (n.exponent.elim [] exponentChars ++ rest) = ([], _)
    generalize n.exponent.elim [] exponentChars ++ rest = tail at hhead ⊢
    unfold splitFraction
    split
    · exact absurd rfl (hhead '.' rfl).2
    · rfl
  | some ds =>
    obtain ⟨hne, hall⟩ := h.fraction _ hf
    have hsplit := splitWhile_append hall fun c hc => (hhead c hc).1
    cases ds with
    | nil => exact absurd rfl hne
    | cons d ds =>
      have hd : Text.isDigit d = true := List.all_eq_true.1 hall d (List.mem_cons_self ..)
      show splitFraction ('.' :: d :: (ds ++ _)) = _
      rw [List.cons_append] at hsplit
      unfold splitFraction
      simp only
      rw [if_pos hd, hsplit]
      rfl

theorem splitWhole_eq (h : n.Written) (hrest : ∀ c ∈ rest.head?, Text.isDigit c = false) :
    splitWhole (n.whole ++ rest) = (n.whole, rest) := by
  obtain ⟨hne, hall⟩ := h.whole
  have hsplit := splitWhile_append hall hrest
  rcases h.first with hzero | hfirst
  · rw [hzero]
    rfl
  · cases hw : n.whole with
    | nil => exact absurd hw hne
    | cons d ds =>
      rw [hw] at hall hfirst hsplit
      have hd : Text.isDigit d = true := List.all_eq_true.1 hall d (List.mem_cons_self ..)
      rw [List.cons_append] at hsplit ⊢
      unfold splitWhole
      simp only
      rw [if_neg (hfirst d rfl), if_pos hd, hsplit]

theorem chars_append (n : Numeral) (rest : List Char) : n.chars ++ rest =
    (if n.negative then ['-'] else []) ++ (n.whole ++ (n.fraction.elim [] ('.' :: ·) ++
      (n.exponent.elim [] exponentChars ++ rest))) := by
  simp only [chars, List.append_assoc]

theorem isDigit_whole (h : n.Written) : ∃ d ds, n.whole = d :: ds ∧ Text.isDigit d = true := by
  obtain ⟨hne, hall⟩ := h.whole
  cases hw : n.whole with
  | nil => exact absurd hw hne
  | cons d ds =>
    rw [hw] at hall
    exact ⟨d, ds, rfl, List.all_eq_true.1 hall d (List.mem_cons_self ..)⟩

theorem splitMinus_eq (h : n.Written) (rest : List Char) :
    splitMinus ((if n.negative then ['-'] else []) ++ (n.whole ++ rest)) =
      (if n.negative then ['-'] else [], n.whole ++ rest) := by
  obtain ⟨d, ds, hw, hd⟩ := isDigit_whole h
  cases n.negative with
  | true => rfl
  | false =>
    simp only [hw, List.cons_append, Bool.false_eq_true, if_false, List.nil_append]
    unfold splitMinus
    split
    · next he =>
      cases he
      cases hd
    · rfl

theorem splitNumber_eq (h : n.Written) (hrest : Ends rest) : splitNumber (n.chars ++ rest) =
    (if n.isWhole then .int else .float, n.chars, rest) := by
  rw [chars_append, splitNumber, splitMinus_eq h]
  simp only [splitWhole_eq h (head?_fraction hrest)]
  split
  · next hnil => exact absurd (congrArg Prod.fst hnil) h.whole.1
  · next heq =>
    cases heq
    rw [splitFraction_eq h hrest]
    simp only [splitExponent_eq h hrest]
    refine Prod.ext ?_ rfl
    have hwhole : n.isWhole = ((n.fraction.elim [] ('.' :: ·)).isEmpty &&
        (n.exponent.elim [] exponentChars).isEmpty) := by
      unfold Numeral.isWhole
      cases n.fraction <;> cases n.exponent <;> rfl
    rw [hwhole]

theorem begins_numeral (h : n.Written) (hrest : Ends rest) :
    Begins (n.chars ++ rest) (.plain (if n.isWhole then .int else .float) n.chars) rest := by
  have hstart : ∃ c cs, n.chars ++ rest = c :: cs ∧ (c = '-' ∨ Text.isDigit c = true) := by
    obtain ⟨d, ds, hw, hd⟩ := isDigit_whole h
    rw [chars_append, hw]
    cases n.negative with
    | true => exact ⟨'-', _, rfl, .inl rfl⟩
    | false => exact ⟨d, _, rfl, .inr hd⟩
  have hnumber := splitNumber_eq h hrest
  obtain ⟨c, cs, hcs, hc⟩ := hstart
  obtain ⟨hi, hcomment, -⟩ := isDigit_only hc
  rw [hcs] at hnumber ⊢
  refine ⟨c, cs, splitIgnored_plain hi hcomment cs, ?_⟩
  rw [splitLexeme_number hc, hnumber]

end Token

namespace Numeral

variable {n : Numeral}

theorem sign_chars (h : n.Written) (rest : List Char) :
    sign ((if n.negative then ['-'] else []) ++ (n.whole ++ rest)) = (n.negative, n.whole ++ rest) := by
  obtain ⟨d, ds, hw, hd⟩ := Token.isDigit_whole h
  cases n.negative with
  | true => rfl
  | false =>
    simp only [hw, List.cons_append, Bool.false_eq_true, if_false, List.nil_append]
    unfold sign
    split
    · next he =>
      cases he
      cases hd
    · next he =>
      cases he
      cases hd
    · rfl

theorem ofChars_chars (h : n.Written) : ofChars n.chars = n := by
  obtain ⟨-, hwhole⟩ := h.whole
  have hends : Ends [] := nofun
  have hsplit := Token.splitWhile_append hwhole (Token.head?_fraction (n := n) hends)
  have hfraction := Token.head?_exponent (n := n) hends
  have hchars := Token.chars_append n []
  rw [List.append_nil] at hchars
  rw [List.append_nil] at hsplit hfraction hchars
  obtain ⟨htake, hdrop⟩ := Prod.mk.inj hsplit
  rw [hchars, ofChars, sign_chars h]
  simp only [htake, hdrop]
  obtain ⟨negative, whole, fraction, exponent⟩ := n
  cases fraction with
  | none =>
    rcases exponent with _ | ⟨down, digits⟩
    · rfl
    · cases down <;> rfl
  | some ds =>
    obtain ⟨-, hall⟩ := h.fraction ds rfl
    have hsplit := Token.splitWhile_append hall fun c hc => (hfraction c hc).1
    obtain ⟨htake, hdrop⟩ := Prod.mk.inj hsplit
    dsimp only at htake hdrop
    simp only [Option.elim_some, List.cons_append, htake, hdrop]
    rcases exponent with _ | ⟨down, digits⟩
    · rfl
    · cases down <;> rfl

/-! ## Integers -/

/-- The numeral of an integer. -/
def ofInt (i : Int) : Numeral :=
  ⟨i < 0, Text.decimal i.natAbs, none, none⟩

theorem digits_decimal (n : Nat) : Digits (Text.decimal n) :=
  ⟨Text.decimal_ne_nil n, Text.all_isDigit_decimal n⟩

/-- The decimal of a natural number has no zero in front. -/
theorem first_decimal (n : Nat) :
    Text.decimal n = ['0'] ∨ ∀ d ∈ (Text.decimal n).head?, d ≠ '0' := by
  by_cases h : n = 0
  · subst h
    exact .inl rfl
  · obtain ⟨d, ds, hd, hne⟩ := Text.decimal_head h
    rw [hd]
    refine .inr ?_
    rintro _ ⟨⟩
    exact hne

theorem written_ofInt (i : Int) : (ofInt i).Written :=
  ⟨digits_decimal _, first_decimal _, nofun, nofun⟩

theorem chars_ofInt (i : Int) : (ofInt i).chars = Number.intChars i := by
  unfold chars ofInt Number.intChars
  simp only [Option.elim_none, List.append_nil, decide_eq_true_eq]
  split <;> rfl

theorem toInt_ofInt (i : Int) : (ofInt i).toInt = i := by
  unfold toInt ofInt
  simp only [Text.decimalValue_decimal, decide_eq_true_eq]
  split <;> omega

end Numeral

end GraphQL
