import GraphQL.Proofs.Number.Numeral
import GraphQL.Proofs.Token.Lossless
import Mathlib.Computability.Language

/-!
# Longest match

Names and numbers as regular languages, and the parts that are taken off a text as the longest
prefixes in them. A number is taken off piece by piece; that this gives the longest match comes from
one law (`Longest.mul`): pieces follow each other greedily when no text of the second language starts
with a character of the first.
-/

namespace GraphQL.Token

open Computability

/-! ## Languages -/

namespace Lexical

/-- The texts of one character that passes a test. -/
def oneOf (p : Char → Bool) : Language Char :=
  {cs | ∃ c, p c = true ∧ cs = [c]}

/-- `[_A-Za-z][_0-9A-Za-z]*` -/
def names : Language Char :=
  oneOf Text.isNameStart * (oneOf Text.isNameContinue)∗

/-- `[0-9]+` -/
def digits : Language Char :=
  oneOf Text.isDigit * (oneOf Text.isDigit)∗

/-- `0|[1-9][0-9]*` -/
def wholes : Language Char :=
  oneOf (· = '0') + oneOf (fun c => '1' ≤ c && c ≤ '9') * (oneOf Text.isDigit)∗

/-- `\.[0-9]+` -/
def fractions : Language Char :=
  oneOf (· = '.') * digits

/-- `[eE][+-]?[0-9]+` -/
def exponents : Language Char :=
  oneOf (fun c => c = 'e' || c = 'E') * ((1 + oneOf fun c => c = '+' || c = '-') * digits)

/-- `-?(0|[1-9][0-9]*)` -/
def integers : Language Char :=
  (1 + oneOf (· = '-')) * wholes

/-- `-?(0|[1-9][0-9]*)(\.[0-9]+)?([eE][+-]?[0-9]+)?` -/
def numbers : Language Char :=
  (1 + oneOf (· = '-')) * wholes * (1 + fractions) * (1 + exponents)

/-- The numbers of which a fraction or an exponent is a part. -/
def floats : Language Char :=
  integers * (fractions * (1 + exponents) + exponents)

variable {p q : Char → Bool} {c : Char} {cs xs ys : List Char} {L M : Language Char}

/-! ## Their characters -/

/-- Every character of every text passes the test. -/
def Over (p : Char → Bool) (L : Language Char) : Prop :=
  ∀ xs ∈ L, ∀ c ∈ xs, p c = true

/-- No text starts with a character that passes the test. -/
def Apart (p : Char → Bool) (L : Language Char) : Prop :=
  ∀ c xs, c :: xs ∈ L → p c = false

/-- Every text starts with a character that passes the test. -/
def Starts (p : Char → Bool) (L : Language Char) : Prop :=
  ∀ xs ∈ L, ∃ c ys, xs = c :: ys ∧ p c = true

theorem mem_oneOf_star : xs ∈ (oneOf p)∗ ↔ ∀ c ∈ xs, p c = true := by
  rw [Language.mem_kstar]
  constructor
  · rintro ⟨parts, rfl, hparts⟩ c hc
    obtain ⟨part, hpart, hc⟩ := List.mem_flatten.1 hc
    obtain ⟨d, hd, rfl⟩ := hparts part hpart
    rw [List.mem_singleton.1 hc]
    exact hd
  · intro h
    refine ⟨xs.map fun c => [c], (List.flatMap_singleton' xs).symm, fun ys hys => ?_⟩
    obtain ⟨c, hc, rfl⟩ := List.mem_map.1 hys
    exact ⟨c, h c hc, rfl⟩

theorem cons_mem_oneOf_mul : c :: xs ∈ oneOf p * L ↔ p c = true ∧ xs ∈ L := by
  rw [Language.mem_mul]
  constructor
  · rintro ⟨_, ⟨d, hd, rfl⟩, ys, hys, he⟩
    cases he
    exact ⟨hd, hys⟩
  · rintro ⟨hc, hxs⟩
    exact ⟨[c], ⟨c, hc, rfl⟩, xs, hxs, rfl⟩

theorem mem_optional : xs ∈ 1 + L ↔ xs = [] ∨ xs ∈ L :=
  Iff.rfl

theorem over_oneOf (h : ∀ c, p c = true → q c = true) : Over q (oneOf p) := by
  rintro _ ⟨c, hc, rfl⟩ d hd
  rw [List.mem_singleton.1 hd]
  exact h c hc

theorem over_star (h : ∀ c, p c = true → q c = true) : Over q (oneOf p)∗ :=
  fun _ hxs c hc => h c (mem_oneOf_star.1 hxs c hc)

theorem Over.add (hL : Over p L) (hM : Over p M) : Over p (L + M) :=
  fun xs hxs => hxs.elim (hL xs) (hM xs)

theorem Over.optional (h : Over p L) : Over p (1 + L) :=
  .add (by rintro _ rfl c hc; cases hc) h

theorem Over.mul (hL : Over p L) (hM : Over p M) : Over p (L * M) := by
  rintro _ ⟨xs, hxs, ys, hys, rfl⟩ c hc
  exact (List.mem_append.1 hc).elim (hL xs hxs c) (hM ys hys c)

theorem starts_oneOf (h : ∀ c, p c = true → q c = true) : Starts q (oneOf p) := by
  rintro _ ⟨c, hc, rfl⟩
  exact ⟨c, [], rfl, h c hc⟩

theorem Starts.mul (h : Starts p L) (M : Language Char) : Starts p (L * M) := by
  rintro _ ⟨xs, hxs, ys, _, rfl⟩
  obtain ⟨c, zs, rfl, hc⟩ := h xs hxs
  exact ⟨c, zs ++ ys, rfl, hc⟩

theorem Starts.add (hL : Starts p L) (hM : Starts p M) : Starts p (L + M) :=
  fun xs hxs => hxs.elim (hL xs) (hM xs)

theorem Starts.apart (h : Starts q L) (hpq : ∀ c, q c = true → p c = false) : Apart p L := by
  intro c xs hxs
  obtain ⟨d, ys, he, hd⟩ := h _ hxs
  cases he
  exact hpq c hd

theorem Apart.optional (h : Apart p L) : Apart p (1 + L) := by
  rintro c xs (he | hxs)
  · cases he
  · exact h c xs hxs

theorem Apart.mul (hL : Apart p L) (hM : Apart p M) : Apart p (L * M) := by
  rintro c xs ⟨ys, hys, zs, hzs, he⟩
  cases ys with
  | nil =>
    obtain rfl : zs = c :: xs := he
    exact hM c xs hzs
  | cons d ys =>
    cases he
    exact hL c ys hys

end Lexical

open Lexical

/-! ## The longest prefix -/

/-- The longest prefix of a text that is in a language. -/
structure Longest (L : Language Char) (cs xs : List Char) : Prop where
  mem : xs ∈ L
  isPrefix : xs <+: cs
  longest : ∀ ys ∈ L, ys <+: cs → ys.length ≤ xs.length

/-- No prefix of a text is in a language. -/
def Unmatched (L : Language Char) (cs : List Char) : Prop :=
  ∀ ys ∈ L, ¬ ys <+: cs

variable {p q : Char → Bool} {c : Char} {cs xs ys zs rest : List Char} {L M : Language Char}

theorem unmatched_of_starts (h : Starts p L) (hcs : ∀ c ∈ cs.head?, p c = false) :
    Unmatched L cs := by
  rintro ys hys ⟨rest, rfl⟩
  obtain ⟨c, zs, rfl, hc⟩ := h ys hys
  rw [hcs c rfl] at hc
  cases hc

theorem longest_oneOf (hc : p c = true) (cs : List Char) : Longest (oneOf p) (c :: cs) [c] where
  mem := ⟨c, hc, rfl⟩
  isPrefix := ⟨cs, rfl⟩
  longest := by
    rintro _ ⟨d, -, rfl⟩ _
    exact Nat.le_refl 1

theorem longest_while (p : Char → Bool) (cs : List Char) :
    Longest (oneOf p)∗ cs (splitWhile p cs).1 where
  mem := mem_oneOf_star.2 (List.all_eq_true.1 List.all_takeWhile)
  isPrefix := List.takeWhile_prefix p
  longest := by
    rintro ys hys ⟨rest, rfl⟩
    have htake : (ys ++ rest).takeWhile p = ys ++ rest.takeWhile p :=
      List.takeWhile_append_of_pos (mem_oneOf_star.1 hys)
    show ys.length ≤ ((ys ++ rest).takeWhile p).length
    rw [htake, List.length_append]
    exact Nat.le_add_right ..

theorem Longest.add (h : Longest L cs xs) (hM : ∀ ys ∈ M, ys <+: cs → ys.length ≤ xs.length) :
    Longest (L + M) cs xs where
  mem := .inl h.mem
  isPrefix := h.isPrefix
  longest ys hys := hys.elim (h.longest ys) (hM ys)

theorem Longest.add_unmatched (h : Longest L cs xs) (hM : Unmatched M cs) : Longest (L + M) cs xs :=
  h.add fun ys hys hp => absurd hp (hM ys hys)

theorem Longest.optional (h : Longest L cs xs) : Longest (1 + L) cs xs := by
  rw [add_comm]
  refine h.add fun ys hys _ => ?_
  rw [(Language.mem_one ys).1 hys]
  exact Nat.zero_le _

theorem Unmatched.optional (h : Unmatched L cs) : Longest (1 + L) cs [] := by
  refine Longest.add_unmatched ⟨rfl, List.nil_prefix, fun ys hys _ => ?_⟩ h
  rw [(Language.mem_one ys).1 hys]

/-- Where two texts follow each other in front of a text, the first is the longest there is, or the
second is empty. -/
theorem Longest.followed (h : Longest L cs xs) (hcs : cs = xs ++ rest) (hp : Over p L)
    (ha : Apart p M) (hys : ys ∈ L) (hzs : zs ∈ M) (hinit : ys ++ zs <+: cs) :
    ys = xs ∧ zs <+: rest ∨ zs = [] ∧ ys.length ≤ xs.length := by
  have hys' : ys <+: cs := (List.prefix_append ys zs).trans hinit
  have hle := h.longest ys hys hys'
  obtain ⟨more, rfl⟩ := List.prefix_of_prefix_length_le hys' h.isPrefix hle
  subst hcs
  rw [List.append_assoc, List.prefix_append_right_inj] at hinit
  cases more with
  | nil => exact .inl ⟨(List.append_nil ys).symm, hinit⟩
  | cons c more =>
    -- The longest goes on with a character that starts nothing in the second language.
    cases zs with
    | nil => exact .inr ⟨rfl, hle⟩
    | cons d zs =>
      obtain ⟨rfl, -⟩ := List.cons_prefix_cons.1 hinit
      have hd := hp _ h.mem d (List.mem_append_right ys (List.mem_cons_self ..))
      rw [ha d zs hzs] at hd
      cases hd

/-- The longest text of two languages is the longest of the first with the longest of the second
after it. -/
theorem Longest.mul (h : Longest L cs xs) (hcs : cs = xs ++ rest) (hM : Longest M rest ys)
    (hp : Over p L) (ha : Apart p M) : Longest (L * M) cs (xs ++ ys) where
  mem := Language.append_mem_mul h.mem hM.mem
  isPrefix := by
    rw [hcs, List.prefix_append_right_inj]
    exact hM.isPrefix
  longest := by
    rintro _ ⟨ys', hys', zs', hzs', rfl⟩ hinit
    rw [List.length_append, List.length_append]
    rcases h.followed hcs hp ha hys' hzs' hinit with ⟨rfl, hrest⟩ | ⟨rfl, hle⟩
    · exact Nat.add_le_add_left (hM.longest zs' hzs' hrest) _
    · exact Nat.add_le_add hle (Nat.zero_le _)

theorem Longest.mul_unmatched (h : Longest L cs xs) (hcs : cs = xs ++ rest) (hM : Unmatched M rest)
    (hnil : [] ∉ M) (hp : Over p L) (ha : Apart p M) : Unmatched (L * M) cs := by
  rintro _ ⟨ys, hys, zs, hzs, rfl⟩ hinit
  rcases h.followed hcs hp ha hys hzs hinit with ⟨-, hrest⟩ | ⟨rfl, -⟩
  · exact hM zs hzs hrest
  · exact hnil hzs

/-- One character, and the longest text after it. -/
theorem Longest.cons (hc : p c = true) (h : Longest L cs xs) :
    Longest (oneOf p * L) (c :: cs) (c :: xs) where
  mem := cons_mem_oneOf_mul.2 ⟨hc, h.mem⟩
  isPrefix := by
    rw [List.prefix_cons_inj]
    exact h.isPrefix
  longest ys hys hinit := by
    cases ys with
    | nil => exact Nat.zero_le _
    | cons d ys =>
      exact Nat.succ_le_succ (h.longest ys (cons_mem_oneOf_mul.1 hys).2
        (List.cons_prefix_cons.1 hinit).2)

theorem Unmatched.cons (h : Unmatched L cs) : Unmatched (oneOf p * L) (c :: cs) := by
  rintro ys hys hinit
  cases ys with
  | nil =>
    obtain ⟨_, ⟨d, -, rfl⟩, zs, -, he⟩ := hys
    cases he
  | cons d ys =>
    exact h ys (cons_mem_oneOf_mul.1 hys).2 (List.cons_prefix_cons.1 hinit).2

/-! ## Parts of numbers -/

theorem isDigit_of_le (h : ('1' ≤ c && c ≤ '9') = true) : Text.isDigit c = true := by
  simp only [Text.isDigit, Bool.and_eq_true, decide_eq_true_eq, Char.le_def,
    UInt32.le_iff_toNat_le] at h ⊢
  simp at h ⊢
  omega

theorem over_digits : Over Text.isDigit digits :=
  (over_oneOf fun _ => id).mul (over_star fun _ => id)

theorem starts_digits : Starts Text.isDigit digits :=
  (starts_oneOf fun _ => id).mul _

theorem over_wholes : Over Text.isDigit wholes :=
  (over_oneOf (by simp [Text.isDigit])).add
    ((over_oneOf fun _ => isDigit_of_le).mul (over_star fun _ => id))

theorem starts_wholes : Starts Text.isDigit wholes :=
  (starts_oneOf (by simp [Text.isDigit])).add ((starts_oneOf fun _ => isDigit_of_le).mul _)

theorem over_fractions : Over (fun c => c = '.' || Text.isDigit c) fractions :=
  (over_oneOf (by simp)).mul fun xs hxs c hc => by simp [over_digits xs hxs c hc]

theorem starts_fractions : Starts (· = '.') fractions :=
  (starts_oneOf fun _ => id).mul _

theorem starts_exponents : Starts (fun c => c = 'e' || c = 'E') exponents :=
  (starts_oneOf fun _ => id).mul _

theorem over_integers : Over (fun c => c = '-' || Text.isDigit c) integers :=
  (over_oneOf (by simp)).optional.mul fun xs hxs c hc => by simp [over_wholes xs hxs c hc]

theorem apart_exponents (hp : p 'e' = false) (hp' : p 'E' = false) : Apart p exponents :=
  starts_exponents.apart fun c hc => by
    rcases (by simpa using hc : c = 'e' ∨ c = 'E') with rfl | rfl
    · exact hp
    · exact hp'

theorem apart_fractions (hp : p '.' = false) : Apart p fractions :=
  starts_fractions.apart fun c hc => by
    obtain rfl : c = '.' := by simpa using hc
    exact hp

theorem longest_digits (hc : Text.isDigit c = true) (cs : List Char) :
    Longest digits (c :: cs) (splitWhile Text.isDigit (c :: cs)).1 := by
  rw [splitWhile, List.takeWhile_cons_of_pos hc]
  exact (longest_while Text.isDigit cs).cons hc

theorem longest_minus (cs : List Char) : Longest (1 + oneOf (· = '-')) cs (splitMinus cs).1 := by
  unfold splitMinus
  split
  · next cs => exact (longest_oneOf rfl cs).optional
  · next hminus =>
    refine Unmatched.optional (unmatched_of_starts (starts_oneOf fun _ => id) fun c hc => ?_)
    obtain ⟨ds, rfl⟩ : ∃ ds, cs = c :: ds := List.head?_eq_some_iff.1 hc
    simpa using fun he => hminus ds (by rw [he])

theorem longest_sign (cs : List Char) :
    Longest (1 + oneOf fun c => c = '+' || c = '-') cs (splitSign cs).1 := by
  unfold splitSign
  split
  · next cs => exact (longest_oneOf rfl cs).optional
  · next cs => exact (longest_oneOf rfl cs).optional
  · next hplus hminus =>
    refine Unmatched.optional (unmatched_of_starts (starts_oneOf fun _ => id) fun c hc => ?_)
    obtain ⟨ds, rfl⟩ : ∃ ds, cs = c :: ds := List.head?_eq_some_iff.1 hc
    simpa using ⟨fun he => hplus ds (by rw [he]), fun he => hminus ds (by rw [he])⟩

/-- Where a digit comes, a whole number does. -/
theorem longest_whole (hc : Text.isDigit c = true) (cs : List Char) :
    Longest wholes (c :: cs) (splitWhole (c :: cs)).1 := by
  by_cases hzero : c = '0'
  · subst hzero
    refine Longest.add_unmatched (longest_oneOf rfl cs) ?_
    exact unmatched_of_starts ((starts_oneOf fun _ => id).mul _) (by simp)
  · rw [splitWhole, if_neg hzero, if_pos hc, splitWhile, List.takeWhile_cons_of_pos hc, wholes,
      add_comm]
    refine Longest.add_unmatched ((longest_while Text.isDigit cs).cons ?_) ?_
    · simp only [Text.isDigit, Bool.and_eq_true, decide_eq_true_eq, Char.le_def,
        UInt32.le_iff_toNat_le, Char.ext_iff, ← UInt32.toNat_inj] at hc hzero ⊢
      simp at hc hzero ⊢
      omega
    · exact unmatched_of_starts (starts_oneOf fun _ => id) (by simpa using hzero)

theorem longest_fraction (cs : List Char) : Longest (1 + fractions) cs (splitFraction cs).1 := by
  by_cases hcs : ∃ c ds, cs = '.' :: c :: ds ∧ Text.isDigit c = true
  · obtain ⟨c, ds, rfl, hc⟩ := hcs
    rw [splitFraction, if_pos hc]
    exact ((longest_digits hc ds).cons rfl).optional
  · rw [splitFraction_nil fun c ds he => Bool.eq_false_iff.2 fun hc => hcs ⟨c, ds, he, hc⟩]
    refine Unmatched.optional ?_
    rintro _ ⟨_, ⟨c, hc, rfl⟩, xs, hxs, rfl⟩ ⟨rest, rfl⟩
    obtain ⟨d, ys, rfl, hd⟩ := starts_digits xs hxs
    obtain rfl : c = '.' := by simpa using hc
    exact hcs ⟨d, ys ++ rest, rfl, hd⟩

theorem over_signs : Over (fun c => c = '+' || c = '-') (1 + oneOf fun c => c = '+' || c = '-') :=
  (over_oneOf fun _ => id).optional

theorem apart_digits : Apart (fun c => c = '+' || c = '-') digits :=
  starts_digits.apart fun c hc => by
    refine Bool.eq_false_iff.2 fun hsign => ?_
    rcases (by simpa using hsign : c = '+' ∨ c = '-') with rfl | rfl <;> cases hc

theorem splitWhile_ne_nil (hc : c ∈ cs.head?) (hp : p c = true) : (splitWhile p cs).1 ≠ [] := by
  obtain ⟨ds, rfl⟩ : ∃ ds, cs = c :: ds := List.head?_eq_some_iff.1 hc
  rw [splitWhile, List.takeWhile_cons_of_pos hp]
  exact List.cons_ne_nil _ _

/-- An optional sign with digits after it. -/
theorem longest_signed (hc : c ∈ (splitSign cs).2.head?) (hdigit : Text.isDigit c = true) :
    Longest ((1 + oneOf fun c => c = '+' || c = '-') * digits) cs
      ((splitSign cs).1 ++ (splitWhile Text.isDigit (splitSign cs).2).1) := by
  refine (longest_sign cs).mul (splits_sign.append cs).symm ?_ over_signs apart_digits
  obtain ⟨ds, hds⟩ : ∃ ds, (splitSign cs).2 = c :: ds := List.head?_eq_some_iff.1 hc
  rw [hds]
  exact longest_digits hdigit ds

/-- Without digits a sign is no exponent. -/
theorem unmatched_signed (hrest : ∀ c ∈ (splitSign cs).2.head?, Text.isDigit c = false) :
    Unmatched ((1 + oneOf fun c => c = '+' || c = '-') * digits) cs := by
  refine (longest_sign cs).mul_unmatched (splits_sign.append cs).symm
    (unmatched_of_starts starts_digits hrest) ?_ over_signs apart_digits
  intro hnil
  obtain ⟨c, xs, he, -⟩ := starts_digits _ hnil
  cases he

theorem longest_exponent (cs : List Char) : Longest (1 + exponents) cs (splitExponent cs).1 := by
  by_cases hcs : ∃ e c ds, cs = e :: ds ∧ (e = 'e' ∨ e = 'E') ∧ c ∈ (splitSign ds).2.head? ∧
      Text.isDigit c = true
  · obtain ⟨e, c, ds, rfl, he, hc, hdigit⟩ := hcs
    rw [splitExponent_digits he (splitWhile_ne_nil hc hdigit)]
    exact ((longest_signed hc hdigit).cons (by simpa using he)).optional
  · have hnone : ∀ e ds, cs = e :: ds → (e = 'e' ∨ e = 'E') →
        ∀ c ∈ (splitSign ds).2.head?, Text.isDigit c = false := fun e ds hds he c hc =>
      Bool.eq_false_iff.2 fun hdigit => hcs ⟨e, c, ds, hds, he, hc, hdigit⟩
    rw [splitExponent_nil hnone]
    refine Unmatched.optional ?_
    by_cases hletter : ∃ e ds, cs = e :: ds ∧ (e = 'e' ∨ e = 'E')
    · obtain ⟨e, ds, rfl, he⟩ := hletter
      exact (unmatched_signed (hnone e ds rfl he)).cons
    · refine unmatched_of_starts starts_exponents fun c hc => ?_
      obtain ⟨ds, rfl⟩ : ∃ ds, cs = c :: ds := List.head?_eq_some_iff.1 hc
      simpa using fun he => hletter ⟨c, ds, rfl, he⟩

/-! ## Whole numbers -/

/-- What follows the whole digits of a number starts with no digit. -/
theorem apart_tail : Apart Text.isDigit ((1 + fractions) * (1 + exponents)) :=
  (apart_fractions rfl).optional.mul (apart_exponents rfl rfl).optional

theorem numbers_eq : numbers =
    (1 + oneOf (· = '-')) * (wholes * ((1 + fractions) * (1 + exponents))) := by
  simp only [numbers, mul_assoc]

theorem over_minus : Over (fun c => c = '-') (1 + oneOf (· = '-')) :=
  (over_oneOf fun _ => id).optional

theorem starts_unsigned : Starts Text.isDigit (wholes * ((1 + fractions) * (1 + exponents))) :=
  starts_wholes.mul _

theorem apart_unsigned : Apart (fun c => c = '-') (wholes * ((1 + fractions) * (1 + exponents))) :=
  starts_unsigned.apart fun c hc => by
    refine Bool.eq_false_iff.2 fun hminus => ?_
    obtain rfl : c = '-' := by simpa using hminus
    cases hc

/-- A float is no integer: it has a point or the letter of an exponent. -/
theorem not_mem_integers (h : xs ∈ floats) : xs ∉ integers := by
  obtain ⟨ys, -, zs, hzs, rfl⟩ := h
  have hstart : ∃ c ds, zs = c :: ds ∧ (c = '-' || Text.isDigit c) = false := by
    rcases hzs with ⟨us, hus, vs, -, rfl⟩ | hzs
    · obtain ⟨c, ds, rfl, hc⟩ := starts_fractions us hus
      obtain rfl : c = '.' := by simpa using hc
      exact ⟨'.', ds ++ vs, rfl, rfl⟩
    · obtain ⟨c, ds, rfl, hc⟩ := starts_exponents zs hzs
      refine ⟨c, ds, rfl, ?_⟩
      rcases (by simpa using hc : c = 'e' ∨ c = 'E') with rfl | rfl <;> rfl
  intro hmem
  obtain ⟨c, ds, rfl, hc⟩ := hstart
  have hover := over_integers _ hmem c (List.mem_append_right _ (List.mem_cons_self ..))
  exact Bool.false_ne_true (hc.symm.trans hover)

theorem mem_floats (hxs : xs ∈ integers) (hys : ys ∈ 1 + fractions) (hzs : zs ∈ 1 + exponents)
    (hne : ¬ (ys = [] ∧ zs = [])) : xs ++ (ys ++ zs) ∈ floats := by
  refine Language.append_mem_mul hxs ?_
  rcases mem_optional.1 hys with rfl | hfraction
  · exact .inr ((mem_optional.1 hzs).resolve_left fun he => hne ⟨rfl, he⟩)
  · exact .inl (Language.append_mem_mul hfraction hzs)

/-- Where a digit comes after an optional minus, a number is taken off with the longest match. It is
a float if a fraction or an exponent is part of it. -/
theorem splitNumber_longest (h : (splitMinus cs).2 = c :: rest) (hc : Text.isDigit c = true) :
    Longest numbers cs (splitNumber cs).2.1 ∧
    ((splitNumber cs).1 = .float ∧ (splitNumber cs).2.1 ∈ floats ∨
      (splitNumber cs).1 = .int ∧ (splitNumber cs).2.1 ∈ integers) := by
  have hminus := longest_minus cs
  have hwhole : Longest wholes (splitMinus cs).2 (splitWhole (splitMinus cs).2).1 := by
    rw [h]
    exact longest_whole hc rest
  have hparts := splits_whole.append (splitMinus cs).2
  obtain ⟨whole, after, hs⟩ : ∃ whole after, splitWhole (splitMinus cs).2 = (whole, after) :=
    ⟨_, _, rfl⟩
  rw [hs] at hwhole hparts
  have hne : whole ≠ [] := by
    obtain ⟨d, ds, he, -⟩ := starts_wholes whole hwhole.mem
    exact he ▸ List.cons_ne_nil d ds
  have hfraction := longest_fraction after
  have hexponent := longest_exponent (splitFraction after).2
  rw [splitNumber_digits hs hne]
  constructor
  · rw [numbers_eq]
    refine hminus.mul (splits_minus.append cs).symm ?_ over_minus apart_unsigned
    refine hwhole.mul hparts.symm ?_ over_wholes apart_tail
    exact hfraction.mul (splits_fraction.append after).symm hexponent over_fractions.optional
      (apart_exponents rfl rfl).optional
  · have hinteger : (splitMinus cs).1 ++ whole ∈ integers :=
      Language.append_mem_mul hminus.mem hwhole.mem
    dsimp only
    split
    · next hempty =>
      obtain ⟨hf, he⟩ : (splitFraction after).1 = [] ∧
          (splitExponent (splitFraction after).2).1 = [] := by
        simpa using hempty
      rw [hf, he, List.append_nil, List.append_nil]
      exact .inr ⟨rfl, hinteger⟩
    · next hempty =>
      rw [← List.append_assoc]
      exact .inl ⟨rfl, mem_floats hinteger hfraction.mem hexponent.mem (by simpa using hempty)⟩

/-- Where no digit comes after an optional minus there is no number, and the minus is taken off. -/
theorem splitNumber_unmatched (h : ∀ c ∈ (splitMinus cs).2.head?, Text.isDigit c = false) :
    Unmatched numbers cs ∧ splitNumber cs = (.unknownChar, splitMinus cs) := by
  constructor
  · rw [numbers_eq]
    refine (longest_minus cs).mul_unmatched (splits_minus.append cs).symm
      (unmatched_of_starts starts_unsigned h) ?_ over_minus apart_unsigned
    intro hnil
    obtain ⟨c, xs, he, -⟩ := starts_unsigned _ hnil
    cases he
  · rw [splitNumber_minus (by rw [splitWhole_nil h]), splitWhole_nil h]

/-! ## Keywords -/

/-- The word of a keyword. -/
def Kind.word? : Kind → Option String
  | query => some "query"
  | mutation => some "mutation"
  | subscription => some "subscription"
  | fragment => some "fragment"
  | on => some "on"
  | true => some "true"
  | false => some "false"
  | null => some "null"
  | schema => some "schema"
  | scalar => some "scalar"
  | type => some "type"
  | interface => some "interface"
  | union => some "union"
  | enum => some "enum"
  | input => some "input"
  | directive => some "directive"
  | implements => some "implements"
  | _ => none

theorem Kind.word?_eq_some {kind : Kind} {word : String} :
    kind.word? = some word ↔ (word, kind) ∈ keywords := by
  constructor
  · intro h
    cases kind <;> cases h <;> decide
  · have hall : ∀ k ∈ keywords, k.2.word? = some k.1 := by decide
    exact fun h => hall _ h

theorem Kind.ofName_eq_iff {kind : Kind} {word name : String} (h : kind.word? = some word) :
    ofName name = kind ↔ name = word := by
  have hsame : ∀ k ∈ keywords, ofName k.1 = k.2 := by decide
  constructor
  · intro hname
    unfold ofName at hname
    cases hf : keywords.find? fun k => k.1 = name with
    | none =>
      rw [hf] at hname
      subst hname
      cases h
    | some k =>
      rw [hf] at hname
      obtain rfl : k.2 = kind := hname
      obtain rfl : k.1 = name := by simpa using List.find?_some hf
      have hk := Kind.word?_eq_some.2 (List.mem_of_find?_eq_some hf)
      exact Option.some.inj (hk.symm.trans h)
  · rintro rfl
    exact hsame _ (Kind.word?_eq_some.1 h)

theorem Kind.ofName_eq_identifier {name : String} :
    ofName name = identifier ↔ ∀ kind : Kind, kind.word? ≠ some name := by
  constructor
  · intro hname kind hword
    obtain rfl : identifier = kind := hname.symm.trans ((Kind.ofName_eq_iff hword).2 rfl)
    cases hword
  · intro hnone
    unfold ofName
    cases hf : keywords.find? fun k => k.1 = name with
    | none => rfl
    | some k =>
      obtain rfl : k.1 = name := by simpa using List.find?_some hf
      exact absurd (Kind.word?_eq_some.2 (List.mem_of_find?_eq_some hf)) (hnone k.2)

/-! ## Tokens -/

/-- The token is the longest name in front of a text. Its kind is that of a keyword just if the whole
name is this keyword. -/
structure LongestName (rest : List Char) (t : Token) : Prop where
  longest : Longest names rest t.raw.toList
  keyword : ∀ kind word, kind.word? = some word → (t.kind = kind ↔ t.raw = word)
  identifier : t.kind = .identifier ↔ ∀ kind : Kind, kind.word? ≠ some t.raw

/-- The token is the longest number in front of a text, and a float just if a fraction or an exponent
is part of it; or it is a minus in front of a text that starts with no number. -/
inductive LongestNumber (rest : List Char) (t : Token) : Prop where
  | number : Longest numbers rest t.raw.toList → (t.kind = .float ↔ t.raw.toList ∈ floats) →
      (t.kind = .int ↔ t.raw.toList ∉ floats) → LongestNumber rest t
  | minus : Unmatched numbers rest → t.raw = "-" → t.kind = .unknownChar → LongestNumber rest t

variable {t : Token}

theorem longestName_of_splitLexeme (hc : Text.isNameStart c = true)
    (hl : splitLexeme c cs = some (t.lexeme, rest)) : LongestName (c :: cs) t := by
  rw [splitLexeme_name hc] at hl
  obtain ⟨hlexeme, -⟩ := Prod.mk.inj (Option.some.inj hl)
  obtain ⟨hkind, hraw, -⟩ := Lexeme.mk.inj hlexeme
  rw [hraw, String.ofList_toList] at hkind
  refine ⟨?_, fun kind word hword => ?_, ?_⟩
  · rw [← hraw, splitWhile, List.takeWhile_cons_of_pos (Text.isNameContinue_of_isNameStart hc)]
    exact (longest_while _ cs).cons hc
  · rw [← hkind]
    exact Kind.ofName_eq_iff hword
  · rw [← hkind]
    exact Kind.ofName_eq_identifier

theorem longestNumber_of_splitLexeme (hc : c = '-' ∨ Text.isDigit c = true)
    (hl : splitLexeme c cs = some (t.lexeme, rest)) : LongestNumber (c :: cs) t := by
  rw [splitLexeme_number hc] at hl
  obtain ⟨hlexeme, -⟩ := Prod.mk.inj (Option.some.inj hl)
  obtain ⟨hkind, hraw, -⟩ := Lexeme.mk.inj hlexeme
  by_cases hdigit : ∃ d ds, (splitMinus (c :: cs)).2 = d :: ds ∧ Text.isDigit d = true
  · obtain ⟨d, ds, hd, hdigit⟩ := hdigit
    obtain ⟨hlongest, hparts⟩ := splitNumber_longest hd hdigit
    rw [hkind, hraw] at hparts
    rw [hraw] at hlongest
    rcases hparts with ⟨hkind, hfloat⟩ | ⟨hkind, hinteger⟩
    · exact .number hlongest (by simp [hkind, hfloat]) (by simp [hkind, hfloat])
    · have hfloat : t.raw.toList ∉ floats := fun h => not_mem_integers h hinteger
      exact .number hlongest (by simp [hkind, hfloat]) (by simp [hkind, hfloat])
  · have hnone : ∀ d ∈ (splitMinus (c :: cs)).2.head?, Text.isDigit d = false := fun d hd => by
      obtain ⟨ds, hds⟩ : ∃ ds, (splitMinus (c :: cs)).2 = d :: ds := List.head?_eq_some_iff.1 hd
      exact Bool.eq_false_iff.2 fun hc => hdigit ⟨d, ds, hds, hc⟩
    obtain ⟨hunmatched, hsplit⟩ := splitNumber_unmatched hnone
    -- A digit at once would be one after no minus.
    obtain rfl : c = '-' := hc.resolve_right fun hc => by
      refine hdigit ⟨c, cs, ?_, hc⟩
      rw [splitMinus]
      rintro cs he
      cases he
      cases hc
    rw [hsplit] at hkind hraw
    refine .minus hunmatched ?_ hkind.symm
    have htext := congrArg String.ofList hraw
    rw [String.ofList_toList] at htext
    exact htext.symm

variable {before : List Char} {index : Nat} {tokens : List Token}

/-- Each token of a scan is taken off what is left of the source at its offset. -/
theorem Scans.exists_taken (h : Scans before index cs (.ok tokens)) (ht : t ∈ tokens) :
    ∃ done c text rest, before ++ cs = done ++ c :: text ∧
      t.offset = (String.ofList done).utf8ByteSize ∧ splitLexeme c text = some (t.lexeme, rest) := by
  generalize hresult : Except.ok tokens = result at h
  induction h generalizing tokens with
  | done index htrailing =>
    cases hresult
    cases ht
  | unclosed => cases hresult
  | @token before cs trivia text rest index c l result hs hl hbefore _ ih =>
    cases result with
    | error e => cases hresult
    | ok tokens' =>
      cases hresult
      rcases List.mem_cons.1 ht with rfl | ht
      · refine ⟨before ++ trivia, c, text, rest, ?_, ?_, ?_⟩
        · rw [splitIgnored_text hs, List.append_assoc]
        · rw [utf8ByteSize_ofList, Text.utf8Length_append]
          rfl
        · rw [hl]
          simp [lexeme, Lexeme.token]
      · obtain ⟨done, d, text', rest', htext, hoffset, hl'⟩ := ih ht rfl
        refine ⟨done, d, text', rest', ?_, hoffset, hl'⟩
        rw [taken_text hs hl, ← htext, List.append_assoc, List.append_assoc, List.append_assoc]

/-- The token is the longest name where the source goes on with a letter or an underscore at its
offset, and the longest number where it goes on with a minus or a digit. -/
def LongestAt (source : String) (t : Token) : Prop :=
  ∃ before rest, source.toList = before ++ rest ∧ t.offset = (String.ofList before).utf8ByteSize ∧
    (∀ c ∈ rest.head?, Text.isNameStart c = true → LongestName rest t) ∧
    ∀ c ∈ rest.head?, c = '-' ∨ Text.isDigit c = true → LongestNumber rest t

/-- Names and numbers are scanned by longest match. -/
theorem scan_longest {source : String} {tokens : List Token} (h : scan source = .ok tokens) :
    ∀ t ∈ tokens, LongestAt source t := by
  intro t ht
  have hscans : Scans [] 0 source.toList (scan source) :=
    scans_scanFrom (Nat.le_refl _) (by simp [Settled])
  rw [h] at hscans
  obtain ⟨before, c, text, rest, htext, hoffset, hl⟩ := hscans.exists_taken ht
  refine ⟨before, c :: text, htext, hoffset, ?_, ?_⟩
  · rintro _ ⟨⟩ hc
    exact longestName_of_splitLexeme hc hl
  · rintro _ ⟨⟩ hc
    exact longestNumber_of_splitLexeme hc hl

/-! An exponent without digits is left, and so is a minus without any. -/

theorem scan_longest_left : ∃ tokens, scan "on -1.50e+ 01 -x" = .ok tokens ∧
    tokens.map (fun t => (t.kind, t.raw)) = [(.on, "on"), (.float, "-1.50"), (.identifier, "e"),
      (.unknownChar, "+"), (.int, "0"), (.int, "1"), (.unknownChar, "-"), (.identifier, "x")] ∧
    ∀ t ∈ tokens, LongestAt "on -1.50e+ 01 -x" t :=
  ⟨_, rfl, by decide, scan_longest rfl⟩

end GraphQL.Token
