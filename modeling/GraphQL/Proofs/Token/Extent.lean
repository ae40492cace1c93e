import GraphQL.Proofs.Token.Layout

/-!
# How far a token goes

A token is a part of the text that it is taken off, and its extent does not depend on how the text
goes on after it, as long as this shows no more than before. `Curtailed rest rest'` says that `rest'`
is as `rest` up to a point where it stops, or goes on with text that is ignored. Each way to take a
part off a text keeps to this (`Splits`), and so does a whole token (`splitLexeme_extent`).
-/

namespace GraphQL.Token

/-- The text stops at once, or goes on with text that is ignored. -/
def Separates (cs : List Char) : Prop :=
  ∀ c ∈ cs.head?, isIgnored c = true ∨ c = '#'

/-- The second text is as the first up to a point at which it separates. -/
inductive Curtailed : List Char → List Char → Prop where
  | separates {cs cs' : List Char} : Separates cs' → Curtailed cs cs'
  | cons (c : Char) {cs cs' : List Char} : Curtailed cs cs' → Curtailed (c :: cs) (c :: cs')

variable {c : Char} {cs cs' ds rest rest' : List Char} {l : Lexeme}

theorem separates_nil : Separates [] :=
  nofun

theorem Curtailed.append (h : Curtailed cs cs') : ∀ ds, Curtailed (ds ++ cs) (ds ++ cs')
  | [] => h
  | d :: ds => .cons d (h.append ds)

theorem curtailed_of_append : ∀ cs ds, Curtailed (cs ++ ds) cs
  | [], _ => .separates separates_nil
  | c :: cs, ds => .cons c (curtailed_of_append cs ds)

/-- A character that is not ignored was there before. -/
theorem Curtailed.cons_cases (h : Curtailed cs (c :: cs')) :
    (isIgnored c = true ∨ c = '#') ∨ ∃ ds, cs = c :: ds ∧ Curtailed ds cs' := by
  cases h with
  | separates hsep => exact .inl (hsep c rfl)
  | cons _ h => exact .inr ⟨_, rfl, h⟩

theorem Curtailed.head {p : Char → Prop} (h : Curtailed cs cs') (hcs : ∀ c ∈ cs.head?, p c)
    (hp : ∀ c, isIgnored c = true ∨ c = '#' → p c) : ∀ c ∈ cs'.head?, p c := by
  cases h with
  | separates hsep => exact fun c hc => hp c (hsep c hc)
  | cons c _ =>
    rintro _ ⟨⟩
    exact hcs c rfl

/-- What is ignored, or starts a comment, is one of seven characters. -/
theorem forall_separating {p : Char → Prop}
    (h : ∀ c ∈ [' ', '\t', ',', '\n', '\r', '\ufeff', '#'], p c) :
    ∀ c, isIgnored c = true ∨ c = '#' → p c := by
  intro c hc
  refine h c ?_
  simpa [isIgnored, or_assoc] using hc

theorem isNameContinue_separating : ∀ c, isIgnored c = true ∨ c = '#' →
    Text.isNameContinue c = false :=
  forall_separating (Text.forall_of_all (by decide))

theorem isDigit_separating : ∀ c, isIgnored c = true ∨ c = '#' → Text.isDigit c = false :=
  forall_separating (Text.forall_of_all (by decide))

/-- A text without characters that are ignored between tokens. -/
def Solid (cs : List Char) : Prop :=
  ∀ c ∈ cs, isIgnored c = false

theorem solid_nil : Solid [] :=
  nofun

theorem Solid.cons (hc : isIgnored c = false) (h : Solid cs) : Solid (c :: cs) :=
  List.forall_mem_cons.2 ⟨hc, h⟩

theorem Solid.append (h : Solid cs) (h' : Solid ds) : Solid (cs ++ ds) :=
  List.forall_mem_append.2 ⟨h, h'⟩

/-- A solid part that is taken off a text, whose extent does not depend on what comes after it. -/
structure Splits (split : List Char → List Char × List Char) : Prop where
  append (cs : List Char) : (split cs).1 ++ (split cs).2 = cs
  solid (cs : List Char) : Solid (split cs).1
  extent (cs rest : List Char) : Curtailed (split cs).2 rest →
    split ((split cs).1 ++ rest) = ((split cs).1, rest)

/-! ## Parts of numbers, names and points -/

theorem splits_while {p : Char → Bool} (hp : ∀ c, isIgnored c = true ∨ c = '#' → p c = false) :
    Splits (splitWhile p) where
  append _ := List.takeWhile_append_dropWhile
  solid cs c hc := Bool.eq_false_iff.2 fun hi => by
    have htaken := List.all_eq_true.1 List.all_takeWhile c hc
    rw [hp c (.inl hi)] at htaken
    cases htaken
  extent cs rest h := by
    refine splitWhile_append (List.all_takeWhile) (h.head (fun c hc => ?_) hp)
    have := List.head?_dropWhile_not p cs
    rw [show (List.dropWhile p cs).head? = some c from hc] at this
    exact this

theorem splits_sign : Splits splitSign where
  append cs := by
    unfold splitSign
    split <;> rfl
  solid cs := by
    unfold splitSign
    split
    · exact solid_nil.cons rfl
    · exact solid_nil.cons rfl
    · exact solid_nil
  extent cs rest h := by
    unfold splitSign at h ⊢
    split at h
    · rfl
    · rfl
    · next hplus hminus =>
      simp only [List.nil_append]
      split
      · obtain hsep | ⟨ds, rfl, -⟩ := h.cons_cases
        · exact absurd hsep (by decide)
        · exact absurd rfl (hplus ds)
      · obtain hsep | ⟨ds, rfl, -⟩ := h.cons_cases
        · exact absurd hsep (by decide)
        · exact absurd rfl (hminus ds)
      · rfl

theorem splits_minus : Splits splitMinus where
  append cs := by
    unfold splitMinus
    split <;> rfl
  solid cs := by
    unfold splitMinus
    split
    · exact solid_nil.cons rfl
    · exact solid_nil
  extent cs rest h := by
    unfold splitMinus at h ⊢
    split at h
    · rfl
    · next hminus =>
      simp only [List.nil_append]
      split
      · obtain hsep | ⟨ds, rfl, -⟩ := h.cons_cases
        · exact absurd hsep (by decide)
        · exact absurd rfl (hminus ds)
      · rfl

theorem splits_digits : Splits (splitWhile Text.isDigit) :=
  splits_while isDigit_separating

theorem splitWhole_nil (h : ∀ c ∈ cs.head?, Text.isDigit c = false) : splitWhole cs = ([], cs) := by
  cases cs with
  | nil => rfl
  | cons c cs =>
    have hc := h c rfl
    have hzero : c ≠ '0' := by
      rintro rfl
      cases hc
    rw [splitWhole, if_neg hzero, if_neg (by simp [hc])]

theorem splits_whole : Splits splitWhole where
  append cs := by
    unfold splitWhole
    split
    · rfl
    · split
      · next h =>
        subst h
        rfl
      · split
        · exact splits_digits.append _
        · rfl
  solid cs := by
    unfold splitWhole
    split
    · exact solid_nil
    · split
      · exact solid_nil.cons rfl
      · split
        · exact splits_digits.solid _
        · exact solid_nil
  extent cs rest h := by
    cases cs with
    | nil => exact splitWhole_nil (h.head nofun isDigit_separating)
    | cons c cs =>
      by_cases hzero : c = '0'
      · subst hzero
        rfl
      by_cases hc : Text.isDigit c = true
      · have hwhole : ∀ ds, splitWhole (c :: ds) = splitWhile Text.isDigit (c :: ds) := fun ds => by
          rw [splitWhole, if_neg hzero, if_pos hc]
        have htaken : (splitWhile Text.isDigit (c :: cs)).1 = c :: cs.takeWhile Text.isDigit :=
          List.takeWhile_cons_of_pos hc
        rw [hwhole] at h ⊢
        have hextent := splits_digits.extent (c :: cs) rest h
        rw [htaken, List.cons_append] at hextent ⊢
        rw [hwhole, hextent]
      · have hnil : splitWhole (c :: cs) = ([], c :: cs) := by rw [splitWhole, if_neg hzero, if_neg hc]
        rw [hnil] at h ⊢
        refine splitWhole_nil (h.head ?_ isDigit_separating)
        rintro _ ⟨⟩
        simpa using hc

theorem splitFraction_nil (h : ∀ c ds, cs = '.' :: c :: ds → Text.isDigit c = false) :
    splitFraction cs = ([], cs) := by
  unfold splitFraction
  split
  · next c ds => rw [if_neg (by simp [h c ds rfl])]
  · rfl

theorem splits_fraction : Splits splitFraction where
  append cs := by
    unfold splitFraction
    split
    · next c cs =>
      split
      · exact congrArg ('.' :: ·) (splits_digits.append (c :: cs))
      · rfl
    · rfl
  solid cs := by
    unfold splitFraction
    split
    · next c cs =>
      split
      · exact (splits_digits.solid (c :: cs)).cons rfl
      · exact solid_nil
    · exact solid_nil
  extent cs rest h := by
    by_cases hcs : ∃ c ds, cs = '.' :: c :: ds ∧ Text.isDigit c = true
    · obtain ⟨c, ds, rfl, hc⟩ := hcs
      have hsplit : splitFraction ('.' :: c :: ds) =
          ('.' :: (splitWhile Text.isDigit (c :: ds)).1, (splitWhile Text.isDigit (c :: ds)).2) := by
        rw [splitFraction, if_pos hc]
      rw [hsplit] at h ⊢
      have hextent := splits_digits.extent (c :: ds) rest h
      have htaken : (splitWhile Text.isDigit (c :: ds)).1 = c :: ds.takeWhile Text.isDigit :=
        List.takeWhile_cons_of_pos hc
      rw [htaken] at hextent ⊢
      rw [List.cons_append, List.cons_append, splitFraction, if_pos hc]
      rw [List.cons_append] at hextent
      rw [hextent]
    · have hnil : splitFraction cs = ([], cs) := splitFraction_nil fun c ds he =>
        Bool.eq_false_iff.2 fun hc => hcs ⟨c, ds, he, hc⟩
      rw [hnil] at h ⊢
      refine splitFraction_nil fun c ds he => ?_
      rw [List.nil_append] at he
      subst he
      obtain hsep | ⟨es, rfl, hes⟩ := h.cons_cases
      · exact absurd hsep (by decide)
      · obtain hsep | ⟨fs, rfl, -⟩ := hes.cons_cases
        · exact isDigit_separating c hsep
        · exact Bool.eq_false_iff.2 fun hc => hcs ⟨c, fs, rfl, hc⟩

/-- Whether the text of an exponent goes on after its letter: a sign may come before the digits. -/
theorem splitExponent_nil (h : ∀ e ds, cs = e :: ds → (e = 'e' ∨ e = 'E') →
    ∀ c ∈ (splitSign ds).2.head?, Text.isDigit c = false) : splitExponent cs = ([], cs) := by
  unfold splitExponent
  split
  · rfl
  · next e ds =>
    split
    · next he =>
      have hall : ([] : List Char).all Text.isDigit = true := rfl
      have hnil : splitWhile Text.isDigit (splitSign ds).2 = ([], (splitSign ds).2) :=
        splitWhile_append hall (h e ds rfl (by simpa using he))
      simp only [hnil]
    · rfl

theorem head_splitSign (h : Curtailed cs cs')
    (hcs : ∀ c ∈ (splitSign cs).2.head?, Text.isDigit c = false) :
    ∀ c ∈ (splitSign cs').2.head?, Text.isDigit c = false := by
  cases h with
  | separates hsep =>
    have hextent := splits_sign.extent [] cs' (.separates hsep)
    rw [show splitSign cs' = ([], cs') from hextent]
    exact fun c hc => isDigit_separating c (hsep c hc)
  | @cons c ds ds' h =>
    by_cases hsign : c = '+' ∨ c = '-'
    · rcases hsign with rfl | rfl <;> exact h.head hcs isDigit_separating
    · obtain ⟨hplus, hminus⟩ := not_or.1 hsign
      have hnone : ∀ ds, splitSign (c :: ds) = ([], c :: ds) := by
        intro ds
        unfold splitSign
        split
        · next he => exact absurd (List.cons.inj he).1 hplus
        · next he => exact absurd (List.cons.inj he).1 hminus
        · rfl
      rw [hnone] at hcs ⊢
      exact hcs

/-- An exponent is there if digits follow its letter and sign. -/
theorem splitExponent_digits {e : Char} (he : e = 'e' ∨ e = 'E')
    (hne : (splitWhile Text.isDigit (splitSign cs).2).1 ≠ []) : splitExponent (e :: cs) =
      (e :: ((splitSign cs).1 ++ (splitWhile Text.isDigit (splitSign cs).2).1),
        (splitWhile Text.isDigit (splitSign cs).2).2) := by
  rw [splitExponent, if_pos (by simpa using he)]
  dsimp only
  split
  · next h => exact absurd (congrArg Prod.fst h) hne
  · next h =>
    rw [h]
    rfl

theorem splits_exponent : Splits splitExponent where
  append cs := by
    unfold splitExponent
    split
    · rfl
    · next e cs =>
      split
      · simp only
        split
        · rfl
        · next digits rest _ h =>
          have hdigits := splits_digits.append (splitSign cs).2
          have hsign := splits_sign.append cs
          rw [h] at hdigits
          rw [← hdigits] at hsign
          simp only [List.cons_append, List.append_assoc, hsign]
      · rfl
  solid cs := by
    unfold splitExponent
    split
    · exact solid_nil
    · next e cs =>
      split
      · next he =>
        have hletter : isIgnored e = false := by
          rcases (by simpa using he : e = 'e' ∨ e = 'E') with rfl | rfl <;> rfl
        simp only
        split
        · exact solid_nil
        · next digits rest _ h =>
          have hdigits := splits_digits.solid (splitSign cs).2
          rw [h] at hdigits
          exact ((splits_sign.solid cs).cons hletter).append hdigits
      · exact solid_nil
  extent cs rest h := by
    by_cases hcs : ∃ e ds, cs = e :: ds ∧ (e = 'e' ∨ e = 'E') ∧
        (splitWhile Text.isDigit (splitSign ds).2).1 ≠ []
    · obtain ⟨e, ds, rfl, he, hne⟩ := hcs
      have hsplit := splitExponent_digits he hne
      rw [hsplit] at h ⊢
      have hdigits := splits_digits.extent _ rest h
      have hsign := splits_sign.extent ds _ (by
        rw [← splits_digits.append (splitSign ds).2]
        exact h.append _)
      simp only [List.cons_append, List.append_assoc]
      rw [splitExponent_digits he (by rw [hsign, hdigits]; exact hne), hsign, hdigits]
    · have hdigits : ∀ e ds, cs = e :: ds → (e = 'e' ∨ e = 'E') →
          ∀ c ∈ (splitSign ds).2.head?, Text.isDigit c = false := by
        intro e ds hds he c hc
        refine Bool.eq_false_iff.2 fun hdigit => hcs ⟨e, ds, hds, he, ?_⟩
        obtain ⟨rest, hrest⟩ : ∃ rest, (splitSign ds).2 = c :: rest := List.head?_eq_some_iff.1 hc
        rw [hrest]
        exact fun hnil => List.cons_ne_nil _ _ ((List.takeWhile_cons_of_pos hdigit).symm.trans hnil)
      have hnil := splitExponent_nil hdigits
      rw [hnil] at h ⊢
      refine splitExponent_nil fun e ds he hletter => ?_
      rw [List.nil_append] at he
      subst he
      obtain hsep | ⟨es, rfl, hes⟩ := h.cons_cases
      · rcases hletter with rfl | rfl <;> exact absurd hsep (by decide)
      · exact head_splitSign hes (hdigits e es rfl hletter)

/-! ## Whole numbers and points -/

/-- A minus without digits is no number. -/
theorem splitNumber_minus (h : (splitWhole (splitMinus cs).2).1 = []) :
    splitNumber cs = (.unknownChar, (splitMinus cs).1, (splitWhole (splitMinus cs).2).2) := by
  unfold splitNumber
  dsimp only
  split
  · next hs => rw [hs]
  · next hne hs => exact absurd (by rw [← h, hs]) hne

theorem splitNumber_digits {whole : List Char} (hs : splitWhole (splitMinus cs).2 = (whole, rest))
    (hne : whole ≠ []) : splitNumber cs =
      (if (splitFraction rest).1.isEmpty && (splitExponent (splitFraction rest).2).1.isEmpty
        then .int else .float,
      (splitMinus cs).1 ++ (whole ++ ((splitFraction rest).1 ++
        (splitExponent (splitFraction rest).2).1)),
      (splitExponent (splitFraction rest).2).2) := by
  unfold splitNumber
  dsimp only
  rw [hs]
  cases whole with
  | nil => exact absurd rfl hne
  | cons d ds => simp only [List.append_assoc]

theorem splitNumber_append (cs : List Char) :
    (splitNumber cs).2.1 ++ (splitNumber cs).2.2 = cs := by
  have hminus := splits_minus.append cs
  have hwhole := splits_whole.append (splitMinus cs).2
  cases hs : splitWhole (splitMinus cs).2 with
  | mk whole rest =>
    rw [hs] at hwhole
    by_cases hne : whole = []
    · subst hne
      rw [splitNumber_minus (by rw [hs]), hs]
      rw [← hwhole] at hminus
      exact hminus
    · rw [splitNumber_digits hs hne]
      simp only [List.append_assoc]
      rw [splits_exponent.append, splits_fraction.append, hwhole, hminus]

theorem splitNumber_solid (cs : List Char) : Solid (splitNumber cs).2.1 := by
  cases hs : splitWhole (splitMinus cs).2 with
  | mk whole rest =>
    have hwhole := splits_whole.solid (splitMinus cs).2
    rw [hs] at hwhole
    by_cases hne : whole = []
    · subst hne
      rw [splitNumber_minus (by rw [hs])]
      exact splits_minus.solid cs
    · rw [splitNumber_digits hs hne]
      exact (splits_minus.solid cs).append
        (hwhole.append ((splits_fraction.solid _).append (splits_exponent.solid _)))

theorem splitNumber_extent (h : Curtailed (splitNumber cs).2.2 rest) :
    splitNumber ((splitNumber cs).2.1 ++ rest) = ((splitNumber cs).1, (splitNumber cs).2.1, rest) := by
  have hwhole := splits_whole.append (splitMinus cs).2
  cases hs : splitWhole (splitMinus cs).2 with
  | mk whole after =>
    rw [hs] at hwhole
    by_cases hne : whole = []
    · subst hne
      have hnumber := splitNumber_minus (show (splitWhole (splitMinus cs).2).1 = [] by rw [hs])
      rw [hnumber] at h ⊢
      have hwhole' : splitWhole rest = ([], rest) := by
        simpa only [hs, List.nil_append] using splits_whole.extent _ rest h
      rw [hs] at h
      have hminus := splits_minus.extent cs rest (hwhole ▸ h)
      rw [splitNumber_minus (by rw [hminus, hwhole']), hminus, hwhole']
    · have hnumber := splitNumber_digits hs hne
      rw [hnumber] at h ⊢
      have hexponent := splits_exponent.extent _ rest h
      replace h := h.append (splitExponent (splitFraction after).2).1
      rw [splits_exponent.append] at h
      have hfraction := splits_fraction.extent _ _ h
      replace h := h.append (splitFraction after).1
      rw [splits_fraction.append] at h
      have hwhole' := splits_whole.extent (splitMinus cs).2 _ (by rw [hs]; exact h)
      rw [hs] at hwhole'
      have hminus := splits_minus.extent cs _ (by rw [← hwhole]; exact h.append whole)
      simp only [List.append_assoc]
      rw [splitNumber_digits (by rw [hminus]; exact hwhole') hne, hminus, hfraction, hexponent]

/-- Fewer points than three are no ellipsis. -/
theorem splitPoints_short (h : ∀ ds, cs ≠ '.' :: '.' :: '.' :: ds) :
    splitPoints cs = (.unknownChar, splitWhile (· = '.') cs) := by
  unfold splitPoints
  split
  · next ds => exact absurd rfl (h ds)
  · rfl

theorem splits_points : Splits (splitWhile (· = '.')) :=
  splits_while (forall_separating (Text.forall_of_all (by decide)))

theorem splitPoints_append (cs : List Char) :
    (splitPoints cs).2.1 ++ (splitPoints cs).2.2 = cs := by
  unfold splitPoints
  split
  · rfl
  · exact List.takeWhile_append_dropWhile

theorem splitPoints_solid (cs : List Char) : Solid (splitPoints cs).2.1 := by
  unfold splitPoints
  split
  · exact ((solid_nil.cons rfl).cons rfl).cons rfl
  · exact splits_points.solid _

theorem splitPoints_extent (h : Curtailed (splitPoints cs).2.2 rest) :
    splitPoints ((splitPoints cs).2.1 ++ rest) = ((splitPoints cs).1, (splitPoints cs).2.1, rest) := by
  by_cases hthree : ∃ ds, cs = '.' :: '.' :: '.' :: ds
  · obtain ⟨ds, rfl⟩ := hthree
    rfl
  · have hshort := splitPoints_short fun ds he => hthree ⟨ds, he⟩
    rw [hshort] at h ⊢
    have hextent := splits_points.extent cs rest h
    rw [splitPoints_short, hextent]
    intro ds he
    -- Otherwise the points that were taken would be three.
    have htaken : (splitWhile (· = '.') cs).1 = '.' :: '.' :: '.' :: (splitWhile (· = '.') ds).1 := by
      rw [he] at hextent
      exact (congrArg Prod.fst hextent).symm
    refine hthree ⟨(splitWhile (· = '.') ds).1 ++ (splitWhile (· = '.') cs).2, ?_⟩
    have happend := splits_points.append cs
    rw [htaken] at happend
    exact happend.symm

/-! ## Strings -/

theorem splitQuoted_append {content : List Char} (h : splitQuoted cs = some (content, rest)) :
    content ++ '"' :: rest = cs := by
  fun_induction splitQuoted cs generalizing content with
  | case1 => cases h
  | case2 cs =>
    cases h
    rfl
  | case3 | case5 => cases h
  | case4 c cs _ ih | case6 c cs _ _ _ ih =>
    obtain ⟨⟨content, rest⟩, hs, he⟩ := Option.map_eq_some_iff.1 h
    cases he
    rw [← ih hs]
    rfl

/-- The content of a string goes up to its closing quote, whatever comes then. -/
theorem splitQuoted_extent {content : List Char} (h : splitQuoted cs = some (content, rest))
    (rest' : List Char) : splitQuoted (content ++ '"' :: rest') = some (content, rest') := by
  fun_induction splitQuoted cs generalizing content with
  | case1 => cases h
  | case2 cs =>
    cases h
    rfl
  | case3 | case5 => cases h
  | case4 c cs hc ih =>
    obtain ⟨⟨content, rest⟩, hs, he⟩ := Option.map_eq_some_iff.1 h
    cases he
    rw [List.cons_append, List.cons_append, splitQuoted, if_neg hc, ih hs]
    rfl
  | case6 c cs hquote hslash hc ih =>
    obtain ⟨⟨content, rest⟩, hs, he⟩ := Option.map_eq_some_iff.1 h
    cases he
    have hne : c ≠ '\\' := by
      rintro rfl
      cases cs with
      | nil => cases hs
      | cons d ds => exact hslash d ds rfl rfl
    rw [List.cons_append, splitQuoted, if_neg hc, ih hs]
    · rfl
    · exact hquote
    · exact fun _ _ he => absurd he hne

theorem splitBlock_append {content : List Char} (h : splitBlock cs = some (content, rest)) :
    content ++ '"' :: '"' :: '"' :: rest = cs := by
  fun_induction splitBlock cs generalizing content with
  | case1 => cases h
  | case2 cs =>
    cases h
    rfl
  | case3 cs ih | case4 c cs _ _ ih =>
    obtain ⟨⟨content, rest⟩, hs, he⟩ := Option.map_eq_some_iff.1 h
    cases he
    rw [← ih hs]
    rfl

/-- What decides how a block string goes on at a character of its content is seen before it ends. -/
theorem block_lookahead (c : Char) (content rest rest' : List Char) :
    (c :: (content ++ '"' :: '"' :: '"' :: rest)).take 4 =
      (c :: (content ++ '"' :: '"' :: '"' :: rest')).take 4 := by
  match content with
  | [] | [_] | [_, _] | _ :: _ :: _ :: _ => rfl

theorem exists_append_of_take {n : Nat} (hle : ds.length ≤ n)
    (h : cs.take n = (ds ++ rest).take n) : ∃ es, cs = ds ++ es := by
  refine ⟨rest.take (n - ds.length) ++ cs.drop n, ?_⟩
  calc
    cs = cs.take n ++ cs.drop n := (List.take_append_drop n cs).symm
    _ = ds ++ rest.take (n - ds.length) ++ cs.drop n := by
      rw [h, List.take_append, List.take_of_length_le hle]
    _ = ds ++ (rest.take (n - ds.length) ++ cs.drop n) := List.append_assoc ..

theorem splitBlock_extent {content : List Char} (h : splitBlock cs = some (content, rest))
    (rest' : List Char) :
    splitBlock (content ++ '"' :: '"' :: '"' :: rest') = some (content, rest') := by
  fun_induction splitBlock cs generalizing content with
  | case1 => cases h
  | case2 cs =>
    cases h
    rfl
  | case3 cs ih =>
    obtain ⟨⟨content, rest⟩, hs, he⟩ := Option.map_eq_some_iff.1 h
    cases he
    simp only [List.cons_append]
    rw [splitBlock, ih hs]
    rfl
  | case4 c cs hclosing hescaped ih =>
    obtain ⟨⟨content, rest⟩, hs, he⟩ := Option.map_eq_some_iff.1 h
    cases he
    have hahead := block_lookahead c content rest rest'
    rw [splitBlock_append hs] at hahead
    rw [List.cons_append, splitBlock, ih hs]
    · rfl
    · rintro ds rfl he
      rw [he] at hahead
      have hlength : ['"', '"', '"'].length ≤ 4 := by decide
      obtain ⟨es, hes⟩ := exists_append_of_take hlength hahead
      exact hclosing es rfl (List.cons.inj hes).2
    · rintro ds rfl he
      rw [he] at hahead
      have hlength : ['\\', '"', '"', '"'].length ≤ 4 := by decide
      obtain ⟨es, hes⟩ := exists_append_of_take hlength hahead
      exact hescaped es rfl (List.cons.inj hes).2

/-! ## Whole tokens -/

theorem ofString_raw (quotes content value : List Char) :
    (Lexeme.ofString quotes content value).raw = quotes ++ content ++ quotes := by
  unfold Lexeme.ofString
  dsimp only
  split <;> rfl

theorem head_content {content : List Char} (h : splitQuoted cs = some (content, rest)) :
    ∀ c ∈ content.head?, c ≠ '"' := by
  rintro _ hc rfl
  obtain ⟨ds, rfl⟩ : ∃ ds, content = '"' :: ds := List.head?_eq_some_iff.1 hc
  have happend := splitQuoted_append h
  rw [← happend, List.cons_append, splitQuoted] at h
  cases h

/-- A way to take a token off a text that starts with `c`, whose extent does not depend on what comes
after the token. -/
structure SplitsFrom (c : Char) (split : List Char → Kind × List Char × List Char) : Prop where
  append (cs : List Char) : (split (c :: cs)).2.1 ++ (split (c :: cs)).2.2 = c :: cs
  solid (cs : List Char) : isIgnored c = false → Solid (split (c :: cs)).2.1
  extent (cs rest : List Char) : Curtailed (split (c :: cs)).2.2 rest →
    split ((split (c :: cs)).2.1 ++ rest) = ((split (c :: cs)).1, (split (c :: cs)).2.1, rest)

/-- A token of one character. -/
def splitOne (kind : Kind) (cs : List Char) : Kind × List Char × List Char :=
  (kind, cs.take 1, cs.drop 1)

theorem splits_one (kind : Kind) : SplitsFrom c (splitOne kind) :=
  ⟨fun _ => rfl, fun _ hc => solid_nil.cons hc, fun _ _ _ => rfl⟩

theorem Splits.name {split : List Char → List Char × List Char} (h : Splits split)
    (kind : List Char → Kind) : SplitsFrom c fun cs => (kind (split cs).1, split cs) where
  append cs := h.append (c :: cs)
  solid cs _ := h.solid (c :: cs)
  extent cs rest hrest := by
    simp only [h.extent (c :: cs) rest hrest]

/-- The first character tells how a token other than a string is taken off. -/
theorem exists_splitLexeme (hc : c ≠ '"') : ∃ split, SplitsFrom c split ∧ ∀ cs,
    splitLexeme c cs = some (.plain (split (c :: cs)).1 (split (c :: cs)).2.1,
      (split (c :: cs)).2.2) := by
  unfold splitLexeme
  cases hp : punctuator? c with
  | some kind => exact ⟨splitOne kind, splits_one kind, fun _ => rfl⟩
  | none =>
    simp only [if_neg hc]
    by_cases hpoint : c = '.'
    · simp only [if_pos hpoint]
      exact ⟨splitPoints, ⟨fun _ => splitPoints_append _, fun _ _ => splitPoints_solid _,
        fun _ _ => splitPoints_extent⟩, fun _ => rfl⟩
    simp only [if_neg hpoint]
    by_cases hnumber : (c = '-' || Text.isDigit c) = true
    · simp only [if_pos hnumber]
      exact ⟨splitNumber, ⟨fun _ => splitNumber_append _, fun _ _ => splitNumber_solid _,
        fun _ _ => splitNumber_extent⟩, fun _ => rfl⟩
    simp only [if_neg hnumber]
    by_cases hname : Text.isNameStart c = true
    · simp only [if_pos hname]
      exact ⟨_, (splits_while isNameContinue_separating).name fun raw => .ofName (.ofList raw),
        fun _ => rfl⟩
    · simp only [if_neg hname]
      exact ⟨splitOne .unknownChar, splits_one _, fun _ => rfl⟩

/-- An empty string is not followed by a quote, as three of them would open a block string. -/
theorem quoted_not_block {content : List Char} (h : splitQuoted cs = some (content, rest))
    (hcs : ∀ ds, cs ≠ '"' :: '"' :: ds) (hrest : Curtailed rest rest') :
    ∀ ds, content ++ '"' :: rest' ≠ '"' :: '"' :: ds := by
  intro ds he
  have happend := splitQuoted_append h
  cases content with
  | nil =>
    obtain rfl : rest' = '"' :: ds := (List.cons.inj he).2
    obtain hsep | ⟨es, rfl, -⟩ := hrest.cons_cases
    · exact absurd hsep (by decide)
    · exact hcs es happend.symm
  | cons d content => exact head_content h d rfl (List.cons.inj he).1

/-- A token is a part of the text that starts with its first character, and stays the same when what
comes after it is curtailed. -/
theorem splitLexeme_extent (h : splitLexeme c cs = some (l, rest)) : ∃ tail, l.raw = c :: tail ∧
    cs = tail ++ rest ∧
    ∀ rest', Curtailed rest rest' → splitLexeme c (tail ++ rest') = some (l, rest') := by
  by_cases hc : c = '"'
  · subst hc
    by_cases hblock : ∃ ds, cs = '"' :: '"' :: ds
    · obtain ⟨ds, rfl⟩ := hblock
      rw [splitLexeme_block] at h
      obtain ⟨⟨content, rest⟩, hs, he⟩ := Option.map_eq_some_iff.1 h
      cases he
      refine ⟨'"' :: '"' :: (content ++ ['"', '"', '"']), by simp [ofString_raw], ?_, ?_⟩
      · rw [← splitBlock_append hs]
        simp
      · intro rest' _
        simp only [List.cons_append, List.append_assoc, List.nil_append]
        rw [splitLexeme_block, splitBlock_extent hs]
        rfl
    · have hquoted : ∀ ds, cs ≠ '"' :: '"' :: ds := fun ds he => hblock ⟨ds, he⟩
      rw [splitLexeme_quoted hquoted] at h
      obtain ⟨⟨content, rest⟩, hs, he⟩ := Option.map_eq_some_iff.1 h
      cases he
      refine ⟨content ++ ['"'], by simp [ofString_raw], ?_, ?_⟩
      · rw [← splitQuoted_append hs]
        simp
      · intro rest' hrest
        simp only [List.append_assoc, List.cons_append, List.nil_append]
        rw [splitLexeme_quoted (quoted_not_block hs hquoted hrest), splitQuoted_extent hs]
        rfl
  · obtain ⟨split, hsplits, hsplit⟩ := exists_splitLexeme hc
    have hlength := length_splitLexeme h
    have happend := hsplits.append cs
    rw [hsplit] at h
    cases h
    -- What is left is shorter than the text, so something was taken off.
    cases hraw : (split (c :: cs)).2.1 with
    | nil =>
      rw [hraw, List.nil_append] at happend
      rw [happend, List.length_cons] at hlength
      omega
    | cons d tail =>
      rw [hraw, List.cons_append] at happend
      obtain ⟨rfl, htail⟩ := List.cons.inj happend
      refine ⟨tail, rfl, htail.symm, fun rest' hrest => ?_⟩
      have hextent := hsplits.extent cs rest' hrest
      rw [hraw, List.cons_append] at hextent
      rw [hsplit, hextent]

theorem eq_ofString (h : splitLexeme '"' cs = some (l, rest)) : ∃ quotes content value,
    l = .ofString quotes content value ∧ (quotes = ['"'] ∨ quotes = ['"', '"', '"']) := by
  by_cases hblock : ∃ ds, cs = '"' :: '"' :: ds
  · obtain ⟨ds, rfl⟩ := hblock
    rw [splitLexeme_block] at h
    obtain ⟨⟨content, rest⟩, -, he⟩ := Option.map_eq_some_iff.1 h
    cases he
    exact ⟨_, _, _, rfl, .inr rfl⟩
  · rw [splitLexeme_quoted fun ds he => hblock ⟨ds, he⟩] at h
    obtain ⟨⟨content, rest⟩, -, he⟩ := Option.map_eq_some_iff.1 h
    cases he
    exact ⟨_, _, _, rfl, .inl rfl⟩

/-- No token ends with an ignored character. -/
theorem splitLexeme_last (h : splitLexeme c cs = some (l, rest)) (hc : isIgnored c = false) :
    ∀ d ∈ l.raw.getLast?, isIgnored d = false := by
  by_cases hquote : c = '"'
  · subst hquote
    obtain ⟨quotes, content, value, rfl, rfl | rfl⟩ := eq_ofString h
    all_goals
      rw [ofString_raw, List.getLast?_append]
      rintro _ ⟨⟩
      rfl
  · obtain ⟨split, hsplits, hsplit⟩ := exists_splitLexeme hquote
    have hsolid := hsplits.solid cs hc
    rw [hsplit] at h
    cases h
    exact fun d hd => hsolid d (List.mem_of_getLast? hd)

end GraphQL.Token
