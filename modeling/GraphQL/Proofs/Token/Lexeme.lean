import GraphQL.Name
import GraphQL.Token.Scanner

/-!
# The lexemes of a text

Scanning a text without regard to positions. `Begins cs l rest` takes one lexeme off a text,
`Lexes cs ls` takes the text apart. A text that can be taken apart is scanned into tokens with
these lexemes, and the other way round.
-/

namespace GraphQL.Token

/-- A token without its place. -/
def lexeme (t : Token) : Lexeme :=
  ⟨t.kind, t.raw.toList, t.value.toList⟩

/-- After what is ignored the text starts with a lexeme, and goes on with the rest. -/
def Begins (cs : List Char) (l : Lexeme) (rest : List Char) : Prop :=
  ∃ c cs', (splitIgnored false cs).2 = c :: cs' ∧ splitLexeme c cs' = some (l, rest)

inductive Lexes : List Char → List Lexeme → Prop where
  | done {cs : List Char} : (splitIgnored false cs).2 = [] → Lexes cs []
  | more {cs : List Char} {l : Lexeme} {rest : List Char} {ls : List Lexeme} :
      Begins cs l rest → Lexes rest ls → Lexes cs (l :: ls)

variable {c : Char} {cs rest : List Char} {l : Lexeme} {ls : List Lexeme}

theorem Begins.lexes_iff (h : Begins cs l rest) :
    Lexes cs ls ↔ ∃ ls', ls = l :: ls' ∧ Lexes rest ls' := by
  obtain ⟨c, cs', hc, hl⟩ := h
  constructor
  · rintro (hnil | ⟨⟨d, ds, hd, hl'⟩, hrest⟩)
    · rw [hc] at hnil
      cases hnil
    · rw [hc] at hd
      cases hd
      rw [hl] at hl'
      cases hl'
      exact ⟨_, rfl, hrest⟩
  · rintro ⟨ls', rfl, hrest⟩
    exact .more ⟨c, cs', hc, hl⟩ hrest

theorem lexes_nil_iff : Lexes [] ls ↔ ls = [] := by
  constructor
  · rintro (- | ⟨⟨c, cs, hc, -⟩, -⟩)
    · rfl
    · cases hc
  · rintro rfl
    exact .done rfl

/-! ## What is ignored -/

theorem splitIgnored_ignored (h : isIgnored c = true) (cs : List Char) :
    (splitIgnored false (c :: cs)).2 = (splitIgnored false cs).2 := by
  simp [splitIgnored, h]

theorem splitIgnored_plain (h : isIgnored c = false) (hc : c ≠ '#') (cs : List Char) :
    (splitIgnored false (c :: cs)).2 = c :: cs := by
  simp [splitIgnored, h, hc]

theorem begins_ignored (h : isIgnored c = true) : Begins (c :: cs) l rest ↔ Begins cs l rest := by
  unfold Begins
  rw [splitIgnored_ignored h]

theorem lexes_ignored (h : isIgnored c = true) : Lexes (c :: cs) ls ↔ Lexes cs ls := by
  constructor
  · rintro (hnil | ⟨hb, hrest⟩)
    · rw [splitIgnored_ignored h] at hnil
      exact .done hnil
    · exact .more ((begins_ignored h).1 hb) hrest
  · rintro (hnil | ⟨hb, hrest⟩)
    · rw [← splitIgnored_ignored h] at hnil
      exact .done hnil
    · exact .more ((begins_ignored h).2 hb) hrest

/-! ## Punctuators -/

theorem mem_of_punctuator? {kind : Kind} (h : punctuator? c = some kind) :
    c ∈ ['{', '}', '(', ')', '[', ']', ':', '=', '!', '|', '&', '$', '@'] := by
  refine Decidable.byContradiction fun hne => ?_
  simp only [List.mem_cons, List.not_mem_nil, or_false, not_or] at hne
  simp [punctuator?, hne] at h

theorem begins_punctuator {kind : Kind} (h : punctuator? c = some kind) (cs : List Char) :
    Begins (c :: cs) (.plain kind [c]) cs := by
  have hplain : ∀ c ∈ ['{', '}', '(', ')', '[', ']', ':', '=', '!', '|', '&', '$', '@'],
      isIgnored c = false ∧ c ≠ '#' :=
    Text.forall_of_all (by decide)
  obtain ⟨hi, hcomment⟩ := hplain c (mem_of_punctuator? h)
  refine ⟨c, cs, splitIgnored_plain hi hcomment cs, ?_⟩
  simp [splitLexeme, h]

theorem begins_ellipsis (cs : List Char) :
    Begins ('.' :: '.' :: '.' :: cs) (.plain .ellipsis ['.', '.', '.']) cs :=
  ⟨'.', '.' :: '.' :: cs, splitIgnored_plain rfl (by decide) _, rfl⟩

theorem splitWhile_append {p : Char → Bool} (h : cs.all p = true)
    (hrest : ∀ c ∈ rest.head?, p c = false) : splitWhile p (cs ++ rest) = (cs, rest) := by
  have hall : ∀ c ∈ cs, p c = true := List.all_eq_true.1 h
  have htake : rest.takeWhile p = [] := by
    cases rest with
    | nil => rfl
    | cons c rest => simp [hrest c rfl]
  have hdrop : rest.dropWhile p = rest := by
    cases rest with
    | nil => rfl
    | cons c rest => simp [hrest c rfl]
  rw [splitWhile, List.takeWhile_append_of_pos hall, List.dropWhile_append_of_pos hall, htake, hdrop,
    List.append_nil]

/-! ## Tokens by their first characters -/

/-- A character that starts a name starts nothing else. -/
theorem isNameStart_only (h : Text.isNameStart c = true) :
    isIgnored c = false ∧ c ≠ '#' ∧ punctuator? c = none ∧ c ≠ '.' ∧ c ≠ '"' ∧ c ≠ '-' ∧
      Text.isDigit c = false := by
  have hother : ∀ d ∈ [' ', '\t', ',', '\n', '\r', '\ufeff', '#', '.', '"', '-', '{', '}', '(', ')',
      '[', ']', ':', '=', '!', '|', '&', '$', '@'], Text.isNameStart d = false :=
    Text.forall_of_all (by decide)
  have hne : ∀ d ∈ [' ', '\t', ',', '\n', '\r', '\ufeff', '#', '.', '"', '-', '{', '}', '(', ')',
      '[', ']', ':', '=', '!', '|', '&', '$', '@'], c ≠ d := by
    rintro d hd rfl
    rw [hother c hd] at h
    cases h
  simp only [List.mem_cons, List.not_mem_nil, or_false, forall_eq_or_imp, forall_eq] at hne
  refine ⟨by simp [isIgnored, hne], hne.2.2.2.2.2.2.1, by simp [punctuator?, hne],
    hne.2.2.2.2.2.2.2.1, hne.2.2.2.2.2.2.2.2.1, hne.2.2.2.2.2.2.2.2.2.1, ?_⟩
  simp only [Text.isNameStart, Text.isDigit, Bool.or_eq_true, Bool.and_eq_true, decide_eq_true_eq,
    Bool.and_eq_false_iff, decide_eq_false_iff_not, Char.le_def, UInt32.le_iff_toNat_le] at h ⊢
  rcases h with (h | h) | rfl
  · simp at h ⊢
    omega
  · simp at h ⊢
    omega
  · decide

/-- A character that starts a number starts nothing else. -/
theorem isDigit_only {c : Char} (h : c = '-' ∨ Text.isDigit c = true) : isIgnored c = false ∧
    c ≠ '#' ∧ punctuator? c = none ∧ c ≠ '.' ∧ c ≠ '"' := by
  have hother : ∀ d ∈ [' ', '\t', ',', '\n', '\r', '\ufeff', '#', '.', '"', '{', '}', '(', ')', '[',
      ']', ':', '=', '!', '|', '&', '$', '@'], d ≠ '-' ∧ Text.isDigit d = false :=
    Text.forall_of_all (by decide)
  have hne : ∀ d ∈ [' ', '\t', ',', '\n', '\r', '\ufeff', '#', '.', '"', '{', '}', '(', ')', '[', ']',
      ':', '=', '!', '|', '&', '$', '@'], c ≠ d := by
    rintro d hd rfl
    obtain ⟨hminus, hdigit⟩ := hother c hd
    rcases h with h | h
    · exact hminus h
    · rw [hdigit] at h
      cases h
  simp only [List.mem_cons, List.not_mem_nil, or_false, forall_eq_or_imp, forall_eq] at hne
  exact ⟨by simp [isIgnored, hne], hne.2.2.2.2.2.2.1, by simp [punctuator?, hne],
    hne.2.2.2.2.2.2.2.1, hne.2.2.2.2.2.2.2.2.1⟩

theorem splitLexeme_name (h : Text.isNameStart c = true) (cs : List Char) :
    splitLexeme c cs = some (.plain (.ofName (.ofList (splitWhile Text.isNameContinue (c :: cs)).1))
      (splitWhile Text.isNameContinue (c :: cs)).1, (splitWhile Text.isNameContinue (c :: cs)).2) := by
  obtain ⟨-, -, hp, hpoint, hquote, hminus, hdigit⟩ := isNameStart_only h
  unfold splitLexeme
  rw [hp]
  dsimp only
  rw [if_neg hpoint, if_neg hquote, if_neg (by simp [hminus, hdigit]), if_pos h]

theorem splitLexeme_number (h : c = '-' ∨ Text.isDigit c = true) (cs : List Char) :
    splitLexeme c cs = some (.plain (splitNumber (c :: cs)).1 (splitNumber (c :: cs)).2.1,
      (splitNumber (c :: cs)).2.2) := by
  obtain ⟨-, -, hp, hpoint, hquote⟩ := isDigit_only h
  unfold splitLexeme
  rw [hp]
  dsimp only
  rw [if_neg hpoint, if_neg hquote, if_pos (by simpa using h)]

/-- A string that is no block string is followed by no quote if it is empty. -/
theorem splitLexeme_quoted (h : ∀ ds, cs ≠ '"' :: '"' :: ds) : splitLexeme '"' cs =
    (splitQuoted cs).map fun (content, rest) => (.ofString ['"'] content content, rest) := by
  unfold splitLexeme
  rw [show punctuator? '"' = none from rfl]
  dsimp only
  rw [if_neg (by decide), if_pos rfl]
  split
  · next ds => exact absurd rfl (h ds)
  · rfl

theorem splitLexeme_block (cs : List Char) : splitLexeme '"' ('"' :: '"' :: cs) =
    (splitBlock cs).map fun (content, rest) =>
      (.ofString ['"', '"', '"'] content (StringLiteral.dedent content), rest) :=
  rfl

/-- How a token is taken off a text that starts with `c`. -/
inductive SplitOff (c : Char) (cs : List Char) : Lexeme → List Char → Prop where
  | punctuator {kind} (h : punctuator? c = some kind) : SplitOff c cs (.plain kind [c]) cs
  | points (h : c = '.') :
      SplitOff c cs (.plain (splitPoints (c :: cs)).1 (splitPoints (c :: cs)).2.1)
        (splitPoints (c :: cs)).2.2
  | block {cs' content rest} (h : c = '"') (hcs : cs = '"' :: '"' :: cs')
      (hs : splitBlock cs' = some (content, rest)) :
      SplitOff c cs (.ofString ['"', '"', '"'] content (StringLiteral.dedent content)) rest
  | quoted {content rest} (h : c = '"') (hs : splitQuoted cs = some (content, rest)) :
      SplitOff c cs (.ofString ['"'] content content) rest
  | number (h : c = '-' ∨ Text.isDigit c = true) :
      SplitOff c cs (.plain (splitNumber (c :: cs)).1 (splitNumber (c :: cs)).2.1)
        (splitNumber (c :: cs)).2.2
  | name (h : Text.isNameStart c = true) :
      SplitOff c cs (.plain (.ofName (.ofList (splitWhile Text.isNameContinue (c :: cs)).1))
        (splitWhile Text.isNameContinue (c :: cs)).1) (splitWhile Text.isNameContinue (c :: cs)).2
  | unknown : SplitOff c cs (.plain .unknownChar [c]) cs

theorem splitOff_of_splitLexeme (h : splitLexeme c cs = some (l, rest)) :
    SplitOff c cs l rest := by
  unfold splitLexeme at h
  split at h
  · next hp =>
    cases h
    exact .punctuator hp
  split at h
  · next hc =>
    cases h
    exact .points hc
  split at h
  · next hc =>
    split at h <;> obtain ⟨⟨content, rest⟩, hs, he⟩ := Option.map_eq_some_iff.1 h
    · cases he
      exact .block hc rfl hs
    · cases he
      exact .quoted hc hs
  split at h
  · next hc =>
    cases h
    exact .number (by simpa using hc)
  split at h
  · next hc =>
    cases h
    exact .name hc
  · cases h
    exact .unknown

/-! ## Names -/

theorem begins_name {n : Name} (h : n.isValid = true)
    (hrest : ∀ c ∈ rest.head?, Text.isNameContinue c = false) :
    Begins (n.toList ++ rest) (.plain (.ofName n) n.toList) rest := by
  unfold Name.isValid at h
  cases hn : n.toList with
  | nil =>
    rw [hn] at h
    cases h
  | cons c cs =>
    rw [hn] at h
    simp only [Bool.and_eq_true] at h
    obtain ⟨hi, hcomment, -⟩ := isNameStart_only h.1
    refine ⟨c, cs ++ rest, splitIgnored_plain hi hcomment _, ?_⟩
    have hall : (c :: cs).all Text.isNameContinue = true := by
      simp [Text.isNameContinue_of_isNameStart h.1, h.2]
    have hsplit := splitWhile_append hall hrest
    rw [List.cons_append] at hsplit
    rw [splitLexeme_name h.1, hsplit, ← hn, String.ofList_toList]

/-! ## Scanning -/

theorem length_splitIgnored (inComment : Bool) (cs : List Char) :
    (splitIgnored inComment cs).2.length ≤ cs.length := by
  fun_induction splitIgnored inComment cs <;> simp_all <;> omega

theorem length_splitWhile (p : Char → Bool) (cs : List Char) :
    (splitWhile p cs).2.length ≤ cs.length :=
  (List.dropWhile_sublist p).length_le

theorem length_splitWhole (cs : List Char) : (splitWhole cs).2.length ≤ cs.length := by
  unfold splitWhole
  split
  · exact Nat.le_refl _
  · split
    · exact Nat.le_succ _
    · split
      · exact length_splitWhile ..
      · exact Nat.le_refl _

theorem length_splitFraction (cs : List Char) : (splitFraction cs).2.length ≤ cs.length := by
  unfold splitFraction
  split
  · next c cs =>
    split
    · exact Nat.le_succ_of_le (length_splitWhile _ (c :: cs))
    · exact Nat.le_refl _
  · exact Nat.le_refl _

theorem length_splitSign (cs : List Char) : (splitSign cs).2.length ≤ cs.length := by
  unfold splitSign
  split <;> simp

theorem length_splitExponent (cs : List Char) : (splitExponent cs).2.length ≤ cs.length := by
  unfold splitExponent
  split
  · exact Nat.le_refl _
  · next e cs =>
    split
    · have hsign := length_splitSign cs
      have hdigits := length_splitWhile Text.isDigit (splitSign cs).2
      simp only
      split
      · exact Nat.le_refl _
      · next h =>
        rw [h] at hdigits
        exact Nat.le_succ_of_le (Nat.le_trans hdigits hsign)
    · exact Nat.le_refl _

theorem length_splitNumber (h : c = '-' ∨ Text.isDigit c = true) (cs : List Char) :
    (splitNumber (c :: cs)).2.2.length ≤ cs.length := by
  have hwhole := length_splitWhole (splitMinus (c :: cs)).2
  have hshort : (splitWhole (splitMinus (c :: cs)).2).2.length ≤ cs.length := by
    rcases h with rfl | h
    · exact length_splitWhole cs
    · have hminus : splitMinus (c :: cs) = ([], c :: cs) := by
        unfold splitMinus
        split
        · next he =>
          cases he
          cases h
        · rfl
      rw [hminus]
      unfold splitWhole
      simp only
      split
      · exact Nat.le_refl _
      · rw [splitWhile, List.dropWhile_cons_of_pos h]
        exact length_splitWhile Text.isDigit cs
  unfold splitNumber
  simp only
  split
  · next rest hs =>
    rw [hs] at hshort
    exact hshort
  · next whole rest _ hs =>
    rw [hs] at hshort
    have hfraction := length_splitFraction rest
    have hexponent := length_splitExponent (splitFraction rest).2
    exact Nat.le_trans hexponent (Nat.le_trans hfraction hshort)

theorem length_splitQuoted {content : List Char} (h : splitQuoted cs = some (content, rest)) :
    rest.length < cs.length := by
  fun_induction splitQuoted cs generalizing content with
  | case1 => cases h
  | case2 cs =>
    cases h
    exact Nat.lt_succ_self _
  | case3 | case5 => cases h
  | case4 c cs _ ih =>
    obtain ⟨⟨content, rest⟩, hs, he⟩ := Option.map_eq_some_iff.1 h
    cases he
    exact Nat.lt_succ_of_lt (Nat.lt_succ_of_lt (ih hs))
  | case6 c cs _ _ _ ih =>
    obtain ⟨⟨content, rest⟩, hs, he⟩ := Option.map_eq_some_iff.1 h
    cases he
    exact Nat.lt_succ_of_lt (ih hs)

theorem length_splitBlock {content : List Char} (h : splitBlock cs = some (content, rest)) :
    rest.length < cs.length := by
  fun_induction splitBlock cs generalizing content with
  | case1 => cases h
  | case2 cs =>
    cases h
    simp only [List.length_cons]
    omega
  | case3 cs ih =>
    obtain ⟨⟨content, rest⟩, hs, he⟩ := Option.map_eq_some_iff.1 h
    cases he
    have := ih hs
    simp only [List.length_cons]
    omega
  | case4 c cs _ _ ih =>
    obtain ⟨⟨content, rest⟩, hs, he⟩ := Option.map_eq_some_iff.1 h
    cases he
    exact Nat.lt_succ_of_lt (ih hs)

theorem length_splitPoints (cs : List Char) : (splitPoints ('.' :: cs)).2.2.length ≤ cs.length := by
  unfold splitPoints
  split
  · next h =>
    cases h
    exact Nat.le_succ_of_le (Nat.le_succ _)
  · rw [splitWhile, List.dropWhile_cons_of_pos rfl]
    exact length_splitWhile (fun c => c = '.') cs

theorem length_splitLexeme (h : splitLexeme c cs = some (l, rest)) : rest.length ≤ cs.length := by
  cases splitOff_of_splitLexeme h with
  | punctuator | unknown => exact Nat.le_refl _
  | points hc =>
    subst hc
    exact length_splitPoints cs
  | block _ hcs hs =>
    subst hcs
    exact Nat.le_succ_of_le (Nat.le_succ_of_le (Nat.le_of_lt (length_splitBlock hs)))
  | quoted _ hs => exact Nat.le_of_lt (length_splitQuoted hs)
  | number hc => exact length_splitNumber hc cs
  | name hc =>
    show (List.dropWhile Text.isNameContinue (c :: cs)).length ≤ cs.length
    rw [List.dropWhile_cons_of_pos (Text.isNameContinue_of_isNameStart hc)]
    exact length_splitWhile Text.isNameContinue cs

theorem Begins.length_lt (h : Begins cs l rest) : rest.length < cs.length := by
  obtain ⟨c, cs', hc, hl⟩ := h
  have hle := length_splitIgnored false cs
  have := length_splitLexeme hl
  rw [hc, List.length_cons] at hle
  omega

theorem lexes_of_scanFrom {fuel : Nat} : ∀ {index offset : Nat} {pos : Position} {cs : List Char}
    {tokens : List Token}, cs.length ≤ fuel → scanFrom fuel index offset pos cs = .ok tokens →
      Lexes cs (tokens.map lexeme) := by
  induction fuel with
  | zero =>
    intro index offset pos cs tokens hle h
    cases h
    rw [List.eq_nil_of_length_eq_zero (Nat.le_zero.1 hle)]
    exact .done rfl
  | succ fuel ih =>
    intro index offset pos cs tokens hle h
    unfold scanFrom at h
    simp only at h
    split at h
    · next hnil =>
      cases h
      exact .done hnil
    · next c cs' hc =>
      split at h
      · cases h
      · next l rest hl =>
        have hb : Begins cs l rest := ⟨c, cs', hc, hl⟩
        have hlt := hb.length_lt
        cases hr : scanFrom fuel (index + 1) _ _ rest with
        | error e =>
          rw [hr] at h
          cases h
        | ok tokens' =>
          rw [hr] at h
          cases h
          have := Lexes.more hb (ih (by omega) hr)
          simpa [lexeme] using this

theorem exists_scanFrom (h : Lexes cs ls) : ∀ {fuel : Nat} (index offset : Nat) (pos : Position),
    cs.length ≤ fuel → ∃ tokens, scanFrom fuel index offset pos cs = .ok tokens ∧
      tokens.map lexeme = ls := by
  induction h with
  | done hnil =>
    intro fuel index offset pos _
    refine ⟨[], ?_, rfl⟩
    cases fuel with
    | zero => rfl
    | succ fuel =>
      unfold scanFrom
      simp only [hnil]
  | @more cs l rest ls hb _ ih =>
    intro fuel index offset pos hle
    have hlt := hb.length_lt
    obtain ⟨c, cs', hc, hl⟩ := hb
    cases fuel with
    | zero => omega
    | succ fuel =>
      obtain ⟨tokens, hs, hmap⟩ := ih (index + 1)
        (offset + Text.utf8Length (splitIgnored false cs).1 + Text.utf8Length l.raw)
        ((pos.after (splitIgnored false cs).1).after l.raw) (by omega : rest.length ≤ fuel)
      unfold scanFrom
      simp only [hc, hl, hs]
      exact ⟨_, rfl, by simp [lexeme, hmap]⟩

theorem lexes_of_scan {source : String} {tokens : List Token} (h : scan source = .ok tokens) :
    Lexes source.toList (tokens.map lexeme) :=
  lexes_of_scanFrom (Nat.le_refl _) h

theorem exists_scan {source : String} (h : Lexes source.toList ls) :
    ∃ tokens, scan source = .ok tokens ∧ tokens.map lexeme = ls :=
  exists_scanFrom h 0 0 .start (Nat.le_refl _)

end GraphQL.Token
