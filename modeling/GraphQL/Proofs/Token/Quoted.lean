import GraphQL.Proofs.Token.Lexeme
import GraphQL.Value.Printer

/-!
# Quoted strings

A text in quotes is one lexeme, and denotes the text (`begins_quoted`): the writer, the search for
the closing quote and the resolution of the escapes agree character by character.
-/

namespace GraphQL

namespace Text

/-- A character that stands for itself inside of quotes. -/
def IsPlain (c : Char) : Prop :=
  c ≠ '"' ∧ c ≠ '\\' ∧ Token.isLineBreak c = false

theorem toNat_lt_of_isControl {c : Char} (h : isControl c = true) : c.toNat < 160 := by
  simp only [isControl, Bool.or_eq_true, Bool.and_eq_true, decide_eq_true_eq,
    UInt32.le_iff_toNat_le] at h
  simp only [Char.toNat]
  rcases h with h | ⟨-, h⟩
  · exact Nat.lt_of_le_of_lt h (by decide)
  · exact Nat.lt_of_le_of_lt h (by decide)

/-- The four digits of a control character, and what they denote. -/
theorem hexFour_spec : ∀ n < 160, ∃ a b c d, hexFour true n = [a, b, c, d] ∧
    (IsPlain a ∧ IsPlain b ∧ IsPlain c ∧ IsPlain d) ∧
      StringLiteral.unicodeEscape? a b c d = some (Char.ofNat n) := by
  intro n hn
  refine ⟨hexDigit true (n / 4096 % 16), hexDigit true (n / 256 % 16), hexDigit true (n / 16 % 16),
    hexDigit true (n % 16), rfl, ?_, ?_⟩
  · revert n
    unfold IsPlain
    decide +kernel
  · revert n
    decide +kernel

/-- The three ways in which a character is written, with what they denote. -/
theorem escaped_cases (c : Char) :
    (∃ d, escaped c = ['\\', d] ∧ d ≠ 'u' ∧ Token.isLineBreak d = false ∧
      StringLiteral.simpleEscape? d = some c) ∨
    (∃ a b x y, escaped c = ['\\', 'u', a, b, x, y] ∧
      (IsPlain a ∧ IsPlain b ∧ IsPlain x ∧ IsPlain y) ∧
        StringLiteral.unicodeEscape? a b x y = some c) ∨
    (escaped c = [c] ∧ IsPlain c) := by
  unfold escaped
  by_cases hr : c = '\r'
  · subst hr
    exact .inl ⟨'r', rfl, by decide⟩
  by_cases hn : c = '\n'
  · subst hn
    exact .inl ⟨'n', rfl, by decide⟩
  by_cases ht : c = '\t'
  · subst ht
    exact .inl ⟨'t', rfl, by decide⟩
  by_cases hq : c = '"'
  · subst hq
    exact .inl ⟨'"', rfl, by decide⟩
  by_cases hb : c = '\\'
  · subst hb
    exact .inl ⟨'\\', rfl, by decide⟩
  rw [if_neg hr, if_neg hn, if_neg ht, if_neg hq, if_neg hb]
  split
  · next hc =>
    obtain ⟨a, b, x, y, hfour, hplain, hvalue⟩ := hexFour_spec c.toNat (toNat_lt_of_isControl hc)
    rw [Char.ofNat_toNat] at hvalue
    exact .inr (.inl ⟨a, b, x, y, by rw [hfour], hplain, hvalue⟩)
  · exact .inr (.inr ⟨rfl, hq, hb, by simp [Token.isLineBreak, hr, hn]⟩)

end Text

namespace Token

open Text

theorem splitQuoted_plain {c : Char} (h : IsPlain c) (rest : List Char) : splitQuoted (c :: rest) =
    (splitQuoted rest).map fun (content, rest) => (c :: content, rest) := by
  obtain ⟨hquote, hslash, hbreak⟩ := h
  rw [splitQuoted]
  · rw [if_neg (by simp [hbreak])]
  · exact hquote
  · rintro d ds rfl
    exact absurd rfl hslash

theorem splitQuoted_escape {c : Char} (h : isLineBreak c = false) (rest : List Char) :
    splitQuoted ('\\' :: c :: rest) =
      (splitQuoted rest).map fun (content, rest) => ('\\' :: c :: content, rest) := by
  rw [splitQuoted, if_neg (by simp [h])]

theorem splitQuoted_escaped (c : Char) (rest : List Char) : splitQuoted (escaped c ++ rest) =
    (splitQuoted rest).map fun (content, rest) => (escaped c ++ content, rest) := by
  obtain ⟨d, he, -, hbreak, -⟩ | ⟨a, b, x, y, he, ⟨ha, hb, hx, hy⟩, -⟩ | ⟨he, hplain⟩ := escaped_cases c
  · rw [he]
    exact splitQuoted_escape hbreak rest
  · rw [he]
    simp only [List.cons_append, List.nil_append]
    rw [splitQuoted_escape (by decide), splitQuoted_plain ha, splitQuoted_plain hb, splitQuoted_plain hx,
      splitQuoted_plain hy]
    simp only [Option.map_map]
    rfl
  · rw [he]
    exact splitQuoted_plain hplain rest

/-- The content of a quoted text goes up to the closing quote. -/
theorem splitQuoted_flatMap (s rest : List Char) :
    splitQuoted (s.flatMap escaped ++ '"' :: rest) = some (s.flatMap escaped, rest) := by
  induction s with
  | nil => rfl
  | cons c s ih =>
    rw [List.flatMap_cons, List.append_assoc, splitQuoted_escaped, ih]
    rfl

end Token

namespace StringLiteral

open Text

theorem unescape_escaped (c : Char) (rest : List Char) :
    unescape (escaped c ++ rest) = (unescape rest).map (c :: ·) := by
  obtain ⟨d, he, hu, -, hd⟩ | ⟨a, b, x, y, he, -, hd⟩ | ⟨he, -, hslash, -⟩ := escaped_cases c
  · rw [he]
    simp only [List.cons_append, List.nil_append]
    rw [unescape, hd]
    · cases unescape rest <;> rfl
    · rintro a b c d rest rfl
      exact absurd rfl hu
  · rw [he]
    simp only [List.cons_append, List.nil_append]
    rw [unescape, hd]
    cases unescape rest <;> rfl
  · rw [he, List.cons_append, List.nil_append, unescape]
    · rintro a b c d rest rfl
      exact absurd rfl hslash
    · rintro a rest rfl
      exact absurd rfl hslash
    · rintro rfl
      exact absurd rfl hslash

theorem unescape_flatMap (s : List Char) : unescape (s.flatMap escaped) = some s := by
  induction s with
  | nil => rfl
  | cons c s ih =>
    rw [List.flatMap_cons, unescape_escaped, ih]
    rfl

end StringLiteral

namespace Token

open Text

theorem begins_quoted (s : List Char) {rest : List Char} (hrest : ∀ c ∈ rest.head?, c ≠ '"') :
    Begins (quoted s ++ rest) ⟨.string, quoted s, s⟩ rest := by
  have hquoted : quoted s ++ rest = '"' :: (s.flatMap escaped ++ '"' :: rest) := by
    simp [quoted]
  rw [hquoted]
  refine ⟨'"', _, splitIgnored_plain rfl (by decide) _, ?_⟩
  have hblock : ∀ cs, s.flatMap escaped ++ '"' :: rest ≠ '"' :: '"' :: cs := by
    intro cs he
    cases s with
    | nil =>
      cases he
      exact hrest '"' rfl rfl
    | cons c s =>
      rw [List.flatMap_cons, List.append_assoc] at he
      obtain ⟨d, hc, -⟩ | ⟨a, b, x, y, hc, -⟩ | ⟨hc, hquote, -⟩ := escaped_cases c
      · rw [hc] at he
        cases (List.cons.inj he).1
      · rw [hc] at he
        cases (List.cons.inj he).1
      · rw [hc] at he
        exact hquote (List.cons.inj he).1
  have hsplit := splitQuoted_flatMap s rest
  generalize s.flatMap escaped ++ '"' :: rest = cs at hblock hsplit ⊢
  rw [splitLexeme_quoted hblock, hsplit]
  simp only [Option.map_some, Lexeme.ofString, StringLiteral.unescape_flatMap]
  rfl

/-- A text in quotes is scanned as one string, which denotes the text, before the tokens of what
follows. What follows must not start with a quote, and must itself be a text that can be scanned. -/
theorem scan_quoted (s : String) {following : String}
    (hquote : ∀ c ∈ following.toList.head?, c ≠ '"') :
    (∀ {tokens}, scan following = .ok tokens → ∃ first more,
      scan (String.ofList (quoted s.toList) ++ following) = .ok (first :: more) ∧
        first.kind = .string ∧ first.raw = String.ofList (quoted s.toList) ∧ first.value = s ∧
          more.map lexeme = tokens.map lexeme) ∧
    ∀ {tokens}, scan (String.ofList (quoted s.toList) ++ following) = .ok tokens →
      ∃ more, scan following = .ok more := by
  have hsource : (String.ofList (quoted s.toList) ++ following).toList =
      quoted s.toList ++ following.toList := by
    rw [String.toList_append, String.toList_ofList]
  have hbegins := begins_quoted s.toList hquote
  constructor
  · intro tokens h
    have hlexes : Lexes (String.ofList (quoted s.toList) ++ following).toList
        (⟨.string, quoted s.toList, s.toList⟩ :: tokens.map lexeme) := by
      rw [hsource]
      exact .more hbegins (lexes_of_scan h)
    obtain ⟨all, hall, hmap⟩ := exists_scan hlexes
    obtain ⟨first, more, rfl, hfirst, hmore⟩ := List.map_eq_cons_iff.1 hmap
    injection hfirst with hkind hraw hvalue
    refine ⟨first, more, hall, hkind, ?_, String.toList_inj.1 hvalue, hmore⟩
    rw [← hraw, String.ofList_toList]
  · intro tokens h
    have hlexes := lexes_of_scan h
    rw [hsource, hbegins.lexes_iff] at hlexes
    obtain ⟨rest, -, hrest⟩ := hlexes
    obtain ⟨more, hmore, -⟩ := exists_scan hrest
    exact ⟨more, hmore⟩

/-! Quotes and backslashes at either end, next to the quotes around them. -/

theorem scan_quoted_ends : ∃ first more,
    scan (String.ofList (quoted "\"\"\n\x01\u2028😀\\".toList) ++ " \"\"") = .ok (first :: more) ∧
      first.kind = .string ∧ first.raw = "\"\\\"\\\"\\n\\u0001\u2028😀\\\\\"" ∧
        first.value = "\"\"\n\x01\u2028😀\\" ∧ more.length = 1 := by
  have hquote : ∀ c ∈ (" \"\"" : String).toList.head?, c ≠ '"' := by
    intro c hc
    have hblank : some ' ' = some c := hc
    cases hblank
    decide
  have hrest : ∃ t, scan " \"\"" = .ok [t] := ⟨_, rfl⟩
  obtain ⟨t, hrest⟩ := hrest
  obtain ⟨first, more, hscan, hkind, hraw, hvalue, hmore⟩ :=
    (scan_quoted "\"\"\n\x01\u2028😀\\" hquote).1 hrest
  refine ⟨first, more, hscan, hkind, hraw.trans (by decide), hvalue, ?_⟩
  simpa using congrArg List.length hmore

end Token

end GraphQL
