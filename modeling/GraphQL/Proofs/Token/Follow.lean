import GraphQL.Proofs.Number.Numeral
import GraphQL.Proofs.Token.Quoted

/-!
# What follows a token

Where a token ends, and which kinds of tokens a text does not start with. A parser looks at no more
than this of the text after the part that it reads.
-/

namespace GraphQL.Token

/-- A text without unterminated strings. -/
def Lexed (cs : List Char) : Prop :=
  ∃ ls, Lexes cs ls

/-- The first lexeme of a text, if any, is of none of the kinds. -/
def Avoids (cs : List Char) (kinds : List Kind) : Prop :=
  ∀ l rest, Begins cs l rest → l.kind ∉ kinds

/-- The first lexeme of a text is of the kind. -/
def Starts (cs : List Char) (kind : Kind) : Prop :=
  ∃ l rest, Begins cs l rest ∧ l.kind = kind

/-- A text at which a token that came before is over: neither does its first character belong to a
name or a number, nor is it a quote. -/
def Cut (cs : List Char) : Prop :=
  ∀ c ∈ cs.head?, Text.isNameContinue c = false ∧ c ≠ '.' ∧ c ≠ '"'

variable {c : Char} {cs rest : List Char} {l : Lexeme} {kind : Kind} {kinds : List Kind}

theorem Begins.lexed (h : Begins cs l rest) (hr : Lexed rest) : Lexed cs := by
  obtain ⟨ls, hls⟩ := hr
  exact ⟨l :: ls, .more h hls⟩

theorem Begins.eq {l' : Lexeme} {rest' : List Char} (h : Begins cs l rest)
    (h' : Begins cs l' rest') : l' = l ∧ rest' = rest := by
  obtain ⟨c, cs', hc, hl⟩ := h
  obtain ⟨d, ds, hd, hl'⟩ := h'
  rw [hc] at hd
  cases hd
  rw [hl] at hl'
  cases hl'
  exact ⟨rfl, rfl⟩

theorem cut_cons (h : Text.isNameContinue c = false ∧ c ≠ '.' ∧ c ≠ '"') (cs : List Char) :
    Cut (c :: cs) := by
  rintro _ ⟨⟩
  exact h

theorem cut_nil : Cut [] :=
  nofun

theorem Cut.isNameContinue (h : Cut cs) : ∀ c ∈ cs.head?, Text.isNameContinue c = false :=
  fun c hc => (h c hc).1

theorem Cut.ends (h : Cut cs) : Numeral.Ends cs :=
  fun c hc => ⟨(h c hc).1, (h c hc).2.1⟩

theorem Cut.not_quote (h : Cut cs) : ∀ c ∈ cs.head?, c ≠ '"' :=
  fun c hc => (h c hc).2.2

theorem cut_blank (cs : List Char) : Cut (' ' :: cs) :=
  cut_cons (by decide) cs

theorem cut_comma (cs : List Char) : Cut (',' :: cs) :=
  cut_cons (by decide) cs

theorem cut_newline (cs : List Char) : Cut ('\n' :: cs) :=
  cut_cons (by decide) cs

theorem cut_punctuator (h : punctuator? c = some kind) (cs : List Char) : Cut (c :: cs) := by
  have hall : ∀ c ∈ ['{', '}', '(', ')', '[', ']', ':', '=', '!', '|', '&', '$', '@'],
      Text.isNameContinue c = false ∧ c ≠ '.' ∧ c ≠ '"' :=
    Text.forall_of_all (by decide)
  exact cut_cons (hall c (mem_of_punctuator? h)) cs

theorem Begins.avoids (h : Begins cs l rest) (hk : l.kind ∉ kinds) : Avoids cs kinds := by
  intro l' rest' h'
  rw [(h.eq h').1]
  exact hk

theorem Begins.starts (h : Begins cs l rest) (hk : l.kind = kind) : Starts cs kind :=
  ⟨l, rest, h, hk⟩

theorem Starts.avoids (h : Starts cs kind) (hk : kind ∉ kinds) : Avoids cs kinds := by
  obtain ⟨l, rest, hb, rfl⟩ := h
  exact hb.avoids hk

theorem avoids_nil (kinds : List Kind) : Avoids [] kinds := by
  rintro l rest ⟨c, cs, hc, -⟩
  cases hc

theorem avoids_ignored (h : isIgnored c = true) : Avoids (c :: cs) kinds ↔ Avoids cs kinds := by
  unfold Avoids
  simp only [begins_ignored h]

theorem avoids_punctuator (h : punctuator? c = some kind) (hk : kind ∉ kinds) (cs : List Char) :
    Avoids (c :: cs) kinds :=
  (begins_punctuator h cs).avoids hk

theorem avoids_quoted (s : List Char) (hrest : Cut rest) (hk : .string ∉ kinds) :
    Avoids (Text.quoted s ++ rest) kinds :=
  (begins_quoted s hrest.not_quote).avoids hk

theorem avoids_ellipsis (hk : .ellipsis ∉ kinds) (cs : List Char) :
    Avoids ('.' :: '.' :: '.' :: cs) kinds :=
  (begins_ellipsis cs).avoids hk

theorem Avoids.of_subset {kinds' : List Kind} (h : Avoids cs kinds)
    (hs : ∀ k ∈ kinds', k ∈ kinds) : Avoids cs kinds' :=
  fun l rest hb hk => h l rest hb (hs _ hk)

/-- A name that is no keyword is an identifier. -/
theorem ofName_cases (n : Name) :
    Kind.ofName n = .identifier ∨ (n, Kind.ofName n) ∈ Kind.keywords := by
  unfold Kind.ofName
  cases h : Kind.keywords.find? fun k => k.1 = n with
  | none => exact .inl rfl
  | some k =>
    have hn : k.1 = n := by simpa using List.find?_some h
    subst hn
    exact .inr (List.mem_of_find?_eq_some h)

/-- The kinds of names. -/
def Kind.names : List Kind :=
  .identifier :: Kind.keywords.map Prod.snd

theorem mem_names_of_isName (h : kind.isName = true) : kind ∈ Kind.names := by
  simp only [Kind.isName, Bool.or_eq_true, decide_eq_true_eq, List.any_eq_true] at h
  rcases h with rfl | ⟨k, hk, rfl⟩
  · exact List.mem_cons_self ..
  · exact List.mem_cons_of_mem _ (List.mem_map_of_mem hk)

theorem isName_ofName (n : Name) : (Kind.ofName n).isName = true := by
  rcases ofName_cases n with h | h
  · rw [h]
    rfl
  · have hall : ∀ k ∈ Kind.keywords, k.2.isName = true := by decide
    exact hall _ h

/-- Only a keyword has its kind. -/
theorem eq_of_ofName {n word : Name} (h : Kind.ofName n = kind) (hw : Kind.ofName word = kind)
    (hk : kind ≠ .identifier) : n = word := by
  have hinj : ∀ k ∈ Kind.keywords, ∀ k' ∈ Kind.keywords, k.2 = k'.2 → k.1 = k'.1 := by decide
  have hmem : ∀ {m : Name}, Kind.ofName m = kind → (m, kind) ∈ Kind.keywords := by
    intro m hm
    rcases ofName_cases m with hid | hkey
    · exact absurd (hm.symm.trans hid) hk
    · rwa [hm] at hkey
  exact hinj _ (hmem h) _ (hmem hw) rfl

/-- What starts with a name is no punctuator, whatever follows. -/
theorem avoids_name {n : Name} (h : n.isValid = true) (hk : ∀ k ∈ kinds, k.isName = false)
    (cs : List Char) : Avoids (n.toList ++ cs) kinds := by
  rintro l rest ⟨c, ds, hc, hl⟩ hm
  unfold Name.isValid at h
  cases hn : n.toList with
  | nil =>
    rw [hn] at h
    cases h
  | cons d rest =>
    rw [hn] at h
    simp only [Bool.and_eq_true] at h
    obtain ⟨hi, hcomment, -⟩ := isNameStart_only h.1
    rw [hn, List.cons_append, splitIgnored_plain hi hcomment] at hc
    cases hc
    rw [splitLexeme_name h.1] at hl
    cases hl
    have := hk _ hm
    rw [Lexeme.plain, isName_ofName] at this
    cases this

end GraphQL.Token
