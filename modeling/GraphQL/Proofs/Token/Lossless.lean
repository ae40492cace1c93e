import GraphQL.Proofs.Position
import GraphQL.Proofs.Token.Extent

/-!
# Scanning loses nothing

The tokens of a source, with the ignored text before each, are the source again up to ignored text at
its end, and each token knows its place in it. A source without tokens has a string that is not
closed: what comes before that string is scanned as any other source.
-/

namespace GraphQL.Token

/-- The text goes on to a quote on the same line; a backslash keeps the character after it. -/
inductive ClosesQuoted : List Char → Prop where
  | here (cs : List Char) : ClosesQuoted ('"' :: cs)
  | escaped {c : Char} {cs : List Char} : isLineBreak c = false → ClosesQuoted cs →
      ClosesQuoted ('\\' :: c :: cs)
  | plain {c : Char} {cs : List Char} : c ≠ '"' → c ≠ '\\' → isLineBreak c = false →
      ClosesQuoted cs → ClosesQuoted (c :: cs)

/-- The text goes on to three quotes that are not behind a backslash. -/
inductive ClosesBlock : List Char → Prop where
  | here (cs : List Char) : ClosesBlock ('"' :: '"' :: '"' :: cs)
  | escaped {cs : List Char} : ClosesBlock cs → ClosesBlock ('\\' :: '"' :: '"' :: '"' :: cs)
  | plain {c : Char} {cs : List Char} : ¬ ['\\', '"', '"', '"'] <+: c :: cs → ClosesBlock cs →
      ClosesBlock (c :: cs)

/-- The text after an opening quote closes the string. -/
def Closes : List Char → Prop
  | '"' :: '"' :: cs => ClosesBlock cs
  | cs => ClosesQuoted cs

/-- The source text that the tokens take, with the ignored text before each. -/
def rebuilt (tokens : List Token) : List Char :=
  tokens.flatMap fun t => t.trivia.toList ++ t.raw.toList

/-- A token with so many others before it, that stands after the text. -/
structure Placed (before : List Char) (index : Nat) (t : Token) : Prop where
  raw : t.raw ≠ ""
  trivia : Layout t.trivia.toList
  offset : t.offset = (String.ofList (before ++ t.trivia.toList)).utf8ByteSize
  pos : t.pos = .reference (before ++ t.trivia.toList)
  prev : ∀ i, t.prev = some i ↔ i + 1 = index

variable {fuel index offset : Nat} {pos : Position} {c : Char}
  {cs rest before text trivia : List Char} {l : Lexeme} {tokens : List Token}

@[simp] theorem rebuilt_nil : rebuilt [] = [] :=
  rfl

@[simp] theorem rebuilt_cons (t : Token) (tokens : List Token) :
    rebuilt (t :: tokens) = t.trivia.toList ++ t.raw.toList ++ rebuilt tokens :=
  rfl

/-! ## Strings that are not closed -/

theorem isSome_splitQuoted (cs : List Char) : (splitQuoted cs).isSome = true ↔ ClosesQuoted cs := by
  fun_induction splitQuoted cs with
  | case1 =>
    constructor
    · rintro ⟨⟩
    · rintro ⟨⟩
  | case2 cs => exact ⟨fun _ => .here cs, fun _ => rfl⟩
  | case3 c cs hc =>
    refine ⟨(by rintro ⟨⟩), fun h => ?_⟩
    cases h with
    | escaped hb _ => rw [hc] at hb; cases hb
    | plain _ hne _ _ => exact absurd rfl hne
  | case4 c cs hc ih =>
    rw [Option.isSome_map, ih]
    refine ⟨.escaped (by simpa using hc), fun h => ?_⟩
    cases h with
    | escaped _ h => exact h
    | plain _ hne _ _ => exact absurd rfl hne
  | case5 c cs hquote hslash hc =>
    refine ⟨(by rintro ⟨⟩), fun h => ?_⟩
    cases h with
    | here => exact (hquote rfl).elim
    | escaped _ _ => exact (hslash _ _ rfl rfl).elim
    | plain _ _ hb _ => rw [hc] at hb; cases hb
  | case6 c cs hquote hslash hc ih =>
    rw [Option.isSome_map, ih]
    constructor
    · intro h
      refine .plain hquote ?_ (by simpa using hc) h
      rintro rfl
      cases h with
      | here => exact hslash _ _ rfl rfl
      | escaped => exact hslash _ _ rfl rfl
      | plain => exact hslash _ _ rfl rfl
    · intro h
      cases h with
      | here => exact absurd rfl hquote
      | escaped _ _ => exact absurd rfl (hslash _ _ rfl)
      | plain _ _ _ h => exact h

theorem isSome_splitBlock (cs : List Char) : (splitBlock cs).isSome = true ↔ ClosesBlock cs := by
  fun_induction splitBlock cs with
  | case1 =>
    constructor
    · rintro ⟨⟩
    · rintro ⟨⟩
  | case2 cs => exact ⟨fun _ => .here cs, fun _ => rfl⟩
  | case3 cs ih =>
    rw [Option.isSome_map, ih]
    refine ⟨.escaped, fun h => ?_⟩
    cases h with
    | escaped h => exact h
    | plain hne _ => exact absurd ⟨cs, rfl⟩ hne
  | case4 c cs hclosing hescaped ih =>
    rw [Option.isSome_map, ih]
    constructor
    · refine .plain ?_
      rintro ⟨ds, hds⟩
      obtain ⟨rfl, rfl⟩ := List.cons.inj hds
      exact hescaped ds rfl rfl
    · intro h
      cases h with
      | here cs => exact absurd rfl (hclosing cs rfl)
      | escaped _ => exact absurd rfl (hescaped _ rfl)
      | plain _ h => exact h

/-- Only a string may fail to be a token, for want of its closing quote. -/
theorem splitLexeme_eq_none (h : splitLexeme c cs = none) : c = '"' ∧ ¬ Closes cs := by
  by_cases hc : c = '"'
  · subst hc
    refine ⟨rfl, ?_⟩
    by_cases hblock : ∃ ds, cs = '"' :: '"' :: ds
    · obtain ⟨ds, rfl⟩ := hblock
      rw [splitLexeme_block, Option.map_eq_none_iff] at h
      show ¬ ClosesBlock ds
      rw [← isSome_splitBlock, h]
      simp
    · have hquoted : ∀ ds, cs ≠ '"' :: '"' :: ds := fun ds he => hblock ⟨ds, he⟩
      rw [splitLexeme_quoted hquoted, Option.map_eq_none_iff] at h
      rw [Closes, ← isSome_splitQuoted, h]
      · simp
      · exact hquoted
  · obtain ⟨split, -, hsplit⟩ := exists_splitLexeme hc
    rw [hsplit] at h
    cases h

/-! ## One token -/

/-- The token of a lexeme that stands after so many others and the text, and the ignored text. -/
def Lexeme.token (l : Lexeme) (index offset : Nat) (pos : Position) (trivia : List Char) : Token where
  kind := l.kind
  raw := String.ofList l.raw
  value := String.ofList l.value
  pos := pos.after trivia
  offset := offset + Text.utf8Length trivia
  trivia := String.ofList trivia
  prev := if index = 0 then none else some (index - 1)

theorem utf8ByteSize_ofList (cs : List Char) :
    (String.ofList cs).utf8ByteSize = Text.utf8Length cs := by
  induction cs with
  | nil => rfl
  | cons c cs ih =>
    rw [String.ofList_cons, String.utf8ByteSize_append, String.utf8ByteSize_singleton, ih,
      Text.utf8Length_cons]

theorem scanFrom_done (h : (splitIgnored false cs).2 = []) :
    scanFrom fuel index offset pos cs = .ok [] := by
  cases fuel with
  | zero => rfl
  | succ fuel =>
    unfold scanFrom
    simp only [h]

theorem scanFrom_open (hc : splitIgnored false cs = (trivia, c :: text))
    (hl : splitLexeme c text = none) :
    scanFrom (fuel + 1) index offset pos cs = .error ⟨pos.after trivia⟩ := by
  unfold scanFrom
  simp only [hc, hl]

theorem scanFrom_token (hc : splitIgnored false cs = (trivia, c :: text))
    (hl : splitLexeme c text = some (l, rest)) : scanFrom (fuel + 1) index offset pos cs =
      (scanFrom fuel (index + 1) (offset + Text.utf8Length trivia + Text.utf8Length l.raw)
        ((pos.after trivia).after l.raw) rest).map (l.token index offset pos trivia :: ·) := by
  conv => lhs; unfold scanFrom
  simp only [hc, hl]
  cases scanFrom fuel (index + 1) (offset + Text.utf8Length trivia + Text.utf8Length l.raw)
    ((pos.after trivia).after l.raw) rest <;> rfl

theorem splitIgnored_text (hc : splitIgnored false cs = (trivia, rest)) :
    cs = trivia ++ rest := by
  have happend := splitIgnored_append false cs
  rw [hc] at happend
  exact happend.symm

theorem layout_trivia (hc : splitIgnored false cs = (trivia, c :: text)) : Layout trivia := by
  have hlayout : Layout (splitIgnored false cs).1 := layout_splitIgnored (by simp [hc])
  rw [hc] at hlayout
  exact hlayout

theorem not_isIgnored (hc : splitIgnored false cs = (trivia, c :: text)) :
    isIgnored c = false ∧ c ≠ '#' := by
  refine head_splitIgnored false cs c ?_
  rw [hc]
  rfl

theorem taken_text (hc : splitIgnored false cs = (trivia, c :: text))
    (hl : splitLexeme c text = some (l, rest)) : cs = trivia ++ l.raw ++ rest := by
  obtain ⟨tail, hraw, htext, -⟩ := splitLexeme_extent hl
  rw [splitIgnored_text hc, htext, hraw, List.append_assoc, List.cons_append]

@[simp] theorem Lexeme.token_text (l : Lexeme) : (l.token index offset pos trivia).trivia.toList ++
    (l.token index offset pos trivia).raw.toList = trivia ++ l.raw := by
  simp only [Lexeme.token, String.toList_ofList]

/-- Text at whose end every line break is over, whatever comes next. -/
def Settled (before : List Char) : Prop :=
  ∀ c ∈ before.getLast?, c ≠ '\r'

/-- The position reached before a token is that of the text before it. -/
theorem after_trivia (hbefore : Settled before) :
    (Position.start.after before).after trivia = Position.start.after (before ++ trivia) :=
  Position.after_append _ (.inl hbefore)

/-- After a token the position is again that of the text before. -/
theorem after_raw (hbefore : Settled before) (hc : splitIgnored false cs = (trivia, c :: text))
    (hl : splitLexeme c text = some (l, rest)) :
    Settled (before ++ (trivia ++ l.raw)) ∧
    ((Position.start.after before).after trivia).after l.raw =
      Position.start.after (before ++ (trivia ++ l.raw)) := by
  obtain ⟨tail, hraw, -, -⟩ := splitLexeme_extent hl
  have hfirst := (not_isIgnored hc).1
  constructor
  · intro d hd
    rw [← List.append_assoc, List.getLast?_append, hraw, List.getLast?_cons] at hd
    have hlast := splitLexeme_last hl hfirst d (by rw [hraw, List.getLast?_cons]; exact hd)
    rintro rfl
    cases hlast
  · rw [after_trivia hbefore, Position.after_append, List.append_assoc]
    refine .inr fun d hd => ?_
    rw [hraw] at hd
    cases hd
    rintro rfl
    cases hfirst

theorem placed_token (hbefore : Settled before) (hc : splitIgnored false cs = (trivia, c :: text))
    (hl : splitLexeme c text = some (l, rest)) (index : Nat) :
    Placed before index
      (l.token index (Text.utf8Length before) (Position.start.after before) trivia) where
  raw := by
    obtain ⟨tail, hraw, -, -⟩ := splitLexeme_extent hl
    rw [Lexeme.token, hraw]
    exact fun h => List.cons_ne_nil c tail (String.ofList_injective h)
  trivia := by
    rw [Lexeme.token, String.toList_ofList]
    exact layout_trivia hc
  offset := by
    rw [utf8ByteSize_ofList, Text.utf8Length_append, Lexeme.token, String.toList_ofList]
  pos := by
    rw [← Position.after_start, Lexeme.token, String.toList_ofList]
    exact after_trivia hbefore
  prev i := by
    simp only [Lexeme.token]
    split
    · simp
      omega
    · simp
      omega

theorem scanFrom_step (hbefore : Settled before)
    (hc : splitIgnored false cs = (trivia, c :: text)) (hl : splitLexeme c text = some (l, rest)) :
    scanFrom (fuel + 1) index (Text.utf8Length before) (Position.start.after before) cs =
      (scanFrom fuel (index + 1) (Text.utf8Length (before ++ (trivia ++ l.raw)))
        (Position.start.after (before ++ (trivia ++ l.raw))) rest).map
        (l.token index (Text.utf8Length before) (Position.start.after before) trivia :: ·) := by
  rw [scanFrom_token hc hl, (after_raw hbefore hc hl).2, Text.utf8Length_append,
    Text.utf8Length_append, Nat.add_assoc]

/-! ## The whole scan -/

/-- What a scan gives of a text that comes after `before` and so many tokens. -/
inductive Scans : List Char → Nat → List Char → Except Unterminated (List Token) → Prop where
  | done {before trivia : List Char} (index : Nat) : Trailing trivia →
      Scans before index trivia (.ok [])
  | unclosed {before trivia text : List Char} (index : Nat) : Layout trivia → ¬ Closes text →
      Settled before →
      Scans before index (trivia ++ '"' :: text) (.error ⟨Position.start.after (before ++ trivia)⟩)
  | token {before cs trivia text rest : List Char} {index : Nat} {c : Char} {l : Lexeme}
      {result : Except Unterminated (List Token)} :
      splitIgnored false cs = (trivia, c :: text) → splitLexeme c text = some (l, rest) →
      Settled before → Scans (before ++ (trivia ++ l.raw)) (index + 1) rest result →
      Scans before index cs
        (result.map (l.token index (Text.utf8Length before) (Position.start.after before) trivia :: ·))

theorem scans_scanFrom {fuel : Nat} : ∀ {before cs : List Char} {index : Nat}, cs.length ≤ fuel →
    Settled before → Scans before index cs
      (scanFrom fuel index (Text.utf8Length before) (Position.start.after before) cs) := by
  induction fuel with
  | zero =>
    intro before cs index hle _
    rw [List.eq_nil_of_length_eq_zero (Nat.le_zero.1 hle)]
    exact .done index (.closed .nil)
  | succ fuel ih =>
    intro before cs index hle hbefore
    obtain ⟨trivia, after, hs⟩ : ∃ trivia after, splitIgnored false cs = (trivia, after) :=
      ⟨_, _, rfl⟩
    cases after with
    | nil =>
      have htrailing := trailing_splitIgnored cs
      rw [hs] at htrailing
      rw [scanFrom_done (by rw [hs]), splitIgnored_text hs, List.append_nil]
      exact .done index htrailing
    | cons c text =>
      cases hl : splitLexeme c text with
      | none =>
        obtain ⟨rfl, hopen⟩ := splitLexeme_eq_none hl
        rw [scanFrom_open hs hl, after_trivia hbefore, splitIgnored_text hs]
        exact .unclosed index (layout_trivia hs) hopen hbefore
      | some taken =>
        obtain ⟨l, rest⟩ := taken
        have hlt := Begins.length_lt ⟨c, text, by rw [hs], hl⟩
        rw [scanFrom_step hbefore hs hl]
        exact .token hs hl hbefore (ih (by omega) (after_raw hbefore hs hl).1)

/-- A text that gives tokens gives them with any fuel that is enough. -/
theorem Scans.scanFrom_eq (h : Scans before index cs (.ok tokens)) (hle : cs.length ≤ fuel) :
    scanFrom fuel index (Text.utf8Length before) (Position.start.after before) cs = .ok tokens := by
  generalize hresult : Except.ok tokens = result at h
  induction h generalizing fuel tokens with
  | done index htrailing =>
    cases hresult
    exact scanFrom_done (by rw [splitIgnored_trailing htrailing])
  | unclosed => cases hresult
  | @token before cs trivia text rest index c l result hs hl hbefore _ ih =>
    have hlt := Begins.length_lt ⟨c, text, by rw [hs], hl⟩
    cases result with
    | error e => cases hresult
    | ok tokens' =>
      cases hresult
      cases fuel with
      | zero => omega
      | succ fuel =>
        rw [scanFrom_step hbefore hs hl, ih (by omega) rfl, Except.map]

/-- The tokens make up the text again, and each is where it says. -/
theorem Scans.places (h : Scans before index cs (.ok tokens)) :
    ∃ rest, Trailing rest ∧ cs = rebuilt tokens ++ rest ∧ ∀ i t, tokens[i]? = some t →
      Placed (before ++ rebuilt (tokens.take i)) (index + i) t := by
  generalize hresult : Except.ok tokens = result at h
  induction h generalizing tokens with
  | done index htrailing =>
    cases hresult
    exact ⟨_, htrailing, rfl, nofun⟩
  | unclosed => cases hresult
  | @token before cs trivia text rest index c l result hs hl hbefore _ ih =>
    cases result with
    | error e => cases hresult
    | ok tokens' =>
      cases hresult
      obtain ⟨last, hlast, hrest, hplaced⟩ := ih rfl
      refine ⟨last, hlast, ?_, fun i t ht => ?_⟩
      · rw [rebuilt_cons, Lexeme.token_text, List.append_assoc, ← hrest]
        exact taken_text hs hl
      · cases i with
        | zero =>
          cases ht
          rw [List.take_zero, rebuilt_nil, List.append_nil]
          exact placed_token hbefore hs hl index
        | succ i =>
          rw [List.take_succ_cons, rebuilt_cons, Lexeme.token_text, ← List.append_assoc,
            show index + (i + 1) = index + 1 + i by omega]
          exact hplaced i t ht

/-- A text that gives no tokens has a string that is not closed, and gives tokens up to it. -/
theorem Scans.exists_unclosed {e : Unterminated} (h : Scans before index cs (.error e)) :
    ∃ closed text tokens gap, cs = closed ++ '"' :: text ∧ ¬ Closes text ∧
      e.pos = Position.start.after (before ++ closed) ∧ closed = rebuilt tokens ++ gap ∧
      Layout gap ∧ Scans before index closed (.ok tokens) := by
  generalize hresult : Except.error e = result at h
  induction h with
  | done => cases hresult
  | @unclosed before trivia text index htrivia hopen _ =>
    cases hresult
    exact ⟨trivia, text, [], trivia, rfl, hopen, rfl, rfl, htrivia, .done index (.closed htrivia)⟩
  | @token before cs trivia text rest index c l result hs hl hbefore _ ih =>
    cases result with
    | ok tokens => cases hresult
    | error e =>
      cases hresult
      obtain ⟨closed, unclosed, tokens, gap, hrest, hopen, hpos, hclosed, hgap, hscans⟩ := ih rfl
      obtain ⟨tail, hraw, -, hextent⟩ := splitLexeme_extent hl
      -- The same token comes off the text that stops before the open string.
      have hl' := hextent closed (hrest ▸ curtailed_of_append _ _)
      have hs' : splitIgnored false (trivia ++ l.raw ++ closed) = (trivia, c :: (tail ++ closed)) := by
        rw [List.append_assoc, hraw, List.cons_append]
        exact splitIgnored_layout (layout_trivia hs) (not_isIgnored hs).1 (not_isIgnored hs).2
      refine ⟨trivia ++ l.raw ++ closed, unclosed,
        l.token index (Text.utf8Length before) (Position.start.after before) trivia :: tokens, gap,
        ?_, hopen, ?_, ?_, hgap, .token hs' hl' hbefore hscans⟩
      · rw [taken_text hs hl, hrest, ← List.append_assoc]
      · rw [hpos, List.append_assoc]
      · rw [rebuilt_cons, Lexeme.token_text, hclosed, List.append_assoc (trivia ++ l.raw)]

/-- A source that is scanned is its tokens with the ignored text before each, and ignored text at the
end, and each token has its place. A source that is not has a string that is not closed. -/
theorem scan_places (source : String) :
    match scan source with
    | .ok tokens => ∃ rest, Trailing rest ∧ source.toList = rebuilt tokens ++ rest ∧
        ∀ i t, tokens[i]? = some t → Placed (rebuilt (tokens.take i)) i t
    | .error e => ∃ closed text tokens gap, source.toList = closed ++ '"' :: text ∧ ¬ Closes text ∧
        e.pos = .reference closed ∧ scan (String.ofList closed) = .ok tokens ∧
        closed = rebuilt tokens ++ gap ∧ Layout gap := by
  have hscans : Scans [] 0 source.toList (scan source) := scans_scanFrom (Nat.le_refl _) nofun
  cases h : scan source with
  | ok tokens =>
    rw [h] at hscans
    obtain ⟨rest, hrest, htext, hplaced⟩ := hscans.places
    refine ⟨rest, hrest, htext, fun i t ht => ?_⟩
    have := hplaced i t ht
    rwa [Nat.zero_add] at this
  | error e =>
    rw [h] at hscans
    obtain ⟨closed, text, tokens, gap, htext, hopen, hpos, hclosed, hgap, hscans⟩ :=
      hscans.exists_unclosed
    refine ⟨closed, text, tokens, gap, htext, hopen, ?_, ?_, hclosed, hgap⟩
    · rw [hpos, List.nil_append, Position.after_start]
    · unfold scan
      rw [String.toList_ofList]
      exact hscans.scanFrom_eq (Nat.le_refl _)

end GraphQL.Token
