import GraphQL.Proofs.Token.Lossless

/-!
# Other text between the same tokens

`relaid raws gaps last` puts tokens together again with other ignored text: a gap before each, and
`last` behind them. However that is done, scanning gives tokens with the same lexemes (`scan_relaid`),
as long as two tokens do not touch. No two tokens of a source have the same position.
-/

namespace GraphQL.Token

/-- The texts of tokens, each with a gap before it, and what comes last. -/
def relaid : List (List Char) → List (List Char) → List Char → List Char
  | raw :: raws, gap :: gaps, last => gap ++ raw ++ relaid raws gaps last
  | _, _, last => last

/-- Ignored text for before each of so many tokens, and for behind the last: two tokens must not
touch. -/
structure Gaps (count : Nat) (gaps : List (List Char)) (last : List Char) : Prop where
  length : gaps.length = count
  layout : ∀ gap ∈ gaps, Layout gap
  apart : ∀ gap ∈ gaps.tail, gap ≠ []
  trailing : Trailing last

variable {count index : Nat} {before cs gap last : List Char} {gaps raws : List (List Char)}
  {ls : List Lexeme} {tokens : List Token}

theorem Gaps.tail (h : Gaps (count + 1) (gap :: gaps) last) : Gaps count gaps last where
  length := Nat.succ.inj h.length
  layout := (List.forall_mem_cons.1 h.layout).2
  apart g hg := h.apart g (List.mem_of_mem_tail hg)
  trailing := h.trailing

theorem Gaps.separates (h : Gaps count gaps last) (hne : ∀ gap ∈ gaps, gap ≠ [])
    (raws : List (List Char)) : Separates (relaid raws gaps last) := by
  cases raws with
  | nil => exact h.trailing.head
  | cons raw raws =>
    cases gaps with
    | nil => exact h.trailing.head
    | cons gap gaps =>
      intro c hc
      obtain ⟨hgap, -⟩ := List.forall_mem_cons.1 hne
      obtain ⟨d, ds, rfl⟩ := List.exists_cons_of_ne_nil hgap
      exact (h.layout _ (List.mem_cons_self ..)).head c hc

theorem lexes_relaid (h : Lexes cs ls) (hgaps : Gaps ls.length gaps last) :
    Lexes (relaid (ls.map Lexeme.raw) gaps last) ls := by
  induction h generalizing gaps with
  | done _ =>
    obtain rfl := List.eq_nil_of_length_eq_zero hgaps.length
    refine .done ?_
    rw [List.map_nil, relaid, splitIgnored_trailing hgaps.trailing]
    exact nofun
  | @more cs l rest ls hb _ ih =>
    obtain ⟨gap, gaps, rfl⟩ := List.exists_cons_of_length_eq_add_one hgaps.length
    obtain ⟨c, text, hc, hl⟩ := hb
    obtain ⟨tail, hraw, -, hextent⟩ := splitLexeme_extent hl
    have hfirst := head_splitIgnored false cs c (by rw [hc]; rfl)
    have hrest : Separates (relaid (ls.map Lexeme.raw) gaps last) :=
      hgaps.tail.separates hgaps.apart _
    refine .more ⟨c, tail ++ relaid (ls.map Lexeme.raw) gaps last, ?_, hextent _ (.separates hrest)⟩
      (ih hgaps.tail)
    have hgap := hgaps.layout gap (List.mem_cons_self ..)
    rw [List.map_cons, relaid, hraw, List.append_assoc, List.cons_append,
      splitIgnored_layout hgap hfirst.1 hfirst.2]

/-- The tokens of a source with other ignored text in between are the same up to their places. -/
theorem scan_relaid {source source' : String} (h : scan source = .ok tokens)
    (hgaps : Gaps tokens.length gaps last)
    (hsource' : source'.toList = relaid (tokens.map fun t => t.raw.toList) gaps last) :
    ∃ tokens', scan source' = .ok tokens' ∧ tokens'.map lexeme = tokens.map lexeme := by
  have hlexes := lexes_relaid (lexes_of_scan h) (by rwa [List.length_map])
  refine exists_scan ?_
  rw [List.map_map] at hlexes
  rw [hsource']
  exact hlexes

/-! ## Positions tell tokens apart -/

/-- The positions of tokens, and of the end. -/
def stops (tokens : List Token) (finish : Position) : List Position :=
  tokens.map Token.pos ++ [finish]

/-- Text that goes on after a token ends at a later position than that of the token. -/
theorem pos_precedes {trivia text rest : List Char} {c : Char} {l : Lexeme}
    (hbefore : Settled before) (hs : splitIgnored false cs = (trivia, c :: text))
    (hl : splitLexeme c text = some (l, rest)) (later : List Char) :
    ((Position.start.after before).after trivia).Precedes
      (Position.start.after (before ++ (trivia ++ l.raw) ++ later)) := by
  obtain ⟨tail, hraw, -, -⟩ := splitLexeme_extent hl
  have hparts : Position.Parts (before ++ trivia) (l.raw ++ later) := by
    refine .inr fun d hd => ?_
    rw [hraw] at hd
    cases hd
    rintro rfl
    exact absurd (not_isIgnored hs).1 (by decide)
  rw [after_trivia hbefore, ← List.append_assoc before, List.append_assoc,
    ← Position.after_append _ hparts]
  exact (Position.precedes_after _ _).resolve_left (by simp [hraw])

theorem Scans.pairwise_stops (h : Scans before index cs (.ok tokens)) :
    (stops tokens (Position.start.after (before ++ cs))).Pairwise Position.Precedes := by
  generalize hresult : Except.ok tokens = result at h
  induction h generalizing tokens with
  | done =>
    cases hresult
    exact List.pairwise_singleton _ _
  | unclosed => cases hresult
  | @token before cs trivia text rest index c l result hs hl hbefore hscans ih =>
    cases result with
    | error e => cases hresult
    | ok tokens' =>
      cases hresult
      rw [taken_text hs hl, ← List.append_assoc]
      refine List.pairwise_cons.2 ⟨fun pos hmem => ?_, ih rfl⟩
      rcases List.mem_append.1 hmem with hmem | hmem
      · obtain ⟨t, ht, rfl⟩ := List.mem_map.1 hmem
        obtain ⟨-, -, -, hplaced⟩ := hscans.places
        obtain ⟨i, hi⟩ := List.mem_iff_getElem?.1 ht
        rw [(hplaced i t hi).pos, ← Position.after_start, List.append_assoc]
        exact pos_precedes hbefore hs hl _
      · rw [List.mem_singleton.1 hmem]
        exact pos_precedes hbefore hs hl _

/-- Every token is at a later position than the tokens before it. -/
theorem pairwise_stops {source : String} (h : scan source = .ok tokens) :
    (stops tokens (Position.start.after source.toList)).Pairwise Position.Precedes := by
  have hscans : Scans [] 0 source.toList (scan source) := scans_scanFrom (Nat.le_refl _) nofun
  rw [h] at hscans
  exact hscans.pairwise_stops

theorem nodup_stops {source : String} (h : scan source = .ok tokens) :
    (stops tokens (Position.start.after source.toList)).Nodup :=
  (pairwise_stops h).imp Position.Precedes.ne

end GraphQL.Token
