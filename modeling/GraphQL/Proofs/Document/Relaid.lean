import GraphQL.Proofs.Document.Uniform
import GraphQL.Proofs.Token.Relaid

/-!
# Ignored text has no meaning

Two sources with the same lexemes are read alike: either their documents are equal but for positions,
or both are wrong at the same token.
-/

namespace GraphQL

open Token (Lexeme Place lexeme stops Gaps relaid)

/-- Where a token stands. -/
def Token.place (t : Token) : Place :=
  ⟨t.pos, t.offset, t.trivia, t.prev⟩

/-- The place of the end of a source. -/
def Position.place (p : Position) : Place :=
  ⟨p, 0, "", none⟩

/-- The places of tokens, and of the end. -/
def Token.places (tokens : List Token) (finish : Position) : List Place :=
  tokens.map Token.place ++ [finish.place]

/-- Moves the first places to the second ones, whatever stands elsewhere to another place. -/
def Move.along : List Place → List Place → Place → Move
  | x :: xs, y :: ys, other => fun p => if p = x.pos then y else along xs ys other p
  | _, _, other => fun _ => other

/-- Moves everything to one place, so that only what does not depend on places is left. -/
def Move.away : Move :=
  fun _ => Position.start.place

/-- The document without its positions. -/
def Document.unplaced (d : Document) : Document :=
  d.moved Move.away

/-- The cause of an error without the place of its token. -/
def ParseError.Cause.unplaced (cause : ParseError.Cause) : ParseError.Cause :=
  cause.moved Move.away

/-- Two parses give the same document up to positions, or fail at stops of the same index, and for the
same cause. -/
def Document.ParsedAlike (stops stops' : List Position) :
    Except ParseError Document → Except ParseError Document → Prop
  | .ok d, .ok d' => d'.unplaced = d.unplaced
  | .error e, .error e' => ∃ i : Nat, stops[i]? = some e.pos ∧ stops'[i]? = some e'.pos ∧
      e'.cause.unplaced = e.cause.unplaced
  | _, _ => False

variable {tokens tokens' : List Token} {finish finish' p : Position} {xs ys : List Place}

/-! ## Moving tokens -/

theorem Token.eq_of_place {t t' : Token} (h : lexeme t' = lexeme t) (hp : t'.place = t.place) :
    t' = t := by
  obtain ⟨kind, raw, value, pos, offset, trivia, prev⟩ := t
  obtain ⟨kind', raw', value', pos', offset', trivia', prev'⟩ := t'
  simp only [lexeme, Lexeme.mk.injEq, String.toList_inj] at h
  simp only [place, Place.mk.injEq] at hp
  obtain ⟨rfl, rfl, rfl⟩ := h
  obtain ⟨rfl, rfl, rfl, rfl⟩ := hp
  rfl

theorem Token.moved_eq {m : Move} {t t' : Token} (h : lexeme t' = lexeme t) (hm : m t.pos = t'.place) :
    t.moved m = t' :=
  eq_of_place (t := t') h.symm hm

theorem Token.map_moved_away (h : tokens'.map lexeme = tokens.map lexeme) :
    tokens'.map (Token.moved .away) = tokens.map (Token.moved .away) := by
  induction tokens generalizing tokens' with
  | nil =>
    obtain rfl := List.map_eq_nil_iff.1 h
    rfl
  | cons t ts ih =>
    obtain ⟨t', ts', rfl, ht, hts⟩ := List.map_eq_cons_iff.1 h
    rw [List.map_cons, List.map_cons, ih hts]
    have hmoved : t'.moved .away = t.moved .away := moved_eq ht.symm rfl
    rw [hmoved]

theorem Token.map_moved_along (h : tokens'.map lexeme = tokens.map lexeme)
    (hnodup : (stops tokens finish).Nodup) (finish' : Position) (other : Place) :
    tokens.map (Token.moved (.along (places tokens finish) (places tokens' finish') other)) =
      tokens' := by
  induction tokens generalizing tokens' with
  | nil => exact (List.map_eq_nil_iff.1 h).symm
  | cons t ts ih =>
    obtain ⟨t', ts', rfl, ht, hts⟩ := List.map_eq_cons_iff.1 h
    obtain ⟨hfirst, hrest⟩ := List.nodup_cons.1 hnodup
    rw [List.map_cons, moved_eq ht (if_pos rfl)]
    refine congrArg (t' :: ·) (Eq.trans ?_ (ih hts hrest))
    refine List.map_congr_left fun u hu => ?_
    -- The other tokens are not where the first one is.
    have hne : u.pos ≠ t.pos := by
      rintro he
      exact hfirst (he ▸ List.mem_append_left _ (List.mem_map_of_mem hu))
    have hmove : Move.along (places (t :: ts) finish) (places (t' :: ts') finish') other u.pos =
        Move.along (places ts finish) (places ts' finish') other u.pos := if_neg hne
    simp only [moved, Position.moved, hmove]

theorem Move.along_finish (h : tokens'.map lexeme = tokens.map lexeme)
    (hnodup : (stops tokens finish).Nodup) (finish' : Position) (other : Place) :
    along (Token.places tokens finish) (Token.places tokens' finish') other finish =
      finish'.place := by
  induction tokens generalizing tokens' with
  | nil =>
    obtain rfl := List.map_eq_nil_iff.1 h
    exact if_pos rfl
  | cons t ts ih =>
    obtain ⟨t', ts', rfl, -, hts⟩ := List.map_eq_cons_iff.1 h
    obtain ⟨hfirst, hrest⟩ := List.nodup_cons.1 hnodup
    have hne : finish ≠ t.pos := by
      rintro he
      exact hfirst (he ▸ List.mem_append_right _ (List.mem_singleton_self _))
    exact (if_neg hne).trans (ih hts hrest)

/-- A position goes to the place that belongs to it, or else to the other place. -/
theorem Move.along_cases (xs ys : List Place) (p : Position) :
    (∃ (i : Nat) (y : Place), (xs.map Place.pos)[i]? = some p ∧ ys[i]? = some y ∧
      ∀ other, along xs ys other p = y) ∨ ∀ other, along xs ys other p = other := by
  induction xs generalizing ys with
  | nil => exact .inr fun _ => rfl
  | cons x xs ih =>
    cases ys with
    | nil => exact .inr fun _ => rfl
    | cons y ys =>
      by_cases hp : p = x.pos
      · exact .inl ⟨0, y, congrArg some hp.symm, rfl, fun _ => if_pos hp⟩
      · rcases ih ys with ⟨i, z, hi, hz, halong⟩ | hother
        · exact .inl ⟨i + 1, z, hi, hz, fun other => (if_neg hp).trans (halong other)⟩
        · exact .inr fun other => (if_neg hp).trans (hother other)

theorem Token.map_pos_places (tokens : List Token) (finish : Position) :
    (places tokens finish).map Place.pos = stops tokens finish := by
  rw [places, List.map_append, List.map_map]
  rfl

/-- A position that does not go elsewhere with the other place is a stop, and goes to that stop. -/
theorem Move.exists_stop {q : Position}
    (h : ∀ other, (along (Token.places tokens finish) (Token.places tokens' finish') other p).pos = q) :
    ∃ i : Nat, (stops tokens finish)[i]? = some p ∧ (stops tokens' finish')[i]? = some q := by
  rcases along_cases (Token.places tokens finish) (Token.places tokens' finish') p with
    ⟨i, y, hp, hy, halong⟩ | hother
  · refine ⟨i, by rwa [← Token.map_pos_places], ?_⟩
    rw [← h Position.start.place, halong, ← Token.map_pos_places, List.getElem?_map, hy]
    rfl
  · have hnext := h q.nextLine.place
    rw [hother] at hnext
    have hline : q.line + 1 = q.line := congrArg Position.line hnext
    omega

/-! ## Reading moved tokens -/

/-- A rule of the grammar reads tokens with the same lexemes alike: what it gives is the same but for
positions, or it fails at the same token. -/
theorem Parser.Uniform.alike {α : Type} {p : Parser α} {f : Move → α → α}
    (hp : ∀ m, Uniform m p p (f m)) (h : tokens'.map lexeme = tokens.map lexeme)
    (hnodup : (stops tokens finish).Nodup) (finish' : Position) :
    match p ⟨tokens, finish⟩, p ⟨tokens', finish'⟩ with
    | .ok (a, _), .ok (a', _) => f .away a' = f .away a
    | .error e, .error e' => ∃ i : Nat, (stops tokens finish)[i]? = some e.pos ∧
        (stops tokens' finish')[i]? = some e'.pos ∧ e'.cause.unplaced = e.cause.unplaced
    | _, _ => False := by
  have haway : Cursor.moved .away ⟨tokens', finish'⟩ = Cursor.moved .away ⟨tokens, finish⟩ := by
    rw [Cursor.moved, Cursor.moved, Token.map_moved_away h]
    rfl
  have halong : ∀ other, Cursor.moved
      (.along (Token.places tokens finish) (Token.places tokens' finish') other) ⟨tokens, finish⟩ =
      ⟨tokens', finish'⟩ := by
    intro other
    rw [Cursor.moved, Token.map_moved_along h hnodup, Position.moved, Move.along_finish h hnodup]
    rfl
  have hsame := hp .away ⟨tokens', finish'⟩
  rw [haway, hp .away ⟨tokens, finish⟩] at hsame
  have hmoved : ∀ other, p ⟨tokens', finish'⟩ = movedResult
      (.along (Token.places tokens finish) (Token.places tokens' finish') other) (f _)
      (p ⟨tokens, finish⟩) := fun other => by
    rw [← halong other]
    exact hp _ _
  cases hr : p ⟨tokens, finish⟩ with
  | ok r =>
    have hr' := hmoved Position.start.place
    rw [hr] at hr' hsame
    rw [hr'] at hsame ⊢
    exact (congrArg Prod.fst (Except.ok.inj hsame)).symm
  | error e =>
    have hr' := hmoved Position.start.place
    rw [hr] at hr' hsame
    rw [hr'] at hsame ⊢
    obtain ⟨i, hi, hi'⟩ := Move.exists_stop (p := e.pos) fun other => by
      have he := hmoved other
      rw [hr, hr'] at he
      exact (congrArg ParseFailure.pos (Except.error.inj he)).symm
    exact ⟨i, hi, hi', (congrArg ParseFailure.cause (Except.error.inj hsame)).symm⟩

/-! ## Whole sources -/

/-- What parsing a source gives, by its tokens. -/
theorem Document.parse_eq {source : String} (h : Token.scan source = .ok tokens)
    (filename : Option String) : Document.parse source filename =
      match Parser.definitions ⟨tokens, Position.start.after source.toList⟩ with
      | .ok (ds, _) => .ok ⟨ds, filename⟩
      | .error e => .error ⟨e.cause, e.pos, filename⟩ := by
  unfold Document.parse Parser.parse
  simp only [h]
  cases Parser.definitions ⟨tokens, Position.start.after source.toList⟩ <;> rfl

/-- Other ignored text between the tokens of a source leaves the tokens as they are, but for where
they stand, and so the document, or the token at which the source is wrong. -/
theorem Document.parse_relaid {source source' : String} {gaps : List (List Char)} {last : List Char}
    (h : Token.scan source = .ok tokens) (hgaps : Gaps tokens.length gaps last)
    (hsource' : source'.toList = relaid (tokens.map fun t => t.raw.toList) gaps last)
    (filename : Option String) :
    ∃ tokens', Token.scan source' = .ok tokens' ∧ tokens'.map lexeme = tokens.map lexeme ∧
      Document.ParsedAlike (stops tokens (Position.start.after source.toList))
        (stops tokens' (Position.start.after source'.toList))
        (Document.parse source filename) (Document.parse source' filename) := by
  obtain ⟨tokens', hscan, hlexemes⟩ := Token.scan_relaid h hgaps hsource'
  refine ⟨tokens', hscan, hlexemes, ?_⟩
  have halike := Parser.Uniform.alike (fun _ => .definitions) hlexemes (Token.nodup_stops h)
    (Position.start.after source'.toList)
  rw [Document.parse_eq h, Document.parse_eq hscan]
  cases hr : Parser.definitions ⟨tokens, Position.start.after source.toList⟩ with
  | ok r =>
    cases hr' : Parser.definitions ⟨tokens', Position.start.after source'.toList⟩ with
    | ok r' =>
      rw [hr, hr'] at halike
      simp only [ParsedAlike, Document.unplaced, Document.moved, halike]
    | error e' =>
      rw [hr, hr'] at halike
      exact halike.elim
  | error e =>
    cases hr' : Parser.definitions ⟨tokens', Position.start.after source'.toList⟩ with
    | ok r' =>
      rw [hr, hr'] at halike
      exact halike.elim
    | error e' =>
      rw [hr, hr'] at halike
      exact halike

namespace Sample

/-- The tokens of a query for one field, written without blanks. -/
def queryTokens : List Token :=
  [⟨.leftBrace, "\x7b", "\x7b", ⟨1, 1⟩, 0, "", none⟩, ⟨.identifier, "a", "a", ⟨1, 2⟩, 1, "", some 0⟩,
    ⟨.rightBrace, "\x7d", "\x7d", ⟨1, 3⟩, 2, "", some 1⟩]

/-- A comment, a comma and a line break. -/
def queryGaps : List (List Char) :=
  [['#', '{', '\n'], [','], ['\r', '\n']]

theorem gaps_between : Gaps queryTokens.length queryGaps [' ', '#'] where
  length := rfl
  layout := by
    have htext : Token.NoBreak ['{'] := List.forall_mem_cons.2 ⟨rfl, nofun⟩
    exact List.forall_mem_cons.2 ⟨.comment htext rfl .nil, List.forall_mem_cons.2
      ⟨.ignored rfl .nil, List.forall_mem_cons.2 ⟨.ignored rfl (.ignored rfl .nil), nofun⟩⟩⟩
  apart := by decide
  trailing := .comment (.ignored rfl .nil) nofun

end Sample

theorem Document.parse_relaid_sample :
    Token.scan "\x7ba\x7d" = .ok Sample.queryTokens ∧
    Gaps Sample.queryTokens.length Sample.queryGaps [' ', '#'] ∧
    ∃ tokens', Token.scan "#\x7b\n\x7b,a\r\n\x7d #" = .ok tokens' ∧
      tokens'.map lexeme = Sample.queryTokens.map lexeme ∧
      Document.ParsedAlike (stops Sample.queryTokens (Position.start.after "\x7ba\x7d".toList))
        (stops tokens' (Position.start.after "#\x7b\n\x7b,a\r\n\x7d #".toList))
        (Document.parse "\x7ba\x7d" none) (Document.parse "#\x7b\n\x7b,a\r\n\x7d #" none) :=
  ⟨rfl, Sample.gaps_between, Document.parse_relaid rfl Sample.gaps_between (by decide) none⟩

end GraphQL
