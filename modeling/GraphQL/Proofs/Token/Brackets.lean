import GraphQL.Token

/-!
# Brackets and keys

Where the object literals of a document are, and what their keys are, can be seen from its tokens.
In operations and fragments braces are those of object literals only between parentheses, and
elsewhere those of selections. A key is a token before a colon, at the level of the braces of its
object.
-/

namespace GraphQL.Token

variable {ts us vs : List Token} {t o c : Token}

/-- The kind that closes what this one opens. -/
def Kind.closing? : Kind → Option Kind
  | .leftParen => some .rightParen
  | .leftBracket => some .rightBracket
  | .leftBrace => some .rightBrace
  | _ => none

def Kind.isBracket (kind : Kind) : Bool :=
  [leftParen, rightParen, leftBracket, rightBracket, leftBrace, rightBrace].contains kind

/-- Tokens each of whose brackets is opened and closed among them. -/
inductive Balanced : List Token → Prop where
  | nil : Balanced []
  | plain {t : Token} {ts : List Token} : t.kind.isBracket = false → Balanced ts →
      Balanced (t :: ts)
  | nested {o c : Token} {inner ts : List Token} : o.kind.closing? = some c.kind →
      Balanced inner → Balanced ts → Balanced (o :: (inner ++ c :: ts))

/-- No two keys of an object are alike, where `ts` comes after its opening brace. -/
def KeysApart (ts : List Token) : Prop :=
  ∀ x key colon y key' colon' z, ts = x ++ key :: colon :: (y ++ key' :: colon' :: z) →
    Balanced x → Balanced y → colon.kind = .colon → colon'.kind = .colon → key.raw ≠ key'.raw

/-- No object has two keys alike, where all braces are those of objects. -/
def DistinctKeys (ts : List Token) : Prop :=
  ∀ before o after, ts = before ++ o :: after → o.kind = .leftBrace → KeysApart after

/-- No object between parentheses has two keys alike. -/
def DistinctObjectKeys (ts : List Token) : Prop :=
  ∀ before o inner c after, ts = before ++ o :: (inner ++ c :: after) → o.kind = .leftParen →
    c.kind = .rightParen → Balanced inner → DistinctKeys inner

/-! ## Brackets -/

theorem Balanced.append (h : Balanced ts) (h' : Balanced us) : Balanced (ts ++ us) := by
  induction h with
  | nil => exact h'
  | plain ht _ ih => exact .plain ht ih
  | nested hc hinner _ _ ih =>
    rw [List.cons_append, List.append_assoc, List.cons_append]
    exact .nested hc hinner ih

theorem Balanced.between (hc : o.kind.closing? = some c.kind) (h : Balanced ts) :
    Balanced (o :: (ts ++ [c])) :=
  .nested hc h .nil

theorem Balanced.singleton (h : t.kind.isBracket = false) : Balanced [t] :=
  .plain h .nil

/-! ## Keys -/

theorem KeysApart.of_append (h : KeysApart (ts ++ us)) : KeysApart ts := by
  rintro x key colon y key' colon' z rfl
  refine h x key colon y key' colon' (z ++ us) ?_
  simp

theorem KeysApart.drop (h : KeysApart (ts ++ us)) (hts : Balanced ts) : KeysApart us := by
  rintro x key colon y key' colon' z rfl hx
  exact h (ts ++ x) key colon y key' colon' z (by simp) (hts.append hx)

theorem DistinctKeys.of_infix (h : DistinctKeys ts) (hus : us <:+: ts) : DistinctKeys us := by
  obtain ⟨before, after, rfl⟩ := hus
  rintro x o y rfl ho
  exact (h (before ++ x) o (y ++ after) (by simp) ho).of_append

theorem DistinctObjectKeys.of_infix (h : DistinctObjectKeys ts) (hus : us <:+: ts) :
    DistinctObjectKeys us := by
  obtain ⟨before, after, rfl⟩ := hus
  rintro x o inner c y rfl
  exact h (before ++ x) o inner c (y ++ after) (by simp)

/-- The texts of the tokens that come before a colon. -/
def keyTexts : List Token → List String
  | key :: colon :: rest =>
    if colon.kind = .colon then key.raw :: keyTexts (colon :: rest) else keyTexts (colon :: rest)
  | _ => []

theorem keyTexts_sublist (t : Token) (ts : List Token) :
    (keyTexts ts).Sublist (keyTexts (t :: ts)) := by
  cases ts with
  | nil => exact List.Sublist.refl _
  | cons u ts =>
    rw [keyTexts]
    split
    · exact List.sublist_cons_self ..
    · exact List.Sublist.refl _

theorem keyTexts_sublist_append (ts us : List Token) :
    (keyTexts us).Sublist (keyTexts (ts ++ us)) := by
  induction ts with
  | nil => exact List.Sublist.refl _
  | cons t ts ih => exact ih.trans (keyTexts_sublist t (ts ++ us))

/-- Where no text comes before two colons, there are no keys alike. -/
theorem distinctObjectKeys_of_nodup (h : (keyTexts ts).Nodup) : DistinctObjectKeys ts := by
  rintro before o inner c after rfl - - - before' o' rest rfl - x key colon y key' colon' z rfl - -
    hcolon hcolon'
  have hkey : ∀ k co us, co.kind = .colon →
      keyTexts (k :: co :: us) = k.raw :: keyTexts (co :: us) :=
    fun k co us hco => by rw [keyTexts, if_pos hco]
  have hlater := keyTexts_sublist_append (colon :: y) (key' :: colon' :: (z ++ c :: after))
  rw [hkey _ _ _ hcolon'] at hlater
  have hboth := hlater.cons_cons key.raw
  rw [List.cons_append, ← hkey _ _ _ hcolon] at hboth
  have hall := hboth.trans (keyTexts_sublist_append (before ++ o :: (before' ++ o' :: x)) _)
  have hnodup : (key.raw :: key'.raw :: _).Nodup := List.Nodup.sublist hall (by simpa using h)
  exact fun heq => (List.nodup_cons.1 hnodup).1 (heq ▸ List.mem_cons_self ..)

end GraphQL.Token
