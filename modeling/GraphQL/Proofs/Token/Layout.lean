import GraphQL.Proofs.Token.Lexeme

/-!
# Text that is ignored

`Layout` is the text that may stand between two tokens, `Trailing` what may stand after the last one,
where a comment need not end. Scanning ignores just such text: what `splitIgnored` takes off is layout
(`layout_splitIgnored`), and it takes off all of a layout (`splitIgnored_layout`).
-/

namespace GraphQL.Token

def NoBreak (cs : List Char) : Prop :=
  ∀ c ∈ cs, isLineBreak c = false

/-- Blanks, tabs, commas, line breaks, byte order marks, and comments with the line breaks that end
them. -/
inductive Layout : List Char → Prop where
  | nil : Layout []
  | ignored {c : Char} {cs : List Char} : isIgnored c = true → Layout cs → Layout (c :: cs)
  | comment {text cs : List Char} {c : Char} : NoBreak text → isLineBreak c = true → Layout cs →
      Layout ('#' :: (text ++ c :: cs))

/-- Layout, or layout before a comment that goes on to the end of the source. -/
inductive Trailing : List Char → Prop where
  | closed {cs : List Char} : Layout cs → Trailing cs
  | comment {cs text : List Char} : Layout cs → NoBreak text → Trailing (cs ++ '#' :: text)

variable {c : Char} {cs ds text rest : List Char}

theorem noBreak_nil : NoBreak [] :=
  nofun

theorem NoBreak.cons (hc : isLineBreak c = false) (h : NoBreak cs) : NoBreak (c :: cs) :=
  List.forall_mem_cons.2 ⟨hc, h⟩

theorem isIgnored_of_isLineBreak (h : isLineBreak c = true) : isIgnored c = true := by
  have hc : c = '\n' ∨ c = '\r' := by simpa [isLineBreak] using h
  rcases hc with rfl | rfl <;> rfl

/-- A comment without text, with the line break that ends it. -/
theorem Layout.sign (h : Layout cs) (hc : isLineBreak c = true) : Layout ('#' :: c :: cs) :=
  .comment noBreak_nil hc h

theorem Layout.append (h : Layout cs) (h' : Layout ds) : Layout (cs ++ ds) := by
  induction h with
  | nil => exact h'
  | ignored hc _ ih => exact .ignored hc ih
  | comment htext hc _ ih =>
    rw [List.cons_append, List.append_assoc, List.cons_append]
    exact .comment htext hc ih

theorem Layout.trailing (h : Layout cs) (h' : Trailing ds) : Trailing (cs ++ ds) := by
  cases h' with
  | closed h' => exact .closed (h.append h')
  | comment h' htext =>
    rw [← List.append_assoc]
    exact .comment (h.append h') htext

/-- A comment goes on for as long as no line break comes. -/
theorem Layout.extend (h : Layout ('#' :: cs)) (hc : isLineBreak c = false) :
    Layout ('#' :: c :: cs) := by
  cases h with
  | ignored hi _ => cases hi
  | comment htext hb hrest => exact .comment (htext.cons hc) hb hrest

theorem Trailing.cons_ignored (h : Trailing cs) (hc : isIgnored c = true) : Trailing (c :: cs) :=
  (Layout.ignored hc .nil).trailing h

theorem Trailing.extend (h : Trailing ('#' :: cs)) (hc : isLineBreak c = false) :
    Trailing ('#' :: c :: cs) := by
  generalize he : '#' :: cs = ds at h
  cases h with
  | closed h =>
    subst he
    exact .closed (h.extend hc)
  | @comment before text h htext =>
    cases h with
    | nil =>
      cases he
      exact .comment .nil (htext.cons hc)
    | ignored hi _ =>
      cases he
      cases hi
    | @comment inner after b hinner hb hafter =>
      cases he
      have := Trailing.comment (.comment (hinner.cons hc) hb hafter) htext
      simpa using this

/-- The first character of layout is ignored, or starts a comment. -/
theorem Layout.head (h : Layout cs) : ∀ c ∈ cs.head?, isIgnored c = true ∨ c = '#' := by
  cases h with
  | nil => exact nofun
  | ignored hc _ =>
    rintro _ ⟨⟩
    exact .inl hc
  | comment =>
    rintro _ ⟨⟩
    exact .inr rfl

theorem Trailing.head (h : Trailing cs) : ∀ c ∈ cs.head?, isIgnored c = true ∨ c = '#' := by
  cases h with
  | closed h => exact h.head
  | comment h _ =>
    cases h with
    | nil =>
      rintro _ ⟨⟩
      exact .inr rfl
    | ignored hc _ =>
      rintro _ ⟨⟩
      exact .inl hc
    | comment =>
      rintro _ ⟨⟩
      exact .inr rfl

/-! ## Taking it off -/

theorem splitIgnored_append (inComment : Bool) (cs : List Char) :
    (splitIgnored inComment cs).1 ++ (splitIgnored inComment cs).2 = cs := by
  fun_induction splitIgnored inComment cs <;> simp_all

/-- What the taken text is, behind the sign of the comment that it may start in. -/
theorem layout_splitIgnored_comment (inComment : Bool) (cs : List Char) :
    ((splitIgnored inComment cs).2 ≠ [] →
      Layout ((if inComment then ['#'] else []) ++ (splitIgnored inComment cs).1)) ∧
    Trailing ((if inComment then ['#'] else []) ++ (splitIgnored inComment cs).1) := by
  fun_induction splitIgnored inComment cs with
  | case1 inComment =>
    refine ⟨fun h => absurd rfl h, ?_⟩
    cases inComment with
    | false => exact .closed .nil
    | true => exact .comment .nil noBreak_nil
  | case2 inComment c cs hc taken rest he ih =>
    rw [he] at ih
    obtain ⟨rfl, hb⟩ : inComment = true ∧ isLineBreak c = false := by simpa using hc
    exact ⟨fun h => (ih.1 h).extend hb, ih.2.extend hb⟩
  | case3 inComment c cs hc hi taken rest he ih =>
    rw [he] at ih
    cases inComment with
    | false => exact ⟨fun h => .ignored hi (ih.1 h), ih.2.cons_ignored hi⟩
    | true =>
      have hb : isLineBreak c = true := by simpa using hc
      exact ⟨fun h => (ih.1 h).sign hb, (Layout.nil.sign hb).trailing ih.2⟩
  | case4 inComment cs taken rest he hc _ ih =>
    rw [he] at ih
    cases inComment with
    | false => exact ih
    | true => exact absurd rfl hc
  | case5 inComment c cs hc hi hhash =>
    cases inComment with
    | false => exact ⟨fun _ => .nil, .closed .nil⟩
    | true =>
      have hb : isLineBreak c = true := by simpa using hc
      exact absurd (isIgnored_of_isLineBreak hb) hi

theorem layout_splitIgnored (h : (splitIgnored false cs).2 ≠ []) :
    Layout (splitIgnored false cs).1 :=
  (layout_splitIgnored_comment false cs).1 h

theorem trailing_splitIgnored (cs : List Char) : Trailing (splitIgnored false cs).1 :=
  (layout_splitIgnored_comment false cs).2

/-- What comes after the ignored text starts a token. -/
theorem head_splitIgnored (inComment : Bool) (cs : List Char) :
    ∀ c ∈ (splitIgnored inComment cs).2.head?, isIgnored c = false ∧ c ≠ '#' := by
  fun_induction splitIgnored inComment cs with
  | case1 =>
    intro c hc
    cases hc
  | case2 _ _ _ _ _ _ he ih | case3 _ _ _ _ _ _ _ he ih | case4 _ _ _ _ he _ _ ih =>
    rw [he] at ih
    exact ih
  | case5 _ c cs hc hi hhash =>
    rintro _ ⟨⟩
    exact ⟨by simpa using hi, hhash⟩

theorem splitIgnored_noBreak (h : NoBreak text) (hc : isLineBreak c = true) (rest : List Char) :
    splitIgnored true (text ++ c :: rest) =
      (text ++ c :: (splitIgnored false rest).1, (splitIgnored false rest).2) := by
  induction text with
  | nil => simp [splitIgnored, hc, isIgnored_of_isLineBreak hc]
  | cons d text ih =>
    obtain ⟨hd, htext⟩ := List.forall_mem_cons.1 h
    simp [splitIgnored, hd, ih htext]

theorem splitIgnored_noBreak_end (h : NoBreak text) : splitIgnored true text = (text, []) := by
  induction text with
  | nil => rfl
  | cons d text ih =>
    obtain ⟨hd, htext⟩ := List.forall_mem_cons.1 h
    simp [splitIgnored, hd, ih htext]

/-- All of a layout is taken off, and what is ignored after it. -/
theorem Layout.splitIgnored_append (h : Layout cs) (rest : List Char) :
    splitIgnored false (cs ++ rest) =
      (cs ++ (splitIgnored false rest).1, (splitIgnored false rest).2) := by
  induction h with
  | nil => rfl
  | ignored hc _ ih => simp [splitIgnored, hc, ih]
  | comment htext hb _ ih =>
    simp [splitIgnored, isIgnored, splitIgnored_noBreak htext hb, ih]

/-- Layout before a token is taken off as it is. -/
theorem splitIgnored_layout (h : Layout cs) (hc : isIgnored c = false) (hhash : c ≠ '#') :
    splitIgnored false (cs ++ c :: rest) = (cs, c :: rest) := by
  rw [h.splitIgnored_append]
  simp [splitIgnored, hc, hhash]

theorem splitIgnored_trailing (h : Trailing cs) : splitIgnored false cs = (cs, []) := by
  cases h with
  | closed h =>
    have := h.splitIgnored_append []
    rw [List.append_nil] at this
    rw [this]
    simp [splitIgnored]
  | comment h htext =>
    rw [h.splitIgnored_append]
    simp [splitIgnored, isIgnored, splitIgnored_noBreak_end htext]

end GraphQL.Token
