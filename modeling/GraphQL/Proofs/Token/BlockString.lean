import GraphQL.Proofs.Token.Lossless
import Mathlib.Data.List.Forall2
import Mathlib.Data.List.TakeWhile

/-!
# Block strings

What a block string denotes hangs on its lines and not on how they are broken or indented. `Written`
relates a text to its lines; `Dedented` says what is left of them: a run of lines without blank ones
at its ends, all but the first line cut by the least indentation there is (`dedented_dedent`). More
blanks in front of every line but the first are cut off again (`dedent_indented`), and the content of
a block string stays one (`isContent_iff`).
-/

namespace GraphQL

open Token (NoBreak isLineBreak)

namespace StringLiteral

/-- A text of these lines. Each but the last is ended by `\n`, by `\r\n` or by a `\r` that no `\n`
follows. -/
inductive Written : List (List Char) → List Char → Prop where
  | last {line : List Char} : NoBreak line → Written [line] line
  | feed {line cs : List Char} {ls : List (List Char)} : NoBreak line → Written ls cs →
      Written (line :: ls) (line ++ '\n' :: cs)
  | both {line cs : List Char} {ls : List (List Char)} : NoBreak line → Written ls cs →
      Written (line :: ls) (line ++ '\r' :: '\n' :: cs)
  | alone {line cs : List Char} {ls : List (List Char)} : NoBreak line → cs.head? ≠ some '\n' →
      Written ls cs → Written (line :: ls) (line ++ '\r' :: cs)

/-- The lines with `n` blanks in front of each. -/
def indented (n : Nat) (ls : List (List Char)) : List (List Char) :=
  ls.map (List.replicate n ' ' ++ ·)

/-- The least indentation of the lines that are not blank, zero if there are none. -/
structure Least (ls : List (List Char)) (c : Nat) : Prop where
  le : ∀ line ∈ ls, isBlankLine line = false → c ≤ indentation line
  attained : (∃ line ∈ ls, isBlankLine line = false ∧ indentation line = c) ∨
    (∀ line ∈ ls, isBlankLine line = true) ∧ c = 0

/-- What is left of a line without its first `c` characters, which indent it. Nothing is left of a
blank line that is shorter. -/
inductive Cut (c : Nat) : List Char → List Char → Prop where
  | off {indent line : List Char} : indent.length = c → isBlankLine indent = true →
      Cut c (indent ++ line) line
  | short {line : List Char} : line.length < c → isBlankLine line = true → Cut c line []

/-- The text is a run of the lines, of which all but the first are cut by the least indentation. Only
blank lines are left out, and none is left at either end. -/
def Dedented (first : List Char) (rest : List (List Char)) (text : List Char) : Prop :=
  ∃ c cut before kept after, Least rest c ∧ List.Forall₂ (Cut c) rest cut ∧
    first :: cut = before ++ kept ++ after ∧ text = Text.joined ['\n'] kept ∧
    (∀ line ∈ before ++ after, isBlankLine line = true) ∧
    (∀ line ∈ kept.head?, isBlankLine line = false) ∧
    ∀ line ∈ kept.getLast?, isBlankLine line = false

variable {c d : Char} {cs cs' line first : List Char} {ls rest : List (List Char)} {m n : Nat}

/-! ## Lines -/

theorem lines_cons (hc : isLineBreak c = false) (h : lines cs = line :: ls) :
    lines (c :: cs) = (c :: line) :: ls := by
  have hne : c ≠ '\n' ∧ c ≠ '\r' := by simpa [isLineBreak] using hc
  rw [lines, h]
  · rintro ds rfl
    exact absurd rfl hne.2
  · exact hne.2
  · exact hne.1

theorem lines_append (h : NoBreak line) (hcs : lines cs = first :: ls) :
    lines (line ++ cs) = (line ++ first) :: ls := by
  induction line with
  | nil => exact hcs
  | cons c line ih =>
    obtain ⟨hc, hline⟩ := List.forall_mem_cons.1 h
    exact lines_cons hc (ih hline)

theorem lines_carriage (h : cs.head? ≠ some '\n') : lines ('\r' :: cs) = [] :: lines cs := by
  rw [lines]
  rintro ds rfl
  exact h rfl

theorem Written.ne_nil (h : Written ls cs) : ls ≠ [] := by
  cases h <;> exact List.cons_ne_nil _ _

theorem Written.lines_eq (h : Written ls cs) : lines cs = ls := by
  induction h with
  | @last line h =>
    have hend : lines [] = [[]] := rfl
    have hlines := lines_append h hend
    rwa [List.append_nil] at hlines
  | @feed line cs ls h _ ih =>
    have hbreak : lines ('\n' :: cs) = [] :: lines cs := rfl
    have hlines := lines_append h hbreak
    rwa [List.append_nil, ih] at hlines
  | @both line cs ls h _ ih =>
    have hbreak : lines ('\r' :: '\n' :: cs) = [] :: lines cs := rfl
    have hlines := lines_append h hbreak
    rwa [List.append_nil, ih] at hlines
  | @alone line cs ls h hcs _ ih =>
    have hlines := lines_append h (lines_carriage hcs)
    rwa [List.append_nil, ih] at hlines

theorem Written.cons (hc : isLineBreak c = false) (h : Written (line :: ls) cs) :
    Written ((c :: line) :: ls) (c :: cs) := by
  cases h with
  | last h => exact .last (h.cons hc)
  | feed h hcs => exact .feed (h.cons hc) hcs
  | both h hcs => exact .both (h.cons hc) hcs
  | alone h hne hcs => exact .alone (h.cons hc) hne hcs

theorem written_lines (cs : List Char) : Written (lines cs) cs := by
  fun_induction lines cs with
  | case1 => exact .last Token.noBreak_nil
  | case2 cs ih => exact .both Token.noBreak_nil ih
  | case3 cs hne ih =>
    refine .alone Token.noBreak_nil (fun h => ?_) ih
    obtain ⟨ds, rfl⟩ := List.head?_eq_some_iff.1 h
    exact hne ds rfl
  | case4 cs ih => exact .feed Token.noBreak_nil ih
  | case5 c cs _ _ _ hnil ih =>
    rw [hnil] at ih
    cases ih
  | case6 c cs _ hcarriage hfeed line rest hcs ih =>
    rw [hcs] at ih
    exact ih.cons (by simpa [isLineBreak] using ⟨hfeed, hcarriage⟩)

/-- Every text is written in lines. -/
theorem exists_written (cs : List Char) : ∃ first rest, Written (first :: rest) cs := by
  have h := written_lines cs
  cases hls : lines cs with
  | nil =>
    rw [hls] at h
    cases h
  | cons first rest => exact ⟨first, rest, hls ▸ h⟩

/-! ## Indentation -/

theorem isBlankLine_append (cs ds : List Char) :
    isBlankLine (cs ++ ds) = (isBlankLine cs && isBlankLine ds) :=
  List.all_append

theorem isBlankLine_blanks (n : Nat) : isBlankLine (List.replicate n ' ') = true :=
  List.all_eq_true.2 fun c hc => by
    rw [List.eq_of_mem_replicate hc]
    rfl

theorem indentation_le (line : List Char) : indentation line ≤ line.length :=
  (List.takeWhile_sublist _).length_le

/-- What is cut off where a line is indented indents it. -/
theorem isBlankLine_take (h : n ≤ indentation line) : isBlankLine (line.take n) = true := by
  have hinit : line.take n <+: line.takeWhile isIndent :=
    List.prefix_of_prefix_length_le (List.take_prefix n line) (List.takeWhile_prefix _)
      (Nat.le_trans (List.length_take_le n line) h)
  exact List.all_eq_true.2 fun c hc => List.all_eq_true.1 List.all_takeWhile c (hinit.subset hc)

theorem indentation_append (h : isBlankLine cs = true) (line : List Char) :
    indentation (cs ++ line) = cs.length + indentation line := by
  rw [indentation, List.takeWhile_append_of_pos (List.all_eq_true.1 h), List.length_append]
  rfl

theorem least_commonIndentation (ls : List (List Char)) : Least ls (commonIndentation ls) := by
  have hmem : ∀ line, line ∈ ls.filter (fun line => !isBlankLine line) ↔
      line ∈ ls ∧ isBlankLine line = false := by simp
  unfold commonIndentation
  cases h : ((ls.filter fun line => !isBlankLine line).map indentation).min? with
  | none =>
    have hnil := List.map_eq_nil_iff.1 (List.min?_eq_none_iff.1 h)
    have hblank : ∀ line ∈ ls, isBlankLine line = true := fun line hl =>
      (Bool.not_eq_false _).mp fun hb => by
        have := (hmem line).2 ⟨hl, hb⟩
        rw [hnil] at this
        cases this
    exact ⟨fun line hl hb => absurd (hblank line hl) (by simp [hb]), .inr ⟨hblank, rfl⟩⟩
  | some c =>
    obtain ⟨hc, hle⟩ := List.min?_eq_some_iff.1 h
    obtain ⟨line, hline, rfl⟩ := List.mem_map.1 hc
    exact ⟨fun line hl hb => hle _ (List.mem_map_of_mem ((hmem line).2 ⟨hl, hb⟩)),
      .inl ⟨line, ((hmem line).1 hline).1, ((hmem line).1 hline).2, rfl⟩⟩

theorem Least.unique (h : Least ls m) (h' : Least ls n) : m = n := by
  rcases h.attained with ⟨line, hl, hb, rfl⟩ | ⟨hall, rfl⟩ <;>
    rcases h'.attained with ⟨line', hl', hb', rfl⟩ | ⟨hall', rfl⟩
  · exact Nat.le_antisymm (h.le line' hl' hb') (h'.le line hl hb)
  · rw [hall' line hl] at hb
    cases hb
  · rw [hall line' hl'] at hb'
    cases hb'
  · rfl

theorem Least.indented (h : Least ls m) (hne : ∃ line ∈ ls, isBlankLine line = false) (n : Nat) :
    Least (indented n ls) (n + m) := by
  have hblank : ∀ line, isBlankLine (List.replicate n ' ' ++ line) = isBlankLine line := fun line => by
    rw [isBlankLine_append, isBlankLine_blanks, Bool.true_and]
  have hindent : ∀ line, indentation (List.replicate n ' ' ++ line) = n + indentation line :=
    fun line => by rw [indentation_append (isBlankLine_blanks n), List.length_replicate]
  constructor
  · intro _ hi hb
    obtain ⟨line, hl, rfl⟩ := List.mem_map.1 hi
    rw [hblank] at hb
    rw [hindent]
    exact Nat.add_le_add_left (h.le line hl hb) n
  · rcases h.attained with ⟨line, hl, hb, rfl⟩ | ⟨hall, -⟩
    · exact .inl ⟨_, List.mem_map_of_mem hl, (hblank line).trans hb, hindent line⟩
    · obtain ⟨line, hl, hb⟩ := hne
      rw [hall line hl] at hb
      cases hb

theorem Least.cut (h : Least ls m) (hl : line ∈ ls) : Cut m line (line.drop m) := by
  by_cases hle : m ≤ line.length
  · have hindent : isBlankLine (line.take m) = true := by
      cases hb : isBlankLine line with
      | false => exact isBlankLine_take (h.le line hl hb)
      | true =>
        rw [← List.take_append_drop m line, isBlankLine_append, Bool.and_eq_true] at hb
        exact hb.1
    have hcut : Cut m (line.take m ++ line.drop m) (line.drop m) :=
      .off (List.length_take_of_le hle) hindent
    rwa [List.take_append_drop] at hcut
  · rw [List.drop_eq_nil_of_le (Nat.le_of_not_le hle)]
    refine .short (Nat.lt_of_not_le hle) ((Bool.not_eq_false _).mp fun hb => hle ?_)
    exact Nat.le_trans (h.le line hl hb) (indentation_le line)

/-! ## Blank lines at the ends -/

/-- What is trimmed off is blank, and what is left neither starts nor ends with a blank line. -/
theorem trimBlank_spec (ls : List (List Char)) : ∃ before after,
    ls = before ++ trimBlank ls ++ after ∧ (∀ line ∈ before ++ after, isBlankLine line = true) ∧
      (∀ line ∈ (trimBlank ls).head?, isBlankLine line = false) ∧
      ∀ line ∈ (trimBlank ls).getLast?, isBlankLine line = false := by
  obtain ⟨front, hfront⟩ : ∃ front, front = ls.dropWhile isBlankLine := ⟨_, rfl⟩
  have hsplit : front = trimBlank ls ++ (front.reverse.takeWhile isBlankLine).reverse := by
    rw [trimBlank, ← hfront, ← List.reverse_append, List.takeWhile_append_dropWhile,
      List.reverse_reverse]
  refine ⟨ls.takeWhile isBlankLine, (front.reverse.takeWhile isBlankLine).reverse, ?_, ?_, ?_, ?_⟩
  · rw [List.append_assoc, ← hsplit, hfront, List.takeWhile_append_dropWhile]
  · intro line hl
    rcases List.mem_append.1 hl with hl | hl
    · exact List.all_eq_true.1 List.all_takeWhile line hl
    · exact List.all_eq_true.1 List.all_takeWhile line (List.mem_reverse.1 hl)
  · intro line hl
    have hhead : line ∈ front.head? := by
      rw [hsplit, List.head?_append, hl]
      rfl
    have := List.head?_dropWhile_not isBlankLine ls
    rw [← hfront, hhead] at this
    simpa using this
  · intro line hl
    rw [trimBlank, List.getLast?_reverse] at hl
    have := List.head?_dropWhile_not isBlankLine (ls.dropWhile isBlankLine).reverse
    rw [hl] at this
    simpa using this

theorem trimBlank_of_blank (h : ∀ line ∈ ls, isBlankLine line = true) :
    trimBlank (first :: ls) = trimBlank [first] := by
  have hreverse : ∀ line ∈ ls.reverse, isBlankLine line = true := fun line hl =>
    h line (List.mem_reverse.1 hl)
  unfold trimBlank
  cases hb : isBlankLine first with
  | true =>
    rw [List.dropWhile_cons_of_pos hb, List.dropWhile_cons_of_pos hb, List.dropWhile_eq_nil_iff.2 h]
    rfl
  | false =>
    rw [List.dropWhile_cons_of_neg (by simp [hb]), List.dropWhile_cons_of_neg (by simp [hb]),
      List.reverse_cons, List.dropWhile_append_of_pos hreverse, List.reverse_singleton]

/-! ## What is left -/

theorem dedent_eq (h : Written (first :: rest) cs) : dedent cs = Text.joined ['\n']
    (trimBlank (first :: rest.map (List.drop (commonIndentation rest)))) := by
  rw [dedent, h.lines_eq, unindent]

theorem dedented_dedent (h : Written (first :: rest) cs) : Dedented first rest (dedent cs) := by
  have hleast := least_commonIndentation rest
  obtain ⟨before, after, hls, hblank, hhead, hlast⟩ :=
    trimBlank_spec (first :: rest.map (List.drop (commonIndentation rest)))
  refine ⟨_, _, before, _, after, hleast, ?_, hls, dedent_eq h, hblank, hhead, hlast⟩
  rw [List.forall₂_map_right_iff, List.forall₂_same]
  exact fun line => hleast.cut

example : dedent "\r\n    a\n\n      b\r \n".toList = "a\n\n  b".toList := by decide

theorem blank_drop (h : ∀ line ∈ ls, isBlankLine line = true) (n : Nat) :
    ∀ line ∈ ls.map (List.drop n), isBlankLine line = true := by
  intro _ hd
  obtain ⟨line, hl, rfl⟩ := List.mem_map.1 hd
  have := h line hl
  rw [← List.take_append_drop n line, isBlankLine_append, Bool.and_eq_true] at this
  exact this.2

theorem blank_indented (h : ∀ line ∈ ls, isBlankLine line = true) (n : Nat) :
    ∀ line ∈ indented n ls, isBlankLine line = true := by
  intro _ hi
  obtain ⟨line, hl, rfl⟩ := List.mem_map.1 hi
  rw [isBlankLine_append, isBlankLine_blanks, h line hl]
  rfl

/-- Blanks in front of every line but the first make no difference. -/
theorem dedent_indented (h : Written (first :: rest) cs)
    (h' : Written (first :: indented n rest) cs') : dedent cs' = dedent cs := by
  rw [dedent_eq h, dedent_eq h']
  by_cases hne : ∃ line ∈ rest, isBlankLine line = false
  · have hcommon : commonIndentation (indented n rest) = n + commonIndentation rest :=
      (least_commonIndentation _).unique ((least_commonIndentation rest).indented hne n)
    have hdrop : ∀ line, List.drop (n + commonIndentation rest) (List.replicate n ' ' ++ line) =
        line.drop (commonIndentation rest) := by simp [List.drop_append]
    have hrest : (indented n rest).map (List.drop (n + commonIndentation rest)) =
        rest.map (List.drop (commonIndentation rest)) := by
      rw [indented, List.map_map]
      exact List.map_congr_left fun line _ => hdrop line
    rw [hcommon, hrest]
  · -- Without another line that is not blank, nothing but the first line can be left.
    have hblank : ∀ line ∈ rest, isBlankLine line = true := fun line hl =>
      (Bool.not_eq_false _).mp fun hb => hne ⟨line, hl, hb⟩
    rw [trimBlank_of_blank (blank_drop hblank _),
      trimBlank_of_blank (blank_drop (blank_indented hblank n) _)]

end StringLiteral

namespace Token

open StringLiteral (Written indented)

variable {b : Char} {cs cs' line first content rest : List Char} {ls : List (List Char)}

/-! ## The content of a block string -/

/-- The text stands between the quotes of a block string, whatever comes after it. -/
def IsContent (content : List Char) : Prop :=
  ∀ rest, splitBlock (content ++ '"' :: '"' :: '"' :: rest) = some (content, rest)

theorem splitBlock_cons (hquote : b ≠ '"') (hslash : b ≠ '\\') (cs : List Char) :
    splitBlock (b :: cs) = (splitBlock cs).map fun p => (b :: p.1, p.2) := by
  rw [splitBlock]
  · exact fun _ he => absurd he hquote
  · exact fun _ he => absurd he hslash

/-- Quotes in front of a text are in front of what comes before another character. -/
theorem exists_quotes (hb : b ≠ '"') (k : Nat) : ∀ {line : List Char},
    line ++ b :: cs = List.replicate k '"' ++ rest → ∃ more, line = List.replicate k '"' ++ more := by
  induction k with
  | zero => exact fun {line} _ => ⟨line, rfl⟩
  | succ k ih =>
    intro line h
    rw [List.replicate_succ, List.cons_append] at h
    cases line with
    | nil => exact absurd (List.cons.inj h).1 hb
    | cons c line =>
      obtain ⟨rfl, hline⟩ := List.cons.inj h
      obtain ⟨more, rfl⟩ := ih hline
      exact ⟨more, rfl⟩

/-- A text without quotes that close it is passed over, if what comes next is no quote. -/
theorem splitBlock_open (h : splitBlock line = none) (hb : b ≠ '"') (cs : List Char) :
    splitBlock (line ++ b :: cs) = (splitBlock (b :: cs)).map fun p => (line ++ p.1, p.2) := by
  fun_induction splitBlock line with
  | case1 => simp
  | case2 => cases h
  | case3 line ih =>
    simp only [List.cons_append]
    rw [splitBlock, ih (Option.map_eq_none_iff.1 h), Option.map_map]
    rfl
  | case4 c line hclosing hescaped ih =>
    rw [List.cons_append, splitBlock, ih (Option.map_eq_none_iff.1 h), Option.map_map]
    · rfl
    · rintro ds rfl he
      obtain ⟨more, rfl⟩ := exists_quotes hb 2 he
      exact hclosing more rfl rfl
    · rintro ds rfl he
      obtain ⟨more, rfl⟩ := exists_quotes hb 3 he
      exact hescaped more rfl rfl

/-- A text without quotes that close it, and what comes after a character that is none and escapes
none, are content together if what comes after is content. -/
theorem isContent_append (hquote : b ≠ '"') (hslash : b ≠ '\\') (cs : List Char) :
    IsContent (line ++ b :: cs) ↔ splitBlock line = none ∧ IsContent cs := by
  have hopen : splitBlock line = none → ∀ rest, splitBlock (line ++ b :: cs ++ rest) =
      (splitBlock (cs ++ rest)).map fun p => (line ++ b :: p.1, p.2) := by
    intro h rest
    rw [List.append_assoc, List.cons_append, splitBlock_open h hquote, splitBlock_cons hquote hslash,
      Option.map_map]
    rfl
  constructor
  · intro h
    have hline : splitBlock line = none := by
      cases hs : splitBlock line with
      | none => rfl
      | some p =>
        obtain ⟨content, rest⟩ := p
        have hline := splitBlock_append hs
        have hsplit := h []
        have hextent := splitBlock_extent hs (rest ++ b :: cs ++ ['"', '"', '"'])
        have htext : line ++ b :: cs ++ ['"', '"', '"'] =
            content ++ '"' :: '"' :: '"' :: (rest ++ b :: cs ++ ['"', '"', '"']) := by
          rw [← hline]
          simp
        rw [htext, hextent] at hsplit
        have hlength := congrArg (fun p => p.1.length) (Option.some.inj hsplit)
        rw [← hline] at hlength
        simp at hlength
    refine ⟨hline, fun rest => ?_⟩
    have hsplit := h rest
    rw [hopen hline] at hsplit
    obtain ⟨p, hs, he⟩ := Option.map_eq_some_iff.1 hsplit
    obtain ⟨hcontent, hrest⟩ := Prod.mk.inj he
    rw [hs, ← (List.cons.inj (List.append_cancel_left hcontent)).2, ← hrest]
  · rintro ⟨hline, h⟩ rest
    rw [hopen hline, h rest]
    rfl

theorem isContent_cons (hquote : b ≠ '"') (hslash : b ≠ '\\') (cs : List Char) :
    IsContent (b :: cs) ↔ IsContent cs := by
  have happend : IsContent ([] ++ b :: cs) ↔ splitBlock [] = none ∧ IsContent cs :=
    isContent_append hquote hslash cs
  exact happend.trans (and_iff_right rfl)

/-- The lines are those of content: no quotes close any before the last, and the last is content. -/
def AreContent : List (List Char) → Prop
  | [] => True
  | [line] => IsContent line
  | line :: ls => splitBlock line = none ∧ AreContent ls

theorem areContent_cons (hne : ls ≠ []) :
    AreContent (line :: ls) ↔ splitBlock line = none ∧ AreContent ls := by
  cases ls with
  | nil => exact absurd rfl hne
  | cons => rfl

theorem isContent_iff (h : Written ls cs) : IsContent cs ↔ AreContent ls := by
  induction h with
  | last => rfl
  | feed _ hcs ih =>
    rw [isContent_append (by decide) (by decide), areContent_cons hcs.ne_nil, ih]
  | both _ hcs ih =>
    rw [isContent_append (by decide) (by decide), isContent_cons (by decide) (by decide),
      areContent_cons hcs.ne_nil, ih]
  | alone _ _ hcs ih =>
    rw [isContent_append (by decide) (by decide), areContent_cons hcs.ne_nil, ih]

theorem splitBlock_blanks (n : Nat) : splitBlock (List.replicate n ' ' ++ line) = none ↔
    splitBlock line = none := by
  induction n with
  | zero => rfl
  | succ n ih =>
    rw [List.replicate_succ, List.cons_append, splitBlock_cons (by decide) (by decide),
      Option.map_eq_none_iff, ih]

theorem isContent_blanks (n : Nat) : IsContent (List.replicate n ' ' ++ line) ↔ IsContent line := by
  induction n with
  | zero => rfl
  | succ n ih =>
    rw [List.replicate_succ, List.cons_append, isContent_cons (by decide) (by decide), ih]

theorem areContent_indented (n : Nat) (ls : List (List Char)) :
    AreContent (indented n ls) ↔ AreContent ls := by
  fun_induction AreContent ls with
  | case1 => rfl
  | case2 line => exact isContent_blanks n
  | case3 line ls hne ih =>
    have hne : indented n ls ≠ [] := fun h => hne (List.map_eq_nil_iff.1 h)
    rw [← ih, ← splitBlock_blanks n, ← areContent_cons hne]
    rfl

/-- More blanks in front of every line but the first and other line breaks leave content content. -/
theorem isContent_indented {n : Nat} (h : Written (first :: ls) cs)
    (h' : Written (first :: indented n ls) cs') : IsContent cs' ↔ IsContent cs := by
  rw [isContent_iff h, isContent_iff h']
  cases ls with
  | nil => rfl
  | cons line ls =>
    have hne : indented n (line :: ls) ≠ [] := List.cons_ne_nil _ _
    rw [areContent_cons hne, areContent_cons (List.cons_ne_nil _ _), areContent_indented]

/-! ## Tokens -/

/-- The token of a block string. -/
def Lexeme.ofBlock (content : List Char) : Lexeme :=
  .ofString ['"', '"', '"'] content (StringLiteral.dedent content)

/-- The source of a block string after its first quote, and what comes after it. -/
def blockText (content after : List Char) : List Char :=
  '"' :: '"' :: (content ++ '"' :: '"' :: '"' :: after)

/-- Two texts between the quotes of a block string give tokens of one kind and one value; where the
first is taken off a source, so is the second. -/
structure SameBlock (content content' : List Char) : Prop where
  kind : (Lexeme.ofBlock content').kind = (Lexeme.ofBlock content).kind
  value : (Lexeme.ofBlock content').value = (Lexeme.ofBlock content).value
  taken : ∀ after, splitLexeme '"' (blockText content after) = some (.ofBlock content, after) →
    splitLexeme '"' (blockText content' after) = some (.ofBlock content', after)

theorem ofString_eq (quotes content value : List Char) :
    Lexeme.ofString quotes content value =
      ⟨if (StringLiteral.unescape value).isSome then .string else .badUnicodeEscape,
        quotes ++ content ++ quotes, (StringLiteral.unescape value).getD value⟩ := by
  unfold Lexeme.ofString
  cases StringLiteral.unescape value <;> rfl

theorem isContent_of_splitLexeme
    (h : splitLexeme '"' (blockText content rest) = some (.ofBlock content, rest)) :
    IsContent content := by
  rw [blockText, splitLexeme_block] at h
  obtain ⟨⟨content', rest'⟩, hs, he⟩ := Option.map_eq_some_iff.1 h
  have hraw := congrArg (fun p => p.1.raw) he
  simp only [ofString_raw, Lexeme.ofBlock, List.append_cancel_right_eq,
    List.append_cancel_left_eq] at hraw
  subst hraw
  exact fun after => splitBlock_extent hs after

theorem splitLexeme_of_isContent (h : IsContent content) (rest : List Char) :
    splitLexeme '"' (blockText content rest) = some (.ofBlock content, rest) := by
  rw [blockText, splitLexeme_block, h rest]
  rfl

theorem sameBlock_of_indented {n : Nat} (h : Written (first :: ls) cs)
    (h' : Written (first :: indented n ls) cs') : SameBlock cs cs' where
  kind := by simp only [Lexeme.ofBlock, ofString_eq, StringLiteral.dedent_indented h h']
  value := by simp only [Lexeme.ofBlock, ofString_eq, StringLiteral.dedent_indented h h']
  taken after htaken := splitLexeme_of_isContent
    ((isContent_indented h h').2 (isContent_of_splitLexeme htaken)) after

/-- A block string hangs on its lines alone, however they are broken and however far all of them but
the first are indented; it denotes a run of these lines without their common indentation. -/
theorem blockString_lines (content : List Char) : ∃ first rest,
    Written (first :: rest) content ∧
    (∀ content', Written (first :: rest) content' → SameBlock content content') ∧
    (∀ n content', Written (first :: indented n rest) content' → SameBlock content content') ∧
    StringLiteral.Dedented first rest (StringLiteral.dedent content) := by
  obtain ⟨first, rest, h⟩ := StringLiteral.exists_written content
  refine ⟨first, rest, h, fun content' h' => ?_, fun n content' h' => sameBlock_of_indented h h',
    StringLiteral.dedented_dedent h⟩
  refine sameBlock_of_indented (n := 0) h ?_
  rw [show indented 0 rest = rest from List.map_id rest]
  exact h'

end Token

end GraphQL
