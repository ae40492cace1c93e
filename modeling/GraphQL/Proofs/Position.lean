import GraphQL.Position
import GraphQL.Token.StringLiteral

/-!
# Positions as counts

A position is kept up piece by piece while a text is scanned. `Position.reference` counts it at one
go, from the lines of all that comes before; `after_append` tells when the pieces may be put together.
-/

namespace GraphQL.Position

open StringLiteral (lines)

/-- The position behind a text: on its last line, behind the characters of that line. -/
def reference (before : List Char) : Position :=
  ⟨(lines before).length, ((lines before).getLast?.getD []).length + 1⟩

/-- The position behind a text that starts at `p` and has these lines. -/
def behind (p : Position) : List (List Char) → Position
  | [] => p
  | [line] => ⟨p.line, p.column + line.length⟩
  | _ :: line :: rest => ⟨p.line + rest.length + 1, ((line :: rest).getLast?.getD []).length + 1⟩

variable {cs ds : List Char}

theorem lines_ne_nil (cs : List Char) : lines cs ≠ [] := by
  fun_induction lines cs <;> simp

theorem behind_nextLine (p : Position) {ls : List (List Char)} (h : ls ≠ []) :
    p.nextLine.behind ls = p.behind ([] :: ls) := by
  obtain ⟨line, rest, rfl⟩ := List.exists_cons_of_ne_nil h
  cases rest with
  | nil => exact congrArg (mk (p.line + 1)) (Nat.add_comm 1 line.length)
  | cons line' rest =>
    exact congrArg (mk · _) (congrArg Nat.succ (Nat.succ_add_eq_add_succ p.line rest.length))

theorem behind_nextColumn (p : Position) (c : Char) (line : List Char) (rest : List (List Char)) :
    p.nextColumn.behind (line :: rest) = p.behind ((c :: line) :: rest) := by
  cases rest with
  | nil => exact congrArg (mk p.line) (Nat.add_right_comm p.column 1 line.length)
  | cons line' rest => rfl

theorem after_eq_behind (p : Position) (cs : List Char) : p.after cs = p.behind (lines cs) := by
  fun_induction after p cs with
  | case1 => rfl
  | case2 p cs ih => rw [ih, behind_nextLine p (lines_ne_nil cs), lines]
  | case3 p cs h ih =>
    rw [ih, behind_nextLine p (lines_ne_nil cs), lines]
    exact h
  | case4 p cs ih => rw [ih, behind_nextLine p (lines_ne_nil cs), lines]
  | case5 p c cs hcrlf hcr hlf ih =>
    obtain ⟨line, rest, hl⟩ := List.exists_cons_of_ne_nil (lines_ne_nil cs)
    have hlines : lines (c :: cs) = (c :: line) :: rest := by
      rw [lines, hl]
      · exact hcrlf
      · exact hcr
      · exact hlf
    rw [ih, hl, hlines, behind_nextColumn]

theorem after_start (cs : List Char) : start.after cs = reference cs := by
  rw [after_eq_behind, reference]
  obtain ⟨line, rest, hl⟩ := List.exists_cons_of_ne_nil (lines_ne_nil cs)
  rw [hl]
  cases rest with
  | nil => exact congrArg (mk 1) (Nat.add_comm 1 line.length)
  | cons line' rest => exact congrArg (mk · _) (congrArg Nat.succ (Nat.add_comm 1 rest.length))

/-- The texts do not part a line break of two characters. -/
def Parts (cs ds : List Char) : Prop :=
  (∀ c ∈ cs.getLast?, c ≠ '\r') ∨ ∀ d ∈ ds.head?, d ≠ '\n'

theorem Parts.tail {c : Char} (h : Parts (c :: cs) ds) : Parts cs ds := by
  refine h.imp_left fun hlast d hd => hlast d ?_
  rw [List.getLast?_cons, hd]
  rfl

/-- Only a line break of two characters counts otherwise in one piece than in two. -/
theorem after_append (p : Position) (h : Parts cs ds) :
    (p.after cs).after ds = p.after (cs ++ ds) := by
  fun_induction after p cs with
  | case1 => rfl
  | case2 p cs ih =>
    rw [ih h.tail.tail]
    rfl
  | case3 p cs hcs ih =>
    rw [ih h.tail, List.cons_append, after]
    intro ds' hds
    cases cs with
    | nil =>
      rcases h with hlast | hhead
      · exact hlast '\r' rfl rfl
      · exact hhead '\n' (by rw [← List.nil_append ds, hds]; rfl) rfl
    | cons c cs =>
      obtain ⟨rfl, -⟩ := List.cons.inj hds
      exact hcs cs rfl
  | case4 p cs ih =>
    rw [ih h.tail]
    rfl
  | case5 p c cs hcrlf hcr hlf ih =>
    rw [ih h.tail, List.cons_append, after]
    · exact fun _ hc _ => hcr hc
    · exact hcr
    · exact hlf

/-- The first position is on an earlier line, or earlier on the same line. -/
def Precedes (p q : Position) : Prop :=
  p.line < q.line ∨ p.line = q.line ∧ p.column < q.column

instance : DecidableRel Precedes := fun p q =>
  inferInstanceAs (Decidable (p.line < q.line ∨ p.line = q.line ∧ p.column < q.column))

theorem precedes_nextLine (p : Position) : p.Precedes p.nextLine :=
  .inl (Nat.lt_succ_self p.line)

theorem precedes_nextColumn (p : Position) : p.Precedes p.nextColumn :=
  .inr ⟨rfl, Nat.lt_succ_self p.column⟩

theorem Precedes.trans {p q r : Position} (h : p.Precedes q) (h' : q.Precedes r) : p.Precedes r := by
  unfold Precedes at *
  omega

theorem Precedes.asymm {p q : Position} (h : p.Precedes q) : ¬ q.Precedes p := by
  unfold Precedes at *
  omega

theorem Precedes.ne {p q : Position} (h : p.Precedes q) : p ≠ q := by
  rintro rfl
  exact h.asymm h

/-- Going on from a later position never leads back. -/
theorem Precedes.after {p q : Position} (h : p.Precedes q)
    (h' : cs = [] ∨ q.Precedes (q.after cs)) : p.Precedes (q.after cs) := by
  rcases h' with rfl | h'
  · exact h
  · exact h.trans h'

theorem precedes_after (p : Position) (cs : List Char) : cs = [] ∨ p.Precedes (p.after cs) := by
  fun_induction after p cs with
  | case1 => exact .inl rfl
  | case2 p cs ih | case3 p cs _ ih | case4 p cs ih => exact .inr ((precedes_nextLine p).after ih)
  | case5 p c cs _ _ _ ih => exact .inr ((precedes_nextColumn p).after ih)

end GraphQL.Position
