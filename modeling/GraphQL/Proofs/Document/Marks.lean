import GraphQL.Document.Parser
import GraphQL.Proofs.Position

/-!
# What the parts of a document point at

Every part of a document has the position of a token, and a name has its text as well. `marks` lists
these in the order of the source: a part comes before what it is made of, and a field has its alias,
its name, its arguments, its directives and its selections in this order. Marks are met one after
the other on the way along the tokens of the part (`Along`). The selections of a set take up its
tokens without a gap (`Tiles`), which tells where a field without braces places its selections.
-/

namespace GraphQL

/-- Points at a token by its position, or at a name by its position and text. -/
inductive Mark where
  | node (pos : Position)
  | name (name : Located Name)

namespace Mark

def pos : Mark → Position
  | node pos => pos
  | name x => x.pos

/-- The token is the one that is pointed at. -/
def At (t : Token) : Mark → Prop
  | node pos => pos = t.pos
  | name x => x.pos = t.pos ∧ t.kind.isName = true ∧ x.node = t.raw

theorem At.pos_eq {t : Token} {m : Mark} (h : m.At t) : m.pos = t.pos := by
  cases m with
  | node pos => exact h
  | name x => exact h.1

end Mark

/-- The marks are met in this order on the way along the tokens. Several may be at one token. -/
inductive Along : List Mark → List Token → Prop where
  | nil : Along [] []
  | skip {ms : List Mark} {t : Token} {ts : List Token} : Along ms ts → Along ms (t :: ts)
  | meet {m : Mark} {ms : List Mark} {t : Token} {ts : List Token} : m.At t → Along ms (t :: ts) →
      Along (m :: ms) (t :: ts)

namespace Along

variable {ms ns : List Mark} {ts us : List Token}

theorem skips : ∀ ts : List Token, Along [] ts
  | [] => .nil
  | _ :: ts => .skip (skips ts)

theorem append (h : Along ms ts) (h' : Along ns us) : Along (ms ++ ns) (ts ++ us) := by
  induction h with
  | nil => exact h'
  | skip _ ih => exact .skip ih
  | meet hm _ ih => exact .meet hm ih

theorem exists_at (h : Along ms ts) : ∀ m ∈ ms, ∃ t ∈ ts, m.At t := by
  induction h with
  | nil => exact List.forall_mem_nil _
  | skip _ ih =>
    intro m hm
    obtain ⟨t, ht, hat⟩ := ih m hm
    exact ⟨t, List.mem_cons_of_mem _ ht, hat⟩
  | meet hm _ ih => exact List.forall_mem_cons.2 ⟨⟨_, List.mem_cons_self .., hm⟩, ih⟩

/-- A later mark is never at an earlier position. -/
theorem pairwise (h : Along ms ts) (hts : (ts.map Token.pos).Pairwise Position.Precedes) :
    (ms.map Mark.pos).Pairwise fun p q => ¬ q.Precedes p := by
  induction h with
  | nil => exact .nil
  | skip _ ih => exact ih (List.pairwise_cons.1 hts).2
  | @meet m ms t ts hm hrest ih =>
    refine List.pairwise_cons.2 ⟨fun p hp => ?_, ih hts⟩
    obtain ⟨m', hm', rfl⟩ := List.mem_map.1 hp
    obtain ⟨u, hu, hat⟩ := hrest.exists_at m' hm'
    rw [hat.pos_eq, hm.pos_eq]
    rcases List.mem_cons.1 hu with rfl | hu
    · exact fun hself => hself.asymm hself
    · exact ((List.pairwise_cons.1 hts).1 _ (List.mem_map_of_mem hu)).asymm

end Along

/-! ## Marks of parts -/

variable {ν : Type}

def Argument.marks (a : Argument ν) : List Mark :=
  [.name a.name, .node a.value.pos]

def Directive.marks (d : Directive ν) : List Mark :=
  .node d.pos :: .name d.name :: d.arguments.flatMap Argument.marks

/-- A name, if there is one. -/
def Name.marks (name : Option (Located Name)) : List Mark :=
  name.toList.map .name

/-- A part that has no parts with positions of their own, if there is one. -/
def Located.marks {α : Type} (part : Option (Located α)) : List Mark :=
  part.toList.map fun x => .node x.pos

def TypeCondition.marks (c : TypeCondition) : List Mark :=
  [.node c.pos, .name c.on]

namespace Selection

/-- The selections of a field or an inline fragment. -/
def selections? : Selection → Option SelectionSet
  | field f => some f.selections
  | spread _ => none
  | inline f => some f.selections

/-- What comes between the start of a selection and its own selections. -/
def headMarks : Selection → List Mark
  | field f => Name.marks f.aliasName ++ .name f.name :: f.arguments.flatMap Argument.marks ++
      f.directives.flatMap Directive.marks
  | spread s => .name s.name :: s.directives.flatMap Directive.marks
  | inline f => f.condition.toList.flatMap TypeCondition.marks ++
      f.directives.flatMap Directive.marks

end Selection

mutual

def Selection.marks : Selection → List Mark
  | .field ⟨pos, aliasName, name, arguments, directives, ⟨start, items⟩⟩ =>
    .node pos :: Name.marks aliasName ++ .name name :: arguments.flatMap Argument.marks ++
      directives.flatMap Directive.marks ++ .node start :: Selection.itemMarks items
  | .spread s => .node s.pos :: .name s.name :: s.directives.flatMap Directive.marks
  | .inline ⟨pos, condition, directives, ⟨start, items⟩⟩ =>
    .node pos :: condition.toList.flatMap TypeCondition.marks ++
      directives.flatMap Directive.marks ++ .node start :: Selection.itemMarks items

def Selection.itemMarks : List Selection → List Mark
  | [] => []
  | item :: rest => item.marks ++ itemMarks rest

end

def SelectionSet.marks (s : SelectionSet) : List Mark :=
  .node s.pos :: Selection.itemMarks s.items

theorem Selection.marks_eq (s : Selection) : s.marks =
    .node s.pos :: s.headMarks ++ s.selections?.toList.flatMap SelectionSet.marks := by
  cases s with
  | field f =>
    obtain ⟨pos, aliasName, name, arguments, directives, ⟨start, items⟩⟩ := f
    simp [marks, headMarks, selections?, SelectionSet.marks, Selection.pos]
  | spread s => simp [marks, headMarks, selections?, Selection.pos]
  | inline f =>
    obtain ⟨pos, condition, directives, ⟨start, items⟩⟩ := f
    simp [marks, headMarks, selections?, SelectionSet.marks, Selection.pos]

def VariableDefinition.marks (v : VariableDefinition) : List Mark :=
  .node v.pos :: .name v.name :: .node v.type.pos :: Located.marks v.default ++
    v.directives.flatMap Directive.marks

/-- What comes between the start of an operation and its selections. -/
def Operation.headMarks (o : Operation) : List Mark :=
  Name.marks o.name ++ o.variableDefinitions.flatMap VariableDefinition.marks ++
    o.directives.flatMap Directive.marks

/-- What comes between the start of a fragment and its selections. -/
def Fragment.headMarks (f : Fragment) : List Mark :=
  Name.marks f.name ++ f.condition.marks ++ f.directives.flatMap Directive.marks

def InputValueDefinition.marks (v : InputValueDefinition) : List Mark :=
  .node v.pos :: Located.marks v.description ++ .name v.name :: .node v.type.pos ::
    Located.marks v.default ++ v.directives.flatMap Directive.marks

def FieldDefinition.marks (f : FieldDefinition) : List Mark :=
  .node f.pos :: Located.marks f.description ++ .name f.name ::
    f.arguments.flatMap InputValueDefinition.marks ++ .node f.type.pos ::
      f.directives.flatMap Directive.marks

def EnumValueDefinition.marks (v : EnumValueDefinition) : List Mark :=
  .node v.pos :: Located.marks v.description ++ .name v.value ::
    v.directives.flatMap Directive.marks

/-- What comes between the start of a schema definition and its root types. -/
def SchemaDefinition.headMarks (s : SchemaDefinition) : List Mark :=
  Located.marks s.description ++ s.directives.flatMap Directive.marks

/-- The root types, which may be in another order in the source. -/
def SchemaDefinition.rootMarks (s : SchemaDefinition) : List Mark :=
  Name.marks s.query ++ Name.marks s.mutation ++ Name.marks s.subscription

namespace TypeBody

/-- The interfaces that a type implements, which come before its directives. -/
def interfaceMarks : TypeBody → List Mark
  | object interfaces _ | interface interfaces _ => interfaces.map .name
  | _ => []

/-- What a type is made of. -/
def partMarks : TypeBody → List Mark
  | scalar => []
  | object _ fields | interface _ fields => fields.flatMap FieldDefinition.marks
  | union members => members.map .name
  | enum values => values.flatMap EnumValueDefinition.marks
  | input fields => fields.flatMap InputValueDefinition.marks

end TypeBody

/-- All that comes after the start of a type definition. -/
def TypeDefinition.headMarks (t : TypeDefinition) : List Mark :=
  Located.marks t.description ++ .name t.name :: t.body.interfaceMarks ++
    t.directives.flatMap Directive.marks ++ t.body.partMarks

/-- All that comes after the start of a directive definition. -/
def DirectiveDefinition.headMarks (d : DirectiveDefinition) : List Mark :=
  Located.marks d.description ++ .name d.name :: d.arguments.flatMap InputValueDefinition.marks ++
    d.locations.map fun x => .node x.pos

namespace Definition

def pos : Definition → Position
  | operation o => o.pos
  | fragment f => f.pos
  | schema s => s.pos
  | type t => t.pos
  | directive d => d.pos

/-- What comes between the start of a definition and its selections or root types. -/
def headMarks : Definition → List Mark
  | operation o => o.headMarks
  | fragment f => f.headMarks
  | schema s => s.headMarks
  | type t => t.headMarks
  | directive d => d.headMarks

/-- The selections of a definition, or its root types. -/
def endMarks : Definition → List Mark
  | operation o => SelectionSet.marks o.selections
  | fragment f => SelectionSet.marks f.selections
  | schema s => s.rootMarks
  | _ => []

def marks (x : Definition) : List Mark :=
  .node x.pos :: x.headMarks ++ x.endMarks

end Definition

/-! ## Tokens of selections -/

/-- The tokens of a selection up to its own selections. -/
structure Selection.HeadOn (s : Selection) (head : List Token) : Prop where
  first : head.head?.map Token.pos = some s.pos
  marks : Along s.headMarks head

/-- Selections that take up the tokens one right after the other, up to a position. A field without
braces places its selections where the next selection starts, or at this position. -/
inductive Tiles : List Selection → List Token → Position → Prop where
  | nil {after : Position} : Tiles [] [] after
  | spread {s : FragmentSpread} {items : List Selection} {head ts : List Token} {after : Position} :
      (Selection.spread s).HeadOn head → Tiles items ts after →
        Tiles (.spread s :: items) (head ++ ts) after
  | bare {f : Field} {items : List Selection} {head ts : List Token} {after : Position} :
      (Selection.field f).HeadOn head → f.selections = ⟨Cursor.pos ⟨ts, after⟩, []⟩ →
        Tiles items ts after → Tiles (.field f :: items) (head ++ ts) after
  | braced {s : Selection} {set : SelectionSet} {items : List Selection} {o b : Token}
      {head inner ts : List Token} {after : Position} : s.HeadOn head → s.selections? = some set →
        o.kind = .leftBrace → o.pos = set.pos → b.kind = .rightBrace →
          Tiles set.items inner b.pos → Tiles items ts after →
            Tiles (s :: items) (head ++ o :: (inner ++ b :: ts)) after

/-- The tokens are braces around those of the selections. -/
def SelectionSet.Braced (s : SelectionSet) (ts : List Token) : Prop :=
  ∃ o inner b, ts = o :: (inner ++ [b]) ∧ o.kind = .leftBrace ∧ o.pos = s.pos ∧
    b.kind = .rightBrace ∧ Tiles s.items inner b.pos

/-- The tokens of a selection after its head, when the next ones are at a position. -/
def Selection.Ends (s : Selection) (ts : List Token) (after : Position) : Prop :=
  match s with
  | .spread _ => ts = []
  | .field f => ts = [] ∧ f.selections = ⟨after, []⟩ ∨ SelectionSet.Braced f.selections ts
  | .inline f => SelectionSet.Braced f.selections ts

/-! ## Selections along their tokens -/

/-- Up to the next token nothing is passed over. -/
theorem Along.meet_first {ms : List Mark} {ts : List Token} {b : Token}
    (h : Along ms (ts ++ [b])) : Along (.node (Cursor.pos ⟨ts, b.pos⟩) :: ms) (ts ++ [b]) := by
  cases ts with
  | nil => exact .meet rfl h
  | cons t ts => exact .meet rfl h

theorem Selection.HeadOn.along {s : Selection} {head : List Token} (h : s.HeadOn head) :
    Along (.node s.pos :: s.headMarks) head := by
  obtain ⟨t, ht, hpos⟩ := Option.map_eq_some_iff.1 h.first
  obtain ⟨rest, rfl⟩ := List.head?_eq_some_iff.1 ht
  exact .meet hpos.symm h.marks

namespace Tiles

variable {items : List Selection} {ts : List Token} {after : Position}

/-- Also the token after them may be pointed at. -/
theorem along (h : Tiles items ts after) {b : Token} (hb : b.pos = after) :
    Along (Selection.itemMarks items) (ts ++ [b]) := by
  induction h generalizing b with
  | nil => exact .skips _
  | @spread s items head ts after hhead _ ih =>
    rw [Selection.itemMarks, Selection.marks_eq]
    have hall := hhead.along.append (ih hb)
    simpa [Selection.selections?] using hall
  | @bare f items head ts after hhead hset _ ih =>
    subst hb
    rw [Selection.itemMarks, Selection.marks_eq, List.append_assoc, List.append_assoc]
    refine hhead.along.append ?_
    rw [show (Selection.field f).selections? = some f.selections from rfl, hset]
    exact (ih rfl).meet_first
  | @braced s set items o b' head inner ts after hhead hset _ ho _ _ _ ihset ih =>
    rw [Selection.itemMarks, Selection.marks_eq, List.append_assoc, List.append_assoc]
    refine hhead.along.append ?_
    have hinner : Along set.marks (o :: (inner ++ [b'])) := .meet ho.symm (.skip (ihset rfl))
    have hall := hinner.append (ih hb)
    rw [hset]
    simpa using hall

/-- One selection more in front. -/
theorem cons {s : Selection} {head tail : List Token} (hhead : s.HeadOn head)
    (hs : s.Ends tail (Cursor.pos ⟨ts, after⟩)) (h : Tiles items ts after) :
    Tiles (s :: items) (head ++ (tail ++ ts)) after := by
  cases s with
  | spread s =>
    obtain rfl : tail = [] := hs
    exact .spread hhead h
  | field f =>
    rcases hs with ⟨rfl, hset⟩ | ⟨o, inner, b, rfl, ho, hpos, hb, hinner⟩
    · exact .bare hhead hset h
    · have hall := braced hhead rfl ho hpos hb hinner h
      simpa using hall
  | inline f =>
    obtain ⟨o, inner, b, rfl, ho, hpos, hb, hinner⟩ := hs
    have hall := braced hhead rfl ho hpos hb hinner h
    simpa using hall

end Tiles

theorem SelectionSet.Braced.along {s : SelectionSet} {ts : List Token}
    (h : SelectionSet.Braced s ts) : Along (SelectionSet.marks s) ts := by
  obtain ⟨o, inner, b, rfl, -, ho, -, hinner⟩ := h
  exact .meet ho.symm (.skip (hinner.along rfl))

/-! ## Tokens of definitions -/

/-- The tokens of a definition after its head. -/
def Definition.Ends (ts : List Token) : Definition → Prop
  | .operation o => SelectionSet.Braced o.selections ts
  | .fragment f => SelectionSet.Braced f.selections ts
  | .schema s => ∀ m ∈ s.rootMarks, ∃ t ∈ ts, m.At t
  | _ => ts = []

/-- A definition starts at the first of its tokens, and its head and its end divide them. -/
structure Definition.Placed (x : Definition) (ts : List Token) : Prop where
  first : ts.head?.map Token.pos = some x.pos
  parts : ∃ head tail, ts = head ++ tail ∧ Along x.headMarks head ∧ x.Ends tail

namespace Definition.Placed

variable {x : Definition} {ts : List Token}

/-- Only the root types of a schema may come in another order. -/
theorem along (h : x.Placed ts) (hx : ∀ s, x ≠ .schema s) : Along x.marks ts := by
  obtain ⟨t, ht, hpos⟩ := Option.map_eq_some_iff.1 h.first
  obtain ⟨rest, hrest⟩ := List.head?_eq_some_iff.1 ht
  obtain ⟨head, tail, hts, hhead, hends⟩ := h.parts
  have htail : Along x.endMarks tail := by
    cases x with
    | operation o => exact SelectionSet.Braced.along hends
    | fragment f => exact SelectionSet.Braced.along hends
    | schema s => exact absurd rfl (hx s)
    | type t => exact .skips tail
    | directive d => exact .skips tail
  have hall := hhead.append htail
  rw [← hts] at hall
  subst hrest
  exact .meet hpos.symm hall

theorem exists_at (h : x.Placed ts) : ∀ m ∈ x.marks, ∃ t ∈ ts, m.At t := by
  cases x with
  | schema s =>
    obtain ⟨t, ht, hpos⟩ := Option.map_eq_some_iff.1 h.first
    obtain ⟨head, tail, rfl, hhead, hends⟩ := h.parts
    refine List.forall_mem_cons.2 ⟨⟨t, List.mem_of_head? ht, hpos.symm⟩, fun m hm => ?_⟩
    rcases List.mem_append.1 hm with hm | hm
    · obtain ⟨t, ht, hat⟩ := hhead.exists_at m hm
      exact ⟨t, List.mem_append_left tail ht, hat⟩
    · obtain ⟨t, ht, hat⟩ := hends m hm
      exact ⟨t, List.mem_append_right head ht, hat⟩
  | operation o => exact (h.along (by simp)).exists_at
  | fragment f => exact (h.along (by simp)).exists_at
  | type t => exact (h.along (by simp)).exists_at
  | directive d => exact (h.along (by simp)).exists_at

end Definition.Placed

end GraphQL
