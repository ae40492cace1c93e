import GraphQL.Proofs.Document.Definitions
import GraphQL.Proofs.Document.Parsed

/-!
# Printing and parsing

A document that can be written is read back from its text, up to positions (`parse_text`). An
executable document is always read back (`parse_text_executable`).
-/

namespace GraphQL

open Token

theorem Document.parse_of_reads {ds : List Definition} {source : String}
    (h : Parser.Reads 0 Parser.definitions source.toList []
      (List.Forall₂ (Echoes Definition.same Printer.definition) ds)) (filename : Option String) :
    ∃ d, Document.parse source filename = .ok d ∧ d.filename = filename ∧
      List.Forall₂ (Echoes Definition.same Printer.definition) ds d.definitions := by
  obtain ⟨es, hparse, hes⟩ := h.parse filename
  refine ⟨⟨es, filename⟩, ?_, rfl, hes⟩
  rw [Document.parse, hparse]
  rfl

theorem Document.sameDefinitions_of_echoes {d e : Document}
    (h : List.Forall₂ (Echoes Definition.same Printer.definition) d.definitions e.definitions) :
    e.sameDefinitions d = true ∧ e.text = d.text := by
  obtain ⟨hsame, hprint⟩ := Echoes.list h
  refine ⟨hsame, ?_⟩
  rw [Document.text, Document.text, Document.chars, Document.chars, hprint]

theorem Document.parse_text {d : Document} (hw : ∀ x ∈ d.definitions, x.Writable)
    (h : BracesApart d.definitions) (filename : Option String) :
    ∃ e, Document.parse d.text filename = .ok e ∧ e.filename = filename ∧
      e.sameDefinitions d = true ∧ e.text = d.text := by
  have hreads := Parser.Reads.definitions hw h
  have htext : d.text.toList = Printer.document d.definitions := String.toList_ofList
  rw [← htext] at hreads
  obtain ⟨e, hparse, hfile, hes⟩ := Document.parse_of_reads hreads filename
  exact ⟨e, hparse, hfile, Document.sameDefinitions_of_echoes hes⟩

/-- Operations and fragments are executed. -/
def Definition.IsExecutable : Definition → Prop
  | .operation _ | .fragment _ => True
  | _ => False

/-- An executable document that can be written is what its text is read as. -/
theorem Document.parse_text_executable {d : Document} (hw : ∀ x ∈ d.definitions, x.Writable)
    (hexec : ∀ x ∈ d.definitions, x.IsExecutable) (filename : Option String) :
    ∃ e, Document.parse d.text filename = .ok e ∧ e.same { d with filename := filename } = true := by
  have hapart : BracesApart d.definitions := by
    intro x o hsub hbare
    have hx := hexec x (hsub.subset (List.mem_cons_self ..))
    cases x <;> first | exact hx.elim | exact hbare.elim
  obtain ⟨e, hparse, hfile, hsame, -⟩ := Document.parse_text hw hapart filename
  refine ⟨e, hparse, ?_⟩
  rw [Document.same, Bool.and_eq_true, decide_eq_true_eq]
  exact ⟨hsame, hfile⟩

namespace Sample

/-- A node of a document made by hand. -/
def located {α : Type} (node : α) : Located α :=
  ⟨.start, node⟩

/-- The variables and arguments of an operation whose name is a keyword. -/
def operation : Operation where
  pos := .start
  kind := .query
  name := some (located "on")
  variableDefinitions := [⟨.start, located "id", located (.list (.named "ID" false) true),
    some (located (.list [.number (.int 7)])), []⟩]
  directives := []
  selections := ⟨.start, [
    .field ⟨.start, some (located "type"), located "node",
      [⟨located "by", located (.object [("id", .variable "id"), ("kind", .enum "query")])⟩], [],
      ⟨.start, [.spread ⟨.start, located "fragment", []⟩]⟩⟩,
    .inline ⟨.start, none, [⟨.start, located "skip", []⟩], ⟨.start, []⟩⟩]⟩

/-- A fragment with the name of its keyword. -/
def fragment : Fragment where
  pos := .start
  name := some (located "on")
  condition := ⟨.start, located "on"⟩
  directives := []
  selections := ⟨.start, []⟩

def document : Document :=
  ⟨[.operation operation, .fragment fragment], none⟩

theorem operation_writable : operation.Writable where
  name := by
    rintro _ ⟨⟩
    decide
  variableDefinitions v hv := by
    rw [List.mem_singleton.1 hv]
    exact {
      name := by decide
      type := .list (.named (by decide))
      default := by
        rintro _ ⟨⟩
        refine .list fun item hi => ?_
        rw [List.mem_singleton.1 hi]
        exact .int (by decide)
      directives := nofun }
  directives := nofun
  selections item hi := by
    show Selection.Writable 63 item
    rcases List.mem_cons.1 hi with rfl | hi
    · refine .field (by rintro _ ⟨⟩; decide) (by decide) ?_ nofun (fun _ => by decide) ?_
      · intro a ha
        rw [List.mem_singleton.1 ha]
        refine ⟨by decide, .object (by decide) (by decide) ?_⟩
        intro f hf
        rcases List.mem_cons.1 hf with rfl | hf
        · exact .var (by decide)
        · rw [List.mem_singleton.1 hf]
          exact .enum (by decide) (by decide)
      · intro item hi
        rw [List.mem_singleton.1 hi]
        exact .spread (by decide) (by decide) nofun
    · rw [List.mem_singleton.1 hi]
      refine .inline nofun (fun d hd => ?_) nofun
      rw [List.mem_singleton.1 hd]
      exact ⟨by decide, nofun⟩

theorem fragment_writable : fragment.Writable where
  name := by
    rintro _ ⟨⟩
    decide
  condition := by decide
  anonymous := nofun
  directives := nofun
  selections := nofun

end Sample

theorem Document.parse_text_sample : (∀ x ∈ Sample.document.definitions, x.Writable) ∧
    (∀ x ∈ Sample.document.definitions, x.IsExecutable) ∧
      ∃ e, Document.parse Sample.document.text none = .ok e ∧ e.same Sample.document = true := by
  have hw : ∀ x ∈ Sample.document.definitions, x.Writable := by
    intro x hx
    rcases List.mem_cons.1 hx with rfl | hx
    · exact Sample.operation_writable
    · rw [List.mem_singleton.1 hx]
      exact Sample.fragment_writable
  have hexec : ∀ x ∈ Sample.document.definitions, x.IsExecutable := by
    intro x hx
    rcases List.mem_cons.1 hx with rfl | hx
    · trivial
    · rw [List.mem_singleton.1 hx]
      trivial
  exact ⟨hw, hexec, Document.parse_text_executable hw hexec none⟩

end GraphQL
