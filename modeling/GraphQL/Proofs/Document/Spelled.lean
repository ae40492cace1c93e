import GraphQL.Proofs.Document.Content
import GraphQL.Proofs.Document.RoundTrip

/-!
# The content of printed documents

`Spelled text xs` says of a text that its names, numbers and strings are `xs`, whatever follows it.
Each part of a document is spelled with its content (`spelled_definition`), and so is the whole
(`Document.contains_chars`).
-/

namespace GraphQL

open Token

namespace Token

/-- The names, numbers and strings of a text. -/
def Contains (cs : List Char) (xs : List Content) : Prop :=
  ∃ ls, Lexes cs ls ∧ ls.filterMap Lexeme.content = xs

/-- In front of a text at which its last token is over, a text adds `xs`. -/
def Spelled (text : List Char) (xs : List Content) : Prop :=
  ∀ rest ys, Cut rest → Contains rest ys → Contains (text ++ rest) (xs ++ ys)

theorem contains_nil : Contains [] [] :=
  ⟨[], .done rfl, rfl⟩

theorem Cut.append {cs ds : List Char} (hc : Cut cs) (hd : Cut ds) : Cut (cs ++ ds) := by
  cases cs with
  | nil => exact hd
  | cons c cs => exact hc

theorem cut_ignored {c : Char} (h : isIgnored c = true) (cs : List Char) : Cut (c :: cs) := by
  have hall : ∀ c ∈ [' ', '\t', ',', '\n', '\r', '\ufeff'],
      Text.isNameContinue c = false ∧ c ≠ '.' ∧ c ≠ '"' :=
    Text.forall_of_all (by decide)
  refine cut_cons (hall c ?_) cs
  simpa [isIgnored, or_assoc] using h

/-! ## The content of lexemes -/

theorem content_name {l : Lexeme} (h : l.kind.isName = true) :
    l.content = some (.name (String.ofList l.raw)) := by
  unfold Lexeme.content
  split
  · next hk =>
    rw [hk] at h
    cases h
  · next hk =>
    rw [hk] at h
    cases h
  · next hk =>
    rw [hk] at h
    cases h
  · rw [if_pos h]

/-- The kinds of tokens without content are the punctuators, the ellipsis among them. -/
theorem content_punctuator {c : Char} {kind : Kind} (h : punctuator? c = some kind) :
    (Lexeme.plain kind [c]).content = none := by
  have hall : ∀ c ∈ ['{', '}', '(', ')', '[', ']', ':', '=', '!', '|', '&', '$', '@'],
      ∀ kind ∈ punctuator? c, (Lexeme.plain kind [c]).content = none := by
    simp only [List.forall_mem_cons, List.not_mem_nil, false_implies, implies_true, and_true]
    refine ⟨?_, ?_, ?_, ?_, ?_, ?_, ?_, ?_, ?_, ?_, ?_, ?_, ?_⟩ <;>
    · rintro _ ⟨⟩
      rfl
  exact hall c (mem_of_punctuator? h) kind h

namespace Spelled

variable {text text' : List Char} {xs ys : List Content} {c : Char}

/-! ## Rules -/

theorem nil : Spelled [] [] :=
  fun _ _ _ h => h

theorem of_begins {l : Lexeme} (h : ∀ rest, Cut rest → Begins (text ++ rest) l rest) :
    Spelled text l.content.toList := by
  rintro rest ys hcut ⟨ls, hls, hys⟩
  refine ⟨l :: ls, .more (h rest hcut) hls, ?_⟩
  cases hl : l.content with
  | none => rw [List.filterMap_cons_none hl, hys, Option.toList_none, List.nil_append]
  | some x =>
    rw [List.filterMap_cons_some hl, hys, Option.toList_some, List.singleton_append]

theorem append (h : Spelled text xs) (h' : Spelled text' ys) (hcut : Cut text') :
    Spelled (text ++ text') (xs ++ ys) := by
  intro rest zs hrest hzs
  rw [List.append_assoc, List.append_assoc]
  exact h _ _ (hcut.append hrest) (h' rest zs hrest hzs)

theorem ignored (hc : isIgnored c = true) (h : Spelled text xs) : Spelled (c :: text) xs := by
  intro rest ys hrest hys
  obtain ⟨ls, hls, heq⟩ := h rest ys hrest hys
  exact ⟨ls, (lexes_ignored hc).2 hls, heq⟩

/-- A token without content, which needs nothing to follow it. -/
theorem silent (word : List Char) {l : Lexeme} (hb : ∀ rest, Begins (word ++ rest) l rest)
    (hl : l.content = none) (h : Spelled text xs) : Spelled (word ++ text) xs := by
  intro rest ys hrest hys
  obtain ⟨ls, hls, heq⟩ := h rest ys hrest hys
  refine ⟨l :: ls, .more ?_ hls, by rw [List.filterMap_cons_none hl, heq]⟩
  rw [List.append_assoc]
  exact hb _

theorem punctuator {kind : Kind} (hc : punctuator? c = some kind) (h : Spelled text xs) :
    Spelled (c :: text) xs :=
  silent [c] (begins_punctuator hc) (content_punctuator hc) h

theorem ellipsis (h : Spelled text xs) : Spelled ('.' :: '.' :: '.' :: text) xs :=
  silent ['.', '.', '.'] begins_ellipsis rfl h

theorem name {n : Name} (h : n.isValid = true) : Spelled n.toList [.name n] := by
  have hs := of_begins fun rest (hrest : Cut rest) => begins_name h hrest.isNameContinue
  rw [content_name (isName_ofName n)] at hs
  simpa [Lexeme.plain] using hs

/-! ## Lists -/

section Lists

variable {β : Type} {bs : List β} {print : β → List Char} {content : β → List Content}

theorem joined {a b : Char} (ha : isIgnored a = true) (hb : isIgnored b = true)
    (h : ∀ x ∈ bs, Spelled (print x) (content x)) :
    Spelled (Text.joined [a, b] (bs.map print)) (bs.flatMap content) := by
  induction bs with
  | nil => exact nil
  | cons x bs ih =>
    have hx := h x (List.mem_cons_self ..)
    rw [List.flatMap_cons]
    cases bs with
    | nil => simpa [Text.joined] using hx
    | cons y bs =>
      have hrest := ih fun z hz => h z (List.mem_cons_of_mem _ hz)
      rw [List.map_cons, List.map_cons, Text.joined, ← List.map_cons, List.append_assoc]
      exact hx.append (ignored ha (ignored hb hrest)) (cut_ignored ha _)

/-- Items between punctuators. -/
theorem delimited {o c : Char} {opening closing : Kind} (ho : punctuator? o = some opening)
    (hc : punctuator? c = some closing) (h : ∀ x ∈ bs, Spelled (print x) (content x)) :
    Spelled (o :: Text.joined [',', ' '] (bs.map print) ++ [c]) (bs.flatMap content) := by
  refine punctuator ho ?_
  simpa using (joined rfl rfl h).append (punctuator hc nil) (cut_punctuator hc [])

theorem parenthesized (h : ∀ x ∈ bs, Spelled (print x) (content x)) :
    Spelled (Printer.parenthesized (bs.map print)) (bs.flatMap content) := by
  unfold Printer.parenthesized
  cases bs with
  | nil => exact nil
  | cons x bs => exact delimited rfl rfl h

/-- Items each of which starts with something at which the one before is over. -/
theorem flatMap (hcut : ∀ x, Cut (print x)) (h : ∀ x ∈ bs, Spelled (print x) (content x)) :
    Spelled (bs.flatMap print) (bs.flatMap content) ∧ Cut (bs.flatMap print) := by
  induction bs with
  | nil => exact ⟨nil, cut_nil⟩
  | cons x bs ih =>
    obtain ⟨hs, hc⟩ := ih fun y hy => h y (List.mem_cons_of_mem _ hy)
    rw [List.flatMap_cons, List.flatMap_cons]
    exact ⟨(h x (List.mem_cons_self ..)).append hs hc, (hcut x).append hc⟩

end Lists

end Spelled

/-! ## Values -/

section Values

variable {ν : Type} {s : Spelling ν} {spell : ν → Name} {levels : Nat}

theorem spelled_int (i : Int) : Spelled (Number.intChars i) [.int i] := by
  have hw := Numeral.written_ofInt i
  have hs := Spelled.of_begins fun rest (hrest : Cut rest) => begins_numeral hw hrest.ends
  have hcontent : (Lexeme.plain .int (Numeral.ofInt i).chars).content = some (.int i) := by
    simp only [Lexeme.content, Lexeme.plain, Numeral.ofChars_chars hw, Numeral.toInt_ofInt]
  rw [show (Numeral.ofInt i).isWhole = true from rfl, if_pos rfl, hcontent] at hs
  rw [← Numeral.chars_ofInt]
  exact hs

theorem spelled_double (x : Binary64) : Spelled (Number.doubleChars x) [.float (some x)] := by
  obtain ⟨n, hw, hwhole, hchars, hvalue⟩ := Binary64.exists_numeral x
  have hs := Spelled.of_begins fun rest (hrest : Cut rest) => begins_numeral hw hrest.ends
  have hcontent : (Lexeme.plain .float n.chars).content = some (.float (some x)) := by
    simp only [Lexeme.content, Lexeme.plain, Numeral.ofChars_chars hw, hvalue]
  rw [hwhole, if_neg Bool.false_ne_true, hcontent] at hs
  rw [← hchars]
  exact hs

theorem spelled_quoted (t : String) : Spelled (Text.quoted t.toList) [.string t] := by
  have hs := Spelled.of_begins fun rest (hrest : Cut rest) => begins_quoted t.toList hrest.not_quote
  have hcontent :
      (⟨.string, Text.quoted t.toList, t.toList⟩ : Lexeme).content = some (.string t) := by
    simp only [Lexeme.content, String.ofList_toList]
  rw [hcontent] at hs
  exact hs

theorem spelled_value {v : Value ν} (h : v.Writable s.ok levels)
    (hvar : ∀ x, s.ok x → Spelled (s.text (.variable x)) [.name (spell x)]) :
    Spelled (s.text v) (v.contents spell) := by
  induction h with
  | var hx => exact hvar _ hx
  | null =>
    rw [s.text_null]
    exact Spelled.name (n := "null") rfl
  | int =>
    rw [s.text_number]
    exact spelled_int _
  | double =>
    rw [s.text_number]
    exact spelled_double _
  | string =>
    rw [s.text_string]
    exact spelled_quoted _
  | @bool _ b =>
    cases b with
    | true =>
      rw [s.text_true]
      exact Spelled.name (n := "true") rfl
    | false =>
      rw [s.text_false]
      exact Spelled.name (n := "false") rfl
  | enum hname =>
    rw [s.text_enum]
    exact Spelled.name hname
  | list _ ih =>
    rw [s.text_list, Value.contents, Value.itemContents_eq]
    exact Spelled.delimited rfl rfl ih
  | object _ hnames _ ih =>
    rw [s.text_object, Value.contents, Value.fieldContents_eq]
    exact Spelled.delimited rfl rfl fun f hf => (Spelled.name (hnames f hf)).append
      (.punctuator rfl (.ignored rfl (ih f hf))) (cut_punctuator rfl _)

theorem spelled_argument {a : Argument ν} (h : a.Writable s.ok levels)
    (hvar : ∀ x, s.ok x → Spelled (s.text (.variable x)) [.name (spell x)]) :
    Spelled (s.argument a) (a.contents spell) :=
  (Spelled.name h.name).append (.punctuator rfl (.ignored rfl (spelled_value h.value hvar)))
    (cut_punctuator rfl _)

theorem cut_arguments (items : List (List Char)) : Cut (Printer.parenthesized items) := by
  simpa using Parser.Reads.cut_parenthesized items cut_nil

theorem spelled_directives {ds : List (Directive ν)} (h : ∀ d ∈ ds, d.Writable s.ok levels)
    (hvar : ∀ x, s.ok x → Spelled (s.text (.variable x)) [.name (spell x)]) :
    Spelled (ds.flatMap s.directive) (ds.flatMap (Directive.contents spell)) ∧
      Cut (ds.flatMap s.directive) := by
  refine Spelled.flatMap (fun d => cut_blank _) fun d hd => .ignored rfl (.punctuator rfl ?_)
  exact (Spelled.name (h d hd).name).append
    (.parenthesized fun a ha => spelled_argument ((h d hd).arguments a ha) hvar) (cut_arguments _)

end Values

/-! ## In operations and fragments -/

section Executable

variable {levels : Nat}

theorem spelled_variable {x : Name} (h : x.isValid = true) :
    Spelled (Spelling.literal.text (.variable x)) [.name (id x)] :=
  .punctuator rfl (.name h)

theorem spelled_literalArguments {as : List (Argument Name)}
    (h : ∀ a ∈ as, a.Writable (fun name => Name.isValid name = true) levels) :
    Spelled (Printer.arguments as) (as.flatMap (Argument.contents id)) :=
  .parenthesized fun a ha =>
    spelled_argument (s := .literal) (h a ha) fun _ hx => spelled_variable hx

theorem spelled_literalDirectives {ds : List (Directive Name)} (h : DirectivesWritable levels ds) :
    Spelled (Printer.directives ds) (ds.flatMap (Directive.contents id)) ∧
      Cut (Printer.directives ds) :=
  spelled_directives (s := .literal) h fun _ hx => spelled_variable hx

theorem spelled_constDirectives {ds : List (Directive Empty)} (h : ConstDirectivesWritable ds) :
    Spelled (Printer.constDirectives ds) (ds.flatMap (Directive.contents Empty.elim)) ∧
      Cut (Printer.constDirectives ds) := by
  rw [Parser.Reads.constDirectives_eq]
  exact spelled_directives (s := .constant) h fun x => x.elim

theorem spelled_default {value : Option (Located Const)}
    (h : ∀ v ∈ value, Const.Writable nestingLimit v.node) :
    Spelled (Printer.default value)
      (value.toList.flatMap fun value => value.node.contents Empty.elim) ∧
      Cut (Printer.default value) := by
  cases value with
  | none => exact ⟨.nil, cut_nil⟩
  | some v =>
    refine ⟨?_, cut_blank _⟩
    have hs : Spelled (Spelling.constant.text v.node) (v.node.contents Empty.elim) :=
      spelled_value (h v rfl) fun x => x.elim
    rw [Option.toList_some, List.flatMap_singleton]
    exact .ignored rfl (.punctuator rfl (.ignored rfl hs))

theorem spelled_typeRef {t : TypeRef} (h : t.Writable levels) : Spelled t.chars t.contents := by
  have hbang : ∀ nullable, Spelled (TypeRef.bang nullable) [] ∧ Cut (TypeRef.bang nullable) := by
    intro nullable
    cases nullable with
    | true => exact ⟨.nil, cut_nil⟩
    | false => exact ⟨.punctuator rfl .nil, cut_punctuator rfl _⟩
  induction h with
  | named hname =>
    rw [TypeRef.chars]
    exact (Spelled.name hname).append (hbang _).1 (hbang _).2
  | @list _ item nullable _ ih =>
    rw [TypeRef.chars]
    have hend := Spelled.punctuator (c := ']') rfl (hbang nullable).1
    have hitem := ih.append hend (cut_punctuator rfl _)
    rw [List.append_nil] at hitem
    exact .punctuator rfl hitem

theorem spelled_indent {text : List Char} {xs : List Content} (depth : Nat) (h : Spelled text xs) :
    Spelled (Printer.indent depth ++ text) xs := by
  unfold Printer.indent
  induction 2 * depth with
  | zero => exact h
  | succ n ih => exact .ignored rfl ih

theorem spelled_on {text : List Char} {xs : List Content} (h : Spelled text xs) :
    Spelled ("on ".toList ++ text) (.name "on" :: xs) :=
  (Spelled.name (n := "on") rfl).append (.ignored rfl h) (cut_blank _)

theorem spelled_namePart {name : Option (Located Name)} (h : ∀ x ∈ name, x.node.isValid = true) :
    Spelled (Printer.namePart name) (Name.contents name) ∧ Cut (Printer.namePart name) := by
  cases name with
  | none => exact ⟨.nil, cut_nil⟩
  | some x => exact ⟨.ignored rfl (.name (h x rfl)), cut_blank _⟩

/-! ## Selections -/

/-- How a selection is spelled at whatever level it is printed. -/
def SpelledSelection (item : Selection) : Prop :=
  ∀ depth, Spelled (Printer.selection depth item) item.contents

theorem spelled_selections {items : List Selection} (h : ∀ item ∈ items, SpelledSelection item)
    (depth : Nat) {text : List Char} (htext : Spelled text []) :
    Spelled (Printer.selections depth items ++ text) (items.flatMap Selection.contents) := by
  induction items with
  | nil => exact htext
  | cons item items ih =>
    have hrest := ih fun x hx => h x (List.mem_cons_of_mem _ hx)
    rw [Printer.selections, List.flatMap_cons]
    simp only [List.append_assoc, List.cons_append]
    exact spelled_indent depth ((h item (List.mem_cons_self ..) depth).append
      (.ignored rfl hrest) (cut_newline _))

theorem spelled_nested {items : List Selection} (h : ∀ item ∈ items, SpelledSelection item)
    (depth : Nat) :
    Spelled (Printer.nested depth items) (items.flatMap Selection.contents) :=
  .ignored rfl (.punctuator rfl (.ignored rfl
    (spelled_selections h (depth + 1) (spelled_indent depth (.punctuator rfl .nil)))))

theorem spelled_aliasPart {name : Option (Located Name)} (h : ∀ x ∈ name, x.node.isValid = true)
    {text : List Char} {xs : List Content} (htext : Spelled text xs) :
    Spelled (Printer.aliasPart name ++ text) (Name.contents name ++ xs) := by
  cases name with
  | none => exact htext
  | some x =>
    have hs := (Spelled.name (h x rfl)).append
      (.punctuator (c := ':') rfl (.ignored (c := ' ') rfl htext)) (cut_punctuator rfl _)
    simpa [Printer.aliasPart, Name.contents] using hs

theorem spelled_selection {item : Selection} (h : item.Writable levels) :
    SpelledSelection item := by
  induction h with
  | @field levels f halias hname hargs hdirs hlevels _ ih =>
    intro depth
    rw [Printer.selection_field, Selection.contents_field]
    obtain ⟨hds, hcutDirs⟩ := spelled_literalDirectives hdirs
    have hbody : Spelled (if f.selections.items = [] then []
        else Printer.nested depth f.selections.items) (SelectionSet.contents f.selections) ∧
        Cut (if f.selections.items = [] then [] else Printer.nested depth f.selections.items) := by
      unfold SelectionSet.contents
      split
      · next hnil =>
        rw [hnil]
        exact ⟨.nil, cut_nil⟩
      · exact ⟨spelled_nested ih depth, cut_blank _⟩
    have hparts := (spelled_literalArguments hargs).append (hds.append hbody.1 hbody.2)
      (hcutDirs.append hbody.2)
    have hfield := (Spelled.name hname).append hparts
      ((cut_arguments _).append (hcutDirs.append hbody.2))
    simpa using spelled_aliasPart halias hfield
  | spread hname _ hdirs =>
    intro depth
    obtain ⟨hds, hcut⟩ := spelled_literalDirectives hdirs
    rw [Printer.selection, Selection.contents]
    exact .ellipsis ((Spelled.name hname).append hds hcut)
  | @inline levels f hcondition hdirs _ ih =>
    intro depth
    rw [Printer.selection_inline, Selection.contents_inline]
    obtain ⟨hds, hcut⟩ := spelled_literalDirectives hdirs
    have hrest := hds.append (spelled_nested ih depth) (cut_blank _)
    refine .ellipsis ?_
    cases hx : f.condition with
    | none => simpa [Printer.conditionPart, SelectionSet.contents] using hrest
    | some c =>
      have hname := (Spelled.name (hcondition c hx)).append hrest (hcut.append (cut_blank _))
      simpa [Printer.conditionPart, TypeCondition.contents, SelectionSet.contents] using
        Spelled.ignored rfl (spelled_on hname)

theorem spelled_selectionSet {s : SelectionSet} (h : s.Writable) :
    Spelled (Printer.selectionSet s) s.contents :=
  .punctuator rfl (.ignored rfl (spelled_selections
    (fun item hi => spelled_selection (h item hi)) 1 (.punctuator rfl .nil)))

/-! ## Definitions -/

theorem spelled_variableDefinition {v : VariableDefinition} (h : v.Writable) :
    Spelled (Printer.variableDefinition v) v.contents := by
  rw [Printer.variableDefinition_eq, Printer.typed]
  obtain ⟨hds, hcutDirs⟩ := spelled_constDirectives h.directives
  obtain ⟨hdefault, hcutDefault⟩ := spelled_default h.default
  have htype := (spelled_typeRef h.type).append (hdefault.append hds hcutDirs)
    (hcutDefault.append hcutDirs)
  have hname := (Spelled.name h.name).append
    (.punctuator (c := ':') rfl (.ignored (c := ' ') rfl htype)) (cut_punctuator rfl _)
  simpa [VariableDefinition.contents] using Spelled.punctuator (c := '$') rfl hname

theorem spelled_operation {o : Operation} (h : o.Writable) :
    Spelled (Printer.operation o) o.contents := by
  have hset := spelled_selectionSet h.selections
  have hcutSet : Cut (Printer.selectionSet o.selections) := cut_punctuator rfl _
  rw [Printer.operation_eq, Operation.contents]
  refine Spelled.append ?_ hset hcutSet
  split
  · exact .nil
  · obtain ⟨hname, hcutName⟩ := spelled_namePart h.name
    obtain ⟨hds, hcutDirs⟩ := spelled_literalDirectives h.directives
    have hdirs := hds.append (.ignored (c := ' ') rfl .nil) (cut_blank _)
    have hcutRest := hcutDirs.append (cut_blank [])
    have hvariables := (Spelled.parenthesized fun v hv =>
      spelled_variableDefinition (h.variableDefinitions v hv)).append hdirs hcutRest
    have hcutVariables := (cut_arguments
      (o.variableDefinitions.map Printer.variableDefinition)).append hcutRest
    have hkeyword := (Spelled.name (n := o.kind.text) (by cases o.kind <;> rfl)).append
      (hname.append hvariables hcutVariables) (hcutName.append hcutVariables)
    simpa [Operation.headContents, Printer.operationHead] using hkeyword

theorem spelled_fragment {f : Fragment} (h : f.Writable) :
    Spelled (Printer.fragment f) f.contents := by
  rw [Printer.fragment_eq, Fragment.contents]
  obtain ⟨hname, hcutName⟩ := spelled_namePart h.name
  obtain ⟨hds, hcutDirs⟩ := spelled_literalDirectives h.directives
  have hset := hds.append (.ignored (c := ' ') rfl (spelled_selectionSet h.selections))
    (cut_blank _)
  have hcondition := (Spelled.name h.condition).append hset (hcutDirs.append (cut_blank _))
  have hon := Spelled.ignored (c := ' ') rfl (spelled_on hcondition)
  have hkeyword := (Spelled.name (n := "fragment") rfl).append (hname.append hon (cut_blank _))
    (hcutName.append (cut_blank _))
  simpa [TypeCondition.contents] using hkeyword

theorem spelled_definition {d : Definition} (h : d.Writable) (hexec : d.IsExecutable) :
    Spelled (Printer.definition d) d.contents := by
  cases d with
  | operation o => exact spelled_operation h
  | fragment f => exact spelled_fragment h
  | schema | type | directive => exact hexec.elim

end Executable

end Token

/-- The text of an executable document holds what its definitions hold, in their order. -/
theorem Document.contains_chars {d : Document} (hw : ∀ x ∈ d.definitions, x.Writable)
    (hexec : ∀ x ∈ d.definitions, x.IsExecutable) :
    Contains d.chars (d.definitions.flatMap Definition.contents) := by
  have hs := Spelled.joined (a := '\n') (b := '\n') rfl rfl
    fun x hx => spelled_definition (hw x hx) (hexec x hx)
  simpa [Document.chars] using hs [] [] cut_nil contains_nil

end GraphQL
