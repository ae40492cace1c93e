import GraphQL.Proofs.Document.Parsed
import GraphQL.Proofs.Document.RoundTrip

/-!
# Bodies left out

A type without a body that comes right before bare selections takes them for its body, so that the
text of such a document is read as another one, or not at all. This is the only case in which a
document that was parsed is not what its text is read as (`parse_text_iff`).
-/

namespace GraphQL

open Token

namespace Parser

variable {α β : Type} {p : Parser α} {n : Nat} {cs mid rest : List Char} {P : α → Prop}
  {R : β → Cursor → Prop}

/-- Whatever a parser gives at the text, and where it stops. -/
def Finds (p : Parser α) (cs : List Char) (R : α → Cursor → Prop) : Prop :=
  ∀ c : Cursor, c.At cs → ∀ a c', p c = .ok (a, c') → R a c'

theorem Reads.finds (h : Reads n p cs rest P) : Finds p cs fun a c => P a ∧ c.At rest := by
  intro c hc a c' hp
  obtain ⟨b, c1, hb, hat, -, hP⟩ := h.run c hc
  rw [hb] at hp
  cases hp
  exact ⟨hP, hat⟩

theorem Finds.bind {f : α → Parser β} (hp : Reads n p cs mid P)
    (hf : ∀ a, P a → Finds (f a) mid R) : Finds (p >>= f) cs R := by
  intro c hc b c' h
  obtain ⟨a, c1, h1, h2⟩ := bind_eq_ok h
  obtain ⟨ha, hat⟩ := hp.finds c hc a c1 h1
  exact hf a ha c1 hat b c' h2

theorem Finds.map {Q : α → Cursor → Prop} {f : α → β} (hp : Finds p cs Q)
    (hf : ∀ a c, Q a c → R (f a) c) : Finds (p >>= fun a => pure (f a)) cs R := by
  intro c hc b c' h
  obtain ⟨a, c1, h1, h2⟩ := bind_eq_ok h
  cases h2
  exact hf a _ (hp c hc a _ h1)

theorem Finds.imp {Q : α → Cursor → Prop} {S : α → Cursor → Prop} (hp : Finds p cs Q)
    (hs : ∀ a c, Q a c → S a c) : Finds p cs S :=
  fun c hc a c' h => hs a c' (hp c hc a c' h)

theorem Finds.ignored {Q : α → Cursor → Prop} {ch : Char} (hch : isIgnored ch = true)
    (h : Finds p cs Q) : Finds p (ch :: cs) Q :=
  fun c hc => h c ((lexes_ignored hch).1 hc)

/-! ## Repetition -/

variable {more : Parser Bool} {item : Parser α} {allowance : List Token} {c c' : Cursor}

theorem repeatWithin_cons {a : α} {as : List α}
    (h : repeatWithin more item allowance c = .ok (a :: as, c')) :
    ∃ c1 c2, more c = .ok (true, c1) ∧ item c1 = .ok (a, c2) ∧
      (as ≠ [] → ∃ allowance', repeatWithin more item allowance' c2 = .ok (as, c')) := by
  cases allowance with
  | nil =>
    obtain ⟨b, c1, hmore, hb⟩ := bind_eq_ok h
    split at hb
    · next hb' =>
      subst hb'
      obtain ⟨a', c2, hitem, hpure⟩ := bind_eq_ok hb
      cases hpure
      exact ⟨c1, c', hmore, hitem, fun hne => absurd rfl hne⟩
    · cases hb
  | cons t allowance =>
    obtain ⟨b, c1, hmore, hb⟩ := bind_eq_ok h
    split at hb
    · next hb' =>
      subst hb'
      obtain ⟨a', c2, hitem, hb⟩ := bind_eq_ok hb
      obtain ⟨as', c3, hrest, hpure⟩ := bind_eq_ok hb
      cases hpure
      exact ⟨c1, c2, hmore, hitem, fun _ => ⟨allowance, hrest⟩⟩
    · cases hb

/-- Where there is something to repeat, something is repeated. -/
theorem repeatWithin_ne_nil {as : List α} {c1 : Cursor} (hmore : more c = .ok (true, c1))
    (h : repeatWithin more item allowance c = .ok (as, c')) : as ≠ [] := by
  cases allowance with
  | nil =>
    rw [repeatWithin, bind_ok hmore, if_pos rfl] at h
    obtain ⟨a, c2, -, hpure⟩ := bind_eq_ok h
    cases hpure
    simp
  | cons t allowance =>
    rw [repeatWithin, bind_ok hmore, if_pos rfl] at h
    obtain ⟨a, c2, -, h⟩ := bind_eq_ok h
    obtain ⟨as', c3, -, hpure⟩ := bind_eq_ok h
    cases hpure
    simp

/-! ## Selections taken for a body -/

/-- What became of selections that were taken for a body, and where their text ends. -/
def TakenFor (s : SelectionSet) (rest : List Char) (bare : Prop) (c : Cursor) : Prop :=
  (s.items ≠ [] → ¬ bare) ∧ (s.items = [] → c.At rest)

theorem Finds.takesSelections {s : SelectionSet} (h : s.Writable) (rest : List Char) :
    Finds (optionalDelimited .leftBrace .rightBrace item) (Printer.selectionSet s ++ rest)
      fun xs c => TakenFor s rest (xs = []) c := by
  have htext : Printer.selectionSet s ++ rest =
      '{' :: '\n' :: (Printer.selections 1 s.items ++ '}' :: rest) := by
    simp [Printer.selectionSet]
  rw [htext]
  refine Finds.bind (Reads.nextIs_true (begins_punctuator rfl _) rfl) fun _ ht => ?_
  subst ht
  refine Finds.bind (Reads.punctuator rfl _) fun _ _ => Finds.ignored rfl ?_
  by_cases hnil : s.items = []
  · rw [hnil]
    have hclosed : Reads 0 (repeatWhile (return !(← eat .rightBrace)) item) ('}' :: rest) rest
        (List.Forall₂ (fun (_ : Unit) _ => True) []) :=
      Reads.untilClosed (fun _ => '}' :: rest) (begins_punctuator rfl rest) rfl
        fun b tail hs => absurd (List.suffix_nil.1 hs) (List.cons_ne_nil b tail)
    refine hclosed.finds.imp fun xs c hxs => ⟨fun hne => absurd hnil hne, fun _ => hxs.2⟩
  · intro c hc xs c' hrun
    refine ⟨fun _ => ?_, fun hnil' => absurd hnil' hnil⟩
    have havoids : Avoids (Printer.selections 1 s.items ++ '}' :: rest) [.rightBrace] := by
      obtain ⟨item, items, hitems⟩ := List.exists_cons_of_ne_nil hnil
      have hitem := h item (hitems ▸ List.mem_cons_self ..)
      rw [hitems, Printer.selections]
      simp only [List.append_assoc]
      exact avoids_indent 1 ((Reads.avoids_selection hitem 1 _).of_subset (by decide))
    have hmore : Reads 0 (return !(← eat .rightBrace)) (Printer.selections 1 s.items ++ '}' :: rest)
        (Printer.selections 1 s.items ++ '}' :: rest) (· = true) :=
      (Reads.eat_false havoids (List.mem_singleton_self _)).bind fun _ hf => .pure (by rw [hf]; rfl)
    obtain ⟨_, c1, hm, -, -, rfl⟩ := hmore.run c hc
    exact repeatWithin_ne_nil hm hrun

variable {o : Operation} {post : List Definition}

theorem Finds.typeBody {ds : List (Directive Empty)} {body : TypeBody}
    (hds : ConstDirectivesWritable ds) (h : body.Writable) (hbare : body.IsBare)
    (hrest : Cut rest) (hfollow : Avoids rest Reads.definitionFollow)
    (hbody : ∀ (α : Type) (item : Parser α),
      Finds (optionalDelimited .leftBrace .rightBrace item) rest
        fun xs c => TakenFor o.selections mid (xs = []) c) :
    Finds (Parser.typeBody (.ofName body.keyword)) (Printer.typeBody ds body ++ rest)
      fun x c => TakenFor o.selections mid x.2.IsBare c := by
  cases h with
  | scalar | union => exact hbare.elim
  | @object interfaces fs hinterfaces hfs =>
    obtain rfl : fs = [] := hbare
    have hdirs : Avoids (Printer.constDirectives ds ++ rest) [.implements, .amp, .identifier] :=
      Reads.avoids_constDirectives ds (hfollow.of_subset (by decide)) (by decide)
    rw [Printer.typeBody, List.append_assoc, List.append_assoc]
    refine Finds.bind (Reads.implementedInterfaces hinterfaces
      (Reads.cut_constDirectives ds hrest) hdirs) fun xs _ => ?_
    refine Finds.bind (Reads.constDirectives hds hrest (hfollow.of_subset (by decide))) fun es _ => ?_
    exact (hbody _ _).map fun _ _ h => h
  | @interface interfaces fs hinterfaces hfs =>
    obtain rfl : fs = [] := hbare
    have hdirs : Avoids (Printer.constDirectives ds ++ rest) [.implements, .amp, .identifier] :=
      Reads.avoids_constDirectives ds (hfollow.of_subset (by decide)) (by decide)
    rw [Printer.typeBody, List.append_assoc, List.append_assoc]
    refine Finds.bind (Reads.implementedInterfaces hinterfaces
      (Reads.cut_constDirectives ds hrest) hdirs) fun xs _ => ?_
    refine Finds.bind (Reads.constDirectives hds hrest (hfollow.of_subset (by decide))) fun es _ => ?_
    exact (hbody _ _).map fun _ _ h => h
  | @enum values hvalues =>
    obtain rfl : values = [] := hbare
    rw [Printer.typeBody, List.append_assoc]
    refine Finds.bind (Reads.constDirectives hds hrest (hfollow.of_subset (by decide))) fun es _ => ?_
    exact (hbody _ _).map fun _ _ h => h
  | @input fields hfields =>
    obtain rfl : fields = [] := hbare
    rw [Printer.typeBody, List.append_assoc]
    refine Finds.bind (Reads.constDirectives hds hrest (hfollow.of_subset (by decide))) fun es _ => ?_
    exact (hbody _ _).map fun _ _ h => h

/-- A type without a body in front of bare selections. -/
theorem Finds.typeDefinition {t : TypeDefinition} (h : t.Writable) (hbare : t.body.IsBare)
    (hrest : Cut rest) (hfollow : Avoids rest Reads.definitionFollow)
    (hbody : ∀ (α : Type) (item : Parser α),
      Finds (optionalDelimited .leftBrace .rightBrace item) rest
        fun xs c => TakenFor o.selections mid (xs = []) c)
    (pos : Position) (description : Option (Located String)) :
    Finds (Parser.typeDefinition pos description) (t.body.keyword.toList ++ ' ' ::
      (t.name.node.toList ++ (Printer.typeBody t.directives t.body ++ rest)))
      fun t' c => TakenFor o.selections mid t'.body.IsBare c := by
  have hb := begins_name (n := t.body.keyword) t.body.isValid_keyword
    (cut_blank (t.name.node.toList ++ (Printer.typeBody t.directives t.body ++ rest))).isNameContinue
  refine Finds.bind (Reads.next hb) fun keyword hkeyword => Finds.ignored rfl ?_
  have hkind : keyword.kind = .ofName t.body.keyword := congrArg Lexeme.kind hkeyword
  rw [hkind]
  refine Finds.bind (Reads.name h.name (Reads.cut_typeBody _ _ hrest)) fun name _ => ?_
  exact (Finds.typeBody h.directives h.body hbare hrest hfollow hbody).map fun _ _ h => h

theorem Finds.description {text : Option (Located String)} {cs : List Char}
    {k : Position → Option (Located String) → Parser β} (hstring : Avoids cs [.string])
    (hk : ∀ pos x, Finds (k pos x) cs R) :
    Finds (do
      let pos ← Parser.position
      let description ← Parser.description?
      k pos description) (Printer.description 0 text ++ cs) R := by
  refine Finds.bind Reads.position fun pos _ => ?_
  cases text with
  | none => exact Finds.bind (Reads.description_none hstring) fun x _ => hk pos x
  | some text =>
    rw [Printer.description, List.append_assoc, List.append_assoc]
    exact Finds.bind ((Reads.description_some (cut_newline cs)).leavesIgnored rfl) fun x _ => hk pos x

theorem Finds.definition {t : TypeDefinition} (h : t.Writable) (hbare : t.body.IsBare)
    (hrest : Cut rest) (hfollow : Avoids rest Reads.definitionFollow)
    (hbody : ∀ (α : Type) (item : Parser α),
      Finds (optionalDelimited .leftBrace .rightBrace item) rest
        fun xs c => TakenFor o.selections mid (xs = []) c) :
    Finds Parser.definition (Printer.typeDefinition t ++ rest) fun d c =>
      TakenFor o.selections mid d.IsBare c := by
  have hsystem : Finds Parser.typeSystemDefinition (Printer.typeDefinition t ++ rest) fun d c =>
      TakenFor o.selections mid d.IsBare c := by
    have hstarts := starts_type t (t.name.node.toList ++ (Printer.typeBody t.directives t.body ++ rest))
    have hfind := Finds.typeDefinition h hbare hrest hfollow hbody
    have hkeyword := t.body.keyword_mem
    rw [Printer.typeDefinition]
    simp only [List.append_assoc, List.cons_append]
    generalize t.body.keyword.toList ++ _ = cs at hstarts hfind ⊢
    obtain ⟨l, mid', hb, hl⟩ := hstarts
    have hstring : Kind.ofName t.body.keyword ∉ [Kind.string] := by
      have hall : ∀ word ∈ ["scalar", "type", "interface", "union", "enum", "input"],
          Kind.ofName word ∉ [Kind.string] := by decide
      exact hall _ hkeyword
    refine Finds.description (hb.avoids (hl ▸ hstring)) fun pos x => ?_
    refine Finds.bind (Reads.peekKind hb) fun kind hkind => ?_
    have htype : Finds (do return Definition.type (← Parser.typeDefinition pos x)) cs fun d c =>
        TakenFor o.selections mid d.IsBare c := (hfind pos x).map fun _ _ h => h
    rw [hl] at hkind
    generalize t.body.keyword = word at hkeyword hkind
    simp only [List.mem_cons, List.not_mem_nil, or_false] at hkeyword
    rcases hkeyword with rfl | rfl | rfl | rfl | rfl | rfl <;>
    · subst hkind
      exact htype
  obtain ⟨l, mid', hb, hl⟩ := starts_definition (.type t) rest
  refine Finds.bind (Reads.peekKind hb) fun kind hkind => ?_
  rw [hl, Definition.lead] at hkind
  split at hkind
  · subst hkind
    exact hsystem
  · have hkeyword := t.body.keyword_mem
    generalize t.body.keyword = word at hkeyword hkind
    simp only [List.mem_cons, List.not_mem_nil, or_false] at hkeyword
    rcases hkeyword with rfl | rfl | rfl | rfl | rfl | rfl <;>
    · subst hkind
      exact hsystem

/-! ## Operations start with their own tokens -/

theorem Gives.typeSystem : Gives Parser.typeSystemDefinition fun d => ∀ o, d ≠ .operation o := by
  refine Gives.position.bind fun pos _ => Gives.description?.bind fun description _ =>
    Gives.peekKind.bind fun kind _ => ?_
  have htype : Gives (do return Definition.type (← Parser.typeDefinition pos description))
      fun d => ∀ o, d ≠ .operation o :=
    (Gives.typeDefinition pos description).bind fun _ _ => .pure nofun
  split <;> first
    | exact htype
    | exact (Gives.schemaDefinition pos description).bind fun _ _ => .pure nofun
    | exact (Gives.directiveDefinition pos description).bind fun _ _ => .pure nofun
    | exact .unexpected

theorem kind_of_operation {kind : Token.Kind} (h : Starts cs kind) :
    Finds Parser.definition cs fun d _ => ∀ o, d = .operation o →
      kind ∈ [Kind.leftBrace, .query, .mutation, .subscription] := by
  obtain ⟨l, mid, hb, rfl⟩ := h
  refine Finds.bind (Reads.peekKind hb) fun k hk c hc d c' hrun o ho => ?_
  subst ho
  have hsystem : Parser.typeSystemDefinition c ≠ .ok (.operation o, c') :=
    fun hrun => (Gives.typeSystem c hc.proper _ c' hrun).1 o rfl
  split at hrun
  iterate 4
    · rw [← Option.some.inj hk]
      decide
  · obtain ⟨f, c1, -, hpure⟩ := bind_eq_ok hrun
    cases hpure
  all_goals first
    | exact absurd hrun hsystem
    | cases hrun

end Parser

/-- A query that is nothing but a pair of braces. -/
def Definition.IsEmptyQuery : Definition → Prop
  | .operation o => Printer.isShorthand o = true ∧ o.selections.items = []
  | _ => False

theorem Operation.isShorthand_of_same {o p : Operation} (h : p.same o = true) :
    Printer.isShorthand p = Printer.isShorthand o := by
  simp only [Operation.same, Bool.and_eq_true, decide_eq_true_eq] at h
  obtain ⟨⟨⟨⟨hkind, hname⟩, hvariables⟩, hdirs⟩, -⟩ := h
  have hnone : p.name.isNone = o.name.isNone := by
    cases hp : p.name <;> cases ho : o.name <;> rw [hp, ho] at hname <;>
      first | rfl | cases hname
  rw [Printer.isShorthand, Printer.isShorthand, hkind, hnone, isEmpty_of_sameList hvariables,
    isEmpty_of_sameList hdirs]

theorem nil_iff_of_sameList {α : Type} {same : α → α → Bool} {as bs : List α}
    (h : sameList same as bs = true) : as = [] ↔ bs = [] := by
  rw [← List.isEmpty_iff, ← List.isEmpty_iff, isEmpty_of_sameList h]

theorem Definition.isEmptyQuery_of_same {d e : Definition} (h : e.same d = true) :
    e.IsEmptyQuery ↔ d.IsEmptyQuery := by
  cases e <;> cases d <;> first | cases h | exact Iff.rfl | skip
  next p o =>
  have hsame : p.same o = true := h
  have hitems : sameSelections p.selections.items o.selections.items = true := by
    simp only [Operation.same, Bool.and_eq_true] at hsame
    exact hsame.2
  rw [sameSelections_eq] at hitems
  simp only [IsEmptyQuery, Operation.isShorthand_of_same hsame, nil_iff_of_sameList hitems]

theorem TypeBody.isBare_of_same {a b : TypeBody} (h : b.same a = true) : b.IsBare ↔ a.IsBare := by
  cases b <;> cases a <;> simp only [TypeBody.same, Bool.and_eq_true] at h <;>
    first
    | exact Iff.rfl
    | exact nil_iff_of_sameList h.2
    | exact nil_iff_of_sameList h
    | cases h

theorem Definition.isBare_of_same {d e : Definition} (h : e.same d = true) :
    e.IsBare ↔ d.IsBare := by
  cases e <;> cases d <;> first | cases h | exact Iff.rfl | skip
  next u t =>
  have hsame : u.same t = true := h
  simp only [TypeDefinition.same, Bool.and_eq_true] at hsame
  exact TypeBody.isBare_of_same hsame.2

theorem at_document {c : Cursor} {ds : List Definition} (h : c.At (Printer.following ds)) :
    c.At (Printer.document ds) := by
  cases ds with
  | nil => exact h
  | cons d ds => exact (lexes_ignored rfl).1 ((lexes_ignored rfl).1 h)

theorem notAtEnd_eq_ok {c c' : Cursor} (h : Parser.notAtEnd c = .ok (true, c')) :
    c' = c ∧ c.rest ≠ [] := by
  obtain ⟨t, c1, hpeek, hpure⟩ := Parser.bind_eq_ok h
  cases hpeek
  obtain ⟨hsome, rfl⟩ := Prod.mk.inj (Except.ok.inj hpure)
  refine ⟨rfl, fun hnil => ?_⟩
  rw [hnil] at hsome
  cases hsome

theorem Definition.operation_of_lead {d : Definition}
    (h : d.lead ∈ [Kind.leftBrace, .query, .mutation, .subscription]) : ∃ o, d = .operation o := by
  have hkeyword : ∀ word ∈ ["scalar", "type", "interface", "union", "enum", "input"],
      Kind.ofName word ∉ [Kind.leftBrace, .query, .mutation, .subscription] := by decide
  cases d with
  | operation o => exact ⟨o, rfl⟩
  | fragment =>
    rw [lead] at h
    exact absurd h (by decide)
  | type t =>
    rw [lead] at h
    split at h
    · exact absurd h (by decide)
    · exact absurd h (hkeyword _ t.body.keyword_mem)
  | schema | directive =>
    rw [lead] at h
    split at h <;> exact absurd h (by decide)

theorem exists_cons_of_sameList {α : Type} {same : α → α → Bool} {as : List α} {b : α} {bs : List α}
    (h : sameList same as (b :: bs) = true) : ∃ a as', as = a :: as' ∧ same a b = true ∧
      sameList same as' bs = true := by
  cases as with
  | nil => cases h
  | cons a as =>
    rw [sameList, Bool.and_eq_true] at h
    exact ⟨a, as, rfl, h.1, h.2⟩

/-- Definitions are not read as themselves after a further empty query. -/
theorem not_same_of_emptyQuery {ds : List Definition} (hw : ∀ d ∈ ds, d.Writable)
    {e₀ : Definition} (h₀ : e₀.IsEmptyQuery) {allowance : List Token} {c c' : Cursor}
    {es : List Definition} (hc : c.At (Printer.document ds))
    (hrun : Parser.repeatWithin Parser.notAtEnd Parser.definition allowance c = .ok (es, c')) :
    sameList Definition.same es (e₀ :: ds) ≠ true := by
  intro hsame
  induction ds generalizing e₀ allowance c es with
  | nil =>
    obtain ⟨e, es, rfl, -, -⟩ := exists_cons_of_sameList hsame
    obtain ⟨c1, c2, hmore, -, -⟩ := Parser.repeatWithin_cons hrun
    exact (notAtEnd_eq_ok hmore).2 (List.map_eq_nil_iff.1 (lexes_nil_iff.1 hc))
  | cons d ds ih =>
    obtain ⟨e, es, rfl, hfirst, hothers⟩ := exists_cons_of_sameList hsame
    obtain ⟨c1, c2, hmore, hitem, hnext⟩ := Parser.repeatWithin_cons hrun
    obtain ⟨rfl, -⟩ := notAtEnd_eq_ok hmore
    obtain ⟨hd, hds⟩ := List.forall_mem_cons.1 hw
    have hempty := (Definition.isEmptyQuery_of_same hfirst).2 h₀
    -- What was read is an operation, so that an operation was printed, and was read as itself.
    obtain ⟨o, rfl⟩ : ∃ o, d = .operation o := by
      cases e with
      | operation o =>
        exact Definition.operation_of_lead
          (Parser.kind_of_operation (starts_document d ds) c1 hc _ c2 hitem o rfl)
      | fragment | schema | type | directive => exact hempty.elim
    rw [Printer.document_cons] at hc
    obtain ⟨hecho, hat⟩ := (Parser.Reads.definition hd (cut_following ds) (avoids_following ds)
      False.elim).finds c1 hc e c2 hitem
    obtain ⟨allowance', hrest⟩ := hnext (by rintro rfl; cases hothers)
    exact ih hds ((Definition.isEmptyQuery_of_same hecho.1).1 hempty) (at_document hat) hrest hothers

/-- The selections after a type without a body are taken for it. -/
theorem finds_clashing {t : TypeDefinition} (ht : t.Writable) (hbare : t.body.IsBare)
    {o : Operation} (ho : o.Writable) (hs : Printer.isShorthand o = true) (post : List Definition) :
    Parser.Finds Parser.definition (Printer.document (.type t :: .operation o :: post)) fun d c =>
      Parser.TakenFor o.selections (Printer.following post) d.IsBare c := by
  rw [Printer.document_cons]
  refine Parser.Finds.definition ht hbare (cut_following _) (avoids_following _) fun α item => ?_
  rw [Printer.following, Printer.document_cons, Printer.definition, Printer.operation_eq, if_pos hs]
  exact .ignored rfl (.ignored rfl (Parser.Finds.takesSelections ho.selections _))

theorem apart_of_same {ds : List Definition} (hw : ∀ d ∈ ds, d.Writable)
    {allowance : List Token} {c c' : Cursor} {es : List Definition}
    (hc : c.At (Printer.document ds))
    (hrun : Parser.repeatWithin Parser.notAtEnd Parser.definition allowance c = .ok (es, c'))
    (hsame : sameList Definition.same es ds = true) : BracesApart ds := by
  induction ds generalizing allowance c es with
  | nil => exact bracesApart_nil
  | cons d ds ih =>
    obtain ⟨e, es, rfl, hfirst, hothers⟩ := exists_cons_of_sameList hsame
    obtain ⟨c1, c2, hmore, hitem, hnext⟩ := Parser.repeatWithin_cons hrun
    obtain ⟨rfl, -⟩ := notAtEnd_eq_ok hmore
    obtain ⟨hd, hds⟩ := List.forall_mem_cons.1 hw
    have hhead : d.IsBare → ∀ o post, ds = .operation o :: post → Printer.isShorthand o = false := by
      rintro hbare o post rfl
      refine Bool.eq_false_iff.2 fun hs => ?_
      cases d with
      | operation | fragment | schema | directive => exact hbare.elim
      | type t =>
        obtain ⟨hbody, hat⟩ := finds_clashing hd hbare (hds _ (List.mem_cons_self ..)) hs post c1 hc e
          c2 hitem
        have hitems : o.selections.items = [] := Decidable.byContradiction fun hne =>
          hbody hne ((Definition.isBare_of_same hfirst).2 hbare)
        obtain ⟨allowance', hrest⟩ := hnext (by rintro rfl; cases hothers)
        exact not_same_of_emptyQuery (fun x hx => hds x (List.mem_cons_of_mem _ hx))
          (show (Definition.operation o).IsEmptyQuery from ⟨hs, hitems⟩) (at_document (hat hitems)) hrest hothers
    refine .cons hhead ?_
    cases ds with
    | nil => exact bracesApart_nil
    | cons d' ds =>
      rw [Printer.document_cons] at hc
      obtain ⟨-, hat⟩ := (Parser.Reads.definition hd (cut_following _) (avoids_following _)
        fun hbare => avoids_brace_following (hhead hbare)).finds c1 hc e c2 hitem
      obtain ⟨allowance', hrest⟩ := hnext (by rintro rfl; cases hothers)
      exact ih hds (at_document hat) hrest hothers

/-- The text of a document that was parsed is read as the same document if and only if no type
without a body comes right before bare selections. -/
theorem Document.parse_text_iff {source : String} {filename : Option String} {d : Document}
    (h : Document.parse source filename = .ok d) :
    (∃ e, Document.parse d.text none = .ok e ∧ e.sameDefinitions d = true ∧ e.text = d.text) ↔
      BracesApart d.definitions := by
  have hw := Document.writable_of_parse h
  constructor
  · rintro ⟨e, he, hsame, -⟩
    obtain ⟨c, c', hat, hrun⟩ := Document.run_of_parse he
    rw [Document.text, String.toList_ofList] at hat
    exact apart_of_same hw hat hrun hsame
  · intro hapart
    obtain ⟨e, he, -, hsame, htext⟩ := Document.parse_text hw hapart none
    exact ⟨e, he, hsame, htext⟩

/-- Whether a source has a document that its text is read as. -/
def Document.roundTrips (source : String) : Bool :=
  match Document.parse source none with
  | .error _ => false
  | .ok d =>
    match Document.parse d.text none with
    | .error _ => false
    | .ok e => e.sameDefinitions d && decide (e.text = d.text)

theorem Document.roundTrips_iff {source : String} : Document.roundTrips source = true ↔
    ∃ d, Document.parse source none = .ok d ∧ ∃ e, Document.parse d.text none = .ok e ∧
      e.sameDefinitions d = true ∧ e.text = d.text := by
  unfold roundTrips
  constructor
  · intro h
    split at h
    · cases h
    · next d hd =>
      split at h
      · cases h
      · next e he =>
        rw [Bool.and_eq_true, decide_eq_true_eq] at h
        exact ⟨d, hd, e, he, h⟩
  · rintro ⟨d, hd, e, he, hsame, htext⟩
    simp only [hd, he, hsame, htext, decide_true, Bool.and_self]

theorem Document.parse_text_iff_mutation : ∃ d,
    Document.parse "type A {} mutation { a }" none = .ok d ∧ BracesApart d.definitions := by
  have h : Document.roundTrips "type A {} mutation { a }" = true := by decide +kernel
  obtain ⟨d, hd, hback⟩ := Document.roundTrips_iff.1 h
  exact ⟨d, hd, (Document.parse_text_iff hd).1 hback⟩

theorem Document.parse_text_bare : (Document.parse "type A {} { a }" none).isOk = true ∧
    ¬ ∃ d, Document.parse "type A {} { a }" none = .ok d ∧ ∃ e, Document.parse d.text none = .ok e ∧
      e.sameDefinitions d = true ∧ e.text = d.text := by
  refine ⟨by decide +kernel, fun h => ?_⟩
  have hfalse : Document.roundTrips "type A {} { a }" = false := by decide +kernel
  rw [Document.roundTrips_iff.2 h] at hfalse
  cases hfalse

end GraphQL
