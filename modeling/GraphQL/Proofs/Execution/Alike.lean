import GraphQL.Proofs.Execution.Determined
import GraphQL.Proofs.Execution.Reached

/-!
# Hosts that are alike

Of its host a query sees the outcomes of fields and lazies, and nothing of its world. Two hosts are
alike when they give the same outcomes as long as their worlds stay paired. A query comes to the
same progress with either of them and leaves their worlds paired, and so do queries that run
together (`Multiplex.run_alike`).
-/

namespace GraphQL

variable {ρ L W V α β : Type}

/-- What there is between the worlds of two hosts: which belong together, which lazies may be put
aside in them, and which may be forced. -/
structure Bond (L W V : Type) where
  paired : W → V → Prop
  owed : W → V → L → Prop
  due : W → V → L → Prop

namespace Bond

/-- Worlds that come later are paired again, and nothing that was owed or due is lost. -/
structure Carries (b : Bond L W V) (w : W) (v : V) (w' : W) (v' : V) : Prop where
  paired : b.paired w' v'
  owed : ∀ l, b.owed w v l → b.owed w' v' l
  due : ∀ l, b.due w v l → b.due w' v' l

variable {b : Bond L W V} {w w' w'' : W} {v v' v'' : V}

theorem Carries.refl (h : b.paired w v) : b.Carries w v w v :=
  ⟨h, fun _ => id, fun _ => id⟩

theorem Carries.trans (h : b.Carries w v w' v') (h' : b.Carries w' v' w'' v'') :
    b.Carries w v w'' v'' :=
  ⟨h'.paired, fun l hl => h'.owed l (h.owed l hl), fun l hl => h'.due l (h.due l hl)⟩

/-- The lazies of a value may be put aside. -/
def Owes (b : Bond L W V) (value : FieldValue L) (w : W) (v : V) : Prop :=
  ∀ l, value.Defers l → b.owed w v l

/-- What was put aside may have been. -/
def Keeps (b : Bond L W V) (pending : List (Pending L)) (w : W) (v : V) : Prop :=
  ∀ d ∈ pending, b.owed w v d.lazy

/-- What was put aside may be forced. -/
def Dues (b : Bond L W V) (pending : List (Pending L)) (w : W) (v : V) : Prop :=
  ∀ d ∈ pending, b.due w v d.lazy

theorem Owes.carried {value : FieldValue L} (h : b.Owes value w v) (hc : b.Carries w v w' v') :
    b.Owes value w' v' :=
  fun l hl => hc.owed l (h l hl)

theorem Keeps.nil : b.Keeps [] w v := by
  simp [Keeps]

theorem Keeps.carried {pending : List (Pending L)} (h : b.Keeps pending w v)
    (hc : b.Carries w v w' v') : b.Keeps pending w' v' :=
  fun d hd => hc.owed d.lazy (h d hd)

theorem Dues.carried {pending : List (Pending L)} (h : b.Dues pending w v)
    (hc : b.Carries w v w' v') : b.Dues pending w' v' :=
  fun d hd => hc.due d.lazy (h d hd)

theorem owes_leaf (json : Json) (w : W) (v : V) : b.Owes (.leaf json) w v := by
  intro l hl
  cases hl

end Bond

/-- With worlds that are paired, the hosts give the same outcomes for the fields of a registry and
for the lazies that may be forced. -/
structure Host.Alike (h : Host ρ L W) (h' : Host ρ L V) (registry : Registry ρ) (b : Bond L W V) :
    Prop where
  resolve : ∀ {object field : Name} {spec : FieldSpec ρ} {w : W} {v : V},
    registry.field? object field = some spec → b.paired w v → ∀ ctx entries,
    ∃ outcome entries' w' v',
      h.resolve spec.resolver ctx entries w = (outcome, entries', w') ∧
      h'.resolve spec.resolver ctx entries v = (outcome, entries', v') ∧
      b.Carries w v w' v' ∧ ∀ value, outcome = .ok value → b.Owes value w' v'
  force : ∀ {l : L} {w : W} {v : V}, b.paired w v → b.due w v l → ∃ outcome w' v',
    h.force l w = (outcome, w') ∧ h'.force l v = (outcome, v') ∧
      b.Carries w v w' v' ∧ ∀ value, outcome = .ok value → b.Owes value w' v'

/-- The same query with another host. -/
def Execution.under (e : Execution ρ L W) (h : Host ρ L V) : Execution ρ L V :=
  ⟨e.registry, h, e.variableValues, e.data⟩

namespace Execution

/-- From worlds that are paired, two runs give the same and come to the same progress, and the
worlds stay paired. -/
def Agrees (b : Bond L W V) (P : W → V → Prop) (m : Running L W α) (m' : Running L V α)
    (Q : α → W → V → Prop) : Prop :=
  ∀ p w v, b.paired w v → b.Keeps p.pending w v → P w v → ∃ r p' w' v',
    m.run (p, w) = (r, p', w') ∧ m'.run (p, v) = (r, p', v') ∧
      b.Carries w v w' v' ∧ b.Keeps p'.pending w' v' ∧ ∀ a, r = .ok a → Q a w' v'

variable {b : Bond L W V} {P P' : W → V → Prop} {Q : α → W → V → Prop} {R : β → W → V → Prop}

/-- What holds of paired worlds still holds of those that come later. -/
def Lasts (b : Bond L W V) (P : W → V → Prop) : Prop :=
  ∀ {w v w' v'}, b.Carries w v w' v' → P w v → P w' v'

abbrev always : W → V → Prop := fun _ _ => True

abbrev anyhow : α → W → V → Prop := fun _ _ _ => True

theorem Agrees.weaken {m : Running L W α} {m' : Running L V α} (h : Agrees b P m m' Q)
    (hP : ∀ {w v}, P' w v → P w v) : Agrees b P' m m' Q :=
  fun p w v hb hk hp => h p w v hb hk (hP hp)

theorem Agrees.bind {m : Running L W α} {m' : Running L V α} {f : α → Running L W β}
    {f' : α → Running L V β} (hP : Lasts b P) (h1 : Agrees b P m m' Q)
    (h2 : ∀ a, Agrees b (fun w v => P w v ∧ Q a w v) (f a) (f' a) R) :
    Agrees b P (m >>= f) (m' >>= f') R := by
  intro p w v hb hk hp
  obtain ⟨r, p1, w1, v1, hr, hr', hc, hk1, hq⟩ := h1 p w v hb hk hp
  rw [run_bind, run_bind, hr, hr']
  cases r with
  | error halt => exact ⟨.error halt, p1, w1, v1, rfl, rfl, hc, hk1, nofun⟩
  | ok a =>
    obtain ⟨r, p2, w2, v2, hr2, hr2', hc2, hk2, hq2⟩ :=
      h2 a p1 w1 v1 hc.paired hk1 ⟨hP hc hp, hq a rfl⟩
    exact ⟨r, p2, w2, v2, hr2, hr2', hc.trans hc2, hk2, hq2⟩

/-- A run after another of which nothing is used but that it has happened. -/
theorem Agrees.andThen {m : Running L W Unit} {m' : Running L V Unit} {n : Running L W β}
    {n' : Running L V β} (hP : Lasts b P) (h1 : Agrees b P m m' anyhow) (h2 : Agrees b P n n' R) :
    Agrees b P (do m; n) (do m'; n') R :=
  .bind hP h1 fun _ => h2.weaken And.left

theorem agrees_pure (a : α) (h : ∀ {w v}, P w v → Q a w v) :
    Agrees b P (pure a) (pure a) Q := by
  intro p w v hb hk hp
  refine ⟨.ok a, p, w, v, rfl, rfl, .refl hb, hk, ?_⟩
  rintro _ ⟨⟩
  exact h hp

theorem agrees_throw (halt : Halt) : Agrees b P (throw halt : Running L W α) (throw halt) Q :=
  fun p w v hb hk _ => ⟨.error halt, p, w, v, rfl, rfl, .refl hb, hk, nofun⟩

/-- A change of the progress that puts nothing aside but what may be. -/
theorem agrees_update {f : Progress L → Progress L}
    (h : ∀ {p w v}, P w v → b.Keeps p.pending w v → b.Keeps (f p).pending w v) :
    Agrees b P (update f) (update f) anyhow :=
  fun p w v hb hk hp => ⟨.ok (), f p, w, v, rfl, rfl, .refl hb, h hp hk, fun _ _ => trivial⟩

theorem agrees_grow (f : ResponseTree → List SlotId × ResponseTree) :
    Agrees b P (grow f) (grow f) anyhow :=
  fun p w v hb hk _ => ⟨.ok (f p.tree).1, { p with tree := (f p.tree).2 }, w, v, rfl, rfl, .refl hb, hk,
    fun _ _ => trivial⟩

/-- What is run as long as a slot is live. -/
theorem Agrees.whileLive {slot : SlotId} {m : Running L W Unit} {m' : Running L V Unit}
    (h : Agrees b P m m' anyhow) : Agrees b P (do if ← isLive slot then m)
      (do if ← isLive slot then m') anyhow := by
  intro p w v hb hk hp
  rw [run_bind, run_bind, run_isLive, run_isLive]
  cases p.tree.isLive slot with
  | true => exact h p w v hb hk hp
  | false => exact ⟨.ok (), p, w, v, rfl, rfl, .refl hb, hk, fun _ _ => trivial⟩

theorem agrees_report (frame : Frame) (error : Error) :
    Agrees b P (report frame error) (report frame error) anyhow :=
  agrees_update fun _ hk => hk

theorem agrees_fail (frame : Frame) (error : FieldError) :
    Agrees b P (fail frame error) (fail frame error) anyhow := by
  cases error with
  | field error => exact agrees_report frame error
  | internal message => exact agrees_throw _

variable {e : Execution ρ L W} {h : Host ρ L V} {frame : Frame}

theorem finish_agrees {complete : Frame → FieldValue L → Running L W Unit}
    {complete' : Frame → FieldValue L → Running L V Unit} {outcome : Outcome L}
    (hvalue : ∀ value, outcome = .ok value →
      Agrees b P (complete frame value) (complete' frame value) anyhow) :
    Agrees b P (finish complete frame outcome) (finish complete' frame outcome) anyhow := by
  cases outcome with
  | ok value => exact hvalue value rfl
  | error error => exact agrees_fail frame error

/-- The lazies of an outcome may be put aside. -/
abbrev OwesOutcome (b : Bond L W V) (outcome : Outcome L) (w : W) (v : V) : Prop :=
  ∀ value, outcome = .ok value → b.Owes value w v

theorem fieldOutcome_agrees (ha : e.host.Alike h e.registry b) (frame : Frame) (object : Name)
    (parent : Json) : Agrees b always (e.fieldOutcome frame object parent)
      ((e.under h).fieldOutcome frame object parent) (OwesOutcome b) := by
  unfold fieldOutcome
  simp only [under]
  split
  · refine agrees_pure _ fun _ value hv => ?_
    cases hv
    exact Bond.owes_leaf _ _ _
  · cases hf : e.registry.field? object frame.field.name with
    | none => exact agrees_pure _ fun _ => nofun
    | some spec =>
      simp only
      cases e.registry.coerceArguments e.variableValues frame.field.name spec.arguments
          frame.field.first with
      | error error => exact agrees_pure _ fun _ => nofun
      | ok arguments =>
        intro p w v hb hk _
        obtain ⟨outcome, entries, w', v', hr, hr', hc, ho⟩ := ha.resolve hf hb
          ⟨object, frame.field.name, parent, arguments, frame.path, frame.field.first,
            e.variableValues, e.data⟩ p.extensions
        refine ⟨.ok outcome, { p with extensions := entries }, w', v', ?_, ?_, hc, hk.carried hc, ?_⟩
        · exact congrArg (fun r => (Except.ok r.1, { p with extensions := r.2.1 }, r.2.2)) hr
        · exact congrArg (fun r => (Except.ok r.1, { p with extensions := r.2.1 }, r.2.2)) hr'
        · rintro _ ⟨⟩
          exact ho

theorem force_agrees (ha : e.host.Alike h e.registry b) (l : L) :
    Agrees b (fun w v => b.due w v l) (e.force l) ((e.under h).force l) (OwesOutcome b) := by
  intro p w v hb hk hd
  obtain ⟨outcome, w', v', hr, hr', hc, ho⟩ := ha.force hb hd
  refine ⟨.ok outcome, p, w', v', ?_, ?_, hc, hk.carried hc, ?_⟩
  · rw [run_force, hr]
  · rw [run_force]
    exact congrArg (fun r => (Except.ok r.1, p, r.2)) hr'
  · rintro _ ⟨⟩
    exact ho

/-! ## Values -/

theorem completeElements_agrees {complete : Frame → FieldValue L → Running L W Unit}
    {complete' : Frame → FieldValue L → Running L V Unit} {list : Frame} {item : TypeRef}
    (hitem : ∀ (frame : Frame) value, frame.field = list.field → frame.type = item →
      Agrees b (b.Owes value) (complete frame value) (complete' frame value) anyhow)
    (items : List (SlotId × FieldValue L)) (i : Nat) :
    Agrees b (fun w v => ∀ entry ∈ items, b.Owes entry.2 w v)
      (completeElements complete list item i items) (completeElements complete' list item i items)
      anyhow := by
  induction items generalizing i with
  | nil => exact agrees_pure () fun _ => trivial
  | cons entry items ih =>
    obtain ⟨slot, value⟩ := entry
    refine .andThen (fun hc hp entry hm => (hp entry hm).carried hc) ?_ (.whileLive ?_)
    · exact (hitem ⟨list.field, item, list.path.child (.index i), slot⟩ value rfl rfl).weaken
        fun hp => hp (slot, value) (List.mem_cons_self ..)
    · exact (ih (i + 1)).weaken fun hp entry hm => hp entry (List.mem_cons_of_mem _ hm)

/-- Running fields agrees. -/
def NodesAgree (b : Bond L W V) (e : Execution ρ L W) (h : Host ρ L V) (nodes : List Plan.Node) :
    Prop :=
  ∀ object value above path slots, Agrees b always (e.runNodes object value above path nodes slots)
    ((e.under h).runNodes object value above path nodes slots) anyhow

theorem perform_agrees {select : Select L W} {select' : Select L V} {value : FieldValue L}
    (hnodes : ∀ object nodes,
      frame.field.childrenFor? object = some nodes → NodesAgree b e h nodes)
    (hitem : ∀ item nullable, frame.type = .list item nullable →
      ∀ (inner : Frame) value, inner.field = frame.field → inner.type = item →
        Agrees b (b.Owes value) (e.completeAs select item inner value)
          ((e.under h).completeAs select' item inner value) anyhow) :
    Agrees b (b.Owes value) (perform e select frame (e.completion frame value))
      (perform (e.under h) select' frame (e.completion frame value)) anyhow := by
  have hfit := e.fits_completion frame value
  cases hc : e.completion frame value with
  | aside lazy =>
    rw [hc] at hfit
    cases hfit
    refine agrees_update (f := fun p => p.putAside frame lazy) fun ho hk d hd => ?_
    rcases List.mem_append.1 hd with hd | hd
    · exact hk d hd
    · cases List.mem_singleton.1 hd
      exact ho lazy .later
  | null => exact agrees_update (f := fun p => p.record (.null frame)) fun _ hk => hk
  | reject error => exact agrees_report frame _
  | leaf json =>
    exact agrees_update (f := fun p => { p with tree := p.tree.setLeaf frame.slot json }) fun _ hk => hk
  | object object nodes json =>
    refine .bind (fun hc ho => ho.carried hc) (agrees_grow _) fun slots => ?_
    exact (hnodes object nodes (hc ▸ hfit).1 object json frame.slot frame.path slots).weaken
      fun _ => trivial
  | list item nullable items =>
    rw [hc] at hfit
    refine .bind (fun hc ho => ho.carried hc) (agrees_grow _) fun slots => ?_
    refine (completeElements_agrees (hitem item nullable hfit.1) _ 0).weaken ?_
    rintro w v ⟨ho, -⟩ entry hm l hl
    exact ho l (defers_of_elements hfit.2 (List.of_mem_zip hm).2 hl)

theorem completeAs_agrees (field : Plan.Node) (hnodes : ∀ object nodes,
      field.childrenFor? object = some nodes → NodesAgree b e h nodes)
    (type : TypeRef) : ∀ (frame : Frame) (value : FieldValue L), frame.field = field →
      frame.type = type → Agrees b (b.Owes value)
        (e.completeAs (e.selectFrom field.children) type frame value)
        ((e.under h).completeAs ((e.under h).selectFrom field.children) type frame value) anyhow := by
  have hcompletion : ∀ (frame : Frame) (value : FieldValue L),
      (e.under h).completion frame value = e.completion frame value := fun _ _ => rfl
  induction type with
  | named name nullable =>
    intro frame value hf ht
    subst hf
    rw [← ht, completeAs_eq, completeAs_eq, hcompletion]
    refine perform_agrees hnodes fun item nullable ht' => ?_
    rw [ht] at ht'
    cases ht'
  | list item nullable ih =>
    intro frame value hf ht
    subst hf
    rw [← ht, completeAs_eq, completeAs_eq, hcompletion]
    refine perform_agrees hnodes fun item nullable ht' => ?_
    rw [ht] at ht'
    cases ht'
    exact ih

/-! ## Fields -/

/-- Running a field agrees. -/
def NodeAgrees (b : Bond L W V) (e : Execution ρ L W) (h : Host ρ L V) (node : Plan.Node) : Prop :=
  ∀ object parent slot path, Agrees b always (e.runNode object parent node slot path)
    ((e.under h).runNode object parent node slot path) anyhow

theorem nodeAgrees_of_children (ha : e.host.Alike h e.registry b) {node : Plan.Node}
    (hnodes : ∀ object nodes, node.childrenFor? object = some nodes → NodesAgree b e h nodes) :
    NodeAgrees b e h node := by
  intro object parent slot path
  obtain ⟨key, owner, type, first, others, children⟩ := node
  rw [runNode, runNode]
  refine .bind (fun _ hp => hp) (fieldOutcome_agrees ha _ object parent) fun outcome => ?_
  refine finish_agrees fun value hv => ?_
  exact (completeAs_agrees ⟨key, owner, type, first, others, children⟩ hnodes type
    ⟨_, type, path, slot⟩ value rfl rfl).weaken fun hp => hp.2 value hv

mutual

theorem runNode_agrees (ha : e.host.Alike h e.registry b) :
    (node : Plan.Node) → NodeAgrees b e h node
  | ⟨_, _, _, _, _, children⟩ => nodeAgrees_of_children ha (children_agree ha children)

theorem runNodes_agree (ha : e.host.Alike h e.registry b) :
    (nodes : List Plan.Node) → NodesAgree b e h nodes
  | [] => fun _ _ _ _ _ => agrees_pure () fun _ => trivial
  | node :: nodes => fun object value above path slots => by
    cases slots with
    | nil => exact agrees_pure () fun _ => trivial
    | cons slot slots =>
      refine .andThen (fun _ hp => hp) (runNode_agrees ha node object value slot _) (.whileLive ?_)
      exact runNodes_agree ha nodes object value above path slots

theorem children_agree (ha : e.host.Alike h e.registry b) :
    (children : List (Name × List Plan.Node)) → ∀ object nodes,
      Assoc.get? children object = some nodes → NodesAgree b e h nodes
  | [] => fun _ _ h => nomatch h
  | (name, nodes) :: rest => fun object found h => by
    rw [Assoc.get?] at h
    split at h
    · cases h
      exact runNodes_agree ha nodes
    · exact children_agree ha rest object found h

end

/-! ## Waves -/

theorem complete_agrees (ha : e.host.Alike h e.registry b) (frame : Frame) (value : FieldValue L) :
    Agrees b (b.Owes value) (e.complete frame value) ((e.under h).complete frame value) anyhow :=
  completeAs_agrees frame.field (children_agree ha _) frame.type frame value rfl rfl

theorem completePending_agrees (ha : e.host.Alike h e.registry b) (pending : List (Pending L)) :
    Agrees b (b.Dues pending) (e.completePending pending) ((e.under h).completePending pending)
      anyhow := by
  induction pending with
  | nil => exact agrees_pure () fun _ => trivial
  | cons d pending ih =>
    have hlasts : Lasts b (b.Dues (d :: pending)) := fun hc hp => hp.carried hc
    have hrest : Agrees b (b.Dues (d :: pending)) (e.completePending pending)
        ((e.under h).completePending pending) anyhow :=
      ih.weaken fun hp d hd => hp d (List.mem_cons_of_mem _ hd)
    have hforced : Agrees b (b.Dues (d :: pending))
        (do finish e.complete d.frame (← e.force d.lazy)
            e.completePending pending)
        (do finish (e.under h).complete d.frame (← (e.under h).force d.lazy)
            (e.under h).completePending pending) anyhow := by
      refine .bind hlasts ((force_agrees ha d.lazy).weaken fun hp => hp d (List.mem_cons_self ..))
        fun outcome => .andThen ?_ (finish_agrees fun value hv => ?_) (hrest.weaken And.left)
      · exact fun hc hp => ⟨hp.1.carried hc, fun value hv => (hp.2 value hv).carried hc⟩
      · exact (complete_agrees ha d.frame value).weaken fun hp => hp.2 value hv
    intro p w v hb hk hp
    rw [completePending, completePending, run_bind, run_bind, run_isLive, run_isLive]
    cases p.tree.isLive d.frame.slot with
    | true => exact hforced p w v hb hk hp
    | false => exact hrest p w v hb hk hp

/-- All that was put aside may be forced: a wave comes to the same. -/
theorem wave_agrees (ha : e.host.Alike h e.registry b) {p : Progress L} {w : W} {v : V}
    (hb : b.paired w v) (hd : b.Dues p.pending w v) : ∃ r p' w' v',
      e.wave.run (p, w) = (r, p', w') ∧ (e.under h).wave.run (p, v) = (r, p', v') ∧
        b.Carries w v w' v' ∧ b.Keeps p'.pending w' v' := by
  obtain ⟨r, p', w', v', hr, hr', hc, hk, -⟩ :=
    completePending_agrees ha p.pending { p with pending := [] } w v hb nofun hd
  exact ⟨r, p', w', v', hr, hr', hc, hk⟩

/-- Where whatever is put aside may be forced at once, all of it can be. -/
theorem settle_agrees (ha : e.host.Alike h e.registry b)
    (hdue : ∀ {w v l}, b.paired w v → b.owed w v l → b.due w v l) (fuel : Nat) :
    Agrees b always (e.settle fuel) ((e.under h).settle fuel) anyhow := by
  induction fuel with
  | zero =>
    intro p w v hb hk _
    rw [settle, settle, run_bind, run_bind, run_progress, run_progress]
    simp only
    split
    · exact agrees_throw (P := always) .unfinished p w v hb hk trivial
    · exact agrees_pure (P := always) () (fun _ => trivial) p w v hb hk trivial
  | succ fuel ih =>
    intro p w v hb hk _
    rw [settle, settle, run_bind, run_bind, run_progress, run_progress]
    simp only
    split
    · obtain ⟨r, p1, w1, v1, hr, hr', hc, hk1⟩ :=
        wave_agrees ha hb fun d hd => hdue hb (hk d hd)
      rw [run_bind, run_bind, hr, hr']
      cases r with
      | error halt => exact ⟨.error halt, p1, w1, v1, rfl, rfl, hc, hk1, by simp⟩
      | ok _ =>
        obtain ⟨r, p2, w2, v2, hr2, hr2', hc2, hk2, hq2⟩ := ih p1 w1 v1 hc.paired hk1 trivial
        exact ⟨r, p2, w2, v2, hr2, hr2', hc.trans hc2, hk2, hq2⟩
    · exact agrees_pure (P := always) () (fun _ => trivial) p w v hb hk trivial

theorem runRoot_agrees (ha : e.host.Alike h e.registry b) {serial : Bool}
    (hdue : serial = true → ∀ {w v l}, b.paired w v → b.owed w v l → b.due w v l) (fuel : Nat)
    (root : Name) (nodes : List Plan.Node) (slots : List SlotId) :
    Agrees b always (e.runRoot fuel serial root nodes slots)
      ((e.under h).runRoot fuel serial root nodes slots) anyhow := by
  induction nodes generalizing slots with
  | nil => exact agrees_pure () fun _ => trivial
  | cons node nodes ih =>
    cases slots with
    | nil => exact agrees_pure () fun _ => trivial
    | cons slot slots =>
      rw [runRoot_cons, runRoot_cons]
      refine .andThen (fun _ hp => hp) (runNode_agrees ha node root _ slot _)
        (.andThen (fun _ hp => hp) ?_ (.whileLive (ih slots)))
      cases serial with
      | true => exact settle_agrees ha (hdue rfl) fuel
      | false => exact agrees_pure () fun _ => trivial

/-- A query that is no mutation forces nothing as it begins. -/
theorem begin_agrees (ha : e.host.Alike h e.registry b) {plan : Plan}
    (hdue : plan.kind = .mutation → ∀ {w v l}, b.paired w v → b.owed w v l → b.due w v l)
    (fuel : Nat) : Agrees b always (e.begin fuel plan) ((e.under h).begin fuel plan) anyhow := by
  refine .bind (fun _ hp => hp) (agrees_grow _) fun slots => ?_
  exact (runRoot_agrees ha (fun hk => hdue (of_decide_eq_true hk)) fuel plan.root plan.fields
    slots).weaken fun _ => trivial

end Execution

/-! ## Queries together -/

/-- The same requests with another host. -/
def Schema.under (s : Schema ρ L W) (h : Host ρ L V) : Schema ρ L V :=
  ⟨s.registry, h, s.config, s.data⟩

/-- The values of a query that were put aside. -/
def QueryRun.pending : QueryRun L → List (Pending L)
  | running _ _ p => p.pending
  | _ => []

/-- Jobs may have their turn: the worlds stay paired, and what was put aside may be forced from
then on. -/
structure Bond.Serves (b : Bond L W V) (turn : W → W) (turn' : V → V) (w : W) (v : V) : Prop where
  carries : b.Carries w v (turn w) (turn' v)
  due : ∀ l, b.owed w v l → b.due (turn w) (turn' v) l

namespace Multiplex

variable {s : Schema ρ L W} {h : Host ρ L V} {m : Multiplex} {b : Bond L W V} {w : W} {v : V}

/-- Taking a part of their run, queries come to the same with either host. -/
def AdvancesAlike (b : Bond L W V) (s : Schema ρ L W) (h : Host ρ L V) (m : Multiplex)
    (part : Execution ρ L W → Plan → Running L W Unit)
    (part' : Execution ρ L V → Plan → Running L V Unit) (P : QueryRun L → W → V → Prop) : Prop :=
  ∀ {run w v}, b.paired w v → P run w v → ∃ halt run' w' v',
    advance s m part run w = (halt, run', w') ∧
    advance (s.under h) m part' run v = (halt, run', v') ∧
    b.Carries w v w' v' ∧ b.Keeps run'.pending w' v'

theorem advanceAll_alike {part : Execution ρ L W → Plan → Running L W Unit}
    {part' : Execution ρ L V → Plan → Running L V Unit} {P : QueryRun L → W → V → Prop}
    (hP : ∀ run, Execution.Lasts b (P run)) (hpart : AdvancesAlike b s h m part part' P)
    (hb : b.paired w v) {runs : List (QueryRun L)} (hruns : ∀ run ∈ runs, P run w v) :
    ∃ halt runs' w' v', advanceAll s m part runs w = (halt, runs', w') ∧
      advanceAll (s.under h) m part' runs v = (halt, runs', v') ∧
      b.Carries w v w' v' ∧ (halt = none → ∀ run ∈ runs', b.Keeps run.pending w' v') := by
  induction runs generalizing w v with
  | nil => exact ⟨none, [], w, v, rfl, rfl, .refl hb, by simp⟩
  | cons run rest ih =>
    obtain ⟨halt, run', w1, v1, hr, hr', hc, hk⟩ := hpart hb (hruns run (List.mem_cons_self ..))
    rw [advanceAll, advanceAll, hr, hr']
    cases halt with
    | some halt => exact ⟨some halt, run' :: rest, w1, v1, rfl, rfl, hc, by simp⟩
    | none =>
      obtain ⟨halt, rest', w2, v2, hrs, hrs', hc2, hk2⟩ := ih hc.paired fun run hm =>
        hP run hc (hruns run (List.mem_cons_of_mem _ hm))
      simp only [hrs, hrs']
      refine ⟨halt, run' :: rest', w2, v2, rfl, rfl, hc.trans hc2, fun hn run hm => ?_⟩
      rcases List.mem_cons.1 hm with rfl | hm
      · exact hk.carried hc2
      · exact hk2 hn run hm

theorem begin_alike (ha : s.host.Alike h s.registry b) (fuel : Nat) :
    AdvancesAlike b s h m (fun e plan => e.begin fuel plan) (fun e plan => e.begin fuel plan)
      fun run _ _ => Fresh run ∧ ∀ query data p, run = .running query data p →
        query.plan.kind = .mutation → ∀ {w v l}, b.paired w v → b.owed w v l → b.due w v l := by
  rintro run w v hb ⟨hfresh, hdue⟩
  cases run with
  | running query data p =>
    cases hfresh query data p rfl
    obtain ⟨r, p', w', v', hr, hr', hc, hk, -⟩ := Execution.begin_agrees
      (e := execution s m query data) ha (hdue query data .fresh rfl) fuel .fresh w v hb .nil
      trivial
    have hr' : ((execution (s.under h) m query data).begin fuel query.plan).run (.fresh, v) =
      (r, p', v') := hr'
    rw [advance, advance, hr, hr']
    cases r <;> exact ⟨_, _, w', v', rfl, rfl, hc, hk⟩
  | _ => exact ⟨none, _, w, v, rfl, rfl, .refl hb, .nil⟩

theorem wave_alike (ha : s.host.Alike h s.registry b) :
    AdvancesAlike b s h m (fun e _ => e.wave) (fun e _ => e.wave)
      fun run w v => b.Dues run.pending w v := by
  intro run w v hb hd
  cases run with
  | running query data p =>
    obtain ⟨r, p', w', v', hr, hr', hc, hk⟩ :=
      Execution.wave_agrees (e := execution s m query data) ha hb hd
    have hr' : (execution (s.under h) m query data).wave.run (p, v) = (r, p', v') := hr'
    rw [advance, advance, hr, hr']
    cases r <;> exact ⟨_, _, w', v', rfl, rfl, hc, hk⟩
  | _ => exact ⟨none, _, w, v, rfl, rfl, .refl hb, .nil⟩

theorem waves_alike (ha : s.host.Alike h s.registry b)
    (hturn : ∀ {w v}, b.paired w v → b.Serves s.host.turn h.turn w v) (fuel : Nat)
    {runs : List (QueryRun L)} (hb : b.paired w v)
    (hruns : ∀ run ∈ runs, b.Dues run.pending w v) : ∃ halt runs' w' v',
      waves s m fuel runs w = (halt, runs', w') ∧
      waves (s.under h) m fuel runs v = (halt, runs', v') ∧ b.paired w' v' := by
  induction fuel generalizing runs w v with
  | zero => exact ⟨some .unfinished, runs, w, v, rfl, rfl, hb⟩
  | succ fuel ih =>
    obtain ⟨halt, runs1, w1, v1, hr, hr', hc, hk⟩ :=
      advanceAll_alike (fun _ => fun hc hd => hd.carried hc) (wave_alike ha) hb hruns
    rw [waves, waves, hr, hr']
    cases halt with
    | some halt => exact ⟨some halt, runs1, w1, v1, rfl, rfl, hc.paired⟩
    | none =>
      simp only
      split
      · have hserves := hturn hc.paired
        exact ih hserves.carries.paired fun run hm d hd =>
          hserves.due d.lazy (hk rfl run hm d hd)
      · exact ⟨none, runs1, w1, v1, rfl, rfl, hc.paired⟩

/-- Requests come to the same responses with either host. In a mutation, what is put aside must be
such that it may be forced at once. -/
theorem run_alike (ha : s.host.Alike h s.registry b)
    (hturn : ∀ {w v}, b.paired w v → b.Serves s.host.turn h.turn w v)
    (hdrain : ∀ {w v}, b.paired w v → b.Serves s.host.drain h.drain w v)
    (hdue : ∀ query data p, QueryRun.running query data p ∈ m.receiveAll s →
      query.plan.kind = .mutation → ∀ {w v l}, b.paired w v → b.owed w v l → b.due w v l)
    (hb : b.paired w v) (fuel : Nat) : ∃ r w' v',
      m.run s fuel w = (r, w') ∧ m.run (s.under h) fuel v = (r, v') ∧ b.paired w' v' := by
  obtain ⟨halt, runs1, w1, v1, hr, hr', hc, hk⟩ := advanceAll_alike (m := m) (fun _ => fun _ hp => hp)
    (begin_alike ha fuel) hb fun run (hm : run ∈ m.receiveAll s) =>
      ⟨fresh_receiveAll s m run hm, fun query data p he => hdue query data p (he ▸ hm)⟩
  have hr' : advanceAll (s.under h) m (fun e plan => e.begin fuel plan) (m.receiveAll (s.under h)) v =
    (halt, runs1, v1) := hr'
  have hserves := hdrain hc.paired
  rw [run, run, settle, settle, hr, hr']
  cases halt with
  | some halt =>
    exact ⟨.error halt, _, _, rfl, rfl, (hdrain hserves.carries.paired).carries.paired⟩
  | none =>
    obtain ⟨halt, runs2, w2, v2, hw, hw', hb2⟩ := waves_alike (m := m) ha hturn fuel
      hserves.carries.paired fun run hm d hd => hserves.due d.lazy (hk rfl run hm d hd)
    have hw' : waves (s.under h) m fuel runs1 ((s.under h).host.drain v1) = (halt, runs2, v2) := hw'
    simp only [hw, hw']
    exact ⟨outcome halt runs2, _, _, rfl, rfl, (hdrain hb2).carries.paired⟩

end Multiplex

end GraphQL
