import GraphQL.Proofs.Execution.Determined
import GraphQL.Proofs.Execution.Reached

/-!
# Waves come to an end

With a host that answers as a function of what it is given, no run stops, and each wave leaves less
to force than there was before. With as much fuel as there is to force, requests are run to their
end, and their data are those of direct evaluation (`Multiplex.run_data`).
-/

namespace GraphQL

variable {ρ L W : Type} {e : Execution ρ L W} {a : Answers ρ L} {g : Ledger L W}

/-! ## What is left to force -/

theorem Task.map_load_ofNodes (object : Name) (json : Json) (path : Path) :
    ∀ (nodes : List Plan.Node) (slots : List SlotId), nodes.length = slots.length →
      (Task.ofNodes object json path nodes slots).map (Task.load e a) =
        (e.evaluateNodes a object json path nodes).map fun f => f.2.2.lazies
  | [], [], _ => rfl
  | node :: nodes, slot :: slots, h => by
    rw [ofNodes, List.map_cons, map_load_ofNodes object json path nodes slots (by simpa using h),
      Execution.evaluateNodes, List.map_cons, Execution.evaluateNode_eq _ _ _ _ slot]
    rfl

theorem Task.map_load_ofItems (list : Frame) (item : TypeRef) (slots : List SlotId)
    (items : List (FieldValue L)) (h : slots.length = items.length) :
    (Task.ofItems list item 0 (slots.zip items)).map (Task.load e a) =
      items.mapIdx fun i value =>
        (e.evaluateAt a ⟨list.field, item, list.path.child (.index i), list.slot⟩ value).lazies := by
  refine List.ext_getElem? fun k => ?_
  rw [ofItems_eq, List.getElem?_map, List.getElem?_mapIdx, List.getElem?_mapIdx, List.zip_eq_zipWith,
    List.getElem?_zipWith]
  cases hk : items[k]? with
  | none => cases slots[k]? <;> rfl
  | some value =>
    have hlt := (List.getElem?_eq_some_iff.1 hk).1
    rw [List.getElem?_eq_getElem (h ▸ hlt)]
    simp only [Option.map_some, Nat.zero_add]
    rfl

theorem Task.one_le_lazies (frame : Frame) (l : L) :
    1 ≤ (Task.verdict e a ⟨frame, .force l⟩).lazies := by
  show 1 ≤ (e.evaluateAt a frame (.later l)).lazies
  rw [Execution.evaluateAt_later]
  split <;> exact Nat.le_add_right ..

namespace Machine

/-- A wave takes what was put aside to be forced, one lazy of each. -/
theorem potential_wave (p : Progress L) (w : W) (todo : List (Task L)) :
    (⟨{ p with pending := [] }, w, p.pending.map Task.ofPending ++ todo⟩ : Machine L W).potential e a +
      p.pending.length = (⟨p, w, todo⟩ : Machine L W).potential e a := by
  have hsum : ∀ pending : List (Pending L),
      ((pending.map Task.ofPending).map (Task.load e a)).sum + pending.length =
        (pending.map fun d => ((Task.ofPending d).verdict e a).lazies).sum := by
    intro pending
    induction pending with
    | nil => rfl
    | cons d pending ih =>
      have hone := Task.one_le_lazies (e := e) (a := a) d.frame d.lazy
      have hload : Task.load e a (Task.ofPending d) = ((Task.ofPending d).verdict e a).lazies - 1 := rfl
      have hone : 1 ≤ ((Task.ofPending d).verdict e a).lazies := hone
      simp only [List.map_cons, List.sum_cons, List.length_cons, hload]
      omega
  have := hsum p.pending
  simp only [potential, List.map_append, List.sum_append, List.map_nil, List.sum_nil]
  omega

end Machine

theorem Step.potential_le {v : Nat → Option Json} {m m' : Machine L W}
    (hd : e.host.Determined e.registry a g) (h : m.Faithful e a g v) (hs : Step e m m') :
    m'.potential e a ≤ m.potential e a := by
  cases hs with
  | skip _ =>
    simp only [Machine.potential, List.map_cons, List.sum_cons]
    omega
  | @resolved frame object parent value p p' w w' rest hl hr =>
    have hdel := Execution.fieldOutcome_delivers hd h.good hr
    obtain ⟨o, entries, w2, h2⟩ := fieldOutcome_run e frame object parent p w
    rw [hr] at h2
    cases h2
    have hload : Task.load e a ⟨frame, .resolve object parent⟩ =
        Task.load e a ⟨frame, .complete value⟩ := by
      simp only [Task.load, Task.verdict, ← hdel.expected]
    simp only [Machine.potential, List.map_cons, List.sum_cons, hload, Nat.le_refl]
  | @unresolved frame object parent error p p' w w' rest hl hr =>
    obtain ⟨o, entries, w2, h2⟩ := fieldOutcome_run e frame object parent p w
    rw [hr] at h2
    cases h2
    simp only [Machine.potential, Progress.record, List.map_cons, List.sum_cons]
    omega
  | @forced frame lazy value p w w' rest hl hf =>
    have hdel := hd.force h.good (h.owed _ (List.mem_cons_self ..) lazy rfl)
    rw [hf] at hdel
    have hload : Task.load e a ⟨frame, .force lazy⟩ = Task.load e a ⟨frame, .complete value⟩ := by
      simp only [Task.load, Task.verdict]
      rw [Execution.evaluateAt_later, ← hdel.expected]
      exact Nat.add_sub_cancel_left ..
    simp only [Machine.potential, List.map_cons, List.sum_cons, hload, Nat.le_refl]
  | unforced _ _ | null _ _ | rejected _ _ | leaf _ _ =>
    simp only [Machine.potential, Progress.record, List.map_cons, List.sum_cons]
    omega
  | @aside frame value lazy p w rest hl hc =>
    have hfit := e.fits_completion frame value
    rw [hc] at hfit
    cases hfit
    have hload : Task.load e a ⟨frame, .complete (.later lazy)⟩ =
      (Task.verdict e a (Task.ofPending ⟨frame, lazy⟩)).lazies := rfl
    simp only [Machine.potential, Progress.putAside, List.map_cons, List.sum_cons, List.map_append,
      List.sum_append, hload, List.map_nil, List.sum_nil]
    omega
  | @object frame value object nodes json p w rest hl hc =>
    have hload : Task.load e a ⟨frame, .complete value⟩ = _ :=
      congrArg Verdict.lazies (Task.verdict_complete hc (by simp))
    have hsum := congrArg List.sum (Task.map_load_ofNodes (e := e) (a := a) object json frame.path nodes
      (p.growObject frame.slot nodes).1 (by simp [Progress.growObject, ResponseTree.setObject_eq]))
    simp only [Machine.potential, List.map_append, List.sum_append, List.map_cons, List.sum_cons, hload,
      hsum]
    exact Nat.le_refl _
  | @list frame value item nullable items p w rest hl hc =>
    have hload : Task.load e a ⟨frame, .complete value⟩ = _ :=
      congrArg Verdict.lazies (Task.verdict_complete hc (by simp))
    have hsum := congrArg List.sum (Task.map_load_ofItems (e := e) (a := a) frame item
      (p.growList frame.slot items.length (item.nullable || nullable)).1 items
      (by simp [Progress.growList, ResponseTree.setList_eq]))
    have hitems : (e.completionVerdict a frame (.list item nullable items)).lazies = (items.mapIdx
        fun i value => (e.evaluateAt a ⟨frame.field, item, frame.path.child (.index i), frame.slot⟩
          value).lazies).sum := by
      refine congrArg List.sum (List.ext_getElem? fun k => ?_)
      rw [List.getElem?_map, List.getElem?_mapIdx, List.getElem?_mapIdx, Option.map_map]
      rfl
    simp only [Machine.potential, List.map_append, List.sum_append, List.map_cons, List.sum_cons, hload,
      hsum, hitems]
    exact Nat.le_refl _
  | @wave p w todo =>
    have := Machine.potential_wave (e := e) (a := a) p w todo
    omega

/-! ## Runs of a determined host -/

theorem Steps.faithful {v : Nat → Option Json} {m m' : Machine L W}
    (hd : e.host.Determined e.registry a g) (h : m.Faithful e a g v) (hs : Steps e m m') :
    ∃ v', m'.Faithful e a g v' ∧ v' ResponseTree.root = v ResponseTree.root ∧
      g.Grows m.world m'.world ∧ m'.potential e a ≤ m.potential e a := by
  induction hs with
  | refl => exact ⟨v, h, rfl, .refl h.good, Nat.le_refl _⟩
  | tail _ hs ih =>
    obtain ⟨v1, h1, hroot1, hg1, hp1⟩ := ih
    obtain ⟨v2, h2, hroot2, hg2⟩ := hs.faithful hd h1
    exact ⟨v2, h2, hroot2.trans hroot1, hg1.trans hg2, Nat.le_trans (hs.potential_le hd h1) hp1⟩

namespace Execution

variable {v : Nat → Option Json} {m : Running L W Unit} {p p' : Progress L} {w w' : W}
  {todo rest : List (Task L)}

theorem Does.ok (hdoes : Does e m p w todo rest) (hd : e.host.Determined e.registry a g)
    (h : (⟨p, w, todo⟩ : Machine L W).Faithful e a g v) :
    ∃ p' w', m.run (p, w) = (.ok (), p', w') := by
  have := hdoes h.sound
  cases hr : m.run (p, w) with
  | mk result s =>
    obtain ⟨p', w'⟩ := s
    cases result with
    | ok _ => exact ⟨p', w', rfl⟩
    | error halt =>
      rw [hr] at this
      obtain ⟨message, broken, -, hsteps, hb⟩ := this
      obtain ⟨v', h', -⟩ := Steps.faithful hd h hsteps
      exact absurd hb (h'.not_breaks hd message)

/-- A wave runs, and takes one lazy at least from each value that was put aside. -/
theorem wave_ok (hd : e.host.Determined e.registry a g)
    (h : (⟨p, w, rest⟩ : Machine L W).Faithful e a g v) :
    ∃ p' w', e.wave.run (p, w) = (.ok (), p', w') ∧ Steps e ⟨p, w, rest⟩ ⟨p', w', rest⟩ ∧
      (⟨p', w', rest⟩ : Machine L W).potential e a + p.pending.length ≤
        (⟨p, w, rest⟩ : Machine L W).potential e a := by
  obtain ⟨v1, h1, -, -⟩ := (Step.wave (e := e)).faithful hd h
  have hdoes : Does e (e.completePending p.pending) { p with pending := [] } w
      (p.pending.map Task.ofPending ++ rest) rest :=
    completePending_does p.pending _ w
  obtain ⟨p', w', hr⟩ := hdoes.ok hd h1
  have hsteps := hdoes.steps_of_ok h1.sound hr
  obtain ⟨-, -, -, -, hle⟩ := Steps.faithful hd h1 hsteps
  refine ⟨p', w', hr, .head .wave hsteps, ?_⟩
  have := Machine.potential_wave (e := e) (a := a) p w rest
  omega

theorem settle_ok (hd : e.host.Determined e.registry a g) (fuel : Nat) :
    ∀ {p : Progress L} {w : W} {v : Nat → Option Json},
      (⟨p, w, rest⟩ : Machine L W).Faithful e a g v →
      (⟨p, w, rest⟩ : Machine L W).potential e a ≤ fuel →
      ∃ p' w', (e.settle fuel).run (p, w) = (.ok (), p', w') := by
  induction fuel with
  | zero =>
    intro p w v h hle
    obtain ⟨p', w', -, -, hle'⟩ := wave_ok hd h
    have hp : p.pending = [] := List.eq_nil_of_length_eq_zero (by omega)
    refine ⟨p, w, ?_⟩
    rw [settle, run_bind, run_progress]
    simp [Progress.isPending, hp]
  | succ fuel ih =>
    intro p w v h hle
    rw [settle, run_bind, run_progress]
    simp only
    cases hp : p.isPending with
    | false => exact ⟨p, w, rfl⟩
    | true =>
      obtain ⟨p1, w1, hr, hsteps, hle'⟩ := wave_ok hd h
      obtain ⟨v1, h1, -⟩ := Steps.faithful hd h hsteps
      have hne : 0 < p.pending.length := by
        rw [Progress.isPending] at hp
        cases hq : p.pending with
        | nil => simp [hq] at hp
        | cons d rest => exact Nat.succ_pos _
      rw [if_pos rfl, run_bind, hr]
      exact ih h1 (by omega)

theorem settleIf_ok (hd : e.host.Determined e.registry a g) {fuel : Nat} {serial : Bool}
    (h : (⟨p, w, rest⟩ : Machine L W).Faithful e a g v)
    (hle : (⟨p, w, rest⟩ : Machine L W).potential e a ≤ fuel) : ∃ p' w',
      (if serial then e.settle fuel else pure () : Running L W Unit).run (p, w) = (.ok (), p', w') := by
  cases serial with
  | true => exact settle_ok hd fuel h hle
  | false => exact ⟨p, w, rfl⟩

theorem runRoot_ok (hd : e.host.Determined e.registry a g) {fuel : Nat} {serial : Bool} {root : Name}
    {nodes : List Plan.Node} : ∀ {slots : List SlotId} {p : Progress L} {w : W}
      {v : Nat → Option Json},
      (⟨p, w, Task.ofNodes root (.object []) [] nodes slots⟩ : Machine L W).Faithful e a g v →
      (⟨p, w, Task.ofNodes root (.object []) [] nodes slots⟩ : Machine L W).potential e a ≤ fuel →
      (∀ task ∈ Task.ofNodes (L := L) root (.object []) [] nodes slots,
        Task.Under p.tree ResponseTree.root task) →
      p.tree.isLive ResponseTree.root = true →
      ∃ p' w', (e.runRoot fuel serial root nodes slots).run (p, w) = (.ok (), p', w') := by
  induction nodes with
  | nil => exact fun {_ p w _} _ _ _ _ => ⟨p, w, rfl⟩
  | cons node nodes ih =>
    intro slots p w v h hle hunder hl
    cases slots with
    | nil => exact ⟨p, w, rfl⟩
    | cons slot slots =>
      have hlive := (hunder _ (List.mem_cons_self ..)).isLive h.sound (List.mem_cons_self ..) hl
      have hdoes := runNode_does (e := e) node root (.object []) slot (Path.child [] (.field node.key)) p w
        (Task.ofNodes root (.object []) [] nodes slots) hlive
      obtain ⟨p1, w1, hr1⟩ := hdoes.ok hd h
      have hsteps1 := hdoes.steps_of_ok h.sound hr1
      obtain ⟨v1, h1, -, -, hle1⟩ := Steps.faithful hd h hsteps1
      have hsettle : ∃ p2 w2, (if serial then e.settle fuel else pure () : Running L W Unit).run
          (p1, w1) = (.ok (), p2, w2) := settleIf_ok hd h1 (Nat.le_trans hle1 hle)
      obtain ⟨p2, w2, hr2⟩ := hsettle
      have hsteps2 := settleIf_ends.steps_of_ok h1.sound hr2
      obtain ⟨v2, h2, -, -, hle2⟩ := Steps.faithful hd h1 hsteps2
      have hext := (Steps.extends hsteps1 h.sound).trans (Steps.extends hsteps2 h1.sound)
      rw [runRoot_cons, run_bind]
      rw [show (e.runNode root (.object []) node slot [.field node.key]).run (p, w) = _ from hr1]
      simp only
      rw [run_bind, hr2]
      simp only
      rw [run_bind, run_isLive]
      cases hl2 : p2.tree.isLive ResponseTree.root with
      | true =>
        exact ih h2 (Nat.le_trans hle2 (Nat.le_trans hle1 hle))
          (fun task hm => (hunder task (List.mem_cons_of_mem _ hm)).of_extends hext) hl2
      | false => exact ⟨p2, w2, rfl⟩

end Execution

namespace Machine

theorem faithful_start (plan : Plan) {w : W} (hg : g.good w) :
    ∃ v, (Machine.start plan w : Machine L W).Faithful e a g v ∧
      v ResponseTree.root =
        (Verdict.object (e.evaluateNodes a plan.root (.object []) [] plan.fields)).data := by
  have hroot : ResponseTree.fresh.get? ResponseTree.root = some ⟨none, true, .pending⟩ := rfl
  have hslots : (Progress.fresh (L := L).growObject ResponseTree.root plan.fields).1 =
      ResponseTree.fresh.nextIds plan.fields.length := by
    simp [Progress.growObject, Progress.fresh, ResponseTree.setObject_eq]
  have htasks : (Machine.start plan w : Machine L W).tasks =
      Task.ofNodes plan.root (.object []) [] plan.fields
        (ResponseTree.fresh.nextIds plan.fields.length) := by
    rw [← hslots]
    exact List.append_nil _
  let data := (Verdict.object (e.evaluateNodes a plan.root (.object []) [] plan.fields)).data
  have hvalued : ResponseTree.Valued ResponseTree.fresh fun _ => data := by
    refine ⟨?_, ?_, ?_, ?_⟩ <;>
    · intro id slot
      intros
      rename_i hs hc
      obtain ⟨-, rfl⟩ := ResponseTree.get?_fresh hs
      cases hc
  refine ⟨Machine.revalued e a ResponseTree.fresh (fun _ => data)
    (Task.ofNodes plan.root (.object []) [] plan.fields
      (ResponseTree.fresh.nextIds plan.fields.length)), ⟨sound_start plan w, hg, ?_, ?_, ?_⟩,
    revalued_root ResponseTree.wellFormed_fresh _⟩
  · intro task hm l hl
    obtain ⟨k, hk⟩ := List.mem_iff_getElem?.1 (htasks ▸ hm)
    obtain ⟨node, slot, -, -, rfl⟩ := Task.getElem?_ofNodes hk
    exact hl.elim
  · refine hvalued.grow ResponseTree.wellFormed_fresh hroot revalued_old (by simp) (by simp) (by simp) ?_
    rintro _ ⟨⟩
    exact (revalued_root ResponseTree.wellFormed_fresh _).trans
      (data_object hroot plan.root (.object []) [] plan.fields _ (by rw [length_keysOf]; rfl))
  · intro task hm
    obtain ⟨k, hk⟩ := List.mem_iff_getElem?.1 (htasks ▸ hm)
    obtain ⟨node, slot, -, hslot, rfl⟩ := Task.getElem?_ofNodes hk
    obtain ⟨rfl, -⟩ := ResponseTree.getElem?_nextIds hslot
    exact revalued_new hk

/-- Nothing is pending where nothing is left to do. -/
theorem Faithful.toJson_eq {p : Progress L} {w : W} {v : Nat → Option Json}
    (h : (⟨p, w, []⟩ : Machine L W).Faithful e a g v) (hp : p.pending = []) :
    p.tree.toJson = (v ResponseTree.root).getD .null := by
  refine h.valued.toJson_eq h.sound.tree fun {id slot} hs hc => Bool.eq_false_iff.2 fun hl => ?_
  have := h.sound.covered hs hc hl
  simp [Machine.tasks, hp] at this

end Machine

namespace Execution

/-- How many lazies direct evaluation forces for a query. -/
def lazies (e : Execution ρ L W) (a : Answers ρ L) (plan : Plan) : Nat :=
  (Verdict.object (e.evaluateNodes a plan.root (.object []) [] plan.fields)).lazies

theorem potential_start (plan : Plan) (w : W) :
    (Machine.start plan w : Machine L W).potential e a = e.lazies a plan := by
  have hlength : plan.fields.length =
      (Progress.fresh (L := L).growObject ResponseTree.root plan.fields).1.length := by
    simp [Progress.growObject, ResponseTree.setObject_eq]
  have := congrArg List.sum (Task.map_load_ofNodes (e := e) (a := a) plan.root (.object []) []
    plan.fields _ hlength)
  exact (Nat.add_zero _).trans this

/-- A query begins, when there is fuel for what it has to force. -/
theorem begin_ok (hd : e.host.Determined e.registry a g) {fuel : Nat} {plan : Plan} {w : W}
    (hg : g.good w) (hle : e.lazies a plan ≤ fuel) :
    ∃ p' w' v, (e.begin fuel plan).run (.fresh, w) = (.ok (), p', w') ∧
      (⟨p', w', []⟩ : Machine L W).Faithful e a g v ∧
      (v ResponseTree.root).getD .null = e.evaluate a plan ∧ g.Grows w w' ∧
      (⟨p', w', []⟩ : Machine L W).potential e a ≤ e.lazies a plan := by
  obtain ⟨v, h, hroot⟩ := Machine.faithful_start (e := e) (a := a) plan hg
  obtain ⟨p', w', hr⟩ : ∃ p' w', (e.begin fuel plan).run (.fresh, w) = (.ok (), p', w') := by
    rw [begin_run]
    exact runRoot_ok hd h (Nat.le_trans (Nat.le_of_eq (potential_start plan w)) hle)
      (under_start plan w) (isLive_start plan w)
  obtain ⟨v', h', hroot', hg', hle'⟩ := Steps.faithful hd h (begin_steps hr)
  refine ⟨p', w', v', hr, h', ?_, hg', (potential_start plan w) ▸ hle'⟩
  rw [hroot', hroot]
  rfl

end Execution

end GraphQL
