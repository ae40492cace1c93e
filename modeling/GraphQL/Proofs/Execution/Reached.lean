import GraphQL.Multiplex
import GraphQL.Proofs.Execution.Refinement
import Mathlib.Data.List.Forall2

/-!
# What a query can come to

`Reached` holds of the machines that a query comes to by its steps, while the world it shares with
others changes in between. The progress of each query of a multiplex that has run to its end is
reached, with nothing left to do.
-/

namespace GraphQL

variable {ρ L W : Type}

/-- A query whose root has just got the slots of its fields. -/
def Machine.start (plan : Plan) (w : W) : Machine L W :=
  let (slots, p) := Progress.fresh.growObject ResponseTree.root plan.fields
  ⟨p, w, Task.ofNodes plan.root (.object []) [] plan.fields slots⟩

inductive Reached (e : Execution ρ L W) (plan : Plan) : Machine L W → Prop where
  | start (w : W) : Reached e plan (.start plan w)
  | step {m m' : Machine L W} : Reached e plan m → Step e m m' → Reached e plan m'
  /-- Others may have their turn between two steps. -/
  | turn {p : Progress L} {w : W} (w' : W) {todo : List (Task L)} :
      Reached e plan ⟨p, w, todo⟩ → Reached e plan ⟨p, w', todo⟩

theorem Machine.sound_start (plan : Plan) (w : W) :
    (Machine.start plan w : Machine L W).Sound := by
  have hroot : ResponseTree.fresh.get? ResponseTree.root = some ⟨none, true, .pending⟩ := rfl
  have hslots : (Machine.start plan w : Machine L W).tasks.map Task.slot =
      ResponseTree.fresh.nextIds (Execution.keysOf plan.fields).length := by
    simp only [tasks, start, Progress.growObject, Progress.fresh, ResponseTree.setObject_eq,
      List.map_nil, List.append_nil]
    exact Task.map_slot_ofNodes _ _ _ _ _ (by simp)
  have hflags : ((Execution.keysOf plan.fields).map Prod.snd).length =
      (Execution.keysOf plan.fields).length := List.length_map _
  constructor
  · refine ResponseTree.wellFormed_grow ResponseTree.wellFormed_fresh hroot rfl ?_ (by simp)
    simp [ResponseTree.Content.children, List.map_snd_zip]
    rfl
  · intro task hm
    have hin : task.slot ∈ (Machine.start plan w : Machine L W).tasks.map Task.slot :=
      List.mem_map_of_mem hm
    rw [hslots, ResponseTree.mem_nextIds] at hin
    obtain ⟨k, hk, he⟩ := hin
    rw [he]
    exact ⟨_, ResponseTree.get?_grow_new hroot (List.getElem?_eq_getElem (hflags ▸ hk)), rfl⟩
  · rw [hslots]
    exact List.nodup_range'
  · rw [hslots]
    intro id slot hg hc _
    obtain ⟨rfl, rfl⟩ | ⟨hne, hg⟩ | ⟨k, nullable, rfl, hk, rfl⟩ :=
      ResponseTree.get?_grow_cases hroot hg
    · cases hc
    · exact absurd (ResponseTree.get?_fresh hg).1 hne
    · rw [ResponseTree.mem_nextIds]
      exact ⟨k, hflags ▸ (List.getElem?_eq_some_iff.1 hk).1, rfl⟩

theorem Reached.sound {e : Execution ρ L W} {plan : Plan} {m : Machine L W}
    (h : Reached e plan m) : m.Sound := by
  induction h with
  | start w => exact Machine.sound_start plan w
  | step _ hs ih => exact hs.moves.sound ih
  | turn w' _ ih => exact ih.of_perm rfl (.refl _)

theorem Reached.steps {e : Execution ρ L W} {plan : Plan} {m m' : Machine L W}
    (h : Reached e plan m) (hs : Steps e m m') : Reached e plan m' := by
  induction hs with
  | refl => exact h
  | tail _ hs ih => exact ih.step hs

namespace Execution

variable {e : Execution ρ L W} {m : Running L W Unit} {p p' : Progress L} {w w' : W}
  {todo rest : List (Task L)}

theorem Does.steps_of_ok (h : Does e m p w todo rest) (hs : (⟨p, w, todo⟩ : Machine L W).Sound)
    (hr : m.run (p, w) = (.ok (), p', w')) : Steps e ⟨p, w, todo⟩ ⟨p', w', rest⟩ := by
  have := h hs
  rw [hr] at this
  exact this

/-- Steps lead to where a run stops; when that is because of an internal failure, the task on top
breaks. -/
def StopsAt (e : Execution ρ L W) (m : Machine L W) (halt : Halt) : Prop :=
  ∃ m', Steps e m m' ∧ ∀ message, halt = .internal message → Breaks e m' message

theorem StopsAt.steps {m m' : Machine L W} {halt : Halt} (hs : Steps e m m')
    (h : StopsAt e m' halt) : StopsAt e m halt := by
  obtain ⟨m'', hsteps, hbreaks⟩ := h
  exact ⟨m'', hs.trans hsteps, hbreaks⟩

/-- Running `m` takes the steps from one stack to another, or stops on the way. -/
def Ends (e : Execution ρ L W) (m : Running L W Unit) (p : Progress L) (w : W)
    (todo rest : List (Task L)) : Prop :=
  (⟨p, w, todo⟩ : Machine L W).Sound →
    match m.run (p, w) with
    | (.ok (), p', w') => Steps e ⟨p, w, todo⟩ ⟨p', w', rest⟩
    | (.error halt, _) => StopsAt e ⟨p, w, todo⟩ halt

theorem Does.ends (h : Does e m p w todo rest) : Ends e m p w todo rest := by
  intro hs
  have hdoes := h hs
  split
  · next hr =>
    rw [hr] at hdoes
    exact hdoes
  · next hr =>
    rw [hr] at hdoes
    obtain ⟨message, broken, rfl, hsteps, hbreaks⟩ := hdoes
    refine ⟨broken, hsteps, fun message' he => ?_⟩
    cases he
    exact hbreaks

theorem ends_pure : Ends e (pure ()) p w rest rest := fun _ => .refl

theorem Ends.steps_of_ok (h : Ends e m p w todo rest) (hs : (⟨p, w, todo⟩ : Machine L W).Sound)
    (hr : m.run (p, w) = (.ok (), p', w')) : Steps e ⟨p, w, todo⟩ ⟨p', w', rest⟩ := by
  have := h hs
  rw [hr] at this
  exact this

theorem Ends.stopsAt {halt : Halt} (h : Ends e m p w todo rest)
    (hs : (⟨p, w, todo⟩ : Machine L W).Sound) (hr : m.run (p, w) = (.error halt, p', w')) :
    StopsAt e ⟨p, w, todo⟩ halt := by
  have := h hs
  rw [hr] at this
  exact this

/-- One part of a run after another. -/
theorem Ends.bind {f : Unit → Running L W Unit} {mid : List (Task L)}
    (h1 : Ends e m p w todo mid)
    (h2 : ∀ p' w', ResponseTree.Extends p.tree p'.tree → Ends e (f ()) p' w' mid rest) :
    Ends e (m >>= f) p w todo rest := by
  intro hs
  rw [run_bind]
  cases hm : m.run (p, w) with
  | mk r s =>
    obtain ⟨p', w'⟩ := s
    cases r with
    | error halt => exact h1.stopsAt hs hm
    | ok _ =>
      have hsteps := h1.steps_of_ok hs hm
      have hrest := h2 p' w' (hsteps.extends hs) (hsteps.sound hs)
      simp only
      split
      · next hr =>
        rw [hr] at hrest
        exact hsteps.trans hrest
      · next hr =>
        rw [hr] at hrest
        exact hrest.steps hsteps

theorem settle_ends {fuel : Nat} : Ends e (e.settle fuel) p w rest rest := by
  induction fuel generalizing p w with
  | zero =>
    intro hs
    rw [settle, run_bind, run_progress]
    simp only
    cases p.isPending with
    | true => exact ⟨_, .refl, by simp⟩
    | false => exact .refl
  | succ fuel ih =>
    rw [settle]
    intro hs
    rw [run_bind, run_progress]
    simp only
    cases p.isPending with
    | true => exact wave_does.ends.bind (fun p' w' _ => ih) hs
    | false => exact .refl

/-- What a field of the root does after it has run, if it is one of a mutation. -/
theorem settleIf_ends {fuel : Nat} {serial : Bool} :
    Ends e (if serial then e.settle fuel else pure ()) p w rest rest := by
  cases serial with
  | true => exact settle_ends
  | false => exact ends_pure

theorem runRoot_cons (fuel : Nat) (serial : Bool) (root : Name) (node : Plan.Node)
    (nodes : List Plan.Node) (slot : SlotId) (slots : List SlotId) :
    e.runRoot fuel serial root (node :: nodes) (slot :: slots) = (do
      e.runNode root (.object []) node slot [.field node.key]
      (if serial then e.settle fuel else pure ())
      let live ← isLive ResponseTree.root
      if live then e.runRoot fuel serial root nodes slots else pure ()) := by
  rw [runRoot]
  cases serial <;> rfl

theorem runRoot_ends {fuel : Nat} {serial : Bool} {root : Name} {nodes : List Plan.Node}
    {slots : List SlotId}
    (hunder : ∀ task ∈ Task.ofNodes (L := L) root (.object []) [] nodes slots,
      Task.Under p.tree ResponseTree.root task)
    (hl : p.tree.isLive ResponseTree.root = true) :
    Ends e (e.runRoot fuel serial root nodes slots) p w
      (Task.ofNodes root (.object []) [] nodes slots) [] := by
  intro hs
  induction nodes generalizing slots p w with
  | nil => exact .refl
  | cons node nodes ih =>
    cases slots with
    | nil => exact .refl
    | cons slot slots =>
      have hlive := (hunder _ (List.mem_cons_self ..)).isLive hs (List.mem_cons_self ..) hl
      rw [runRoot_cons]
      refine (runNode_does node root _ slot _ p w _ hlive).ends.bind (fun p1 w1 he1 => ?_) hs
      refine settleIf_ends.bind fun p2 w2 he2 hs2 => ?_
      have hunder2 : ∀ task ∈ Task.ofNodes (L := L) root (.object []) [] nodes slots,
          Task.Under p2.tree ResponseTree.root task := fun task hm =>
        (hunder task (List.mem_cons_of_mem _ hm)).of_extends (he1.trans he2)
      rw [run_bind, run_isLive]
      cases hl2 : p2.tree.isLive ResponseTree.root with
      | true => exact ih hunder2 hl2 hs2
      | false =>
        have hskip : Steps e ⟨p2, w2, Task.ofNodes root (.object []) [] nodes slots ++ []⟩
            ⟨p2, w2, []⟩ := steps_skip _ fun task hm => (hunder2 task hm).dead hs2.tree hl2
        rw [List.append_nil] at hskip
        exact hskip

theorem begin_run (fuel : Nat) (plan : Plan) (w : W) : (e.begin fuel plan).run (.fresh, w) =
    (e.runRoot fuel (plan.kind = .mutation) plan.root plan.fields
      (Progress.fresh (L := L).growObject ResponseTree.root plan.fields).1).run
        ((Machine.start (L := L) plan w).progress, w) := by
  rw [begin, run_bind, run_grow]
  rfl

theorem under_start (plan : Plan) (w : W) : ∀ task ∈ (Machine.start (L := L) plan w).todo,
    Task.Under (Machine.start (L := L) plan w).progress.tree ResponseTree.root task := by
  have hslots : (Task.ofNodes (L := L) plan.root (.object []) [] plan.fields
      (Progress.fresh (L := L).growObject ResponseTree.root plan.fields).1).map Task.slot =
        ResponseTree.fresh.nextIds ((keysOf plan.fields).map Prod.snd).length := by
    rw [Task.map_slot_ofNodes _ _ _ _ _ (by simp [Progress.growObject, ResponseTree.setObject_eq])]
    simp [Progress.growObject, Progress.fresh, ResponseTree.setObject_eq]
  exact under_grow rfl hslots

theorem isLive_start (plan : Plan) (w : W) :
    (Machine.start (L := L) plan w).progress.tree.isLive ResponseTree.root = true := by
  have hc : (ResponseTree.Content.object (((keysOf plan.fields).map Prod.fst).zip
      (ResponseTree.fresh.nextIds (keysOf plan.fields).length))).children =
      ResponseTree.fresh.nextIds ((keysOf plan.fields).map Prod.snd).length := by
    simp [ResponseTree.Content.children, List.map_snd_zip]
  exact ResponseTree.isLive_grow ResponseTree.wellFormed_fresh rfl rfl hc (by simp) Nat.one_pos

/-- A query that has begun has done all that there is to do before its first wave. -/
theorem begin_steps {fuel : Nat} {plan : Plan}
    (hr : (e.begin fuel plan).run (.fresh, w) = (.ok (), p', w')) :
    Steps e (.start plan w) ⟨p', w', []⟩ := by
  rw [begin_run] at hr
  exact (runRoot_ends (under_start plan w) (isLive_start plan w)).steps_of_ok
    (Machine.sound_start plan w) hr

theorem begin_stopsAt {fuel : Nat} {plan : Plan} {halt : Halt}
    (hr : (e.begin fuel plan).run (.fresh, w) = (.error halt, p', w')) :
    StopsAt e (.start plan w) halt := by
  rw [begin_run] at hr
  exact (runRoot_ends (under_start plan w) (isLive_start plan w)).stopsAt
    (Machine.sound_start plan w) hr

end Execution

/-! ## Several queries -/

namespace Multiplex

variable {s : Schema ρ L W} {m : Multiplex} {part : Execution ρ L W → Plan → Running L W Unit}

theorem advance_running {query : Prepared} {data : Data} {p : Progress L} {w w' : W}
    {run : QueryRun L} (h : advance s m part (.running query data p) w = (none, run, w')) :
    ∃ p', run = .running query data p' ∧
      (part (execution s m query data) query.plan).run (p, w) = (.ok (), p', w') := by
  rw [advance] at h
  split at h
  · next p' w'' hr =>
    cases h
    exact ⟨p', rfl, hr⟩
  · cases h

/-- A wave leaves a query alone that has nothing deferred. -/
theorem advance_idle {run : QueryRun L} {w : W} (h : run.isPending = false) :
    advance s m (fun e _ => e.wave) run w = (none, run, w) := by
  cases run with
  | running query data p =>
    have hp : p.pending = [] := by simpa [QueryRun.isPending, Progress.isPending] using h
    obtain ⟨tree, notes, pending, extensions⟩ := p
    cases hp
    rfl
  | _ => rfl

/-- What is true of each query before all take a part of their runs, and what afterwards. -/
theorem forall₂_advanceAll {R S : QueryRun L → QueryRun L → Prop}
    {received runs runs' : List (QueryRun L)} {w w' : W} (hR : List.Forall₂ R received runs)
    (hS : ∀ r run w run' w', R r run → advance s m part run w = (none, run', w') → S r run')
    (h : advanceAll s m part runs w = (none, runs', w')) : List.Forall₂ S received runs' := by
  induction hR generalizing w runs' with
  | nil =>
    cases h
    exact .nil
  | cons hr _ ih =>
    rw [advanceAll] at h
    split at h
    · cases h
    · next run' w1 h1 =>
      cases h2 : advanceAll s m part _ w1 with
      | mk halt s2 =>
        obtain ⟨rest', w2⟩ := s2
        rw [h2] at h
        cases h
        exact .cons (hS _ _ _ _ _ hr h1) (ih h2)

/-- What a request has come to since it was received: a query that runs is reached by its own
steps. -/
inductive Came (s : Schema ρ L W) (m : Multiplex) : QueryRun L → QueryRun L → Prop where
  | refused (errors : List Error) : Came s m (.refused errors) (.refused errors)
  | idle : Came s m .idle .idle
  | running {query : Prepared} {data : Data} {p : Progress L} (w : W) :
      Reached (execution s m query data) query.plan ⟨p, w, []⟩ →
      Came s m (.running query data .fresh) (.running query data p)

/-- A request that has not begun. -/
def Fresh (run : QueryRun L) : Prop :=
  ∀ query data p, run = .running query data p → p = .fresh

theorem exists_of_forall₂ {R : QueryRun L → QueryRun L → Prop} {received runs : List (QueryRun L)}
    (h : List.Forall₂ R received runs) {run : QueryRun L} (hm : run ∈ runs) :
    ∃ r ∈ received, R r run := by
  induction h with
  | nil => cases hm
  | cons hc _ ih =>
    rcases List.mem_cons.1 hm with rfl | hm
    · exact ⟨_, List.mem_cons_self .., hc⟩
    · obtain ⟨r, hr, hc⟩ := ih hm
      exact ⟨r, List.mem_cons_of_mem _ hr, hc⟩

theorem Came.begin {run : QueryRun L} (hrun : Fresh run) {fuel : Nat} {w w' : W}
    {run' : QueryRun L} (h : advance s m (fun e plan => e.begin fuel plan) run w = (none, run', w')) :
    Came s m run run' := by
  cases run with
  | refused errors =>
    cases h
    exact .refused errors
  | idle =>
    cases h
    exact .idle
  | running query data p =>
    cases hrun query data p rfl
    obtain ⟨p', rfl, hr⟩ := advance_running h
    exact .running w' ((Reached.start w).steps (Execution.begin_steps hr))

theorem Came.wave {run run1 run2 : QueryRun L} (hc : Came s m run run1) {w w' : W}
    (h : advance s m (fun e _ => e.wave) run1 w = (none, run2, w')) : Came s m run run2 := by
  cases hc with
  | refused errors =>
    cases h
    exact .refused errors
  | idle =>
    cases h
    exact .idle
  | @running query data p w0 hr =>
    obtain ⟨p', rfl, hw⟩ := advance_running h
    have hr := hr.turn w
    exact .running w' (hr.steps (Execution.wave_does.steps_of_ok hr.sound hw))

theorem fresh_receive (s : Schema ρ L W) (r : Request) : Fresh (receive s r) := by
  intro query data p h
  unfold receive at h
  split at h <;> cases h
  rfl

theorem fresh_receiveAll (s : Schema ρ L W) (m : Multiplex) : ∀ run ∈ m.receiveAll s, Fresh run := by
  intro run h
  unfold receiveAll at h
  simp only at h
  split at h
  · obtain ⟨run, -, rfl⟩ := List.mem_map.1 h
    intro query data p he
    cases run <;> cases he
  · obtain ⟨r, -, rfl⟩ := List.mem_map.1 h
    exact fresh_receive s r

theorem length_receiveAll (s : Schema ρ L W) (m : Multiplex) :
    (m.receiveAll s).length = m.requests.length := by
  unfold receiveAll
  simp only
  split <;> simp

/-- What every part of its run leaves true of each query is true once all have run to their end, and
then nothing is aside. -/
theorem forall₂_waves {R : QueryRun L → QueryRun L → Prop} {fuel : Nat}
    {received runs runs' : List (QueryRun L)} {w w' : W}
    (hwave : ∀ r run w run' w', R r run → advance s m (fun e _ => e.wave) run w = (none, run', w') →
      R r run')
    (hR : List.Forall₂ R received runs) (h : waves s m fuel runs w = (none, runs', w')) :
    List.Forall₂ R received runs' ∧ ∀ run ∈ runs', run.isPending = false := by
  induction fuel generalizing runs w with
  | zero => cases h
  | succ fuel ih =>
    rw [waves] at h
    split at h
    · cases h
    · next runs1 w1 h1 =>
      have hR1 := forall₂_advanceAll hR hwave h1
      split at h
      · exact ih hR1 h
      · next hp =>
        cases h
        exact ⟨hR1, by simpa using hp⟩

theorem forall₂_settle {R : QueryRun L → QueryRun L → Prop} {fuel : Nat} {w w' : W}
    {runs : List (QueryRun L)}
    (hbegin : ∀ run w run' w', Fresh run →
      advance s m (fun e plan => e.begin fuel plan) run w = (none, run', w') → R run run')
    (hwave : ∀ r run w run' w', R r run → advance s m (fun e _ => e.wave) run w = (none, run', w') →
      R r run')
    (h : m.settle s fuel w = (none, runs, w')) :
    List.Forall₂ R (m.receiveAll s) runs ∧ ∀ run ∈ runs, run.isPending = false := by
  unfold settle at h
  cases h1 : advanceAll s m (fun e plan => e.begin fuel plan) (m.receiveAll s) w with
  | mk halt s1 =>
    obtain ⟨runs1, w1⟩ := s1
    rw [h1] at h
    cases halt with
    | some halt => cases h
    | none =>
      have hfresh : List.Forall₂ (fun r run => r = run ∧ Fresh run) (m.receiveAll s)
          (m.receiveAll s) :=
        List.forall₂_same.2 fun run hrun => ⟨rfl, fresh_receiveAll s m run hrun⟩
      refine forall₂_waves hwave (forall₂_advanceAll hfresh ?_ h1) h
      rintro r run w run' w' ⟨rfl, hf⟩ ha
      exact hbegin r w run' w' hf ha

/-- When all has run to its end, each query was reached by its steps and has nothing aside. -/
theorem settle_came {fuel : Nat} {w w' : W} {runs : List (QueryRun L)}
    (h : m.settle s fuel w = (none, runs, w')) :
    List.Forall₂ (Came s m) (m.receiveAll s) runs ∧ ∀ run ∈ runs, run.isPending = false :=
  forall₂_settle (fun _ _ _ _ hf ha => .begin hf ha) (fun _ _ _ _ _ hc ha => hc.wave ha) h

end Multiplex

end GraphQL
