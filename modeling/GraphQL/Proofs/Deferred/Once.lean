import GraphQL.Proofs.Deferred.Ledger
import GraphQL.Proofs.Deferred.Step
import Mathlib.Logic.Relation

/-!
# Keys are loaded once

Every step of a thread makes a move in the ledger of a source (`Thread.next?_moves`), so ledgers
stay sound along every run in which the loader of the source does not call back
(`Thread.Kept.runs`), and no key waits when a run of the queue comes to its end
(`Thread.Kept.drained`).
-/

namespace GraphQL.Deferred

variable {α ε κ σ : Type}

/-! ## Ledgers of threads -/

namespace Event

def asked? (id : SourceId) : Event α ε κ σ → Option κ
  | .asked other key => if other = id then some key else none
  | _ => none

def called? (id : SourceId) : Event α ε κ σ → Option (List κ)
  | .called other keys => if other = id then some keys else none
  | _ => none

def loaded? (id : SourceId) : Event α ε κ σ → Option (List κ × Loaded κ α ε)
  | .loaded other keys result => if other = id then some (keys, result) else none
  | _ => none

/-- What a list has no use for leaves it as it is. -/
theorem filterMap_concat {β : Type} {f : Event α ε κ σ → Option β} {e : Event α ε κ σ}
    (h : f e = none) (events : List (Event α ε κ σ)) :
    (events ++ [e]).filterMap f = events.filterMap f := by
  rw [List.filterMap_append, List.filterMap_cons_none h]
  exact List.append_nil _

end Event

def Caller.loading? (id : SourceId) : Caller α ε κ σ → Option (List κ)
  | .source other keys _ _ => if other = id then some keys else none
  | _ => none

def Caller.isQueue : Caller α ε κ σ → Bool
  | .queue _ => true
  | _ => false

/-- The source that the script asks for a key, or for its answer. -/
def Script.uses? : Script α ε κ σ → Option SourceId
  | .request id _ _ => some id
  | .await id _ _ => some id
  | _ => none

namespace Thread

def asks (id : SourceId) (t : Thread α ε κ σ) : List κ :=
  t.events.filterMap (Event.asked? id)

def batches (id : SourceId) (t : Thread α ε κ σ) : List (List κ) :=
  t.events.filterMap (Event.called? id)

def loads (id : SourceId) (t : Thread α ε κ σ) : List (List κ × Loaded κ α ε) :=
  t.events.filterMap (Event.loaded? id)

theorem mem_asks {id : SourceId} {key : κ} {events : List (Event α ε κ σ)} :
    key ∈ events.filterMap (Event.asked? id) ↔ .asked id key ∈ events := by
  rw [List.mem_filterMap]
  constructor
  · rintro ⟨e, he, h⟩
    cases e with
    | asked other key' =>
      simp only [Event.asked?, Option.ite_none_right_eq_some, Option.some.injEq] at h
      obtain ⟨rfl, rfl⟩ := h
      exact he
    | _ => cases h
  · exact fun h => ⟨_, h, by simp [Event.asked?]⟩

theorem mem_loads {id : SourceId} {t : Thread α ε κ σ} {load : List κ × Loaded κ α ε} :
    load ∈ t.loads id ↔ .loaded id load.1 load.2 ∈ t.events := by
  rw [loads, List.mem_filterMap]
  constructor
  · rintro ⟨e, he, h⟩
    cases e with
    | loaded other keys result =>
      simp only [Event.loaded?, Option.ite_none_right_eq_some, Option.some.injEq] at h
      obtain ⟨rfl, rfl⟩ := h
      exact he
    | _ => cases h
  · exact fun h => ⟨_, h, by simp [Event.loaded?]⟩

/-- The batches that the loader of a source is busy with. -/
def loading (id : SourceId) (t : Thread α ε κ σ) : List (List κ) :=
  t.callers.filterMap (Caller.loading? id)

/-- The loader of a source calls back into the source. -/
def CallsBack (id : SourceId) (t : Thread α ε κ σ) : Prop :=
  t.loading id ≠ [] ∧ t.script.uses? = some id

instance [DecidableEq κ] (id : SourceId) (t : Thread α ε κ σ) : Decidable (t.CallsBack id) :=
  inferInstanceAs (Decidable (_ ∧ _))

/-- The flush of a source waits in the queue, or has just been taken off it. -/
def FlushAhead (id : SourceId) (t : Thread α ε κ σ) : Prop :=
  .flush id ∈ t.store.queue.jobs ∨
    t.script = .flush id ∧ ∃ next callers, t.callers = .queue next :: callers

/-- Steps in which the loader of a source does not call back. -/
def Runs [DecidableEq κ] (id : SourceId) : Thread α ε κ σ → Thread α ε κ σ → Prop :=
  Relation.ReflTransGen fun t t' => ¬ t.CallsBack id ∧ t.next? = some t'

def ledger (id : SourceId) (t : Thread α ε κ σ) : Ledger α ε κ where
  source := t.store.source id
  asks := t.asks id
  batches := t.batches id
  loading := t.loading id
  loads := t.loads id
  ahead := t.store.queue.isAlive = true → t.FlushAhead id

section

variable {t t' : Thread α ε κ σ} {id : SourceId}

/-! The flush of a source stays ahead. -/

theorem ahead_of_jobs (hne : t.script ≠ .flush id)
    (hq : t'.store.queue.isAlive = true → t.store.queue.isAlive = true ∧
      ∀ job ∈ t.store.queue.jobs, job ∈ t'.store.queue.jobs ∨
        t'.script = job ∧ ∃ next callers, t'.callers = .queue next :: callers)
    (h : (t.ledger id).ahead) : (t'.ledger id).ahead := by
  intro halive
  obtain ⟨halive, hjobs⟩ := hq halive
  rcases h halive with hm | ⟨hs, -⟩
  · exact hjobs _ hm
  · exact absurd hs hne

theorem ahead_of_queue (hne : t.script ≠ .flush id) (hq : t'.store.queue = t.store.queue)
    (h : (t.ledger id).ahead) : (t'.ledger id).ahead :=
  ahead_of_jobs hne (fun ha => by rw [hq] at ha ⊢; exact ⟨ha, fun _ => .inl⟩) h

theorem ahead_of_append {work : Script α ε κ σ} (hne : t.script ≠ .flush id)
    (hq : t'.store.queue = t.store.queue ∨ t'.store.queue = t.store.queue.append work)
    (h : (t.ledger id).ahead) : (t'.ledger id).ahead := by
  refine ahead_of_jobs hne (fun ha => ?_) h
  rcases hq with hq | hq
  · rw [hq] at ha ⊢
    exact ⟨ha, fun _ => .inl⟩
  · rw [hq] at ha ⊢
    exact ⟨ha, fun _ hj => .inl (List.mem_append_left _ hj)⟩

variable [DecidableEq κ]

/-- A step other than the flush leaves it where it is, or takes it off the queue. -/
theorem Step.ahead (h : t.Step t') (hne : t.script ≠ .flush id) (ha : (t.ledger id).ahead) :
    (t'.ledger id).ahead := by
  cases h with
  | job => exact ahead_of_append hne (Store.queue_addJob ..) ha
  | request => exact ahead_of_append hne (Store.queue_request ..) ha
  | source => exact ahead_of_queue hne (Store.queue_addSource ..) ha
  | run hheld =>
    exact ahead_of_jobs hne (fun _ => ⟨by simp [Queue.isAlive, hheld], fun _ => .inl⟩) ha
  | take hjobs =>
    refine ahead_of_jobs hne (fun ha => ⟨ha, fun j hj => ?_⟩) ha
    rcases List.mem_cons.1 (hjobs ▸ hj) with rfl | hj
    · exact .inr ⟨rfl, _, _, rfl⟩
    · exact .inl hj
  | leave hjobs =>
    exact ahead_of_jobs hne (fun ha => ⟨Queue.isAlive_of_left ha, by simp [hjobs]⟩) ha
  | close =>
    refine ahead_of_jobs hne (fun ha => ⟨Queue.isAlive_of_released ha, fun job hj => .inl ?_⟩) ha
    rw [Queue.jobs_released ha]
    exact hj
  | _ => exact ahead_of_queue hne rfl ha

/-! What happens to the ledger -/

/-- A step makes the move that its effect on the parts of the ledger is. -/
theorem moves_of_eq {source : Source κ α ε} {asks : List κ} {batches loading : List (List κ)}
    {loads : List (List κ × Loaded κ α ε)}
    (hm : (t.ledger id).Moves ⟨source, asks, batches, loading, loads, (t'.ledger id).ahead⟩)
    (hsource : t'.store.source id = source) (hasks : t'.asks id = asks)
    (hbatches : t'.batches id = batches) (hloads : t'.loads id = loads)
    (hloading : t'.loading id = loading) : (t.ledger id).Moves (t'.ledger id) := by
  subst hsource hasks hbatches hloads hloading
  exact hm

/-- A step that has nothing to do with a source. -/
theorem moves_of_same (hahead : (t.ledger id).ahead → (t'.ledger id).ahead)
    (hsource : t'.store.source id = t.store.source id) (hevents : t'.events = t.events)
    (hloading : t'.loading id = t.loading id) : (t.ledger id).Moves (t'.ledger id) := by
  refine moves_of_eq (.idle hahead) hsource ?_ ?_ ?_ hloading
  · rw [asks, hevents, ← asks]
    rfl
  · rw [batches, hevents, ← batches]
    rfl
  · rw [loads, hevents, ← loads]
    rfl

/-- A step that something else comes of. -/
theorem moves_of_event {e : Event α ε κ σ} (hahead : (t.ledger id).ahead → (t'.ledger id).ahead)
    (hsource : t'.store.source id = t.store.source id) (hevents : t'.events = t.events ++ [e])
    (hasked : e.asked? id = none) (hcalled : e.called? id = none) (hloaded : e.loaded? id = none)
    (hloading : t'.loading id = t.loading id) : (t.ledger id).Moves (t'.ledger id) := by
  refine moves_of_eq (.idle hahead) hsource ?_ ?_ ?_ hloading
  · rw [asks, hevents, Event.filterMap_concat hasked]
    rfl
  · rw [batches, hevents, Event.filterMap_concat hcalled]
    rfl
  · rw [loads, hevents, Event.filterMap_concat hloaded]
    rfl

theorem sync_moves (next : Source κ α ε → Script α ε κ σ) :
    (t.ledger id).Moves ((t.sync id next).ledger id) := by
  by_cases hp : (t.store.source id).pending = []
  · rw [sync_of_idle next hp]
    exact moves_of_eq (.take hp) (t.store.source_setSource_taken id) rfl rfl rfl rfl
  · obtain ⟨b, hb⟩ := t.store.exists_batch? hp
    have hsource := t.store.source_of_batch? hb
    rw [sync_of_call next hb (hsource ▸ hp), ← hsource]
    refine moves_of_eq (.call hp) (t.store.source_setSource_self hb) ?_ ?_ ?_ ?_ <;>
      simp [ledger, asks, batches, loads, loading, Event.asked?, Event.called?, Event.loaded?,
        Caller.loading?]

/-- Every step makes a move in the ledger of a source, unless its loader calls back. -/
theorem Step.moves (h : t.Step t') (hopen : t.loading id ≠ [] → (t.store.batch? id).isSome = true)
    (hq : ¬ t.CallsBack id) : (t.ledger id).Moves (t'.ledger id) := by
  -- the flush is no longer ahead once it runs, but then it loads what waits
  by_cases hsync : ∃ goal, t.script.Syncs t.store id goal
  · obtain ⟨goal, hsync⟩ := hsync
    cases (h.next?_eq.symm.trans (next?_of_syncs hsync))
    exact sync_moves goal
  have hahead := h.ahead fun hs => hsync ⟨fun _ => .nothing, by rw [hs]; exact .sync⟩
  cases h with
  | look | write | ready | take | close => exact moves_of_same hahead rfl rfl rfl
  | enter | run => exact moves_of_same hahead rfl rfl (List.filterMap_cons_none rfl)
  | defer | give | resolve | leave => exact moves_of_event hahead rfl rfl rfl rfl rfl rfl
  | job => exact moves_of_same hahead (Store.source_addJob ..) rfl rfl
  | source => exact moves_of_same hahead (Store.source_addSource _ rfl _) rfl rfl
  | @request other key next b callers s events hb =>
    by_cases ho : other = id
    · subst ho
      have hidle := Classical.not_not.1 fun hl => hq ⟨hl, rfl⟩
      refine moves_of_eq (.ask key hidle hahead fun hf ha => .inl (s.flush_request hf hb ?_))
        (s.source_request_self hb) ?_ ?_ ?_ rfl
      · replace ha : (s.request other key).queue.isAlive = true := ha
        rcases s.queue_request other key with hqueue | hqueue <;> rwa [hqueue] at ha
      all_goals simp [ledger, asks, batches, loads, Event.asked?, Event.called?, Event.loaded?]
    · exact moves_of_event hahead (s.source_request_ne ho) rfl (if_neg ho) rfl rfl rfl
  | @idle other script goal callers s events h hp =>
    have ho : other ≠ id := fun ho => hsync ⟨goal, ho ▸ h⟩
    exact moves_of_same hahead (s.source_setSource_ne ho) rfl rfl
  | @call other script goal b callers s events h hb hp =>
    have ho : other ≠ id := fun ho => hsync ⟨goal, ho ▸ h⟩
    exact moves_of_event hahead (s.source_setSource_ne ho) rfl rfl (if_neg ho) rfl
      (List.filterMap_cons_none (if_neg ho))
  | @load result other keys answer goal callers s events =>
    by_cases ho : other = id
    · subst ho
      have hloading : loading other ⟨.done result, .source other keys answer goal :: callers, s,
          events⟩ = keys :: callers.filterMap (Caller.loading? other) := by
        simp [loading, Caller.loading?]
      obtain ⟨b, hb⟩ := Option.isSome_iff_exists.1 (hopen (by rw [hloading]; simp))
      refine moves_of_eq (.load (answer keys s.state) hloading hahead) (s.source_setSource_self hb)
        ?_ ?_ ?_ rfl <;>
        simp [ledger, asks, batches, loads, Event.asked?, Event.called?, Event.loaded?]
    · refine moves_of_event hahead (s.source_setSource_ne ho) rfl rfl rfl (if_neg ho) ?_
      simp [loading, Caller.loading?, ho]

theorem next?_moves (hopen : t.loading id ≠ [] → (t.store.batch? id).isSome = true)
    (hq : ¬ t.CallsBack id) (h : t.next? = some t') : (t.ledger id).Moves (t'.ledger id) :=
  (step_of_next? h).moves hopen hq

/-! ## What steps keep -/

/-- The source whose loader is busy was made. -/
def Opened (id : SourceId) (t : Thread α ε κ σ) : Prop :=
  t.loading id ≠ [] → (t.store.batch? id).isSome = true

/-- The queue knows how many runs of it wait. -/
def Balanced (t : Thread α ε κ σ) : Prop :=
  t.callers.countP Caller.isQueue = t.store.queue.runs

/-- Sources stay. -/
theorem isSome_batch?_next? (h : t.next? = some t')
    (hb : (t.store.batch? id).isSome = true) : (t'.store.batch? id).isSome = true := by
  cases step_of_next? h with
  | request => exact (Store.isSome_batch?_request ..).trans hb
  | idle | call | load => exact (Store.isSome_batch?_setSource ..).trans hb
  | source => exact (congrArg Option.isSome (Store.batch?_addSource _ _ hb)).trans hb
  | job => exact (congrArg Option.isSome (Store.batch?_addJob ..)).trans hb
  | _ => exact hb

theorem Opened.next (h : t.Opened id) (hq : ¬ t.CallsBack id) (hn : t.next? = some t') :
    t'.Opened id := by
  intro hl
  refine isSome_batch?_next? hn ?_
  rcases (next?_moves h hq hn).loading hl with hl | hp
  · exact h hl
  · obtain ⟨b, hb⟩ := t.store.exists_batch? hp
    rw [hb]
    rfl

theorem Balanced.next (h : t.Balanced) (hn : t.next? = some t') : t'.Balanced := by
  cases step_of_next? hn with
  | run => exact (List.countP_cons_of_pos rfl).trans (congrArg (· + 1) h)
  | leave =>
    -- one run less waits
    rw [Balanced, List.countP_cons_of_pos rfl] at h
    exact (Nat.eq_sub_of_add_eq h).trans (Queue.runs_left _).symm
  | close => exact h.trans (Queue.runs_released _).symm
  | job => exact h.trans (Store.runs_addJob ..).symm
  | request => exact h.trans (Store.runs_request ..).symm
  | source => exact h.trans (congrArg Queue.runs (Store.queue_addSource ..)).symm
  | _ => exact h

/-- What steps keep of a source, as long as its loader does not call back. -/
structure Kept (id : SourceId) (t : Thread α ε κ σ) : Prop where
  sound : (t.ledger id).Sound
  opened : t.Opened id
  balanced : t.Balanced

theorem Kept.next (h : t.Kept id) (hq : ¬ t.CallsBack id) (hn : t.next? = some t') : t'.Kept id :=
  ⟨h.sound.moves (next?_moves h.opened hq hn), h.opened.next hq hn, h.balanced.next hn⟩

theorem Kept.runs (h : t.Kept id) (hr : Runs id t t') : t'.Kept id := by
  induction hr with
  | refl => exact h
  | tail _ hstep ih => exact ih.next hstep.1 hstep.2

theorem kept_start (script : Script α ε κ σ) (state : σ) : (start script state).Kept id :=
  ⟨⟨rfl, .inl rfl, rfl, fun key answer => ⟨nofun, fun ⟨_, _, hm, _⟩ => by cases hm⟩, nofun, nofun⟩,
    nofun, rfl⟩

/-- When a run of the queue comes to its end, no key waits. -/
theorem Kept.drained {result : Result α ε} {next : Script α ε κ σ}
    {callers : List (Caller α ε κ σ)} (h : t.Kept id) (hs : t.script = .done result)
    (hc : t.callers = .queue next :: callers) (hjobs : t.store.queue.jobs = []) :
    (t.store.source id).pending = [] := by
  have halive : t.store.queue.isAlive = true := by
    have hb := h.balanced
    rw [Balanced, hc, List.countP_cons_of_pos rfl] at hb
    simp [Queue.isAlive, ← hb]
  by_contra hp
  rcases h.sound.ahead (h.sound.scheduled hp) halive with hm | ⟨hflush, -⟩
  · rw [hjobs] at hm
    cases hm
  · rw [hs] at hflush
    cases hflush

end

end Thread

end GraphQL.Deferred
