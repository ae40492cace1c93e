import GraphQL.Proofs.Deferred.Store
import GraphQL.Proofs.Deferred.Thread

/-!
# Steps of threads

`Thread.Step` has a rule for each kind of step, with what the step needs and what it changes. These
are the steps that `Thread.next?` makes (`Thread.step_of_next?`, `Thread.Step.next?_eq`), so what
every step keeps is shown rule by rule.
-/

namespace GraphQL.Deferred

variable {α ε κ σ : Type} [DecidableEq κ]

/-! ## Scripts that only go on -/

namespace Script

/-- The script wants the pending keys of a source loaded, to go on with the source: it asks for
that, or awaits an answer that is not known. -/
inductive Syncs (s : Store α ε κ σ) (id : SourceId) :
    Script α ε κ σ → (Source κ α ε → Script α ε κ σ) → Prop where
  | sync {next} : Syncs s id (.sync id next) fun _ => next
  | await {key next} (h : ¬ ((s.source id).answer? key).isSome = true) :
      Syncs s id (.await id key next) fun source => next (source.answer key)

/-- The script goes on with what it finds in the store, which stays as it is. -/
inductive Looks (s : Store α ε κ σ) : Script α ε κ σ → Script α ε κ σ → Prop where
  | read {next} : Looks s (.read next) (next s.state)
  | isResolved {ref next} : Looks s (.isResolved ref next) (next (s.isResolved ref))
  | deep {tree next} : Looks s (.deep tree next) (.deepen tree next)
  | hasJobs {next} : Looks s (.hasJobs next) (next (s.queue.held && !s.queue.jobs.isEmpty))
  | run {next} (h : ¬ s.queue.held = true) : Looks s (.run next) next
  /-- There is no source to ask. -/
  | request {id key next} (h : s.batch? id = none) : Looks s (.request id key next) next
  | await {id key next} (h : ((s.source id).answer? key).isSome = true) :
      Looks s (.await id key next) (next ((s.source id).answer key))
  | isPending {id next} : Looks s (.isPending id next) (next (s.source id).isPending)

end Script

namespace Thread

/-! ## Rules -/

/-- What a step does. -/
inductive Step : Thread α ε κ σ → Thread α ε κ σ → Prop where
  | look {script script' callers s events} (h : script.Looks s script') :
      Step ⟨script, callers, s, events⟩ ⟨script', callers, s, events⟩
  | write {state next callers s events} :
      Step ⟨.write state next, callers, s, events⟩ ⟨next, callers, { s with state := state }, events⟩
  /-- A lazy is made, to be run when it is forced, -/
  | defer {thunk next callers s events} :
      Step ⟨.defer thunk next, callers, s, events⟩
        ⟨next s.cells.size, callers, s.alloc (.pending thunk), events ++ [.made s.cells.size thunk]⟩
  /-- or with its result. -/
  | ready {result next callers s events} :
      Step ⟨.ready result next, callers, s, events⟩
        ⟨next s.cells.size, callers, s.alloc (.resolved result), events⟩
  /-- A lazy that is forced gives the result that it has, -/
  | give {ref next result callers s events} (h : s.cells[ref]? = some (.resolved result)) :
      Step ⟨.force ref next, callers, s, events⟩
        ⟨next result, callers, s, events ++ [.gave ref result]⟩
  /-- or has its script run, -/
  | enter {ref next thunk callers s events} (h : s.cells[ref]? = some (.pending thunk)) :
      Step ⟨.force ref next, callers, s, events⟩
        ⟨thunk, .lazy ref next :: callers, s.setCell ref .forcing, events⟩
  /-- and gives what that came to. -/
  | resolve {result ref next callers s events} :
      Step ⟨.done result, .lazy ref next :: callers, s, events⟩
        ⟨next result, callers, s.setCell ref (.resolved result), events ++ [.gave ref result]⟩
  | job {work next callers s events} :
      Step ⟨.job work next, callers, s, events⟩ ⟨next, callers, s.addJob work, events⟩
  /-- The queue is run, -/
  | run {next callers s events} (h : s.queue.held = true) :
      Step ⟨.run next, callers, s, events⟩
        ⟨.nothing, .queue next :: callers, { s with queue := s.queue.entered }, events⟩
  /-- one job after the other, -/
  | take {result next job rest callers s events} (h : s.queue.jobs = job :: rest) :
      Step ⟨.done result, .queue next :: callers, s, events⟩
        ⟨job, .queue next :: callers, { s with queue := { s.queue with jobs := rest } }, events⟩
  /-- until none is left. -/
  | leave {result next callers s events} (h : s.queue.jobs = []) :
      Step ⟨.done result, .queue next :: callers, s, events⟩
        ⟨next, callers, { s with queue := s.queue.left }, events ++ [.ran]⟩
  | close {next callers s events} :
      Step ⟨.close next, callers, s, events⟩
        ⟨next, callers, { s with queue := s.queue.released }, events⟩
  | source {id work answer next callers s events} :
      Step ⟨.source id work answer next, callers, s, events⟩
        ⟨next s.queue.held, callers, s.addSource ⟨id, work, answer, .fresh⟩, events⟩
  | request {id key next b callers s events} (h : s.batch? id = some b) :
      Step ⟨.request id key next, callers, s, events⟩
        ⟨next, callers, s.request id key, events ++ [.asked id key]⟩
  /-- No key of a source waits, -/
  | idle {id script goal callers s events} (h : script.Syncs s id goal)
      (hp : (s.source id).pending = []) :
      Step ⟨script, callers, s, events⟩
        ⟨goal (s.source id).taken, callers, s.setSource id (s.source id).taken, events⟩
  /-- or its loader is called with those that do, -/
  | call {id script goal b callers s events} (h : script.Syncs s id goal)
      (hb : s.batch? id = some b) (hp : b.source.pending ≠ []) :
      Step ⟨script, callers, s, events⟩
        ⟨b.work b.source.pending, .source id b.source.pending b.answer goal :: callers,
          s.setSource id b.source.taken, events ++ [.called id b.source.pending]⟩
  /-- and comes back. -/
  | load {result id keys answer goal callers s events} :
      Step ⟨.done result, .source id keys answer goal :: callers, s, events⟩
        ⟨goal ((s.setSource id ((s.source id).store keys (answer keys s.state))).source id), callers,
          s.setSource id ((s.source id).store keys (answer keys s.state)),
          events ++ [.loaded id keys (answer keys s.state)]⟩

/-! ## They are the steps -/

variable {t t' : Thread α ε κ σ}

omit [DecidableEq κ] in
theorem sync_of_idle {id : SourceId} (next : Source κ α ε → Script α ε κ σ)
    (h : (t.store.source id).pending = []) :
    t.sync id next = { t with
      script := next (t.store.source id).taken
      store := t.store.setSource id (t.store.source id).taken } := by
  have hsource := t.store.source_setSource_taken id
  unfold sync
  cases hb : t.store.batch? id with
  | none =>
    rw [t.store.setSource_of_none hb] at hsource ⊢
    rw [← hsource]
  | some b =>
    rw [t.store.source_of_batch? hb] at h hsource ⊢
    simp only [h, List.isEmpty_nil, if_true, hsource]

omit [DecidableEq κ] in
theorem sync_of_call {id : SourceId} (next : Source κ α ε → Script α ε κ σ) {b : Batch α ε κ σ}
    (hb : t.store.batch? id = some b) (h : b.source.pending ≠ []) :
    t.sync id next =
      ⟨b.work b.source.pending, .source id b.source.pending b.answer next :: t.callers,
        t.store.setSource id b.source.taken, t.events ++ [.called id b.source.pending]⟩ := by
  unfold sync
  simp [hb, h]

theorem step_sync {id : SourceId} {script : Script α ε κ σ}
    {next : Source κ α ε → Script α ε κ σ} {callers : List (Caller α ε κ σ)} {s : Store α ε κ σ}
    {events : List (Event α ε κ σ)} (h : script.Syncs s id next) :
    Step ⟨script, callers, s, events⟩ (sync ⟨script, callers, s, events⟩ id next) := by
  by_cases hp : (s.source id).pending = []
  · rw [sync_of_idle next hp]
    exact .idle h hp
  · obtain ⟨b, hb⟩ := s.exists_batch? hp
    rw [s.source_of_batch? hb] at hp
    rw [sync_of_call next hb hp]
    exact .call h hb hp

theorem step_of_return? {result : Result α ε} (hs : t.script = .done result)
    (h : t.return? result = some t') : t.Step t' := by
  obtain ⟨script, callers, s, events⟩ := t
  cases hs
  unfold return? at h
  split at h
  · cases h
  · next hc =>
    cases hc
    cases h
    exact .resolve
  · next hc =>
    cases hc
    split at h
    · next hjobs =>
      cases h
      exact .leave hjobs
    · next hjobs =>
      cases h
      exact .take hjobs
  · next hc =>
    cases hc
    cases h
    exact .load

theorem step_of_force? {ref : Ref} {next : Result α ε → Script α ε κ σ}
    (hs : t.script = .force ref next) (h : t.force? ref next = some t') : t.Step t' := by
  obtain ⟨script, callers, s, events⟩ := t
  cases hs
  unfold force? at h
  split at h
  · next hc =>
    cases h
    exact .give hc
  · next hc =>
    cases h
    exact .enter hc
  · cases h
  · cases h

theorem step_of_next? (h : t.next? = some t') : t.Step t' := by
  obtain ⟨script, callers, s, events⟩ := t
  cases script with
  | read next => cases h; exact .look .read
  | write state next => cases h; exact .write
  | defer thunk next => cases h; exact .defer
  | ready result next => cases h; exact .ready
  | isResolved ref next => cases h; exact .look .isResolved
  | deep tree next => cases h; exact .look .deep
  | job work next => cases h; exact .job
  | hasJobs next => cases h; exact .look .hasJobs
  | close next => cases h; exact .close
  | source id work answer next => cases h; exact .source
  | isPending id next => cases h; exact .look .isPending
  | sync id next => cases h; exact step_sync .sync
  | done result => exact step_of_return? rfl h
  | force ref next => exact step_of_force? rfl h
  | run next =>
    obtain rfl := Option.some.inj h
    split
    · next hheld => exact .run hheld
    · next hheld => exact .look (.run hheld)
  | request id key next =>
    obtain rfl := Option.some.inj h
    cases hb : s.batch? id with
    | none =>
      simp only [s.request_of_none hb, Option.isSome_none, Bool.false_eq_true, if_false]
      exact .look (.request hb)
    | some b =>
      simp only [Option.isSome_some, if_true]
      exact .request hb
  | await id key next =>
    obtain rfl := Option.some.inj h
    split
    · next hknown => exact .look (.await hknown)
    · next hknown => exact step_sync (.await hknown)

theorem next?_of_syncs {id : SourceId} {script : Script α ε κ σ}
    {next : Source κ α ε → Script α ε κ σ} {callers : List (Caller α ε κ σ)} {s : Store α ε κ σ}
    {events : List (Event α ε κ σ)} (h : script.Syncs s id next) :
    next? ⟨script, callers, s, events⟩ = some (sync ⟨script, callers, s, events⟩ id next) := by
  cases h with
  | sync => rfl
  | await hunknown => exact congrArg some (if_neg hunknown)

theorem Step.next?_eq (h : t.Step t') : t.next? = some t' := by
  cases h with
  | look h =>
    cases h with
    | run hheld => exact congrArg some (if_neg hheld)
    | request hb => simp [next?, hb, Store.request_of_none]
    | await hknown => exact congrArg some (if_pos hknown)
    | _ => rfl
  | give hc => simp [next?, force?, hc]
  | enter hc => simp [next?, force?, hc]
  | run hheld => exact congrArg some (if_pos hheld)
  | take hjobs => simp [next?, return?, hjobs]
  | leave hjobs => simp [next?, return?, hjobs]
  | request hb => simp [next?, hb]
  | idle h hp => exact (next?_of_syncs h).trans (congrArg some (sync_of_idle _ hp))
  | call h hb hp => exact (next?_of_syncs h).trans (congrArg some (sync_of_call _ hb hp))
  | _ => rfl

end Thread

end GraphQL.Deferred
