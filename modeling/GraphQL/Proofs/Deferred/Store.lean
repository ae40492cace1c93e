import GraphQL.Deferred

/-!
# Stores

What the operations of a store do to its lazies, its sources and its queue.
-/

namespace GraphQL.Deferred

variable {α ε κ σ : Type}

/-! ## Sources in a store -/

namespace Store

variable (s : Store α ε κ σ) {id other : SourceId} {source : Source κ α ε}

theorem id_of_batch? {b : Batch α ε κ σ} (h : s.batch? id = some b) : b.id = id := by
  simpa using List.find?_some h

theorem source_of_batch? {b : Batch α ε κ σ} (h : s.batch? id = some b) :
    s.source id = b.source := by
  rw [Store.source, h]

theorem source_of_none (h : s.batch? id = none) : s.source id = ⟨[], [], false⟩ := by
  rw [Store.source, h]

/-- A source in which keys wait was made. -/
theorem exists_batch? (h : (s.source id).pending ≠ []) : ∃ b, s.batch? id = some b := by
  cases hb : s.batch? id with
  | none =>
    rw [s.source_of_none hb] at h
    exact absurd rfl h
  | some b => exact ⟨b, rfl⟩

theorem batch?_setSource (id other : SourceId) (source : Source κ α ε) :
    (s.setSource id source).batch? other =
      (s.batch? other).map fun b => if b.id = id then { b with source := source } else b := by
  unfold batch? setSource
  rw [List.find?_map]
  congr 1
  congr 1
  funext b
  by_cases h : b.id = id <;> simp [h]

theorem source_setSource_self {b : Batch α ε κ σ} (h : s.batch? id = some b) :
    (s.setSource id source).source id = source := by
  unfold Store.source
  rw [batch?_setSource, h]
  simp [s.id_of_batch? h]

/-- A source that was never made cannot be changed. -/
theorem setSource_of_none (h : s.batch? id = none) : s.setSource id source = s := by
  have hne : ∀ b ∈ s.sources, b.id ≠ id := by simpa [batch?] using h
  have hmap : s.sources.map (fun b => if b.id = id then { b with source := source } else b) =
      s.sources.map fun b => b := List.map_congr_left fun b hb => if_neg (hne b hb)
  rw [setSource, hmap, List.map_id']

theorem source_setSource_taken (id : SourceId) :
    (s.setSource id (s.source id).taken).source id = (s.source id).taken := by
  cases h : s.batch? id with
  | none =>
    rw [s.setSource_of_none h, s.source_of_none h]
    rfl
  | some b => exact s.source_setSource_self h

theorem source_setSource_ne (h : other ≠ id) :
    (s.setSource other source).source id = s.source id := by
  unfold Store.source
  rw [batch?_setSource]
  cases hb : s.batch? id with
  | none => rfl
  | some b => simp [s.id_of_batch? hb, Ne.symm h]

theorem isSome_batch?_setSource (id other : SourceId) (source : Source κ α ε) :
    ((s.setSource id source).batch? other).isSome = (s.batch? other).isSome := by
  rw [batch?_setSource, Option.isSome_map]

theorem batch?_addSource (b : Batch α ε κ σ) (hid : (s.batch? id).isSome = true) :
    (s.addSource b).batch? id = s.batch? id := by
  unfold addSource
  split
  · unfold batch? at hid ⊢
    simp only
    rw [List.find?_append, Option.or_of_isSome hid]
  · rfl

theorem source_addSource {b : Batch α ε κ σ} (hb : b.source = .fresh) (id : SourceId) :
    (s.addSource b).source id = s.source id := by
  unfold Store.source
  cases hid : s.batch? id with
  | some b' => rw [s.batch?_addSource b (by rw [hid]; rfl), hid]
  | none =>
    have hnew : (s.addSource b).batch? id = none ∨ (s.addSource b).batch? id = some b := by
      unfold addSource
      split
      · unfold batch? at hid ⊢
        simp only
        rw [List.find?_append, hid, Option.none_or, List.find?_singleton]
        split
        · exact .inr rfl
        · exact .inl rfl
      · exact .inl hid
    rcases hnew with h | h
    · rw [h]
    · rw [h]
      exact hb

theorem queue_addSource (b : Batch α ε κ σ) : (s.addSource b).queue = s.queue := by
  unfold addSource
  split <;> rfl

theorem cells_addSource (b : Batch α ε κ σ) : (s.addSource b).cells = s.cells := by
  unfold addSource
  split <;> rfl

/-! What a job changes -/

theorem batch?_addJob (job : Script α ε κ σ) (id : SourceId) :
    (s.addJob job).batch? id = s.batch? id := by
  unfold addJob
  split <;> rfl

theorem source_addJob (job : Script α ε κ σ) (id : SourceId) :
    (s.addJob job).source id = s.source id := by
  unfold Store.source
  rw [batch?_addJob]

theorem cells_addJob (job : Script α ε κ σ) : (s.addJob job).cells = s.cells := by
  unfold addJob
  split <;> rfl

theorem queue_addJob (job : Script α ε κ σ) :
    (s.addJob job).queue = s.queue ∨ (s.addJob job).queue = s.queue.append job := by
  unfold addJob
  split
  · exact .inr rfl
  · exact .inl rfl

theorem runs_addJob (job : Script α ε κ σ) : (s.addJob job).queue.runs = s.queue.runs := by
  rcases s.queue_addJob job with h | h <;> rw [h]
  rfl

/-! What a request does -/

variable [DecidableEq κ] {key : κ}

theorem request_of_none (h : s.batch? id = none) : s.request id key = s := by
  unfold request
  rw [h]

theorem source_request_self {b : Batch α ε κ σ} (h : s.batch? id = some b) :
    (s.request id key).source id = (s.source id).request key := by
  unfold request
  simp only [h, s.source_of_batch? h]
  split <;> exact s.source_setSource_self h

theorem source_request_ne (h : other ≠ id) : (s.request other key).source id = s.source id := by
  unfold request
  split
  · rfl
  · simp only
    split <;> exact s.source_setSource_ne h

theorem isSome_batch?_request (id other : SourceId) (key : κ) :
    ((s.request id key).batch? other).isSome = (s.batch? other).isSome := by
  unfold request
  split
  · rfl
  · simp only
    split <;> exact s.isSome_batch?_setSource ..

theorem cells_request (id : SourceId) (key : κ) : (s.request id key).cells = s.cells := by
  unfold request
  split
  · rfl
  · simp only
    split <;> rfl

theorem queue_request (id : SourceId) (key : κ) :
    (s.request id key).queue = s.queue ∨
      (s.request id key).queue = s.queue.append (.flush id) := by
  unfold request
  split
  · exact .inl rfl
  · simp only
    split
    · exact .inr rfl
    · exact .inl rfl

theorem runs_request (id : SourceId) (key : κ) :
    (s.request id key).queue.runs = s.queue.runs := by
  rcases s.queue_request id key with h | h <;> rw [h]
  rfl

theorem flush_request (h : (s.source id).needsFlush key = true) {b : Batch α ε κ σ}
    (hb : s.batch? id = some b) (ha : s.queue.isAlive = true) :
    .flush id ∈ (s.request id key).queue.jobs := by
  rw [s.source_of_batch? hb] at h
  unfold request
  simp only [hb]
  rw [if_pos (by rw [h, ha]; rfl)]
  exact List.mem_append_right _ (List.mem_singleton_self _)

end Store

/-! ## Queues -/

namespace Queue

variable {q : Queue α ε κ σ}

theorem isAlive_settled (q : Queue α ε κ σ) : q.settled.isAlive = q.isAlive := by
  unfold settled
  split <;> rfl

theorem runs_settled (q : Queue α ε κ σ) : q.settled.runs = q.runs := by
  unfold settled
  split <;> rfl

theorem runs_left (q : Queue α ε κ σ) : q.left.runs = q.runs - 1 :=
  runs_settled _

theorem runs_released (q : Queue α ε κ σ) : q.released.runs = q.runs :=
  runs_settled _

theorem held_settled (q : Queue α ε κ σ) : q.settled.held = q.held := by
  unfold settled
  split <;> rfl

theorem settled_of_held (h : q.held = true) : q.settled = q := by
  unfold settled isAlive
  rw [h]
  rfl

theorem isAlive_of_left (h : q.left.isAlive = true) : q.isAlive = true := by
  rw [left, isAlive_settled] at h
  simp only [isAlive, Bool.or_eq_true, bne_iff_ne] at h ⊢
  exact h.imp id (by omega)

theorem isAlive_of_released (h : q.released.isAlive = true) : q.isAlive = true := by
  rw [released, isAlive_settled] at h
  simp only [isAlive, Bool.or_eq_true, bne_iff_ne] at h ⊢
  exact .inr (h.resolve_left (by simp))

theorem jobs_released (h : q.released.isAlive = true) : q.released.jobs = q.jobs := by
  rw [released, isAlive_settled] at h
  rw [released, settled, if_pos h]

end Queue

end GraphQL.Deferred
