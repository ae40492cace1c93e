import GraphQL.Deferred.Run

/-!
# Threads

Scripts that are stored run one inside the other. A thread is how far that has come: the script that
runs, those who wait for it to be done, the store, and a record of what has happened to lazies and
sources so far. `Thread.next?` is one step of it. Running a script comes to what its thread comes
to (`Script.runFor_iff`), so what holds after every step holds at every point of every run.
-/

namespace GraphQL.Deferred

/-- What happens to lazies, sources and the queue. -/
inductive Event (α ε κ σ : Type) where
  | asked (id : SourceId) (key : κ)
  /-- The loader of a source is called with keys. -/
  | called (id : SourceId) (keys : List κ)
  /-- The loader of a source is done. -/
  | loaded (id : SourceId) (keys : List κ) (result : Loaded κ α ε)
  /-- A lazy is made, with the script that runs when it is forced. -/
  | made (ref : Ref) (thunk : Script α ε κ σ)
  /-- A lazy that was forced gives its result. -/
  | gave (ref : Ref) (result : Result α ε)
  /-- Nothing is left of the queue. -/
  | ran

/-- Who waits for a script to be done. -/
inductive Caller (α ε κ σ : Type) where
  /-- The lazy whose script it is, and what goes on with its result. -/
  | lazy (ref : Ref) (next : Result α ε → Script α ε κ σ)
  | queue (next : Script α ε κ σ)
  /-- The source that loads keys. -/
  | source (id : SourceId) (keys : List κ) (answer : List κ → σ → Loaded κ α ε)
      (next : Source κ α ε → Script α ε κ σ)

/-- A script that runs, and those who wait for it, the first of them first. -/
structure Thread (α ε κ σ : Type) where
  script : Script α ε κ σ
  callers : List (Caller α ε κ σ)
  store : Store α ε κ σ
  events : List (Event α ε κ σ)

variable {α ε κ σ ρ τ : Type}

/-- A run that goes on after another one ends well only if that one does. -/
theorem Ran.bind_eq_ok {r : Ran α ε κ σ ρ} {f : ρ → Store α ε κ σ → Ran α ε κ σ τ} {result : τ}
    {s : Store α ε κ σ} (h : r.bind f = .ok result s) :
    ∃ first s₁, r = .ok first s₁ ∧ f first s₁ = .ok result s := by
  cases r with
  | ok first s₁ => exact ⟨first, s₁, rfl, h⟩
  | _ => cases h

namespace Script

/-- Replaces the lazies in each item of a list, up to the first error. -/
def deepItems : List (Tree α Ref) → (Except ε (List (Tree α Ref)) → Script α ε κ σ) →
    Script α ε κ σ
  | [], next => next (.ok [])
  | item :: rest, next =>
    .deep item fun
      | .error e => next (.error e)
      | .ok item => deepItems rest fun result => next (result.map fun rest => item :: rest)

/-- One step of replacing the lazies in a value. -/
def deepen (tree : Tree α Ref) (next : Result α ε → Script α ε κ σ) : Script α ε κ σ :=
  match tree with
  | .leaf value => next (.ok (.leaf value))
  | .list items => deepItems items fun result => next (result.map .list)
  | .later ref =>
    .force ref fun
      | .error e => next (.error e)
      | .ok tree => .deep tree next

end Script

namespace Thread

variable [DecidableEq κ]

/-- A thread at its beginning. -/
def on (heap : Store α ε κ σ) (script : Script α ε κ σ) : Thread α ε κ σ :=
  ⟨script, [], heap, []⟩

/-- A thread at its beginning, on a store without lazies and sources. -/
def start (script : Script α ε κ σ) (state : σ) : Thread α ε κ σ :=
  ⟨script, [], .fresh state, []⟩

/-- The first of those who wait goes on with the result. The queue has its next job run, if there is
one. -/
def return? (t : Thread α ε κ σ) (result : Result α ε) : Option (Thread α ε κ σ) :=
  match t.callers with
  | [] => none
  | .lazy ref next :: callers =>
    some ⟨next result, callers, t.store.setCell ref (.resolved result),
      t.events ++ [.gave ref result]⟩
  | .queue next :: callers =>
    match t.store.queue.jobs with
    | [] => some ⟨next, callers, { t.store with queue := t.store.queue.left }, t.events ++ [.ran]⟩
    | job :: rest =>
      some { t with
        script := job
        store := { t.store with queue := { t.store.queue with jobs := rest } } }
  | .source id keys answer next :: callers =>
    let loaded := answer keys t.store.state
    let source := (t.store.source id).store keys loaded
    let store := t.store.setSource id source
    some ⟨next (store.source id), callers, store, t.events ++ [.loaded id keys loaded]⟩

/-- A lazy gives its result or has its script run. -/
def force? (t : Thread α ε κ σ) (ref : Ref) (next : Result α ε → Script α ε κ σ) :
    Option (Thread α ε κ σ) :=
  match t.store.cells[ref]? with
  | some (.resolved result) =>
    some { t with script := next result, events := t.events ++ [.gave ref result] }
  | some (.pending thunk) =>
    some { t with
      script := thunk
      callers := .lazy ref next :: t.callers
      store := t.store.setCell ref .forcing }
  | some .forcing | none => none

/-- A source has its pending keys loaded. -/
def sync (t : Thread α ε κ σ) (id : SourceId) (next : Source κ α ε → Script α ε κ σ) :
    Thread α ε κ σ :=
  match t.store.batch? id with
  | none => { t with script := next (t.store.source id) }
  | some b =>
    let store := t.store.setSource id b.source.taken
    if b.source.pending.isEmpty then
      { t with script := next (store.source id), store := store }
    else
      ⟨b.work b.source.pending, .source id b.source.pending b.answer next :: t.callers, store,
        t.events ++ [.called id b.source.pending]⟩

/-- One step, unless the thread is done or forces a lazy from its own script. -/
def next? (t : Thread α ε κ σ) : Option (Thread α ε κ σ) :=
  match t.script with
  | .done result => t.return? result
  | .read next => some { t with script := next t.store.state }
  | .write state next => some { t with script := next, store := { t.store with state := state } }
  | .defer thunk next =>
    some { t with
      script := next t.store.cells.size
      store := t.store.alloc (.pending thunk)
      events := t.events ++ [.made t.store.cells.size thunk] }
  | .ready result next =>
    some { t with script := next t.store.cells.size, store := t.store.alloc (.resolved result) }
  | .force ref next => t.force? ref next
  | .isResolved ref next => some { t with script := next (t.store.isResolved ref) }
  | .deep tree next => some { t with script := .deepen tree next }
  | .job work next => some { t with script := next, store := t.store.addJob work }
  | .hasJobs next =>
    some { t with script := next (t.store.queue.held && !t.store.queue.jobs.isEmpty) }
  | .run next =>
    some <|
      if t.store.queue.held then
        { t with
          script := .nothing
          callers := .queue next :: t.callers
          store := { t.store with queue := t.store.queue.entered } }
      else { t with script := next }
  | .close next =>
    some { t with script := next, store := { t.store with queue := t.store.queue.released } }
  | .source id work answer next =>
    some { t with
      script := next t.store.queue.held
      store := t.store.addSource ⟨id, work, answer, .fresh⟩ }
  | .request id key next =>
    some { t with
      script := next
      store := t.store.request id key
      events := if (t.store.batch? id).isSome then t.events ++ [.asked id key] else t.events }
  | .await id key next =>
    some <|
      if ((t.store.source id).answer? key).isSome then
        { t with script := next ((t.store.source id).answer key) }
      else t.sync id fun source => next (source.answer key)
  | .sync id next => some (t.sync id fun _ => next)
  | .isPending id next => some { t with script := next (t.store.source id).isPending }

/-- The thread after some steps. -/
def after : Nat → Thread α ε κ σ → Option (Thread α ε κ σ)
  | 0, t => some t
  | n + 1, t => t.next?.bind (after n)

theorem after_succ {t t' : Thread α ε κ σ} (h : t.next? = some t') (n : Nat) :
    t.after (n + 1) = t'.after n := by
  rw [after, h, Option.bind_some]

theorem after_add {t t' : Thread α ε κ σ} {m : Nat} (h : t.after m = some t') (n : Nat) :
    t.after (m + n) = t'.after n := by
  induction m generalizing t with
  | zero =>
    cases h
    rw [Nat.zero_add]
  | succ m ih =>
    obtain ⟨u, hu, h⟩ := Option.bind_eq_some_iff.1 h
    rw [Nat.add_right_comm, after_succ hu]
    exact ih h

theorem after_le {t : Thread α ε κ σ} {m n : Nat} (h : (t.after n).isSome = true) (hle : m ≤ n) :
    (t.after m).isSome = true := by
  induction n generalizing t m with
  | zero =>
    rw [Nat.le_zero.1 hle]
    exact h
  | succ n ih =>
    cases m with
    | zero => rfl
    | succ m =>
      cases hn : t.next? with
      | none => simp [after, hn] at h
      | some u =>
        rw [after_succ hn] at h ⊢
        exact ih h (Nat.le_of_succ_le_succ hle)

/-- A thread ends in one way. -/
theorem after_unique {t u v : Thread α ε κ σ} {m n : Nat} (hu : t.after m = some u)
    (hv : t.after n = some v) (hu' : u.next? = none) (hv' : v.next? = none) : u = v := by
  have hends : ∀ {u v : Thread α ε κ σ} {k : Nat}, u.next? = none → u.after k = some v → u = v := by
    intro u v k hu h
    cases k with
    | zero => exact Option.some.inj h
    | succ k => simp [after, hu] at h
  rcases Nat.le_total m n with hle | hle
  · obtain ⟨k, rfl⟩ := Nat.exists_eq_add_of_le hle
    rw [after_add hu] at hv
    exact hends hu' hv
  · obtain ⟨k, rfl⟩ := Nat.exists_eq_add_of_le hle
    rw [after_add hv] at hu
    exact (hends hv' hu).symm

/-- A lazy is forced from its own script. -/
def Stuck (t : Thread α ε κ σ) : Prop :=
  t.next? = none ∧ ∀ result, t.script ≠ .done result

/-! ## Threads of runs -/

/-- A thread does what a run does: it goes on as given when the run ends well, gets stuck when a
lazy is forced from its own script, and can make a number of steps when the run lacks fuel. -/
def Follows (n : Nat) (t : Thread α ε κ σ)
    (goal : ρ → Store α ε κ σ → List (Event α ε κ σ) → Thread α ε κ σ) : Ran α ε κ σ ρ → Prop
  | .ok result s => ∃ m events, t.after m = some (goal result s events)
  | .reentered _ => ∃ m t', t.after m = some t' ∧ t'.Stuck
  | .exhausted => (t.after n).isSome = true

namespace Follows

variable {n m : Nat} {t t' : Thread α ε κ σ} {r : Ran α ε κ σ ρ}
  {goal : ρ → Store α ε κ σ → List (Event α ε κ σ) → Thread α ε κ σ}
  {goal' : τ → Store α ε κ σ → List (Event α ε κ σ) → Thread α ε κ σ}

theorem mono (h : t.Follows n goal r) (hle : m ≤ n) : t.Follows m goal r := by
  cases r with
  | exhausted => exact after_le h hle
  | _ => exact h

theorem ok {result : ρ} {s : Store α ε κ σ} {events : List (Event α ε κ σ)}
    (h : t = goal result s events) : t.Follows n goal (.ok result s) :=
  ⟨0, events, congrArg some h⟩

theorem step (hn : t.next? = some t') (h : t'.Follows n goal r) : t.Follows (n + 1) goal r := by
  cases r with
  | ok result s =>
    obtain ⟨m, events, h⟩ := h
    exact ⟨m + 1, events, by rw [after_succ hn]; exact h⟩
  | reentered s =>
    obtain ⟨m, u, h, hu⟩ := h
    exact ⟨m + 1, u, by rw [after_succ hn]; exact h, hu⟩
  | exhausted =>
    show (t.after (n + 1)).isSome = true
    rw [after_succ hn]
    exact h

theorem stuck {s : Store α ε κ σ} (h : t.Stuck) : t.Follows n goal (.reentered s) :=
  ⟨0, t, rfl, h⟩

theorem bind {f : ρ → Store α ε κ σ → Ran α ε κ σ τ} (h : t.Follows n goal r)
    (hf : ∀ result s events, (goal result s events).Follows n goal' (f result s)) :
    t.Follows n goal' (r.bind f) := by
  cases r with
  | ok result s =>
    obtain ⟨m, events, h⟩ := h
    have hf := hf result s events
    show t.Follows n goal' (f result s)
    cases hr : f result s with
    | ok result' s' =>
      rw [hr] at hf
      obtain ⟨k, events', hf⟩ := hf
      exact ⟨m + k, events', by rw [after_add h]; exact hf⟩
    | reentered s' =>
      rw [hr] at hf
      obtain ⟨k, u, hf, hu⟩ := hf
      exact ⟨m + k, u, by rw [after_add h]; exact hf, hu⟩
    | exhausted =>
      rw [hr] at hf
      refine after_le ?_ (Nat.le_add_left n m)
      rw [after_add h]
      exact hf
  | reentered s => exact h
  | exhausted => exact h

theorem afterwards {f : Store α ε κ σ → Store α ε κ σ}
    (h : t.Follows n (fun result s => goal result (f s)) r) :
    t.Follows n goal (r.afterwards f) := by
  cases r <;> exact h

theorem of_afterwards {f : Store α ε κ σ → Store α ε κ σ} (h : t.Follows n goal (r.afterwards f)) :
    t.Follows n (fun result s => goal result (f s)) r := by
  cases r <;> exact h

end Follows

end Thread

open Thread

variable [DecidableEq κ] {n : Nat}

/-- Threads of scripts that are stored do what running these scripts does. -/
def Thread.FollowsAll (n : Nat) (run : Runner α ε κ σ) : Prop :=
  ∀ script callers s events, (⟨script, callers, s, events⟩ : Thread α ε κ σ).Follows n
    (fun result s events => ⟨.done result, callers, s, events⟩) (run script s)

section

variable {run : Runner α ε κ σ} {callers : List (Caller α ε κ σ)} {s : Store α ε κ σ}
  {events : List (Event α ε κ σ)}

theorem Store.force_follows (hrun : FollowsAll n run) (ref : Ref)
    (next : Result α ε → Script α ε κ σ) :
    (⟨.force ref next, callers, s, events⟩ : Thread α ε κ σ).Follows (n + 1)
      (fun result s events => ⟨next result, callers, s, events⟩) (s.force run ref) := by
  unfold Store.force
  split
  · next result hcell =>
    have hstep : (⟨.force ref next, callers, s, events⟩ : Thread α ε κ σ).next? =
        some ⟨next result, callers, s, events ++ [.gave ref result]⟩ := by
      simp [next?, force?, hcell]
    exact .step hstep (.ok rfl)
  · next thunk hcell =>
    have hstep : (⟨.force ref next, callers, s, events⟩ : Thread α ε κ σ).next? =
        some ⟨thunk, .lazy ref next :: callers, s.setCell ref .forcing, events⟩ := by
      simp [next?, force?, hcell]
    refine .step hstep ((hrun ..).bind fun result s events => ?_)
    exact ⟨1, _, rfl⟩
  · next hcell => exact .stuck ⟨by simp [next?, force?, hcell], nofun⟩
  · next hcell => exact .stuck ⟨by simp [next?, force?, hcell], nofun⟩

theorem Store.deepItems_follows
    {deep : Store α ε κ σ → Tree α Ref → Ran α ε κ σ (Result α ε)}
    (hdeep : ∀ s events item next,
      (⟨.deep item next, callers, s, events⟩ : Thread α ε κ σ).Follows n
        (fun result s events => ⟨next result, callers, s, events⟩) (deep s item))
    (items : List (Tree α Ref)) : ∀ (s : Store α ε κ σ) (events : List (Event α ε κ σ))
      (next : Except ε (List (Tree α Ref)) → Script α ε κ σ),
      (⟨.deepItems items next, callers, s, events⟩ : Thread α ε κ σ).Follows n
        (fun result s events => ⟨next result, callers, s, events⟩)
        (Store.deepItems deep s items) := by
  induction items with
  | nil => exact fun _ _ _ => .ok rfl
  | cons item rest ih =>
    intro s events next
    refine (hdeep s events item _).bind fun result s events => ?_
    cases result with
    | error e => exact .ok rfl
    | ok item => exact (ih s events _).bind fun result s events => .ok rfl

theorem Store.deep_follows (hrun : FollowsAll n run) {d : Nat}
    (hd : d ≤ n) : ∀ (s : Store α ε κ σ) (tree : Tree α Ref) (events : List (Event α ε κ σ))
      (next : Result α ε → Script α ε κ σ),
      (⟨.deep tree next, callers, s, events⟩ : Thread α ε κ σ).Follows (d + 1)
        (fun result s events => ⟨next result, callers, s, events⟩) (s.deep run d tree) := by
  induction d with
  | zero => exact fun _ _ _ _ => rfl
  | succ d ih =>
    intro s tree events next
    cases tree with
    | leaf value => exact .step rfl (.ok rfl)
    | list items =>
      refine .step rfl ?_
      refine (Store.deepItems_follows (fun s events item next => ih (by omega) s item events next)
        items s events _).bind fun result s events => .ok rfl
    | later ref =>
      refine .step rfl ?_
      refine ((Store.force_follows hrun ref _).mono (by omega)).bind fun result s events => ?_
      cases result with
      | error e => exact .ok rfl
      | ok tree => exact ih (by omega) s tree events next

/-- The queue is run to its end, and then what waits for it goes on. -/
theorem Store.drain_follows (hrun : FollowsAll n run) (next : Script α ε κ σ) {d : Nat}
    (hd : d ≤ n) : ∀ (result : Result α ε) (s : Store α ε κ σ) (events : List (Event α ε κ σ)),
      (⟨.done result, .queue next :: callers, s, events⟩ : Thread α ε κ σ).Follows (d + 1)
        (fun _ s events => ⟨next, callers, s, events⟩)
        ((s.drain run d).afterwards fun s => { s with queue := s.queue.left }) := by
  induction d with
  | zero =>
    intro result s events
    refine .afterwards ?_
    unfold Store.drain
    cases hjobs : s.queue.jobs with
    | nil => exact ⟨1, events ++ [.ran], by simp [after, next?, return?, hjobs]⟩
    | cons job rest => simp [Follows, after, next?, return?, hjobs]
  | succ d ih =>
    intro result s events
    refine .afterwards ?_
    unfold Store.drain
    cases hjobs : s.queue.jobs with
    | nil => exact ⟨1, events ++ [.ran], by simp [after, next?, return?, hjobs]⟩
    | cons job rest =>
      have hstep : (⟨.done result, .queue next :: callers, s, events⟩ : Thread α ε κ σ).next? =
          some ⟨job, .queue next :: callers,
            { s with queue := { s.queue with jobs := rest } }, events⟩ := by
        simp [next?, return?, hjobs]
      exact .step hstep (((hrun ..).mono hd).bind fun result s events =>
        .of_afterwards (ih (by omega) result s events))

theorem Store.runQueue_follows (hrun : FollowsAll n run) (next : Script α ε κ σ) :
    (⟨.run next, callers, s, events⟩ : Thread α ε κ σ).Follows (n + 1)
      (fun _ s events => ⟨next, callers, s, events⟩) (s.runQueue run n) := by
  have hstep : (⟨.run next, callers, s, events⟩ : Thread α ε κ σ).next? = some
      (if s.queue.held then
        ⟨.nothing, .queue next :: callers, { s with queue := s.queue.entered }, events⟩
      else ⟨next, callers, s, events⟩) := rfl
  unfold Store.runQueue
  split
  · next hheld =>
    rw [if_pos hheld] at hstep
    exact (Follows.step hstep (Store.drain_follows hrun next (Nat.le_refl n) ..)).mono (by omega)
  · next hheld =>
    rw [if_neg hheld] at hstep
    exact .step hstep (.ok rfl)

theorem Store.sync_follows (hrun : FollowsAll n run) {t : Thread α ε κ σ} {id : SourceId}
    {next : Source κ α ε → Script α ε κ σ} (ht : t.next? = some (t.sync id next)) :
    t.Follows (n + 1) (fun _ s events => ⟨next (s.source id), t.callers, s, events⟩)
      (t.store.sync run id) := by
  refine .step ht ?_
  unfold Store.sync Thread.sync
  cases t.store.batch? id with
  | none => exact .ok rfl
  | some b =>
    simp only
    by_cases hempty : b.source.pending.isEmpty = true
    · rw [if_pos hempty, if_pos hempty]
      exact .ok rfl
    · rw [if_neg hempty, if_neg hempty]
      refine (hrun ..).bind fun result s events => ?_
      exact ⟨1, _, rfl⟩

end

namespace Script

variable {run : Runner α ε κ σ}

theorem exec_follows (hrun : FollowsAll n run) (script : Script α ε κ σ)
    (callers : List (Caller α ε κ σ)) : ∀ (s : Store α ε κ σ) (events : List (Event α ε κ σ)),
      (⟨script, callers, s, events⟩ : Thread α ε κ σ).Follows (n + 1)
        (fun result s events => ⟨.done result, callers, s, events⟩) (script.exec run n s) := by
  induction script with
  | done result => exact fun _ _ => .ok rfl
  | read next ih => exact fun s events => (Follows.step rfl (ih s.state s events)).mono (by omega)
  | write state next ih => exact fun s events => (Follows.step rfl (ih _ _)).mono (by omega)
  | defer thunk next _ ih => exact fun s events => (Follows.step rfl (ih _ _ _)).mono (by omega)
  | ready result next ih => exact fun s events => (Follows.step rfl (ih _ _ _)).mono (by omega)
  | isResolved ref next ih => exact fun s events => (Follows.step rfl (ih _ _ _)).mono (by omega)
  | job work next _ ih => exact fun s events => (Follows.step rfl (ih _ _)).mono (by omega)
  | hasJobs next ih => exact fun s events => (Follows.step rfl (ih _ _ _)).mono (by omega)
  | close next ih => exact fun s events => (Follows.step rfl (ih _ _)).mono (by omega)
  | source id work answer next _ ih =>
    exact fun s events => (Follows.step rfl (ih _ _ _)).mono (by omega)
  | request id key next ih => exact fun s events => (Follows.step rfl (ih _ _)).mono (by omega)
  | isPending id next ih => exact fun s events => (Follows.step rfl (ih _ _ _)).mono (by omega)
  | force ref next ih =>
    exact fun s events => (Store.force_follows hrun ref next).bind fun result s events => ih ..
  | deep tree next ih =>
    exact fun s events =>
      (Store.deep_follows hrun (Nat.le_refl n) s tree events next).bind fun result s events => ih ..
  | run next ih =>
    exact fun s events => (Store.runQueue_follows hrun next).bind fun _ s events => ih s events
  | await id key next ih =>
    intro s events
    have hstep : (⟨.await id key next, callers, s, events⟩ : Thread α ε κ σ).next? = some
        (if ((s.source id).answer? key).isSome then
          ⟨next ((s.source id).answer key), callers, s, events⟩
        else Thread.sync ⟨.await id key next, callers, s, events⟩ id fun source =>
          next (source.answer key)) := rfl
    unfold exec Store.await
    split
    · next hknown =>
      rw [if_pos hknown] at hstep
      exact (Follows.step hstep (ih ..)).mono (by omega)
    · next hknown =>
      rw [if_neg hknown] at hstep
      exact .bind (.bind (Store.sync_follows hrun hstep) fun _ s events => .ok rfl)
        fun answer s events => ih answer s events
  | sync id next ih =>
    exact fun s events => (Store.sync_follows hrun rfl).bind fun result s events => ih ..

theorem runFor_follows : ∀ n, FollowsAll n (runFor n : Runner α ε κ σ)
  | 0 => fun _ _ _ _ => rfl
  | n + 1 => fun script callers s events => exec_follows (runFor_follows n) script callers s events

/-- A script does not lack fuel when its thread comes to an end. -/
theorem runFor_ne_exhausted {script : Script α ε κ σ} {heap : Store α ε κ σ} {m : Nat}
    {t : Thread α ε κ σ} (h : (on heap script).after m = some t)
    (ht : t.next? = none) : script.runFor (m + 1) heap ≠ .exhausted := by
  intro hr
  have hf := runFor_follows (m + 1) script [] heap []
  rw [hr] at hf
  replace hf : ((on heap script).after (m + 1)).isSome = true := hf
  rw [after_add h, after, ht] at hf
  cases hf

/-- A script runs to an end on a store if and only if its thread does, with the same result and the
same store. -/
theorem runFor_ok_iff (script : Script α ε κ σ) (heap : Store α ε κ σ) (result : Result α ε)
    (s : Store α ε κ σ) :
    (∃ n, script.runFor n heap = .ok result s) ↔
      ∃ m events, (on heap script).after m = some ⟨.done result, [], s, events⟩ := by
  constructor
  · rintro ⟨n, h⟩
    have hf := runFor_follows n script [] heap []
    rw [h] at hf
    exact hf
  · rintro ⟨m, events, h⟩
    refine ⟨m + 1, ?_⟩
    have hf := runFor_follows (m + 1) script [] heap []
    cases hr : script.runFor (m + 1) heap with
    | ok result' s' =>
      rw [hr] at hf
      obtain ⟨m', events', hf⟩ := hf
      cases after_unique h hf rfl rfl
      rfl
    | reentered s' =>
      rw [hr] at hf
      obtain ⟨m', u, hu, hstuck⟩ := hf
      cases after_unique h hu rfl hstuck.1
      exact absurd rfl (hstuck.2 result)
    | exhausted => exact absurd hr (runFor_ne_exhausted h rfl)

/-- A script ends in a lazy that is forced from its own script if and only if its thread does. -/
theorem runFor_reentered_iff (script : Script α ε κ σ) (heap : Store α ε κ σ) :
    (∃ n s, script.runFor n heap = .reentered s) ↔
      ∃ m t, (on heap script).after m = some t ∧ t.Stuck := by
  constructor
  · rintro ⟨n, s, h⟩
    have hf := runFor_follows n script [] heap []
    rw [h] at hf
    exact hf
  · rintro ⟨m, t, h, hstuck⟩
    refine ⟨m + 1, ?_⟩
    have hf := runFor_follows (m + 1) script [] heap []
    cases hr : script.runFor (m + 1) heap with
    | ok result s =>
      rw [hr] at hf
      obtain ⟨m', events, hf⟩ := hf
      cases after_unique h hf hstuck.1 rfl
      exact absurd rfl (hstuck.2 result)
    | reentered s => exact ⟨s, rfl⟩
    | exhausted => exact absurd hr (runFor_ne_exhausted h hstuck.1)

/-- A script runs to an end if and only if its thread does, with the same result and the same
store. -/
theorem runFor_iff (script : Script α ε κ σ) (state : σ) (result : Result α ε)
    (s : Store α ε κ σ) :
    (∃ n, script.runFor n (.fresh state) = .ok result s) ↔
      ∃ m events, (start script state).after m = some ⟨.done result, [], s, events⟩ :=
  runFor_ok_iff script (.fresh state) result s

end Script

end GraphQL.Deferred
