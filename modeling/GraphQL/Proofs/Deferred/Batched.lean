import GraphQL.Proofs.Deferred.Lent

/-!
# Batch sources

A source has every key that it is asked for loaded once, in the order of first asking, and answers
all lazies from these loads, in whatever order keys are asked for, lazies are forced and jobs run
(`Thread.Batched`). All of this holds at every point of every run in which the loader does not call
back into the source (`Thread.runs_batched`).
-/

namespace GraphQL.Deferred

variable {α ε κ σ : Type}

/-! ## The lazies that loading gives -/

namespace Script

/-- The script of the lazy for one key. -/
def answerTo (missing : α) (id : SourceId) (key : κ) : Script α ε κ σ :=
  .await id key fun answer => .done (answer.map fun value => .leaf (value.getD missing))

/-- The script of the lazy for several keys. -/
def answersTo (missing : α) (id : SourceId) (keys : List κ) : Script α ε κ σ :=
  awaitAll missing id keys fun values => .done (values.map .list)

variable {missing : α} {id : SourceId} {key : κ} {keys : List κ} {known : Answers κ α ε}

theorem awaits_answerTo {all : List κ} (h : key ∈ all) :
    (answerTo missing id key : Script α ε κ σ).Awaits id all :=
  .await h fun _ => .done _

theorem awaits_awaitAll {all : List κ} : ∀ {keys : List κ}
    {next : Except ε (List (Tree α Ref)) → Script α ε κ σ}, (∀ key ∈ keys, key ∈ all) →
      (∀ values, (next values).Awaits id all) → (awaitAll missing id keys next).Awaits id all
  | [], _, _, hnext => hnext _
  | key :: rest, next, hkeys, hnext => by
    refine .await (hkeys key (List.mem_cons_self ..)) fun answer => ?_
    cases answer with
    | error e => exact hnext _
    | ok value =>
      exact awaits_awaitAll (fun key hk => hkeys key (List.mem_cons_of_mem _ hk)) fun _ => hnext _

theorem awaits_answersTo {all : List κ} (h : ∀ key ∈ keys, key ∈ all) :
    (answersTo missing id keys : Script α ε κ σ).Awaits id all :=
  awaits_awaitAll h fun _ => .done _

theorem reply_answerTo {result : Result α ε}
    (h : (answerTo missing id key : Script α ε κ σ).reply known = some result) :
    ∃ answer, known key = some answer ∧
      result = answer.map fun value => .leaf (value.getD missing) := by
  obtain ⟨answer, ha, h⟩ := Option.bind_eq_some_iff.1 h
  exact ⟨answer, ha, (Option.some.inj h).symm⟩

/-- The answers to several keys in their order, or the first error. -/
inductive Gathers (missing : α) (holds : κ → Except ε (Option α) → Prop) :
    List κ → Except ε (List (Tree α Ref)) → Prop where
  | nil : Gathers missing holds [] (.ok [])
  | error {key : κ} {rest : List κ} {e : ε} : holds key (.error e) →
      Gathers missing holds (key :: rest) (.error e)
  | ok {key : κ} {rest : List κ} {value : Option α} {values : Except ε (List (Tree α Ref))} :
      holds key (.ok value) → Gathers missing holds rest values →
      Gathers missing holds (key :: rest)
        (values.map fun values => .leaf (value.getD missing) :: values)

theorem Gathers.imp {holds holds' : κ → Except ε (Option α) → Prop}
    (h : ∀ key answer, holds key answer → holds' key answer) {keys : List κ}
    {values : Except ε (List (Tree α Ref))} (hg : Gathers missing holds keys values) :
    Gathers missing holds' keys values := by
  induction hg with
  | nil => exact .nil
  | error hk => exact .error (h _ _ hk)
  | ok hk _ ih => exact .ok (h _ _ hk) ih

theorem reply_awaitAll : ∀ {keys : List κ}
    {next : Except ε (List (Tree α Ref)) → Script α ε κ σ} {result : Result α ε},
      (awaitAll missing id keys next).reply known = some result →
      ∃ values, Gathers missing (fun key answer => known key = some answer) keys values ∧
        (next values).reply known = some result
  | [], _, _, h => ⟨_, .nil, h⟩
  | key :: rest, next, result, h => by
    obtain ⟨answer, ha, h⟩ := Option.bind_eq_some_iff.1 h
    cases answer with
    | error e => exact ⟨_, .error ha, h⟩
    | ok value =>
      obtain ⟨values, hg, h⟩ := reply_awaitAll h
      exact ⟨_, .ok ha hg, h⟩

theorem reply_answersTo {result : Result α ε}
    (h : (answersTo missing id keys : Script α ε κ σ).reply known = some result) :
    ∃ values, Gathers missing (fun key answer => known key = some answer) keys values ∧
      result = values.map .list := by
  obtain ⟨values, hg, h⟩ := reply_awaitAll h
  exact ⟨values, hg, (Option.some.inj h).symm⟩

end Script

namespace Event

variable {missing : α} {id : SourceId} {ref : Ref} {events before after : List (Event α ε κ σ)}

theorem lends_answerTo {key : κ}
    (he : events = before ++ .made ref (.answerTo missing id key) :: after)
    (hkey : .asked id key ∈ before) : Lends id events ref (.answerTo missing id key) :=
  ⟨before, after, he, Script.awaits_answerTo (Thread.mem_asks.2 hkey)⟩

theorem lends_answersTo {keys : List κ}
    (he : events = before ++ .made ref (.answersTo missing id keys) :: after)
    (hkeys : ∀ key ∈ keys, .asked id key ∈ before) :
    Lends id events ref (.answersTo missing id keys) :=
  ⟨before, after, he, Script.awaits_answersTo fun key hkey => Thread.mem_asks.2 (hkeys key hkey)⟩

end Event

namespace Thread

variable [DecidableEq κ] {id : SourceId} {t t' : Thread α ε κ σ}

theorem Runs.single (hq : ¬ t.CallsBack id) (hn : t.next? = some t') : Runs id t t' :=
  Relation.ReflTransGen.single ⟨hq, hn⟩

theorem Runs.trans {a b c : Thread α ε κ σ} (hab : Runs id a b) (hbc : Runs id b c) :
    Runs id a c :=
  Relation.ReflTransGen.trans hab hbc

theorem Kept.asks_runs (h : t.Kept id) (hr : Runs id t t') {key : κ} (hk : key ∈ t.asks id) :
    key ∈ t'.asks id := by
  induction hr with
  | refl => exact hk
  | tail hr hstep ih => exact (next?_moves (h.runs hr).opened hstep.1 hstep.2).asks_subset ih

/-! ## Forcing lazies -/

/-- A lazy gives a result, and those who wait for it go on. -/
def Gives (id : SourceId) (t : Thread α ε κ σ) (ref : Ref) (next : Result α ε → Script α ε κ σ)
    (callers : List (Caller α ε κ σ)) : Prop :=
  ∃ result s events, Runs id t ⟨next result, callers, s, events ++ [.gave ref result]⟩

section

variable {keys : List κ} {script : Script α ε κ σ} {callers : List (Caller α ε κ σ)}
  (s : Store α ε κ σ) (events : List (Event α ε κ σ))

/-- Answers that are known are had at once. -/
theorem runs_of_known (h : script.Awaits id keys)
    (hl : callers.filterMap (Caller.loading? id) = [])
    (hall : ∀ key ∈ keys, ((s.source id).answer? key).isSome = true) :
    ∃ result, Runs id ⟨script, callers, s, events⟩ ⟨.done result, callers, s, events⟩ := by
  induction h with
  | done result => exact ⟨result, .refl⟩
  | @await key next hk _ ih =>
    obtain ⟨result, hr⟩ := ih ((s.source id).answer key)
    have hstep : Step ⟨.await id key next, callers, s, events⟩ _ := .look (.await (hall key hk))
    exact ⟨result, .head ⟨fun hc => hc.1 hl, hstep.next?_eq⟩ hr⟩

/-- Otherwise the loader is called with all keys that wait. -/
theorem runs_of_asked (h : script.Awaits id keys)
    (hl : callers.filterMap (Caller.loading? id) = [])
    (hasked : ∀ key ∈ keys, (s.source id).Asked key) :
    (∃ result, Runs id ⟨script, callers, s, events⟩ ⟨.done result, callers, s, events⟩) ∨
      ∃ b goal, s.batch? id = some b ∧ (∀ source, (goal source).Awaits id keys) ∧
        Runs id ⟨script, callers, s, events⟩
          ⟨b.work b.source.pending, .source id b.source.pending b.answer goal :: callers,
            s.setSource id b.source.taken, events ++ [.called id b.source.pending]⟩ := by
  induction h with
  | done result => exact .inl ⟨result, .refl⟩
  | @await key next hk hnext ih =>
    have hq : ¬ (⟨.await id key next, callers, s, events⟩ : Thread α ε κ σ).CallsBack id :=
      fun hc => hc.1 hl
    by_cases hs : ((s.source id).answer? key).isSome = true
    · have hstep : Step ⟨.await id key next, callers, s, events⟩ _ := .look (.await hs)
      rcases ih ((s.source id).answer key) with ⟨result, hr⟩ | ⟨b, goal, hb, hgoal, hr⟩
      · exact .inl ⟨result, .head ⟨hq, hstep.next?_eq⟩ hr⟩
      · exact .inr ⟨b, goal, hb, hgoal, .head ⟨hq, hstep.next?_eq⟩ hr⟩
    · have hpending : key ∈ (s.source id).pending := (hasked key hk).resolve_left hs
      obtain ⟨b, hb⟩ := s.exists_batch? (List.ne_nil_of_mem hpending)
      rw [s.source_of_batch? hb] at hpending
      have hstep : Step ⟨.await id key next, callers, s, events⟩ _ :=
        .call (.await hs) hb (List.ne_nil_of_mem hpending)
      exact .inr ⟨b, _, hb, fun _ => hnext _, .single hq hstep.next?_eq⟩

end

/-- A lazy that was lent out and is being forced waits for the script that runs, or for a loader. -/
theorem Served.of_mem {ref : Ref} {next : Result α ε → Script α ε κ σ} {thunk : Script α ε κ σ}
    (hl : Event.Lends id t.events ref thunk) {callers : List (Caller α ε κ σ)}
    (hloading : callers.filterMap (Caller.loading? id) = []) (hm : .lazy ref next ∈ callers) :
    ∀ {above}, t.Served id above callers →
      (∃ script, above = .inl script ∧ script.Awaits id (t.asks id)) ∨
        ∃ keys answer goal, above = .inr (.source id keys answer goal) := by
  induction callers with
  | nil => cases hm
  | cons caller callers ih =>
    intro above ⟨hs, h⟩
    rcases List.mem_cons.1 hm with rfl | hm
    · have hs := hs thunk hl
      match above, hs with
      | .inl script, hs => exact .inl ⟨script, rfl, hs.1⟩
      | .inr (.source other keys answer goal), ⟨ho, _⟩ =>
        exact .inr ⟨keys, answer, goal, by rw [ho]⟩
    · rw [List.filterMap_cons] at hloading
      split at hloading
      · next hnone =>
        rcases ih hloading hm h with ⟨_, he, _⟩ | ⟨keys, answer, goal, he⟩
        · cases he
        · cases he
          simp [Caller.loading?] at hnone
      · cases hloading

/-- When the script of a lazy is done, the lazy gives its result. -/
theorem gives_of_done {ref : Ref} {next : Result α ε → Script α ε κ σ} {result : Result α ε}
    {callers : List (Caller α ε κ σ)} (hs : t.script = .done result)
    (hc : t.callers = .lazy ref next :: callers) : t.Gives id ref next callers := by
  obtain ⟨_, _, s, events⟩ := t
  cases hs
  cases hc
  refine ⟨result, _, _, .single (fun hq => ?_) Step.resolve.next?_eq⟩
  cases hq.2

theorem Gives.of_runs {ref : Ref} {next : Result α ε → Script α ε κ σ}
    {callers : List (Caller α ε κ σ)} (hr : Runs id t t') (h : t'.Gives id ref next callers) :
    t.Gives id ref next callers := by
  obtain ⟨result, s, events, h⟩ := h
  exact ⟨result, s, events, hr.trans h⟩

/-- When the loader is done, so is the lazy that waits for it. -/
theorem gives_of_loaded (hk : t.Kept id) {ref : Ref} {next : Result α ε → Script α ε κ σ}
    {result : Result α ε} {keys asked : List κ} {answer : List κ → σ → Loaded κ α ε}
    {goal : Source κ α ε → Script α ε κ σ} {callers : List (Caller α ε κ σ)}
    (hs : t.script = .done result)
    (hc : t.callers = .source id keys answer goal :: .lazy ref next :: callers)
    (hl : callers.filterMap (Caller.loading? id) = []) (hasked : ∀ key ∈ asked, key ∈ t.asks id)
    (hgoal : ∀ source, (goal source).Awaits id asked) : t.Gives id ref next callers := by
  have hq : ¬ t.CallsBack id := fun hq => by
    rw [CallsBack, hs] at hq
    cases hq.2
  obtain ⟨u, hn, hcallers, hscript⟩ : ∃ u, t.next? = some u ∧
      u.callers = .lazy ref next :: callers ∧ u.script = goal (u.store.source id) := by
    obtain ⟨_, _, s, events⟩ := t
    cases hs
    cases hc
    exact ⟨_, Step.load.next?_eq, rfl, rfl⟩
  have hloading : u.loading id = [] := by
    rw [loading, hcallers]
    exact (List.filterMap_cons_none rfl).trans hl
  have hmoves := next?_moves hk.opened hq hn
  have hpending : (u.store.source id).pending = [] := by
    refine hmoves.pending_of_done hk.sound (fun hnil => ?_) hloading
    replace hnil : t.loading id = [] := hnil
    simp [loading, hc, Caller.loading?] at hnil
  -- all keys have been loaded
  have hall : ∀ key ∈ asked, ((u.store.source id).answer? key).isSome = true := fun key hkey => by
    refine ((hk.next hq hn).sound.asked hloading
      (hmoves.asks_subset (hasked key hkey))).resolve_right fun hm => ?_
    replace hm : key ∈ (u.store.source id).pending := hm
    rw [hpending] at hm
    cases hm
  obtain ⟨result, hr⟩ := runs_of_known u.store u.events (hgoal (u.store.source id)) hloading hall
  rw [← hscript] at hr
  exact .of_runs (.trans (.single hq hn) hr) (gives_of_done rfl hcallers)

/-- A lazy that was lent out gives its result when it is forced, either at once or as soon as the
loader of the source, called with all keys that wait, is done. -/
theorem Lent.forced (h : t.Lent id) (hk : t.Kept id) {ref : Ref}
    {next : Result α ε → Script α ε κ σ} {thunk : Script α ε κ σ} (hs : t.script = .force ref next)
    (hl : Event.Lends id t.events ref thunk) (hloading : t.loading id = []) :
    t.Gives id ref next t.callers ∨ ∃ b goal u, t.store.batch? id = some b ∧
      Runs id t u ∧ u.script = b.work b.source.pending ∧
      u.callers = .source id b.source.pending b.answer goal :: .lazy ref next :: t.callers ∧
      u.events = t.events ++ [Event.called id b.source.pending] ∧
      ∀ v result, Runs id u v → v.script = .done result → v.callers = u.callers →
        v.Gives id ref next t.callers := by
  have hq : ¬ t.CallsBack id := fun hq => hq.1 hloading
  obtain ⟨_, callers, s, events⟩ := t
  cases hs
  rcases h.cells hl with hc | hc | ⟨result, hc, -⟩
  · have hn := (Step.enter hc : Step ⟨.force ref next, callers, s, events⟩ _).next?_eq
    have hkeys := Event.awaits_of_lends hl
    have hloading' : (Caller.lazy ref next :: callers).filterMap (Caller.loading? id) = [] :=
      (List.filterMap_cons_none rfl).trans hloading
    rcases runs_of_asked (s.setCell ref .forcing) events hkeys hloading'
        fun key hkey => hk.sound.asked hloading hkey with ⟨result, hr⟩ | ⟨b, goal, hb, hgoal, hr⟩
    · exact .inl (.of_runs (.trans (.single hq hn) hr) (gives_of_done rfl rfl))
    · have hu := Runs.trans (.single hq hn) hr
      refine .inr ⟨b, goal, _, hb, hu, rfl, rfl, rfl, fun v result hv hdone hcallers => ?_⟩
      exact gives_of_loaded (hk.runs (hu.trans hv)) hdone hcallers hloading
        (fun key hkey => hk.asks_runs (hu.trans hv) hkey) hgoal
  · -- the script of the lazy would run, or a loader would
    obtain ⟨goal, hm⟩ := h.forcing hc
    rcases h.served.of_mem hl hloading hm with ⟨_, he, hawaits⟩ | ⟨_, _, _, he⟩
    · cases he
      cases hawaits
    · cases he
  · exact .inl ⟨result, s, events, .single hq (Step.give hc).next?_eq⟩

/-! ## Making lazies -/

theorem requests_after (id : SourceId) (script : Script α ε κ σ) (callers : List (Caller α ε κ σ)) :
    ∀ (keys : List κ) (s : Store α ε κ σ) (events : List (Event α ε κ σ)),
      (s.batch? id).isSome = true → ∃ s', (⟨keys.foldr (.request id) script, callers, s, events⟩ :
        Thread α ε κ σ).after keys.length =
          some ⟨script, callers, s', events ++ keys.map (.asked id)⟩
  | [], s, events, _ => ⟨s, by rw [List.map_nil, List.append_nil]; rfl⟩
  | key :: keys, s, events, hb => by
    obtain ⟨s', h⟩ := requests_after id script callers keys (s.request id key)
      (events ++ [.asked id key]) ((s.isSome_batch?_request id id key).trans hb)
    obtain ⟨b, hb⟩ := Option.isSome_iff_exists.1 hb
    have hstep : Step ⟨(key :: keys).foldr (.request id) script, callers, s, events⟩ _ := .request hb
    refine ⟨s', ?_⟩
    rw [List.length_cons, after_succ hstep.next?_eq, h, List.append_assoc]
    rfl

theorem load_after {missing : α} {key : κ} {next : Ref → Script α ε κ σ}
    (hs : t.script = .load missing id key next) (hb : (t.store.batch? id).isSome = true) :
    ∃ ref s, t.after 2 = some ⟨next ref, t.callers, s,
      t.events ++ [Event.asked id key, .made ref (.answerTo missing id key)]⟩ := by
  obtain ⟨script, callers, s, events⟩ := t
  cases hs
  obtain ⟨s', h⟩ := requests_after id (.defer (.answerTo missing id key) next) callers [key] s
    events hb
  refine ⟨s'.cells.size, s'.alloc (.pending (.answerTo missing id key)), (after_add h 1).trans ?_⟩
  rw [List.append_cons]
  rfl

theorem loadMany_after {missing : α} {keys : List κ} {next : Ref → Script α ε κ σ}
    (hs : t.script = .loadMany missing id keys next) (hb : (t.store.batch? id).isSome = true) :
    ∃ ref s, t.after (keys.length + 1) = some ⟨next ref, t.callers, s,
      t.events ++ keys.map (.asked id) ++ [Event.made ref (.answersTo missing id keys)]⟩ := by
  obtain ⟨script, callers, s, events⟩ := t
  cases hs
  obtain ⟨s', h⟩ := requests_after id (.defer (.answersTo missing id keys) next) callers keys s
    events hb
  exact ⟨_, _, (after_add h 1).trans rfl⟩

/-! ## What a source does -/

/-- The answer to a key is that of a batch that has the key. -/
def BatchAnswer (id : SourceId) (t : Thread α ε κ σ) (key : κ) (answer : Except ε (Option α)) :
    Prop :=
  ∃ keys ∈ t.batches id, ∃ loaded, .loaded id keys loaded ∈ t.events ∧ key ∈ keys ∧
    answer = Source.answerOf loaded key

/-- What can be said of a source at a point of a run. -/
structure Batched (id : SourceId) (t : Thread α ε κ σ) : Prop where
  /-- No key is passed to the loader twice. -/
  nodup : (t.batches id).flatten.Nodup
  /-- Batches list their keys in the order of first asking. -/
  order : (t.batches id).flatten <+: (t.asks id).eraseDups
  /-- A key that was not passed to the loader waits, with a flush ahead while there is a queue. -/
  waits : ∀ key ∈ t.asks id, key ∉ (t.batches id).flatten →
    key ∈ (t.store.source id).pending ∧ (t.store.queue.isAlive = true → t.FlushAhead id)
  /-- After a run of the queue no key waits. -/
  drained : ∀ t', t.next? = some t' → t'.events = t.events ++ [.ran] →
    (t'.store.source id).pending = []
  /-- Asking for one key gives a lazy for its answer, -/
  load : ∀ missing key next, t.script = .load missing id key next →
    (t.store.batch? id).isSome = true → ∃ ref s, t.after 2 = some ⟨next ref, t.callers, s,
      t.events ++ [.asked id key, .made ref (.answerTo missing id key)]⟩
  /-- and asking for several one for all of theirs. -/
  loadMany : ∀ missing keys next, t.script = .loadMany missing id keys next →
    (t.store.batch? id).isSome = true → ∃ ref s, t.after (keys.length + 1) = some ⟨next ref,
      t.callers, s, t.events ++ keys.map (.asked id) ++ [.made ref (.answersTo missing id keys)]⟩
  /-- What the lazy of a key gives is the answer of the batch. -/
  answer : ∀ before after missing key ref result,
    t.events = before ++ .made ref (.answerTo missing id key) :: after → .asked id key ∈ before →
    .gave ref result ∈ t.events →
    ∃ answer, t.BatchAnswer id key answer ∧
      result = answer.map fun value => .leaf (value.getD missing)
  /-- The lazy of several keys gives their answers in order, or the first error. -/
  answers : ∀ before after missing keys ref result,
    t.events = before ++ .made ref (.answersTo missing id keys) :: after →
    (∀ key ∈ keys, .asked id key ∈ before) → .gave ref result ∈ t.events →
    ∃ values, Script.Gathers missing (t.BatchAnswer id) keys values ∧ result = values.map .list
  /-- Such lazies give a result whenever they are forced, either at once or as soon as the loader,
  called with all keys that wait, is done. -/
  forced : ∀ ref next thunk, t.script = .force ref next → Event.Lends id t.events ref thunk →
    t.loading id = [] →
    t.Gives id ref next t.callers ∨ ∃ b goal u, t.store.batch? id = some b ∧
      Runs id t u ∧ u.script = b.work b.source.pending ∧
      u.callers = .source id b.source.pending b.answer goal :: .lazy ref next :: t.callers ∧
      u.events = t.events ++ [.called id b.source.pending] ∧
      ∀ v result, Runs id u v → v.script = .done result → v.callers = u.callers →
        v.Gives id ref next t.callers

theorem Kept.batchAnswer (h : t.Kept id) {key : κ} {answer : Except ε (Option α)}
    (ha : t.known id key = some answer) : t.BatchAnswer id key answer := by
  obtain ⟨keys, loaded, hm, hkey, rfl⟩ := (h.known_eq key answer).1 ha
  refine ⟨keys, ?_, loaded, mem_loads.1 hm, hkey, rfl⟩
  have hdone : (t.loads id).map Prod.fst ++ t.loading id = t.batches id := h.sound.done
  rw [← hdone]
  exact List.mem_append_left _ (List.mem_map.2 ⟨_, hm, rfl⟩)

/-- A run of the queue ends when no job is left. -/
theorem jobs_of_ran (hn : t.next? = some t') (he : t'.events = t.events ++ [Event.ran]) :
    ∃ result next callers, t.script = .done result ∧ t.callers = .queue next :: callers ∧
      t.store.queue.jobs = [] ∧ t'.store.source id = t.store.source id := by
  cases step_of_next? hn with
  | leave hjobs => exact ⟨_, _, _, rfl, rfl, hjobs, rfl⟩
  | _ => simp at he

theorem Kept.batched (hk : t.Kept id) (h : t.Lent id) : t.Batched id where
  nodup := (List.nodup_append.1 hk.sound.nodup).1
  order := ⟨_, hk.sound.once⟩
  waits key hkey hnot := by
    have hm : key ∈ (t.batches id).flatten ++ (t.store.source id).pending := by
      refine hk.sound.once ▸ ?_
      exact List.mem_eraseDups.2 hkey
    have hpending := (List.mem_append.1 hm).resolve_left hnot
    exact ⟨hpending, hk.sound.ahead (hk.sound.scheduled (List.ne_nil_of_mem hpending))⟩
  drained t' hn he := by
    obtain ⟨result, next, callers, hs, hc, hjobs, hsource⟩ := jobs_of_ran hn he
    rw [hsource]
    exact hk.drained hs hc hjobs
  load missing key next hs hb := load_after hs hb
  loadMany missing keys next hs hb := loadMany_after hs hb
  answer before after missing key ref result he hkey hg := by
    have hl := Event.lends_answerTo he hkey
    obtain ⟨answer, ha, hresult⟩ := Script.reply_answerTo (h.gave hl hg)
    exact ⟨answer, hk.batchAnswer ha, hresult⟩
  answers before after missing keys ref result he hkeys hg := by
    have hl := Event.lends_answersTo he hkeys
    obtain ⟨values, hv, hresult⟩ := Script.reply_answersTo (h.gave hl hg)
    exact ⟨values, hv.imp fun _ _ => hk.batchAnswer, hresult⟩
  forced ref next thunk hs hl hloading := h.forced hk hs hl hloading

/-- Steps of which none calls back. -/
theorem runs_of_after {m : Nat} : ∀ {t t' : Thread α ε κ σ}, t.after m = some t' →
    (∀ k < m, ∀ u, t.after k = some u → ¬ u.CallsBack id) → Runs id t t' := by
  induction m with
  | zero =>
    intro t t' h _
    cases h
    exact .refl
  | succ m ih =>
    intro t t' h hq
    obtain ⟨u, hu, h⟩ := Option.bind_eq_some_iff.1 h
    refine .head ⟨hq 0 (Nat.succ_pos m) t rfl, hu⟩ (ih h fun k hk v hv => ?_)
    exact hq (k + 1) (Nat.succ_lt_succ hk) v ((after_succ hu k).trans hv)

/-- The runs of a script are those of its thread; at every point of them up to which the loader of a
source has not called back into the source, every key is loaded once and every lazy is answered from
that load. -/
theorem runs_batched (id : SourceId) (script : Script α ε κ σ) (state : σ) :
    (∀ result s, (∃ n, script.runFor n (.fresh state) = .ok result s) ↔
      ∃ m events, (start script state).after m = some ⟨.done result, [], s, events⟩) ∧
    ∀ m t, (start script state).after m = some t →
      (∀ k < m, ∀ u, (start script state).after k = some u → ¬ u.CallsBack id) → t.Batched id := by
  refine ⟨fun result s => script.runFor_iff state result s, fun m t h hq => ?_⟩
  have hr := runs_of_after h hq
  have hk := (kept_start script state).runs hr
  exact hk.batched ((lent_start script state).runs (kept_start script state) hr)

end Thread

/-! Squares of numbers: lazies are forced between requests, and from a job. -/

namespace Squares

/-- There is no square of zero, and there are none in a batch with thirteen. -/
def squares (keys : List Nat) : Loaded Nat Nat String :=
  if 13 ∈ keys then .error "unlucky"
  else .ok ((keys.filter (· ≠ 0)).map fun key => (key, key * key))

/-- The loader keeps its batches. -/
def script : Script Nat String Nat (List (List Nat)) :=
  .source 0 (fun keys => .read fun batches => .write (batches ++ [keys]) .nothing)
    (fun keys _ => squares keys) fun _ =>
  .load 0 0 2 fun two =>
  .loadMany 0 0 [2, 0, 3] fun several =>
  .force several fun _ =>
  .load 0 0 13 fun _ =>
  .job (.load 0 0 4 fun four => .force four .done) <|
  .run <|
  .force two .done

end Squares

theorem Thread.runs_batched_squares :
    ∃ t, (start Squares.script []).after 41 = some t ∧ t.Batched 0 ∧
      t.batches 0 = [[2, 0, 3], [13], [4]] ∧ t.store.state = [[2, 0, 3], [13], [4]] := by
  obtain ⟨t, ht⟩ : ∃ t, (start Squares.script []).after 41 = some t :=
    Option.isSome_iff_exists.1 (by decide +kernel)
  have hquiet : ∀ k < 41, ((start Squares.script []).after k).all
      (fun u => !decide (u.CallsBack 0)) = true := by
    decide +kernel
  have hbatches : ((start Squares.script []).after 41).map (fun t => (t.batches 0, t.store.state)) =
      some ([[2, 0, 3], [13], [4]], [[2, 0, 3], [13], [4]]) := by
    decide +kernel
  rw [ht, Option.map_some, Option.some.injEq, Prod.mk.injEq] at hbatches
  refine ⟨t, ht, (runs_batched 0 Squares.script []).2 41 t ht fun k hk u hu => ?_, hbatches⟩
  simpa [hu] using hquiet k hk

end GraphQL.Deferred
