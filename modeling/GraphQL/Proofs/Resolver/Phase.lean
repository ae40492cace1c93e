import GraphQL.Proofs.Resolver.Jobs
import GraphQL.Proofs.Resolver.Steady

/-!
# Phases of sources

In a phase, sources are asked for keys and load none. The keys that are new wait in their sources,
and each source that has some has one flush ahead; when the flushes run, each of these sources loads
all of its keys with one call, and the next phase may come (`InPhase.flush`).
-/

namespace GraphQL

/-! ## What phases should log -/

namespace Phase

/-- The keys that are asked for and were not before, in the order in which they are. -/
def fresh (past : List Event) (asks : List Ask) : List Ask :=
  (asks.filter fun a => .asked a ∉ past).eraseDups

def kinds (new : List Ask) : List SourceKind :=
  (new.map Prod.fst).eraseDups

def keys (new : List Ask) (kind : SourceKind) : List String :=
  (new.filter fun a => a.1 = kind).map Prod.snd

/-- One call for each source, with all of its keys. -/
def loads (new : List Ask) : List Event :=
  (kinds new).map fun kind => .loaded kind (keys new kind)

/-- The flushes in which that is done. -/
def flushes (new : List Ask) : List (Job × List Event) :=
  (kinds new).map fun kind => (.flush kind, [.loaded kind (keys new kind)])

/-- The log of phases. In each there are jobs that ask for keys, and then the flushes of those that
are new. -/
def log (past : List Event) : List (List (Job × List Ask)) → List (Job × List Event)
  | [] => []
  | jobs :: rest =>
    let asks := jobs.flatMap Prod.snd
    jobs.map (Prod.map id (List.map .asked)) ++ flushes (fresh past asks) ++
      log (past ++ asks.map .asked ++ loads (fresh past asks)) rest

theorem log_cons {jobs : List Job} {asks : List (List Ask)} (h : asks.length = jobs.length)
    (past : List Event) (rest : List (List (Job × List Ask))) : log past (jobs.zip asks :: rest) =
      jobs.zip (asks.map (List.map .asked)) ++ flushes (fresh past asks.flatten) ++
        log (past ++ asks.flatten.map .asked ++ loads (fresh past asks.flatten)) rest := by
  have hasks : (jobs.zip asks).flatMap Prod.snd = asks.flatten := by
    rw [List.flatMap_def, List.map_snd_zip (Nat.le_of_eq h)]
  rw [log, hasks, List.zip_map_right]

/-! ## One more key -/

/-- The new keys when one more is asked for. -/
def add (past : List Event) (new : List Ask) (a : Ask) : List Ask :=
  if .asked a ∈ past ∨ a ∈ new then new else new ++ [a]

theorem add_known {past : List Event} {new : List Ask} {a : Ask} (h : .asked a ∈ past ∨ a ∈ new) :
    add past new a = new :=
  if_pos h

theorem add_new {past : List Event} {new : List Ask} {a : Ask} (hp : .asked a ∉ past)
    (hn : a ∉ new) :
    add past new a = new ++ [a] :=
  if_neg (not_or.2 ⟨hp, hn⟩)

theorem nodup_kinds (new : List Ask) : (kinds new).Nodup :=
  nodup_eraseDups _

variable {past : List Event} {asks new : List Ask} {kind : SourceKind} {key : String}

theorem mem_fresh {a : Ask} : a ∈ fresh past asks ↔ a ∈ asks ∧ .asked a ∉ past := by
  simp [fresh]

theorem fresh_concat (past : List Event) (asks : List Ask) (a : Ask) :
    fresh past (asks ++ [a]) = add past (fresh past asks) a := by
  by_cases hp : Event.asked a ∈ past
  · rw [add_known (.inl hp), fresh, List.filter_append]
    simp [hp, fresh]
  · have hfilter : (asks ++ [a]).filter (fun a => decide (Event.asked a ∉ past)) =
        asks.filter (fun a => decide (Event.asked a ∉ past)) ++ [a] := by
      simp [hp]
    rw [fresh, hfilter, eraseDups_concat]
    by_cases hn : a ∈ fresh past asks
    · rw [add_known (.inr hn), if_pos (List.mem_eraseDups.1 hn)]
      rfl
    · rw [add_new hp hn, if_neg (mt List.mem_eraseDups.2 hn)]
      rfl

theorem mem_keys : key ∈ keys new kind ↔ (kind, key) ∈ new := by
  simp [keys]

theorem mem_kinds : kind ∈ kinds new ↔ keys new kind ≠ [] := by
  simp only [kinds, List.mem_eraseDups, List.mem_map, ne_eq, keys, List.map_eq_nil_iff,
    List.filter_eq_nil_iff, decide_eq_true_eq, not_forall, not_not]
  constructor
  · rintro ⟨a, ha, rfl⟩
    exact ⟨a, ha, rfl⟩
  · rintro ⟨a, ha, h⟩
    exact ⟨a, ha, h⟩

theorem keys_concat (new : List Ask) (a : Ask) (kind : SourceKind) :
    keys (new ++ [a]) kind = if a.1 = kind then keys new kind ++ [a.2] else keys new kind := by
  unfold keys
  rw [List.filter_append]
  by_cases h : a.1 = kind
  · simp [h]
  · simp [h]

theorem kinds_concat (new : List Ask) (a : Ask) :
    kinds (new ++ [a]) = if a.1 ∈ kinds new then kinds new else kinds new ++ [a.1] := by
  simp only [kinds, List.map_append, List.map_cons, List.map_nil, eraseDups_concat,
    List.mem_eraseDups]

end Phase

/-! ## Sources in a phase -/

open Phase

/-- A source in a phase: the new keys wait in order, with a flush ahead when there are any, and it
is the keys of earlier phases that are answered. -/
structure Source.Tracks (s : Source String Json FieldError) (past : List Event) (new : List Ask)
    (kind : SourceKind) : Prop where
  pending : s.pending = keys new kind
  scheduled : s.scheduled = !s.pending.isEmpty
  answered : ∀ key, (s.answer? key).isSome = true ↔ .asked (kind, key) ∈ past

namespace Source.Tracks

variable {s : Source String Json FieldError} {past : List Event} {new : List Ask}
  {kind other : SourceKind}

theorem request (h : s.Tracks past new kind) (key : String) :
    (s.request key).Tracks past (Phase.add past new (kind, key)) kind := by
  unfold Source.request
  by_cases hp : Event.asked (kind, key) ∈ past
  · rw [if_pos ((h.answered key).2 hp), add_known (.inl hp)]
    exact h
  · rw [if_neg (mt (h.answered key).1 hp)]
    have hcontains : s.pending.contains key = true ↔ (kind, key) ∈ new := by
      rw [List.contains_iff_mem, h.pending, mem_keys]
    by_cases hn : (kind, key) ∈ new
    · have hmem : key ∈ s.pending := List.contains_iff_mem.1 (hcontains.2 hn)
      rw [add_known (.inr hn), if_pos (hcontains.2 hn)]
      exact ⟨h.pending, by simp [List.ne_nil_of_mem hmem], h.answered⟩
    · rw [add_new hp hn, if_neg (mt hcontains.1 hn)]
      refine ⟨?_, by simp, h.answered⟩
      rw [keys_concat, if_pos rfl, h.pending]

/-- Asking another source changes nothing. -/
theorem add (h : s.Tracks past new other) (hne : kind ≠ other) (key : String) :
    s.Tracks past (Phase.add past new (kind, key)) other := by
  unfold Phase.add
  split
  · exact h
  · exact ⟨by rw [keys_concat, if_neg hne]; exact h.pending, h.scheduled, h.answered⟩

/-- A flush is queued for the first new key of a source. -/
theorem needsFlush (h : s.Tracks past new kind) (key : String) :
    (if s.needsFlush key then kinds new ++ [kind] else kinds new) =
      kinds (Phase.add past new (kind, key)) := by
  unfold Source.needsFlush
  by_cases hp : Event.asked (kind, key) ∈ past
  · have hsome := (h.answered key).2 hp
    rw [add_known (.inl hp), if_neg]
    simp [Option.isSome_iff_ne_none.1 hsome]
  · have hnone : (s.answer? key).isNone = true := by
      simpa using mt (h.answered key).1 hp
    have hscheduled : s.scheduled = true ↔ kind ∈ kinds new := by
      rw [mem_kinds, h.scheduled, h.pending]
      simp
    by_cases hn : (kind, key) ∈ new
    · have hk : kind ∈ kinds new := mem_kinds.2 (List.ne_nil_of_mem (mem_keys.2 hn))
      rw [add_known (.inr hn), if_neg (by simp [hscheduled.2 hk])]
    · rw [add_new hp hn, kinds_concat, hnone]
      by_cases hk : kind ∈ kinds new
      · simp [hk, hscheduled.2 hk]
      · simp [hk, mt hscheduled.1 hk]

end Source.Tracks

/-! ## Worlds in a phase -/

/-- A world in a phase. -/
structure InPhase (past : List Event) (asks : List Ask) (r : Recorded) : Prop where
  events : r.events = past ++ asks.map .asked
  opened : ∀ {a : Ask}, .asked a ∈ r.events → r.world.Opened a.1
  sources : ∀ {kind : SourceKind} {s : Supply}, r.world.supply? kind = some s →
    s.source.Tracks past (fresh past asks) kind
  flushes : r.world.flushes = kinds (fresh past asks)

namespace InPhase

variable {past : List Event} {asks : List Ask} {r : Recorded} {kind : SourceKind} {key : String}

theorem start : InPhase [] [] Recorded.fresh :=
  ⟨rfl, nofun, nofun, rfl⟩

/-- What happens away from sources makes no difference. -/
theorem of_supplies (h : InPhase past asks r) {w : World} (hs : w.supplies = r.world.supplies)
    (hf : w.flushes = r.world.flushes) : InPhase past asks { r with world := w } := by
  have hsupply := World.supply?_of_supplies hs
  refine ⟨h.events, fun ha => ?_, fun hs => h.sources (hsupply _ ▸ hs), hf.trans h.flushes⟩
  rw [World.Opened, hsupply]
  exact h.opened ha

theorem addSupply (h : InPhase past asks r) (kind : SourceKind) (loader : Loader) :
    InPhase past asks { r with world := r.world.addSupply ⟨kind, loader, .fresh⟩ } := by
  refine ⟨h.events, fun {a} ha => ?_, fun {other s} hs => ?_, ?_⟩
  · obtain ⟨s, hs⟩ := h.opened ha
    rw [World.Opened, World.supply?_addSupply]
    split
    · exact ⟨_, rfl⟩
    · exact ⟨s, hs⟩
  · rw [World.supply?_addSupply] at hs
    split at hs
    · next hnew =>
      -- no source was made before, so it was not asked for anything
      obtain ⟨hnone, rfl⟩ := hnew
      have hnot : ∀ key, Event.asked (kind, key) ∉ r.events := fun key ha => by
        obtain ⟨s, hs⟩ := h.opened ha
        simp [hs] at hnone
      rw [h.events] at hnot
      cases hs
      refine ⟨?_, rfl, fun key =>
        ⟨by rintro ⟨⟩, fun ha => absurd (List.mem_append_left _ ha) (hnot key)⟩⟩
      refine (List.eq_nil_iff_forall_not_mem.2 fun key hk => ?_).symm
      have hm := (mem_fresh.1 (mem_keys.1 hk)).1
      exact hnot key (List.mem_append_right _ (List.mem_map_of_mem hm))
    · exact h.sources hs
  · exact (World.flushes_addSupply ..).trans h.flushes

theorem request (h : InPhase past asks r) (ho : r.world.Opened kind) (key : String) :
    InPhase past (asks ++ [(kind, key)]) (r.request kind key) := by
  obtain ⟨s0, hs0⟩ := ho
  have htracks := h.sources hs0
  have hopened : ∀ {other}, r.world.Opened other → (r.world.request kind key).Opened other := by
    rintro other ⟨s, hs⟩
    exact ⟨_, by rw [World.supply?_request, hs]; rfl⟩
  refine ⟨by simp [Recorded.request, h.events], fun {a} ha => ?_, fun {other s} hs => ?_, ?_⟩
  · rcases List.mem_append.1 ha with ha | ha
    · exact hopened (h.opened ha)
    · cases List.mem_singleton.1 ha
      exact hopened ⟨s0, hs0⟩
  · rw [Recorded.world_request, World.supply?_request] at hs
    obtain ⟨s1, hs1, rfl⟩ := Option.map_eq_some_iff.1 hs
    rw [fresh_concat]
    by_cases hk : s1.kind = kind
    · have hother : other = kind := (World.kind_of_supply? hs1).symm.trans hk
      subst hother
      simp only [if_pos hk]
      exact (h.sources hs1).request key
    · simp only [if_neg hk]
      exact (h.sources hs1).add (fun he => hk ((World.kind_of_supply? hs1).trans he.symm)) key
  · rw [fresh_concat, ← htracks.needsFlush key, ← h.flushes, ← World.source_of_supply? hs0]
    exact World.flushes_request ..

/-- A key of an earlier phase has its answer. -/
theorem awaited (h : InPhase past asks r) (ha : .asked (kind, key) ∈ past) :
    r.awaited kind key = r := by
  have hevent : Event.asked (kind, key) ∈ r.events := by
    rw [h.events]
    exact List.mem_append_left _ ha
  obtain ⟨s, hs⟩ := h.opened hevent
  unfold Recorded.awaited
  rw [World.source_of_supply? hs, if_pos (((h.sources hs).answered key).2 ha)]

/-- Sources with keys that wait load them, one after the other. -/
theorem foldl_sync (keys : SourceKind → List String) {kinds : List SourceKind}
    (hnodup : kinds.Nodup) : ∀ {r : Recorded}, (∀ kind ∈ kinds, ∃ s, r.world.supply? kind = some s ∧
        s.source.pending = keys kind ∧ keys kind ≠ []) →
      Loop.flushes kinds r = kinds.map (fun kind => (.flush kind, [.loaded kind (keys kind)])) ∧
        (kinds.foldl Recorded.sync r).events =
          r.events ++ kinds.map (fun kind => .loaded kind (keys kind)) ∧
        ∀ other, (kinds.foldl Recorded.sync r).world.supply? other =
          (r.world.supply? other).map fun s => if other ∈ kinds then s.synced else s := by
  induction kinds with
  | nil => exact fun _ => ⟨rfl, by simp, fun other => by simp⟩
  | cons kind kinds ih =>
    intro r hkinds
    obtain ⟨hnot, hnodup⟩ := List.nodup_cons.1 hnodup
    obtain ⟨s, hs, hpending, hne⟩ := hkinds kind (List.mem_cons_self ..)
    have hevents : (r.sync kind).events = r.events ++ [Event.loaded kind (keys kind)] := by
      simp [Recorded.sync, hs, hpending, hne]
    have hrest : ∀ other ∈ kinds, ∃ s, (r.sync kind).world.supply? other = some s ∧
        s.source.pending = keys other ∧ keys other ≠ [] := by
      intro other hm
      obtain ⟨s', hs', hp', hne'⟩ := hkinds other (List.mem_cons_of_mem _ hm)
      refine ⟨s', ?_, hp', hne'⟩
      have hk : s'.kind ≠ kind := by
        rw [World.kind_of_supply? hs']
        exact ne_of_mem_of_not_mem hm hnot
      rw [Recorded.world_sync, World.supply?_sync, hs', Option.map_some, if_neg hk]
    obtain ⟨hlog, hloaded, hsupply⟩ := ih hnodup hrest
    refine ⟨?_, ?_, fun other => ?_⟩
    · rw [Loop.flushes, hlog, hevents, List.drop_left, List.map_cons]
    · rw [List.foldl_cons, hloaded, hevents]
      simp
    · rw [List.foldl_cons, hsupply, Recorded.world_sync, World.supply?_sync, Option.map_map]
      cases ho : r.world.supply? other with
      | none => rfl
      | some s' =>
        have hk := World.kind_of_supply? ho
        by_cases he : other = kind
        · subst he
          simp [hk, hnot]
        · simp [hk, he]

/-- The flushes of a phase: one for each source that was asked for new keys. -/
theorem flush_sources (h : InPhase past asks r) :
    Loop.flushes r.world.flushes r.idle = Phase.flushes (fresh past asks) ∧
      r.flush.events = r.events ++ loads (fresh past asks) ∧
      ∀ other, r.flush.world.supply? other = (r.world.supply? other).map fun s =>
        if other ∈ kinds (fresh past asks) then s.synced else s := by
  rw [Recorded.flush_eq, h.flushes]
  refine foldl_sync (keys (fresh past asks)) (nodup_kinds _) fun kind hk => ?_
  have hne := mem_kinds.1 hk
  obtain ⟨key, hkey⟩ := List.exists_mem_of_ne_nil _ hne
  have hevent : Event.asked (kind, key) ∈ r.events := by
    rw [h.events]
    exact List.mem_append_right _ (List.mem_map_of_mem (mem_fresh.1 (mem_keys.1 hkey)).1)
  obtain ⟨s, hs⟩ := h.opened hevent
  exact ⟨s, hs, (h.sources hs).pending, hne⟩

/-- When the phase is over, each source that was asked for new keys has loaded them with one call,
and another phase may come. -/
theorem flush (h : InPhase past asks r) :
    InPhase (r.events ++ loads (fresh past asks)) [] r.flush := by
  obtain ⟨-, hevents, hsupply⟩ := h.flush_sources
  have hasked : ∀ a : Ask, Event.asked a ∈ r.events ++ loads (fresh past asks) ↔
      .asked a ∈ r.events := by
    intro a
    simp [loads]
  constructor
  · simp [hevents]
  · intro a ha
    rw [hevents, hasked] at ha
    obtain ⟨s, hs⟩ := h.opened ha
    exact ⟨_, by rw [hsupply, hs]; rfl⟩
  · intro kind s hs
    rw [hsupply] at hs
    obtain ⟨s0, hs0, rfl⟩ := Option.map_eq_some_iff.1 hs
    have htracks := h.sources hs0
    have hknown : ∀ key, Event.asked (kind, key) ∈ r.events ++ loads (fresh past asks) ↔
        Event.asked (kind, key) ∈ past ∨ (kind, key) ∈ fresh past asks := by
      intro key
      rw [hasked, h.events]
      by_cases hp : Event.asked (kind, key) ∈ past <;> simp [mem_fresh, hp]
    by_cases hk : kind ∈ kinds (fresh past asks)
    · have hne : s0.source.pending.isEmpty = false := by
        rw [htracks.pending]
        simpa using mem_kinds.1 hk
      simp only [if_pos hk, Supply.synced, hne]
      refine ⟨rfl, rfl, fun key => ?_⟩
      rw [hknown, ← htracks.answered, ← mem_keys, ← htracks.pending]
      show (Source.answer? (Source.store _ _ _) key).isSome = true ↔ _
      rw [Source.answer?_store]
      split
      · next hm => simp [hm]
      · next hm =>
        simp only [hm, or_false]
        rfl
    · have hempty : keys (fresh past asks) kind = [] := by simpa using mt mem_kinds.2 hk
      have hnot : ∀ key, (kind, key) ∉ fresh past asks := fun key hm => by
        simpa [hempty] using mem_keys.2 hm
      simp only [if_neg hk]
      exact ⟨htracks.pending.trans hempty, htracks.scheduled, fun key => by
        simp [hknown, htracks.answered, hnot]⟩
  · exact r.flushes_flush

end InPhase

end GraphQL
