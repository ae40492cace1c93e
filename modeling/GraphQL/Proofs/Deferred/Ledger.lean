import GraphQL.Proofs.Source

/-!
# Ledgers of sources

What concerns one source is kept in a ledger: the keys that it was asked for, the batches that its
loader was called with, what they came to, and what waits. `Ledger.Moves` says what can happen to
it as long as the loader does not call back, and `Ledger.Sound` is what all of that keeps: every key
that was asked for is in one batch or waits, in the order of first asking; what has an answer has
that of its batch; while keys wait, their flush is ahead.
-/

namespace GraphQL.Deferred

variable {α ε κ : Type}

/-- What concerns one source: the keys that it was asked for, the batches that its loader was called
with, those that it is busy with, those that it is done with, and whether there is a flush ahead
that will see to what waits. -/
structure Ledger (α ε κ : Type) where
  source : Source κ α ε
  asks : List κ
  batches : List (List κ)
  loading : List (List κ)
  loads : List (List κ × Loaded κ α ε)
  ahead : Prop

namespace Ledger

variable [DecidableEq κ]

/-- What a step can do. No key is asked for while the loader is busy. -/
inductive Moves (l : Ledger α ε κ) : Ledger α ε κ → Prop where
  | idle {ahead : Prop} : (l.ahead → ahead) → Moves l { l with ahead := ahead }
  | ask {ahead : Prop} (key : κ) : l.loading = [] → (l.ahead → ahead) →
      (l.source.needsFlush key = true → ahead) →
      Moves l { l with source := l.source.request key, asks := l.asks ++ [key], ahead := ahead }
  | take {ahead : Prop} : l.source.pending = [] →
      Moves l { l with source := l.source.taken, ahead := ahead }
  | call {ahead : Prop} : l.source.pending ≠ [] →
      Moves l { l with
        source := l.source.taken
        batches := l.batches ++ [l.source.pending]
        loading := l.source.pending :: l.loading
        ahead := ahead }
  | load {ahead : Prop} {keys : List κ} {rest : List (List κ)} (loaded : Loaded κ α ε) :
      l.loading = keys :: rest → (l.ahead → ahead) →
      Moves l { l with
        source := l.source.store keys loaded
        loading := rest
        loads := l.loads ++ [(keys, loaded)]
        ahead := ahead }

/-- The loader is only called when keys wait. -/
theorem Moves.loading {l l' : Ledger α ε κ} (h : l.Moves l') (hl : l'.loading ≠ []) :
    l.loading ≠ [] ∨ l.source.pending ≠ [] := by
  cases h with
  | call hp => exact .inr hp
  | load _ he _ => exact .inl (by rw [he]; exact nofun)
  | _ => exact .inl hl

theorem Moves.asks_subset {l l' : Ledger α ε κ} (h : l.Moves l') {key : κ} (hk : key ∈ l.asks) :
    key ∈ l'.asks := by
  cases h with
  | ask _ _ _ _ => exact List.mem_append_left _ hk
  | _ => exact hk

theorem Moves.loads_subset {l l' : Ledger α ε κ} (h : l.Moves l') {load : List κ × Loaded κ α ε}
    (hl : load ∈ l.loads) : load ∈ l'.loads := by
  cases h with
  | load _ _ _ => exact List.mem_append_left _ hl
  | _ => exact hl

/-- What steps keep. -/
structure Sound (l : Ledger α ε κ) : Prop where
  /-- Every key is in one batch or waits, in the order of first asking. -/
  once : l.batches.flatten ++ l.source.pending = l.asks.eraseDups
  /-- Loaders are not called within their own calls, and meanwhile no key waits. -/
  alone : l.loading = [] ∨ ∃ keys, l.loading = [keys] ∧ l.source.pending = []
  done : l.loads.map Prod.fst ++ l.loading = l.batches
  /-- A key has the answer of its batch. -/
  answers : ∀ key answer, l.source.answer? key = some answer ↔
    ∃ keys loaded, (keys, loaded) ∈ l.loads ∧ key ∈ keys ∧ answer = Source.answerOf loaded key
  scheduled : l.source.pending ≠ [] → l.source.scheduled = true
  ahead : l.source.scheduled = true → l.ahead

namespace Sound

variable {l l' : Ledger α ε κ} {key : κ}

theorem nodup (h : l.Sound) : (l.batches.flatten ++ l.source.pending).Nodup := by
  rw [h.once]
  exact nodup_eraseDups _

theorem isSome_answer? (h : l.Sound) :
    (l.source.answer? key).isSome = true ↔ key ∈ (l.loads.map Prod.fst).flatten := by
  rw [Option.isSome_iff_exists]
  constructor
  · rintro ⟨answer, ha⟩
    obtain ⟨keys, loaded, hm, hk, -⟩ := (h.answers key answer).1 ha
    exact List.mem_flatten.2 ⟨keys, List.mem_map.2 ⟨_, hm, rfl⟩, hk⟩
  · intro hm
    obtain ⟨keys, hkeys, hk⟩ := List.mem_flatten.1 hm
    obtain ⟨⟨_, loaded⟩, hl, rfl⟩ := List.mem_map.1 hkeys
    exact ⟨_, (h.answers key _).2 ⟨_, loaded, hl, hk, rfl⟩⟩

/-- While the loader is not busy, keys that were asked for have answers or wait. -/
theorem asked (h : l.Sound) (hl : l.loading = []) (hk : key ∈ l.asks) : l.source.Asked key := by
  have hmem : key ∈ l.batches.flatten ++ l.source.pending := by
    rw [h.once]
    exact List.mem_eraseDups.2 hk
  rcases List.mem_append.1 hmem with hm | hm
  · rw [← h.done, hl, List.append_nil] at hm
    exact .inl (h.isSome_answer?.2 hm)
  · exact .inr hm

theorem ask (h : l.Sound) {ahead : Prop} (key : κ) (hl : l.loading = []) (ha : l.ahead → ahead)
    (hf : l.source.needsFlush key = true → ahead) :
    Sound { l with source := l.source.request key, asks := l.asks ++ [key], ahead := ahead } := by
  have hbatches : l.loads.map Prod.fst = l.batches := by
    rw [← h.done, hl, List.append_nil]
  have hknown : key ∈ l.asks ↔ key ∈ l.batches.flatten ++ l.source.pending := by
    rw [h.once, List.mem_eraseDups]
  by_cases hs : (l.source.answer? key).isSome = true
  · have hrequest : l.source.request key = l.source := if_pos hs
    have hmem : key ∈ l.asks := by
      rw [hknown, ← hbatches]
      exact List.mem_append_left _ (h.isSome_answer?.1 hs)
    refine ⟨?_, ?_, h.done, ?_, ?_, ?_⟩
    · simp only [hrequest, eraseDups_concat, if_pos hmem]
      exact h.once
    · simp only [hrequest]
      exact h.alone
    · simp only [hrequest]
      exact h.answers
    · simp only [hrequest]
      exact h.scheduled
    · simp only [hrequest]
      exact fun hsch => ha (h.ahead hsch)
  · have hbatch : key ∉ l.batches.flatten := by
      rw [← hbatches]
      exact mt h.isSome_answer?.2 hs
    refine ⟨?_, .inl hl, h.done, ?_, ?_, ?_⟩
    · simp only [Source.request, if_neg hs, eraseDups_concat, hknown, List.mem_append, hbatch,
        false_or, List.contains_iff_mem]
      by_cases hp : key ∈ l.source.pending
      · simp only [if_pos hp]
        exact h.once
      · simp only [if_neg hp, ← h.once, List.append_assoc]
    · simp only [Source.answer?_request]
      exact h.answers
    · simp [Source.request, hs]
    · intro _
      by_cases hsch : l.source.scheduled = true
      · exact ha (h.ahead hsch)
      · exact hf (by simp [Source.needsFlush, hsch, Option.not_isSome_iff_eq_none.1 hs])

theorem load (h : l.Sound) {ahead : Prop} {keys : List κ} {rest : List (List κ)}
    (loaded : Loaded κ α ε) (hl : l.loading = keys :: rest) (ha : l.ahead → ahead) :
    Sound { l with
      source := l.source.store keys loaded
      loading := rest
      loads := l.loads ++ [(keys, loaded)]
      ahead := ahead } := by
  obtain ⟨rfl, hp⟩ : rest = [] ∧ l.source.pending = [] := by
    rcases h.alone with hnil | ⟨_, hone, hp⟩
    · rw [hnil] at hl
      cases hl
    · rw [hone] at hl
      cases hl
      exact ⟨rfl, hp⟩
  have hnodup : ((l.loads.map Prod.fst).flatten ++ keys).Nodup := by
    have hn := h.nodup
    rw [hp, List.append_nil, ← h.done, hl] at hn
    simpa using hn
  refine ⟨h.once, .inl rfl, ?_, fun key answer => ?_, h.scheduled, fun hs => ha (h.ahead hs)⟩
  · simp only [List.map_append, List.map_cons, List.map_nil, List.append_nil]
    rw [← h.done, hl]
  · simp only [Source.answer?_store, List.mem_append, List.mem_singleton]
    by_cases hk : key ∈ keys
    · -- no earlier batch has the key
      rw [if_pos hk]
      constructor
      · intro he
        cases he
        exact ⟨keys, loaded, .inr rfl, hk, rfl⟩
      · rintro ⟨other, result, hm | hm, hko, rfl⟩
        · refine absurd rfl ((List.nodup_append.1 hnodup).2.2 key ?_ key hk)
          exact List.mem_flatten.2 ⟨other, List.mem_map.2 ⟨_, hm, rfl⟩, hko⟩
        · cases hm
          rfl
    · rw [if_neg hk, h.answers]
      constructor
      · rintro ⟨other, result, hm, h⟩
        exact ⟨other, result, .inl hm, h⟩
      · rintro ⟨other, result, hm | hm, hko, h⟩
        · exact ⟨other, result, hm, hko, h⟩
        · cases hm
          exact absurd hko hk

theorem moves (h : l.Sound) (hm : l.Moves l') : l'.Sound := by
  cases hm with
  | idle ha => exact ⟨h.once, h.alone, h.done, h.answers, h.scheduled, fun hs => ha (h.ahead hs)⟩
  | ask key hl ha hf => exact h.ask key hl ha hf
  | take hp =>
    refine ⟨?_, ?_, h.done, h.answers, nofun, nofun⟩
    · have honce := h.once
      rw [hp] at honce
      exact honce
    · exact h.alone.imp id fun ⟨keys, hkeys, _⟩ => ⟨keys, hkeys, rfl⟩
  | call hp =>
    have hnil : l.loading = [] := h.alone.resolve_right fun ⟨_, _, hnone⟩ => hp hnone
    refine ⟨?_, .inr ⟨_, by rw [hnil], rfl⟩, ?_, h.answers, nofun, nofun⟩
    · simp only [List.flatten_append, List.flatten_cons, List.flatten_nil, List.append_nil,
        Source.taken]
      exact h.once
    · rw [← h.done, hnil]
      simp
  | load loaded hl ha => exact h.load loaded hl ha

end Sound

/-- No key waits when the loader comes back. -/
theorem Moves.pending_of_done {l l' : Ledger α ε κ} (hm : l.Moves l') (h : l.Sound)
    (hl : l.loading ≠ []) (hl' : l'.loading = []) : l'.source.pending = [] := by
  cases hm with
  | load _ _ _ =>
    rcases h.alone with hnil | ⟨_, _, hp⟩
    · exact absurd hnil hl
    · exact hp
  | call _ => cases hl'
  | _ => exact absurd hl' hl

end Ledger

end GraphQL.Deferred
