import GraphQL.Source
import Mathlib.Data.List.Induction

/-!
# What sources know

A source that was asked for a key has its answer or has the key pending; a key that it has loaded
has the answer of that load.
-/

namespace GraphQL

/-! ## The order of first occurrence -/

theorem eraseDups_concat {α : Type} [BEq α] [LawfulBEq α] (l : List α) (a : α) :
    (l ++ [a]).eraseDups = if a ∈ l then l.eraseDups else l.eraseDups ++ [a] := by
  rw [List.eraseDups_append]
  by_cases h : a ∈ l
  · simp [List.removeAll, h]
  · simp [List.removeAll, h, List.eraseDups_cons]

theorem nodup_eraseDups {α : Type} [BEq α] [LawfulBEq α] (l : List α) : l.eraseDups.Nodup := by
  induction l using List.reverseRecOn with
  | nil => exact List.nodup_nil
  | append_singleton l a ih =>
    rw [eraseDups_concat]
    split
    · exact ih
    · next h =>
      rw [List.nodup_append]
      refine ⟨ih, by simp, fun b hb c hc hbc => h ?_⟩
      rw [← List.mem_singleton.1 hc, ← hbc]
      exact List.mem_eraseDups.1 hb

/-! ## Answers and pending keys -/

namespace Source

variable {κ α ε : Type} [DecidableEq κ]

/-- A key that was asked for has an answer or waits for one. -/
def Asked (s : Source κ α ε) (key : κ) : Prop :=
  (s.answer? key).isSome = true ∨ key ∈ s.pending

theorem find?_map_append {β : Type} (f : κ → β) (keys : List κ) (rest : List (κ × β)) (key : κ) :
    find? (keys.map (fun key => (key, f key)) ++ rest) key =
      if key ∈ keys then some (f key) else find? rest key := by
  induction keys with
  | nil => rfl
  | cons k keys ih =>
    simp only [List.map_cons, List.cons_append, find?, List.mem_cons]
    by_cases hk : k = key
    · subst hk
      simp
    · rw [if_neg hk, ih]
      simp [Ne.symm hk]

theorem answer?_store (s : Source κ α ε) (keys : List κ) (loaded : Loaded κ α ε) (key : κ) :
    (s.store keys loaded).answer? key =
      if key ∈ keys then some (answerOf loaded key) else s.answer? key :=
  find?_map_append _ keys s.answers key

theorem answer?_request (s : Source κ α ε) (key other : κ) :
    (s.request key).answer? other = s.answer? other := by
  unfold request
  split <;> rfl

theorem asked_request (s : Source κ α ε) (key : κ) : (s.request key).Asked key := by
  unfold request
  split
  · next h => exact .inl h
  · refine .inr ?_
    simp only
    split
    · next h => simpa using h
    · simp

theorem Asked.request {s : Source κ α ε} {key : κ} (h : s.Asked key) (other : κ) :
    (s.request other).Asked key := by
  rcases h with h | h
  · exact .inl (by rw [answer?_request]; exact h)
  · unfold Source.request
    split
    · exact .inr h
    · refine .inr ?_
      simp only
      split
      · exact h
      · exact List.mem_append_left _ h

theorem Asked.store {s : Source κ α ε} {key : κ} (h : s.Asked key) (loaded : Loaded κ α ε) :
    (s.taken.store s.pending loaded).Asked key := by
  refine .inl ?_
  rw [answer?_store]
  split
  · rfl
  · next hm => exact h.resolve_right hm

end Source

end GraphQL
