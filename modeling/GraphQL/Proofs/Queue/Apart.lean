import GraphQL.Proofs.Queue.Serial

/-!
# Calls inside of calls

A host that runs the queue from inside of a call has other queries begin there, but never the one
that it is called for: what a query has to show for itself is not touched while it takes a part of
its run (`Multiplex.query_ne_of_mem_around`).
-/

namespace GraphQL

variable {ρ L J W : Type}

open Shared

namespace Moment

/-- The moment is in no other call for its query. -/
def Apart (moment : Moment L) : Prop :=
  ∀ call ∈ moment.around, call.query ≠ moment.site.query

end Moment

namespace Shared

/-- No query is to begin twice, or from inside of its own calls, and no wave is to come. -/
structure Apart (v : Shared L J W) : Prop where
  waves : v.NoWaves
  once : ∀ query, v.queue.countP (QueuedJob.begins query) ≤ 1
  calls : ∀ call ∈ v.calls, v.queue.countP (QueuedJob.begins call.query) = 0

/-- Nothing is to begin that was not to before. -/
structure Fewer (v v' : Shared L J W) : Prop where
  calls : v'.calls = v.calls
  begins : ∀ query, v'.queue.countP (QueuedJob.begins query) ≤
    v.queue.countP (QueuedJob.begins query)

/-- Queries are kept apart. -/
structure Parts (v v' : Shared L J W) : Prop extends Fewer v v' where
  waves : v.NoWaves → v'.NoWaves
  apart : v.Apart → Records Moment.Apart v v'

section

variable {v v₁ v' : Shared L J W}

theorem Fewer.refl (v : Shared L J W) : Fewer v v :=
  ⟨rfl, fun _ => Nat.le_refl _⟩

theorem Fewer.trans (h : Fewer v v₁) (h' : Fewer v₁ v') : Fewer v v' :=
  ⟨h'.calls.trans h.calls, fun query => Nat.le_trans (h'.begins query) (h.begins query)⟩

end

namespace Parts

variable {query : Nat} {inWave : Bool} {v v₁ v' : Shared L J W}

theorem after (h : Parts v v') (hv : v.Apart) : v'.Apart where
  waves := h.waves hv.waves
  once query := Nat.le_trans (h.begins query) (hv.once query)
  calls call hcall := Nat.le_zero.1 (hv.calls call (h.calls ▸ hcall) ▸ h.begins call.query)

theorem of_quiet (h : Fewer v v') (hrecord : v'.record = v.record) (hwaves : v.NoWaves → v'.NoWaves) :
    Parts v v' :=
  ⟨h, hwaves, fun _ => .of_quiet hrecord⟩

theorem refl (v : Shared L J W) : Parts v v :=
  .of_quiet (.refl v) rfl id

theorem trans (h : Parts v v₁) (h' : Parts v₁ v') : Parts v v' where
  toFewer := h.toFewer.trans h'.toFewer
  waves := h'.waves ∘ h.waves
  apart hv := (h.apart hv).trans (h'.apart (h.after hv))

theorem lasts : Lasts (Parts : Shared L J W → Shared L J W → Prop) where
  refl := refl
  trans := trans
  write _ _ := .of_quiet ⟨rfl, fun _ => Nat.le_refl _⟩ rfl id
  append _ _ := .of_quiet ⟨rfl, fun _ => Nat.le_of_eq (countP_append rfl)⟩ rfl fun h => h.append rfl

theorem tail {job : QueuedJob J} {rest : List (QueuedJob J)} (hqueue : v.queue = job :: rest) :
    Parts v { v with queue := rest } := by
  refine .of_quiet ⟨rfl, fun query => ?_⟩ rfl fun h => h.tail hqueue
  rw [hqueue]
  exact (List.sublist_cons_self job rest).countP_le

/-- The calls of a query that is not to begin any more, and in none of whose calls this is. -/
theorem of_chain {calls : List (Call L)}
    (h : Chain (Called (fun v v' => Goes v v' ∧ Parts v v') query inWave) v calls v') :
    Fewer v v' ∧ (v.NoWaves → v'.NoWaves) ∧
    (v.Apart → v.queue.countP (QueuedJob.begins query) = 0 → (∀ call ∈ v.calls, call.query ≠ query) →
      Records Moment.Apart v v') := by
  induction h with
  | nil => exact ⟨.refl _, id, fun _ _ _ => .of_quiet rfl⟩
  | @cons v v₁ v' c calls hcall _ ih =>
    obtain ⟨u, ⟨-, hu⟩, rfl⟩ := hcall
    have hcalls : u.calls = c.site query inWave :: v.calls := hu.calls
    have hleft : (u.leave (c.site query inWave) c.outcome).calls = v.calls := by
      rw [Shared.leave, hcalls, List.tail_cons]
    obtain ⟨hfewer, hwaves, hrest⟩ := ih
    refine ⟨.trans ⟨hleft, hu.begins⟩ hfewer, fun hv => hwaves (hu.waves hv), fun hv hquery hne => ?_⟩
    have henter : (v.enter (c.site query inWave)).Apart :=
      ⟨hv.waves, hv.once, List.forall_mem_cons.2 ⟨hquery, hv.calls⟩⟩
    have hafter := hu.after henter
    have hleave : (u.leave (c.site query inWave) c.outcome).Apart := by
      refine ⟨hafter.waves, hafter.once, fun call hm => ?_⟩
      rw [hleft] at hm
      exact hafter.calls call (hcalls ▸ List.mem_cons_of_mem _ hm)
    refine (Records.enter hne).trans ((hu.apart henter).trans (.trans (.leave ?_) (hrest hleave ?_ ?_)))
    · rw [hcalls, List.tail_cons]
      exact hne
    · exact hafter.calls _ (hcalls ▸ List.mem_cons_self ..)
    · rw [hleft]
      exact hne

end Parts

end Shared

namespace Multiplex

variable {s : QueueSchema ρ L J W} {m : Multiplex} {fuel : Nat} {v v' : Shared L J W}

/-- What happens to what is shared while the queue is run keeps queries apart. -/
theorem kept_parts (s : QueueSchema ρ L J W) (m : Multiplex) (fuel : Nat) : Kept s m fuel Parts := by
  refine ⟨Parts.lasts, fun v => .of_quiet ⟨rfl, fun _ => Nat.le_refl _⟩ rfl id, Parts.tail,
    fun {jobs v query rest} hd hqueue => ?_, fun {jobs v rest} hd hqueue => ?_⟩
  · have htail : Parts v { v with queue := rest } := Parts.tail hqueue
    have htook := took_begin Parts.lasts hd query { v with queue := rest }
    generalize beginJob s m fuel (drainQueue s m fuel jobs) query { v with queue := rest } = v' at htook
    cases htook with
    | nothing => exact htail
    | @part v₁ calls halt run _ hchain _ =>
      obtain ⟨hfewer, hwaves, hrecord⟩ := Parts.of_chain hchain
      refine ⟨⟨hfewer.calls, (htail.toFewer.trans hfewer).begins⟩, hwaves ∘ htail.waves,
        fun hv => hrecord (htail.after hv) ?_ ?_⟩
      · have hone := hv.once query
        rw [hqueue, List.countP_cons_of_pos (by simp [QueuedJob.begins])] at hone
        exact Nat.le_zero.1 (Nat.le_of_succ_le_succ hone)
      · rintro call hcall rfl
        have hzero := hv.calls call hcall
        simp [hqueue, QueuedJob.begins] at hzero
  · -- there is a wave to come, so that nothing has to be shown of the record
    have hwave : ¬ v.NoWaves := fun h => by cases h .wave (hqueue ▸ List.mem_cons_self ..)
    have htake : ∀ query v, Fewer v
        (takePart s m (drainQueue s m fuel jobs) (fun e _ => e.wave) true query v) := by
      intro query v
      have htook := took_wave Parts.lasts hd query v
      generalize takePart s m (drainQueue s m fuel jobs) (fun e _ => e.wave) true query v = v' at htook
      cases htook with
      | nothing => exact .refl v
      | part _ hchain _ =>
        have hfewer := (Parts.of_chain hchain).1
        exact ⟨hfewer.calls, hfewer.begins⟩
    obtain ⟨u, hu, he⟩ := waveJob_cases .refl .trans htake { v with queue := rest }
    have hfewer := (Parts.tail hqueue).toFewer.trans hu
    refine ⟨?_, fun h => absurd h hwave, fun h => absurd h.waves hwave⟩
    rcases he with he | he
    · exact he ▸ hfewer
    · exact he ▸ hfewer.trans ⟨rfl, fun _ => Nat.le_of_eq (countP_append rfl)⟩

theorem apart_queued (s : QueueSchema ρ L J W) (m : Multiplex) (w : W) : (queued s m w).Apart where
  waves := noWaves_queued s m w
  once query := by
    rw [countP_queued]
    split <;> decide
  calls := List.forall_mem_nil _

/-- No query is called from inside of a call of its own. -/
theorem query_ne_of_mem_around (s : QueueSchema ρ L J W) (m : Multiplex) (fuel jobs : Nat) (w : W) :
    ∀ moment ∈ (drained s m fuel jobs w).record, ∀ call ∈ moment.around,
      call.query ≠ moment.site.query := by
  have hbegun : ∀ moment ∈ (begun s m fuel jobs w).record, moment.Apart := by
    obtain ⟨new, hrecord, hnew⟩ := ((kept_parts s m fuel).drainQueue jobs _).apart (apart_queued s m w)
    replace hrecord : (begun s m fuel jobs w).record = new := hrecord
    rw [hrecord]
    exact hnew
  cases hhalt : (begun s m fuel jobs w).halt with
  | some halt =>
    obtain ⟨new, hrecord, -, hnone, -⟩ := (goes_drained s m fuel jobs w).record
    rw [hrecord, hnone (hhalt ▸ Option.some_ne_none halt), List.append_nil]
    exact hbegun
  | none =>
    obtain ⟨new, hrecord, hnew⟩ := inWave_drained hhalt
    rw [hrecord]
    refine List.forall_mem_append.2 ⟨hbegun, fun moment hm call hcall => ?_⟩
    rw [(hnew moment hm).2] at hcall
    cases hcall

end Multiplex

end GraphQL
