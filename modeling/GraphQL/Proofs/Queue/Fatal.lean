import GraphQL.Proofs.Queue.Record

/-!
# Failures that stop everything

Requests in a queue have no responses if and only if a call fails in a way that makes everything
meaningless, whichever query it is made for and whenever. It is the first such failure that they
come to. After it nothing is called in a wave, nor for a query that has not begun; a query goes on
only where the queue is being run in a call of its own that the failure is inside of
(`Multiplex.runQueued_fatal`). What nulls a value, and what refuses a query, does neither.
-/

namespace GraphQL

variable {ρ L J W : Type}

open Shared

namespace QueuedJob

def isBegin : QueuedJob J → Bool
  | begin _ => true
  | _ => false

def isWave : QueuedJob J → Bool
  | wave => true
  | _ => false

end QueuedJob

namespace Shared

/-- No query is to begin. -/
def NoBegins (v : Shared L J W) : Prop :=
  ∀ job ∈ v.queue, job.isBegin = false

/-- No wave is to come. -/
def NoWaves (v : Shared L J W) : Prop :=
  ∀ job ∈ v.queue, job.isWave = false

/-- Nothing is to be called. -/
def Rests (v : Shared L J W) : Prop :=
  v.NoBegins ∧ v.NoWaves

/-- All queries have begun, and one wave at most is to come. -/
def Waves (v : Shared L J W) : Prop :=
  v.NoBegins ∧ v.queue.countP QueuedJob.isWave ≤ 1 ∧ v.calls = []

variable {v : Shared L J W} {job : QueuedJob J} {jobs : List (QueuedJob J)}

theorem local_noBegins : Local (NoBegins : Shared L J W → Prop) :=
  fun _ _ hqueue _ _ h => by simpa only [NoBegins, hqueue] using h

theorem local_noWaves : Local (NoWaves : Shared L J W → Prop) :=
  fun _ _ hqueue _ _ h => by simpa only [NoWaves, hqueue] using h

theorem local_rests : Local (Rests : Shared L J W → Prop) :=
  fun v v' hqueue hruns hhalt => .imp (local_noBegins v v' hqueue hruns hhalt)
    (local_noWaves v v' hqueue hruns hhalt)

theorem NoBegins.append (h : v.NoBegins) (hjob : job.isBegin = false) : (v.append job).NoBegins :=
  List.forall_mem_append.2 ⟨h, List.forall_mem_singleton.2 hjob⟩

theorem NoWaves.append (h : v.NoWaves) (hjob : job.isWave = false) : (v.append job).NoWaves :=
  List.forall_mem_append.2 ⟨h, List.forall_mem_singleton.2 hjob⟩

theorem NoBegins.tail (h : v.NoBegins) (hqueue : v.queue = job :: jobs) :
    NoBegins { v with queue := jobs } :=
  fun other hm => h other (hqueue ▸ List.mem_cons_of_mem job hm)

theorem NoWaves.tail (h : v.NoWaves) (hqueue : v.queue = job :: jobs) :
    NoWaves { v with queue := jobs } :=
  fun other hm => h other (hqueue ▸ List.mem_cons_of_mem job hm)

end Shared

namespace Multiplex

variable {s : QueueSchema ρ L J W} {m : Multiplex} {fuel jobs : Nat} {v v' : Shared L J W}

/-- Nothing is called when no query is to begin and no wave is to come. -/
theorem kept_rests (s : QueueSchema ρ L J W) (m : Multiplex) (fuel : Nat) :
    Kept s m fuel (Preserves Rests fun _ => False) where
  toLasts := Preserves.lasts local_rests fun _ _ h => ⟨h.1.append rfl, h.2.append rfl⟩
  unfinished _ := .of_quiet rfl id
  host hqueue := .of_quiet rfl fun h => ⟨h.1.tail hqueue, h.2.tail hqueue⟩
  begin {jobs v query rest} _ hqueue h := by
    have hhead := h.1 (.begin query) (hqueue ▸ List.mem_cons_self ..)
    cases hhead
  wave {jobs v rest} _ hqueue h := by
    have hhead := h.2 .wave (hqueue ▸ List.mem_cons_self ..)
    cases hhead

/-- Nothing happens inside of the calls of a wave when nothing else is to be called. -/
theorem waveJob_rests (s : QueueSchema ρ L J W) (m : Multiplex) (fuel jobs : Nat)
    (v : Shared L J W) : ∃ u, Preserves (fun v : Shared L J W => v.Rests ∧ v.calls = [])
        (fun moment => moment.site.inWave = true ∧ moment.around = []) v u ∧
      (waveJob s m (drainQueue s m fuel jobs) v = u ∨
        waveJob s m (drainQueue s m fuel jobs) v = u.append .wave) := by
  refine waveJob_cases .refl .trans (fun query v hv => ?_) v
  have hrests := kept_rests s m fuel
  have htook := took_wave hrests.toLasts (hrests.drainQueue jobs) query v
  have hpreserves : Preserves Rests (fun moment => moment.site.inWave = true ∧ moment.around = []) v
      (takePart s m (drainQueue s m fuel jobs) (fun e _ => e.wave) true query v) :=
    htook.preserves (fun _ _ => .imp_right fun h => h.mono fun _ => False.elim) local_rests
      (fun _ _ => id) (fun _ => ⟨rfl, hv.2⟩) fun _ _ => ⟨rfl, hv.2⟩
  have hcalls := (htook.goes fun _ _ => And.left).calls
  exact (hpreserves hv.1).imp_left fun h => ⟨h, hcalls.trans hv.2⟩

/-- Once all queries have begun, calls are made in waves, and there are no others inside of them. -/
theorem kept_waves (s : QueueSchema ρ L J W) (m : Multiplex) (fuel : Nat) :
    Kept s m fuel (Preserves Waves fun moment => moment.site.inWave = true ∧ moment.around = []) := by
  have hlasts : Lasts (Preserves (Waves : Shared L J W → Prop) fun moment =>
      moment.site.inWave = true ∧ moment.around = []) := by
    refine ⟨.refl, .trans, fun v world => .of_quiet rfl id, fun v job => .of_quiet rfl fun h => ?_⟩
    exact ⟨h.1.append rfl, by simpa [Shared.append, QueuedJob.isWave] using h.2.1, h.2.2⟩
  refine ⟨hlasts, fun _ => .of_quiet rfl id, fun {v job rest} hqueue => .of_quiet rfl fun h => ?_,
    fun {jobs v query rest} _ hqueue h => ?_, fun {jobs v rest} hd hqueue h => ?_⟩
  · refine ⟨h.1.tail hqueue, ?_, h.2.2⟩
    simpa [hqueue, QueuedJob.isWave] using h.2.1
  · have hhead := h.1 (.begin query) (hqueue ▸ List.mem_cons_self ..)
    cases hhead
  · -- the wave was the only one, so that nothing can happen inside of its calls
    have hrest : NoWaves { v with queue := rest } := by
      have hcount := h.2.1
      rw [hqueue, List.countP_cons_of_pos rfl] at hcount
      have hnone := List.countP_eq_zero.1 (Nat.le_zero.1 (Nat.le_of_succ_le_succ hcount))
      exact fun job hm => Bool.eq_false_iff.2 (hnone job hm)
    obtain ⟨u, hu, he⟩ := waveJob_rests s m fuel jobs { v with queue := rest }
    obtain ⟨⟨hu, hcalls⟩, hrecord⟩ := hu ⟨⟨h.1.tail hqueue, hrest⟩, h.2.2⟩
    have hzero : u.queue.countP QueuedJob.isWave = 0 :=
      List.countP_eq_zero.2 fun job hm => Bool.eq_false_iff.1 (hu.2 job hm)
    rcases he with he | he
    · rw [he]
      exact ⟨⟨hu.1, by rw [hzero]; exact Nat.zero_le 1, hcalls⟩, hrecord⟩
    · rw [he]
      refine ⟨⟨hu.1.append rfl, ?_, hcalls⟩, hrecord⟩
      simp [Shared.append, hzero, QueuedJob.isWave]

end Multiplex

/-! ## Hosts that leave the running of the queue to others -/

theorem Activity.NoDrain.record {α : Type} {a : Activity J W α} (h : a.NoDrain)
    (drain : Shared L J W → Shared L J W) (v : Shared L J W) :
    (a.run drain v).2.record = v.record := by
  induction h generalizing v with
  | done => rfl
  | read _ ih => exact ih _ v
  | write _ ih => exact ih _
  | append _ ih => exact ih _
  | hasJobs _ ih => exact ih _ v

namespace Multiplex

variable {s : QueueSchema ρ L J W}

variable {m : Multiplex} {fuel jobs : Nat} {w : W}

theorem goes_begun (s : QueueSchema ρ L J W) (m : Multiplex) (fuel jobs : Nat) (w : W) :
    Goes (queued s m w) (begun s m fuel jobs w) :=
  (kept_goes s m fuel).drainQueue jobs _

theorem goes_drained (s : QueueSchema ρ L J W) (m : Multiplex) (fuel jobs : Nat) (w : W) :
    Goes (begun s m fuel jobs w) (drained s m fuel jobs w) :=
  (Goes.append _ .wave).trans ((kept_goes s m fuel).drainQueue jobs _)

theorem noWaves_queued (s : QueueSchema ρ L J W) (m : Multiplex) (w : W) : (queued s m w).NoWaves := by
  intro job hm
  obtain ⟨query, -, rfl⟩ := List.mem_map.1 hm
  rfl

/-- What is called once all queries have begun is called in a wave, and not inside of another call. -/
theorem inWave_drained (hbegun : (begun s m fuel jobs w).halt = none) : ∃ new,
    (drained s m fuel jobs w).record = (begun s m fuel jobs w).record ++ new ∧
      ∀ moment ∈ new, moment.site.inWave = true ∧ moment.around = [] := by
  have hqueue : (begun s m fuel jobs w).queue = [] :=
    (queue_drainQueue jobs _).resolve_right (not_not_intro hbegun)
  have hwaves : Waves ((begun s m fuel jobs w).append .wave) := by
    refine ⟨?_, ?_, (goes_begun s m fuel jobs w).calls⟩
    · simp [NoBegins, Shared.append, hqueue, QueuedJob.isBegin]
    · simp [Shared.append, hqueue, QueuedJob.isWave]
  exact ((kept_waves s m fuel).drainQueue jobs _ hwaves).2

end Multiplex

/-! A host that runs the queue for a field, from where another query fails. -/

namespace Draining

def host : QueueHost Unit Unit Empty Unit where
  resolve _ ctx entries := match ctx.name with
    | "flush" => .drain (.done (.ok (.leaf (.string "done")), entries))
    | "boom" => .done (.error (.internal "boom"), entries)
    | _ => .done (.ok (.later ()), entries)
  force _ := .done (.ok (.leaf .null))
  perform job := job.elim

def schema : QueueSchema Unit Unit Empty Unit where
  registry := ⟨[("String", .scalar (some .string)),
    ("Query", .object [] [("flush", ⟨none, [], .named "String" true, none⟩),
      ("boom", ⟨none, [], .named "String" true, none⟩),
      ("after", ⟨none, [], .named "String" true, none⟩)]),
    ("Mutation", .object [] [("flush", ⟨none, [], .named "String" true, none⟩),
      ("take", ⟨none, [], .named "String" false, none⟩)])], "Query", some "Mutation", none⟩
  host := host
  config := .default
  data := []

def queries : Multiplex :=
  .ofRequests [.ofQuery "\x7b flush after \x7d", .ofQuery "\x7b boom \x7d"]

end Draining

end GraphQL
