import GraphQL.Proofs.Queue.Jobs
import GraphQL.Proofs.Resolver.Jobs
import GraphQL.Resolver.Queue

/-!
# Jobs and phases

The requests of resolvers that leave the running of the queue to others go through phases: all of
them begin, then the flushes run that wait in the queue, then there is a wave through all, and so
on. What the jobs of the queue come to is what these phases come to (`Multiplex.runQueued_eq_run`).
-/

namespace GraphQL

open Shared

/-- The job of a host. -/
def QueuedJob.host? {J : Type} : QueuedJob J → Option J
  | host job => some job
  | _ => none

@[simp] theorem QueuedJob.filterMap_host? {J : Type} (jobs : List J) :
    (jobs.map QueuedJob.host).filterMap QueuedJob.host? = jobs := by
  rw [List.filterMap_map]
  exact List.filterMap_some

@[simp] theorem QueuedJob.filterMap_begin {J : Type} (queries : List Nat) :
    (queries.map begin).filterMap (host? : QueuedJob J → Option J) = [] := by
  simp [QueuedJob.host?]

@[simp] theorem QueuedJob.host?_begin {J : Type} (query : Nat) :
    (begin query : QueuedJob J).host? = none := rfl

@[simp] theorem QueuedJob.host?_wave {J : Type} : (wave : QueuedJob J).host? = none := rfl

namespace Shared

variable {v v₁ v' : Shared Resolution SourceKind World}

/-- The world, where the flushes wait that are in the queue. -/
def phased (v : Shared Resolution SourceKind World) : World :=
  { v.world with flushes := v.queue.filterMap QueuedJob.host? ++ v.world.flushes }

/-- What calls leave behind: more flushes wait in the queue, and none outside of it. -/
structure Hands (v v' : Shared Resolution SourceKind World) : Prop where
  runs : v'.runs = v.runs
  halt : v'.halt = v.halt
  queue : ∃ kinds : List SourceKind, v'.queue = v.queue ++ kinds.map .host
  flushes : v.world.flushes = [] → v'.world.flushes = []

theorem Hands.refl (v : Shared Resolution SourceKind World) : Hands v v :=
  ⟨rfl, rfl, ⟨[], (List.append_nil _).symm⟩, id⟩

theorem Hands.trans (h : Hands v v₁) (h' : Hands v₁ v') : Hands v v' := by
  obtain ⟨kinds, hqueue⟩ := h.queue
  obtain ⟨kinds', hqueue'⟩ := h'.queue
  refine ⟨h'.runs.trans h.runs, h'.halt.trans h.halt, ⟨kinds ++ kinds', ?_⟩, h'.flushes ∘ h.flushes⟩
  rw [hqueue', hqueue, List.map_append, List.append_assoc]

theorem Hands.of_chain {query : Nat} {inWave : Bool} {calls : List (Call Resolution)}
    (h : Chain (Called Hands query inWave) v calls v') : Hands v v' := by
  induction h with
  | nil => exact .refl _
  | cons hcall _ ih =>
    obtain ⟨u, hu, rfl⟩ := hcall
    exact .trans ⟨hu.runs, hu.halt, hu.queue, hu.flushes⟩ ⟨ih.runs, ih.halt, ih.queue, ih.flushes⟩

end Shared

/-! ## Resolvers -/

/-- Work comes to the same when more flushes wait. -/
theorem Resolution.run_behind (work : Resolution) (entries : Assoc Json) (w : World)
    (flushes : List SourceKind) : work.run entries { w with flushes := flushes ++ w.flushes } =
      ((work.run entries w).1, (work.run entries w).2.1, { (work.run entries w).2.2 with
        flushes := flushes ++ (work.run entries w).2.2.flushes }) := by
  have hbehind := work.run_eq_record entries ((Recorded.mk w []).behind flushes)
  rw [record_behind] at hbehind
  rw [work.run_eq_record entries ⟨w, []⟩]
  exact hbehind

namespace World

variable {α : Type} (middleware : List Middleware)
  (drain : Shared Resolution SourceKind World → Shared Resolution SourceKind World)

theorem flushes_foldl_sync (kinds : List SourceKind) (w : World) :
    (kinds.foldl sync w).flushes = w.flushes := by
  induction kinds generalizing w with
  | nil => rfl
  | cons kind kinds ih => exact (ih (w.sync kind)).trans (Recorded.flushes_sync ⟨w, []⟩ kind)

theorem flush_of_idle {w : World} (h : w.flushes = []) : w.flush = w := by
  rw [flush, h, List.foldl_nil, ← h]

theorem run_handOver (w : World) (next : Activity SourceKind World α)
    (v : Shared Resolution SourceKind World) : (w.handOver next).run drain v =
      next.run drain { v with
        world := { w with flushes := [] }, queue := v.queue ++ w.flushes.map .host } := by
  have happend : ∀ (kinds : List SourceKind) (next : Activity SourceKind World α) v,
      (kinds.foldr .append next).run drain v =
        next.run drain { v with queue := v.queue ++ kinds.map .host } := by
    intro kinds next
    induction kinds with
    | nil => simp
    | cons kind kinds ih =>
      intro v
      simp [Activity.run, ih, Shared.append]
  exact happend ..

theorem noDrain_handOver (w : World) {next : Activity SourceKind World α} (h : next.NoDrain) :
    (w.handOver next).NoDrain := by
  unfold handOver
  generalize w.flushes = kinds
  induction kinds with
  | nil => exact .write h
  | cons kind kinds ih => exact .append ih

theorem noDrain_queueHost : (queueHost middleware).NoDrain where
  resolve _ _ _ := .read fun _ => noDrain_handOver _ .done
  force _ := .read fun _ => noDrain_handOver _ .done

theorem hands_handOver (w : World) (result : α) (v : Shared Resolution SourceKind World) :
    Hands v ((w.handOver (.done result)).run drain v).2 := by
  rw [run_handOver]
  exact ⟨rfl, rfl, ⟨w.flushes, rfl⟩, fun _ => rfl⟩

theorem does_queueHost : (queueHost middleware).Does drain Hands where
  resolve _ _ _ _ := hands_handOver ..
  force _ _ := hands_handOver ..

/-- As a query calls it, the host of resolvers answers as it does without a queue. -/
theorem mimics_queueHost (query : Nat) (inWave : Bool) :
    ((queueHost middleware).at drain query inWave).Mimics (host middleware) Placed.lazy
      Shared.phased where
  resolve resolver ctx entries v := by
    have hrun := (resolution middleware resolver ctx).run_behind entries v.world
      (v.queue.filterMap QueuedJob.host?)
    have hplaced : ∀ outcome : Outcome Resolution,
        (outcome.placed ctx.path).mapLater Placed.lazy = outcome := Outcome.mapLater_placed ctx.path
    show (resolution middleware resolver ctx).run entries v.phased = _
    rw [Shared.phased, hrun]
    simp [QueueHost.at, queueHost, Activity.run, run_handOver, Shared.phased, Shared.leave,
      Shared.enter, hplaced, -List.filterMap_map]
  force lazy v := by
    have hrun := lazy.lazy.run_behind [] v.world (v.queue.filterMap QueuedJob.host?)
    have hplaced : ∀ outcome : Outcome Resolution,
        (outcome.placed lazy.path).mapLater Placed.lazy = outcome :=
      Outcome.mapLater_placed lazy.path
    show ((lazy.lazy.run [] v.phased).1, (lazy.lazy.run [] v.phased).2.2) = _
    rw [Shared.phased, hrun]
    simp [QueueHost.at, queueHost, Activity.run, run_handOver, Shared.phased, Shared.leave,
      Shared.enter, hplaced, -List.filterMap_map]

end World

/-! ## Jobs -/

namespace Shared

/-- A query has taken a part of its run, and come to a run and a world. -/
structure Advances (query : Nat) (run : QueryRun (Placed Resolution)) (halt : Option Halt) (w : World)
    (v v' : Shared Resolution SourceKind World) : Prop where
  runs : v'.runs = v.runs.set query run
  halt : v'.halt = halt
  queue : ∃ kinds : List SourceKind, v'.queue = v.queue ++ kinds.map .host
  phased : v'.phased = w
  flushes : v.world.flushes = [] → v'.world.flushes = []

/-- What there is between two phases: flushes wait in the queue, with `rest` behind them. -/
structure Phase (rest : List (QueuedJob SourceKind)) (halt : Option Halt)
    (runs : List (QueryRun Resolution)) (w : World) (v : Shared Resolution SourceKind World) :
    Prop where
  queue : ∃ kinds : List SourceKind, v.queue = kinds.map .host ++ rest
  halt : v.halt = halt
  runs : v.runs.map (QueryRun.mapLater Placed.lazy) = runs
  phased : v.phased = w
  flushes : v.world.flushes = []

end Shared

namespace Multiplex

variable {s : Schema Resolver Resolution World} {middleware : List Middleware} {m : Multiplex}
  {fuel n query : Nat} {inWave : Bool} {halt : Option Halt}
  {part' : Execution Resolver (Placed Resolution) (Shared Resolution SourceKind World) → Plan →
    Running (Placed Resolution) (Shared Resolution SourceKind World) Unit}
  {part : Execution Resolver Resolution World → Plan → Running Resolution World Unit}
  {v v₁ v' : Shared Resolution SourceKind World} {rest : List (QueuedJob SourceKind)}
  {runs : List (QueryRun Resolution)} {w w' : World}

/-- A part of a run is taken in a queue as it is without one. -/
structure PartsAgree (s : Schema Resolver Resolution World) (middleware : List Middleware)
    (m : Multiplex)
    (part' : Execution Resolver (Placed Resolution) (Shared Resolution SourceKind World) → Plan →
      Running (Placed Resolution) (Shared Resolution SourceKind World) Unit)
    (part : Execution Resolver Resolution World → Plan → Running Resolution World Unit)
    (inWave : Bool) : Prop where
  calls : PartsCall (s.inQueue middleware) m id Hands part' inWave
  mirror : ∀ query, PartsMirror Placed.lazy Shared.phased s
    ((World.queueHost middleware).at id query inWave) m part' part

theorem begin_agrees (hh : s.host = World.host middleware) (m : Multiplex) (fuel : Nat) :
    PartsAgree s middleware m (fun e plan => e.begin fuel plan) (fun e plan => e.begin fuel plan)
      false where
  calls := begin_calls (World.does_queueHost middleware id) m fuel
  mirror query := begin_mirror (hh ▸ World.mimics_queueHost middleware id query false) m fuel

theorem wave_agrees (hh : s.host = World.host middleware) (m : Multiplex) :
    PartsAgree s middleware m (fun e _ => e.wave) (fun e _ => e.wave) true where
  calls := wave_calls (World.does_queueHost middleware id) m
  mirror query := wave_mirror (hh ▸ World.mimics_queueHost middleware id query true) m

theorem hands_advance (hp : PartsAgree s middleware m part' part inWave) (query : Nat)
    (run : QueryRun (Placed Resolution)) (v : Shared Resolution SourceKind World) :
    Hands v (advance ((s.inQueue middleware).at id query inWave) m part' run v).2.2 := by
  cases run with
  | running run data p =>
    obtain ⟨r, p', v₁, calls, hr, hchain, -⟩ :=
      hp.calls query run data p v fun _ _ => ⟨trivial, trivial⟩
    rw [advance, hr]
    cases r <;> exact .of_chain hchain
  | _ => exact .refl v

/-- A query takes a part of its run in the queue. -/
theorem takePart_agrees (hp : PartsAgree s middleware m part' part inWave)
    {run : QueryRun (Placed Resolution)} {run₁ : QueryRun Resolution} (hv : v.halt = none)
    (hrun : v.runs[query]? = some run)
    (hr : advance s m part (run.mapLater Placed.lazy) v.phased = (halt, run₁, w')) :
    ∃ run', run'.mapLater Placed.lazy = run₁ ∧
      Advances query run' halt w' v (takePart (s.inQueue middleware) m id part' inWave query v) := by
  have hhands := hands_advance hp query run v
  have hmirror := advance_mirrors (hp.mirror query) run v
  rw [hr] at hmirror
  replace hmirror : (halt, run₁, w') =
    ((advance ((s.inQueue middleware).at id query inWave) m part' run v).1,
      (advance ((s.inQueue middleware).at id query inWave) m part' run v).2.1.mapLater Placed.lazy,
      (advance ((s.inQueue middleware).at id query inWave) m part' run v).2.2.phased) := hmirror
  rw [takePart, hv, hrun]
  simp only
  generalize advance ((s.inQueue middleware).at id query inWave) m part' run v = ran at hhands hmirror ⊢
  obtain ⟨halt', run', v₁⟩ := ran
  cases hmirror
  refine ⟨run', rfl, congrArg (List.set · query run') hhands.runs, ?_, hhands.queue, rfl, hhands.flushes⟩
  exact (congrArg (Option.or · halt') (hhands.halt.trans hv)).trans (Option.none_or ..)

/-- It does not matter to what a query does how the queue would be run. -/
theorem takePart_noDrain {ρ L J W : Type} {s : QueueSchema ρ L J W} (hs : s.host.NoDrain)
    {part : Execution ρ (Placed L) (Shared L J W) → Plan → Running (Placed L) (Shared L J W) Unit}
    (drain drain' : Shared L J W → Shared L J W) (query : Nat) (v : Shared L J W) :
    takePart s m drain part inWave query v = takePart s m drain' part inWave query v := by
  unfold takePart QueueSchema.at
  rw [hs.at_eq drain drain']

theorem waveJob_noDrain {ρ L J W : Type} {s : QueueSchema ρ L J W} (hs : s.host.NoDrain)
    (drain drain' : Shared L J W → Shared L J W) (v : Shared L J W) :
    waveJob s m drain v = waveJob s m drain' v := by
  unfold waveJob
  simp only [takePart_noDrain hs drain drain']

theorem foldl_takePart_halted {ρ L J W : Type} {s : QueueSchema ρ L J W}
    {drain : Shared L J W → Shared L J W}
    {part : Execution ρ (Placed L) (Shared L J W) → Plan → Running (Placed L) (Shared L J W) Unit}
    {v : Shared L J W} (hv : v.halt ≠ none) (queries : List Nat) :
    queries.foldl (fun v query => takePart s m drain part inWave query v) v = v := by
  induction queries with
  | nil => rfl
  | cons query queries ih => rw [List.foldl_cons, takePart_halted hv, ih]

theorem waveJob_halted {ρ L J W : Type} {s : QueueSchema ρ L J W}
    {drain : Shared L J W → Shared L J W} {v : Shared L J W} (hv : v.halt ≠ none) :
    waveJob s m drain v = v := by
  unfold waveJob
  rw [foldl_takePart_halted hv]
  simp [Option.isNone_eq_false_iff.2 (Option.isSome_iff_ne_none.2 hv)]

/-- The queries do not begin any more once something has stopped everything. -/
theorem drainQueue_halted {ρ L J W : Type} (s : QueueSchema ρ L J W) (m : Multiplex) (fuel n : Nat)
    (queries : List Nat) {rest : List (QueuedJob J)} {v : Shared L J W} (hv : v.halt ≠ none)
    (hqueue : v.queue = queries.map .begin ++ rest) :
    drainQueue s m fuel (queries.length + n) v = drainQueue s m fuel n { v with queue := rest } := by
  induction queries generalizing v with
  | nil =>
    rw [List.map_nil, List.nil_append] at hqueue
    rw [← hqueue, List.length_nil, Nat.zero_add]
  | cons query queries ih =>
    rw [List.length_cons, Nat.add_right_comm, drainQueue, hqueue]
    have hidle : beginJob s m fuel (drainQueue s m fuel (queries.length + n)) query
        { v with queue := queries.map .begin ++ rest } =
          { v with queue := queries.map .begin ++ rest } := takePart_halted hv
    simp only [List.map_cons, List.cons_append, performJob, hidle]
    exact ih hv rfl

/-- A query begins when it is its turn. -/
theorem drainQueue_begin (hh : s.host = World.host middleware) {run : QueryRun (Placed Resolution)}
    {run₁ : QueryRun Resolution} (hqueue : v.queue = .begin query :: rest) (hv : v.halt = none)
    (hrun : v.runs[query]? = some run)
    (hr : advance s m (fun e plan => e.begin fuel plan) (run.mapLater Placed.lazy) v.phased =
      (halt, run₁, w')) : ∃ run' v', run'.mapLater Placed.lazy = run₁ ∧
      Advances query run' halt w' { v with queue := rest } v' ∧
      ∀ n, drainQueue (s.inQueue middleware) m fuel (n + 1) v =
        drainQueue (s.inQueue middleware) m fuel n v' := by
  have hphased : v.phased = Shared.phased { v with queue := rest } := by
    simp [Shared.phased, hqueue, List.filterMap_cons]
  rw [hphased] at hr
  obtain ⟨run', hrun', hadvances⟩ := takePart_agrees (v := { v with queue := rest })
    (begin_agrees hh m fuel) hv hrun hr
  refine ⟨run', _, hrun', hadvances, fun n => ?_⟩
  rw [drainQueue, hqueue]
  simp only [performJob, beginJob]
  rw [takePart_noDrain (World.noDrain_queueHost middleware) _ id]

/-- The flushes that wait run one after the other. -/
theorem drainQueue_flushes (kinds : List SourceKind) (hqueue : v.queue = kinds.map .host ++ rest) :
    drainQueue (s.inQueue middleware) m fuel (kinds.length + n) v =
      drainQueue (s.inQueue middleware) m fuel n
        { v with queue := rest, world := kinds.foldl World.sync v.world } := by
  induction kinds generalizing v with
  | nil =>
    rw [List.map_nil, List.nil_append] at hqueue
    rw [← hqueue, List.length_nil, Nat.zero_add, List.foldl_nil]
  | cons kind kinds ih =>
    rw [List.length_cons, Nat.add_right_comm, drainQueue, hqueue]
    exact ih rfl

/-! ## Phases -/

/-- The queries begin one after the other, ahead of the flushes that they queue. -/
theorem phase_begins (hh : s.host = World.host middleware) (todo : List (QueryRun (Placed Resolution))) :
    ∀ (before : List (QueryRun (Placed Resolution))) (v : Shared Resolution SourceKind World)
      (kinds : List SourceKind) {halt : Option Halt} {runs : List (QueryRun Resolution)} {w' : World},
    v.queue = (List.range' before.length todo.length).map .begin ++ kinds.map .host →
    v.runs = before ++ todo → v.halt = none → v.world.flushes = [] →
    advanceAll s m (fun e plan => e.begin fuel plan) (todo.map (QueryRun.mapLater Placed.lazy))
      v.phased = (halt, runs, w') →
    ∃ v', (∀ n, drainQueue (s.inQueue middleware) m fuel (todo.length + n) v =
        drainQueue (s.inQueue middleware) m fuel n v') ∧
      Phase [] halt (before.map (QueryRun.mapLater Placed.lazy) ++ runs) w' v' := by
  induction todo with
  | nil =>
    intro before v kinds halt runs w' hqueue hruns hv hflushes h
    cases h
    refine ⟨v, fun n => by rw [List.length_nil, Nat.zero_add], ⟨kinds, ?_⟩, hv, ?_, rfl, hflushes⟩
    · simpa using hqueue
    · rw [hruns, List.append_nil, List.append_nil]
  | cons run todo ih =>
    intro before v kinds halt runs w' hqueue hruns hv hflushes h
    rw [List.length_cons, List.range'_succ, List.map_cons, List.cons_append] at hqueue
    have hrun : v.runs[before.length]? = some run := by simp [hruns]
    rw [List.map_cons, advanceAll] at h
    cases hr : advance s m (fun e plan => e.begin fuel plan) (run.mapLater Placed.lazy) v.phased with
    | mk halt₁ ended =>
    obtain ⟨run₁, w₁⟩ := ended
    obtain ⟨run', v₁, rfl, hadvances, hdrain⟩ := drainQueue_begin hh hqueue hv hrun hr
    obtain ⟨kinds', hkinds⟩ := hadvances.queue
    replace hkinds : v₁.queue = (List.range' (before.length + 1) todo.length).map .begin ++
        (kinds ++ kinds').map .host := by
      rw [hkinds, List.map_append, List.append_assoc]
    have hruns₁ : v₁.runs = before ++ run' :: todo := hadvances.runs.trans (by simp [hruns])
    have hflushes₁ := hadvances.flushes hflushes
    rw [hr] at h
    cases halt₁ with
    | some reason =>
      cases h
      refine ⟨{ v₁ with queue := (kinds ++ kinds').map .host }, fun n => ?_,
        ⟨kinds ++ kinds', (List.append_nil _).symm⟩, hadvances.halt, ?_, ?_, hflushes₁⟩
      · rw [List.length_cons, Nat.add_right_comm, hdrain]
        have hhalted := drainQueue_halted (s.inQueue middleware) m fuel n
          (List.range' (before.length + 1) todo.length) (hadvances.halt ▸ Option.some_ne_none reason)
          hkinds
        rwa [List.length_range'] at hhalted
      · simp [hruns₁]
      · rw [← hadvances.phased]
        simp [Shared.phased, hkinds]
    | none =>
      cases hrest : advanceAll s m (fun e plan => e.begin fuel plan)
        (todo.map (QueryRun.mapLater Placed.lazy)) w₁ with
      | mk halt₂ ended =>
      obtain ⟨runs₂, w₂⟩ := ended
      simp only [hrest] at h
      cases h
      obtain ⟨v', hdrain', hphase⟩ := ih (before ++ [run']) v₁ (kinds ++ kinds')
        (by simpa using hkinds) (by simpa using hruns₁) hadvances.halt hflushes₁ (hadvances.phased ▸ hrest)
      refine ⟨v', fun n => ?_, by simpa using hphase⟩
      rw [List.length_cons, Nat.add_right_comm, hdrain, hdrain']

/-- The flushes run that wait. -/
theorem phase_flushes (s : Schema Resolver Resolution World) (middleware : List Middleware)
    (m : Multiplex) (fuel : Nat) (h : Phase rest halt runs w v)
    (hrest : rest.filterMap QueuedJob.host? = []) : ∃ k v',
    (∀ n, drainQueue (s.inQueue middleware) m fuel (k + n) v =
      drainQueue (s.inQueue middleware) m fuel n v') ∧
    v'.queue = rest ∧ Phase rest halt runs w.flush v' := by
  obtain ⟨kinds, hqueue⟩ := h.queue
  have hflushes : (kinds.foldl World.sync v.world).flushes = [] :=
    (World.flushes_foldl_sync kinds v.world).trans h.flushes
  refine ⟨kinds.length, { v with queue := rest, world := kinds.foldl World.sync v.world },
    fun n => drainQueue_flushes kinds hqueue, rfl, ⟨[], rfl⟩, h.halt, h.runs, ?_, hflushes⟩
  have hidle : { v.world with flushes := [] } = v.world := by rw [← h.flushes]
  have hw : w = { v.world with flushes := kinds } := by
    rw [← h.phased]
    simp [Shared.phased, hqueue, hrest, h.flushes, -List.filterMap_map]
  rw [hw, World.flush, hidle, Shared.phased, hrest, hflushes, List.append_nil, ← hflushes]

/-- All queries take their parts in a wave, one after the other. -/
theorem phase_wave (hh : s.host = World.host middleware) (todo : List (QueryRun (Placed Resolution))) :
    ∀ (before : List (QueryRun (Placed Resolution))) (v : Shared Resolution SourceKind World)
      (kinds : List SourceKind) {halt : Option Halt} {runs : List (QueryRun Resolution)} {w' : World},
    v.queue = kinds.map .host → v.runs = before ++ todo → v.halt = none → v.world.flushes = [] →
    advanceAll s m (fun e _ => e.wave) (todo.map (QueryRun.mapLater Placed.lazy)) v.phased =
      (halt, runs, w') →
    Phase [] halt (before.map (QueryRun.mapLater Placed.lazy) ++ runs) w'
      ((List.range' before.length todo.length).foldl (fun v query =>
        takePart (s.inQueue middleware) m id (fun e _ => e.wave) true query v) v) := by
  induction todo with
  | nil =>
    intro before v kinds halt runs w' hqueue hruns hv hflushes h
    cases h
    refine ⟨⟨kinds, hqueue.trans (List.append_nil _).symm⟩, hv, ?_, rfl, hflushes⟩
    simp [hruns]
  | cons run todo ih =>
    intro before v kinds halt runs w' hqueue hruns hv hflushes h
    have hrun : v.runs[before.length]? = some run := by simp [hruns]
    rw [List.map_cons, advanceAll] at h
    cases hr : advance s m (fun e _ => e.wave) (run.mapLater Placed.lazy) v.phased with
    | mk halt₁ ended =>
    obtain ⟨run₁, w₁⟩ := ended
    obtain ⟨run', rfl, hadvances⟩ := takePart_agrees (wave_agrees hh m) hv hrun hr
    rw [List.length_cons, List.range'_succ, List.foldl_cons]
    generalize takePart (s.inQueue middleware) m id (fun e _ => e.wave) true before.length v = v₁
      at hadvances
    obtain ⟨kinds', hkinds⟩ := hadvances.queue
    rw [hqueue, ← List.map_append] at hkinds
    have hruns₁ : v₁.runs = before ++ run' :: todo := hadvances.runs.trans (by simp [hruns])
    have hflushes₁ := hadvances.flushes hflushes
    rw [hr] at h
    cases halt₁ with
    | some reason =>
      cases h
      rw [foldl_takePart_halted (hadvances.halt ▸ Option.some_ne_none reason)]
      refine ⟨⟨kinds ++ kinds', hkinds.trans (List.append_nil _).symm⟩, hadvances.halt, ?_,
        hadvances.phased, hflushes₁⟩
      simp [hruns₁]
    | none =>
      cases hrest : advanceAll s m (fun e _ => e.wave) (todo.map (QueryRun.mapLater Placed.lazy)) w₁
        with
      | mk halt₂ ended =>
      obtain ⟨runs₂, w₂⟩ := ended
      simp only [hrest] at h
      cases h
      have hphase := ih (before ++ [run']) v₁ (kinds ++ kinds') hkinds (by simpa using hruns₁)
        hadvances.halt hflushes₁ (hadvances.phased ▸ hrest)
      simpa using hphase

theorem drainQueue_idle {ρ L J W : Type} {s : QueueSchema ρ L J W} {v : Shared L J W}
    (hqueue : v.queue = []) : drainQueue s m fuel n v = v := by
  cases n <;> simp [drainQueue, hqueue]

/-- The wave that waits goes through all queries, and queues the next one if anything is deferred. -/
theorem drainQueue_wave (hh : s.host = World.host middleware) (m : Multiplex) (fuel : Nat)
    (hqueue : v.queue = [.wave]) (h : Phase [.wave] none runs w v) {runs' : List (QueryRun Resolution)}
    (hr : advanceAll s m (fun e _ => e.wave) runs w = (halt, runs', w')) : ∃ v',
    (∀ n, drainQueue (s.inQueue middleware) m fuel (n + 1) v =
      drainQueue (s.inQueue middleware) m fuel n v') ∧
    Phase (if halt.isNone && runs'.any QueryRun.isPending then [.wave] else []) halt runs' w' v' := by
  obtain rfl := h.runs
  have hw : w = Shared.phased { v with queue := [] } := by
    rw [← h.phased]
    simp [Shared.phased, hqueue, List.filterMap_cons]
  have hphase := phase_wave hh v.runs [] { v with queue := [] } [] rfl rfl h.halt h.flushes (hw ▸ hr)
  rw [List.length_nil, ← List.range_eq_range'] at hphase
  refine ⟨waveJob (s.inQueue middleware) m id { v with queue := [] }, fun n => ?_, ?_⟩
  · rw [drainQueue, hqueue]
    simp only [performJob]
    rw [waveJob_noDrain (World.noDrain_queueHost middleware) _ id]
  unfold waveJob
  simp only
  generalize (List.range v.runs.length).foldl (fun v query =>
    takePart (s.inQueue middleware) m id (fun e _ => e.wave) true query v) { v with queue := [] } = u
    at hphase ⊢
  have hpending : u.runs.any QueryRun.isPending = runs'.any QueryRun.isPending := by
    rw [← any_isPending_mapLater Placed.lazy, hphase.runs]
    rfl
  obtain ⟨kinds, hkinds⟩ := hphase.queue
  rw [hphase.halt, hpending]
  split
  · refine ⟨⟨kinds, ?_⟩, hphase.halt, hphase.runs, ?_, hphase.flushes⟩
    · simp [Shared.append, hkinds]
    · rw [← hphase.phased]
      simp [Shared.phased, Shared.append, List.filterMap_cons]
  · exact hphase

/-- The last flushes run, and no job waits any more. -/
theorem drainQueue_last (s : Schema Resolver Resolution World) (middleware : List Middleware)
    (m : Multiplex) (fuel : Nat) (h : Phase [] halt runs w v) : ∃ k v',
    (∀ n, drainQueue (s.inQueue middleware) m fuel (k + n) v = v') ∧ v'.halt = halt ∧
    v'.runs.map (QueryRun.mapLater Placed.lazy) = runs ∧ v'.world = w.flush := by
  obtain ⟨k, v', hdrain, hqueue, hphase⟩ := phase_flushes s middleware m fuel h rfl
  refine ⟨k, v', fun n => (hdrain n).trans (drainQueue_idle hqueue), hphase.halt, hphase.runs, ?_⟩
  rw [← hphase.phased]
  simp [Shared.phased, hqueue]

/-- The waves, with the flushes between them. -/
theorem drainQueue_waves (hh : s.host = World.host middleware) (m : Multiplex) (fuel waves : Nat) :
    ∀ {v : Shared Resolution SourceKind World} {halt : Option Halt} {runs runs' : List (QueryRun Resolution)}
      {w w' : World}, v.queue = [.wave] → Phase [.wave] none runs w v →
    Multiplex.waves s m waves runs w = (halt, runs', w') → halt ≠ some .unfinished → ∃ k v',
      (∀ n, drainQueue (s.inQueue middleware) m fuel (k + n) v = v') ∧ v'.halt = halt ∧
      v'.runs.map (QueryRun.mapLater Placed.lazy) = runs' ∧ v'.world = w'.flush := by
  induction waves with
  | zero =>
    intro v halt runs runs' w w' _ _ h hfinished
    cases h
    exact absurd rfl hfinished
  | succ waves ih =>
    intro v halt runs runs' w w' hqueue hphase h hfinished
    cases hr : advanceAll s m (fun e _ => e.wave) runs w with
    | mk halt₁ ended =>
    obtain ⟨runs₁, w₁⟩ := ended
    obtain ⟨v₁, hdrain, hphase₁⟩ := drainQueue_wave hh m fuel hqueue hphase hr
    -- nothing is left for another wave
    have hlast : Phase [] halt₁ runs₁ w₁ v₁ → ∃ k v', (∀ n, drainQueue (s.inQueue middleware) m fuel
        (k + n) v = v') ∧ v'.halt = halt₁ ∧ v'.runs.map (QueryRun.mapLater Placed.lazy) = runs₁ ∧
          v'.world = w₁.flush := by
      intro hphase₁
      obtain ⟨k, v', hdrain', hends⟩ := drainQueue_last s middleware m fuel hphase₁
      refine ⟨k + 1, v', fun n => ?_, hends⟩
      rw [Nat.add_right_comm, hdrain, hdrain']
    rw [Multiplex.waves, hr] at h
    cases halt₁ with
    | some reason =>
      cases h
      exact hlast hphase₁
    | none =>
      simp only [Option.isNone_none, Bool.true_and] at h hphase₁
      split at h
      · next hpending =>
        rw [if_pos hpending] at hphase₁
        obtain ⟨k, v₂, hdrain₂, hqueue₂, hphase₂⟩ := phase_flushes s middleware m fuel hphase₁ rfl
        rw [hh] at h
        obtain ⟨k', v', hdrain', hends⟩ := ih hqueue₂ hphase₂ h hfinished
        refine ⟨k + k' + 1, v', fun n => ?_, hends⟩
        rw [Nat.add_right_comm, hdrain, Nat.add_assoc, hdrain₂, hdrain']
      · next hpending =>
        rw [if_neg hpending] at hphase₁
        cases h
        exact hlast hphase₁

/-- All queries begin, and the flushes run that they have queued. -/
theorem begun_eq (hh : s.host = World.host middleware) (m : Multiplex) (fuel : Nat)
    (hw : w.flushes = []) {w₁ : World} (hr : advanceAll s m (fun e plan => e.begin fuel plan)
      (m.receiveAll s) w = (halt, runs, w₁)) : ∃ k v,
    (∀ n, begun (s.inQueue middleware) m fuel (k + n) w = v) ∧ v.queue = [] ∧
    Phase [] halt runs w₁.flush v := by
  have hphased : (queued (s.inQueue middleware) m w).phased = w := by
    have hbegins : ((List.range m.requests.length).map QueuedJob.begin).filterMap
        (QueuedJob.host? : QueuedJob SourceKind → Option SourceKind) = [] :=
      QueuedJob.filterMap_begin _
    rw [queued, Shared.phased, hbegins, List.nil_append]
  rw [receiveAll_mirrors s ((World.queueHost middleware).at id 0 false) Placed.lazy m, ← hphased] at hr
  obtain ⟨v, hdrain, hphase⟩ := phase_begins hh (m.receiveAll ((s.inQueue middleware).at id 0 false)) []
    (queued (s.inQueue middleware) m w) []
    (by simp [queued, length_receiveAll, List.range_eq_range']) rfl rfl hw hr
  obtain ⟨k, v', hdrain', hqueue, hphase'⟩ := phase_flushes s middleware m fuel hphase rfl
  refine ⟨(m.receiveAll ((s.inQueue middleware).at id 0 false)).length + k, v', fun n => ?_, hqueue,
    hphase'⟩
  rw [begun, Nat.add_assoc, hdrain, hdrain', drainQueue_idle hqueue]

/-- With jobs enough, requests in a queue come to what they come to in phases, if these end. -/
theorem runQueued_eq_run (hh : s.host = World.host middleware) (m : Multiplex) (fuel : Nat)
    (hw : w.flushes = []) (hfinished : (m.run s fuel w).1 ≠ .error .unfinished) :
    ∃ k, ∀ jobs, k ≤ jobs → m.runQueued (s.inQueue middleware) fuel jobs w = m.run s fuel w := by
  cases hr : advanceAll s m (fun e plan => e.begin fuel plan) (m.receiveAll s) w with
  | mk halt ended =>
  obtain ⟨runs, w₁⟩ := ended
  obtain ⟨k, v, hbegun, hqueue, hphase⟩ := begun_eq hh m fuel hw hr
  -- it is enough to know what the last run of the queue comes to
  suffices hlast : ∃ k v', (∀ n, drainQueue (s.inQueue middleware) m fuel (k + n) (v.append .wave) = v') ∧
      (outcome v'.halt v'.runs, v'.world) = m.run s fuel w by
    obtain ⟨k', v', hdrained, hrun⟩ := hlast
    refine ⟨k + k', fun jobs hjobs => ?_⟩
    obtain ⟨n, rfl⟩ := Nat.exists_eq_add_of_le hjobs
    have hb : begun (s.inQueue middleware) m fuel (k + k' + n) w = v := Nat.add_assoc k k' n ▸ hbegun _
    have hd : drained (s.inQueue middleware) m fuel (k + k' + n) w = v' := by
      rw [drained, hb, Nat.add_comm k k', Nat.add_assoc]
      exact hdrained _
    rw [runQueued, hd]
    exact hrun
  have hwave : (v.append .wave).queue = [.wave] := by simp [Shared.append, hqueue]
  have hworld : v.world = w₁.flush := by
    rw [← hphase.phased]
    simp [Shared.phased, hqueue]
  cases halt with
  | some reason =>
    have hself : { v.append .wave with queue := [] } = v := by simp [Shared.append, ← hqueue]
    have hv : v.halt ≠ none := hphase.halt ▸ Option.some_ne_none reason
    have hrun : m.run s fuel w = (outcome (some reason) runs, w₁.flush.flush) := by
      rw [run, settle, hr, hh]
      rfl
    refine ⟨1, v, fun n => ?_, ?_⟩
    · rw [Nat.add_comm, drainQueue, hwave]
      simp only [performJob]
      rw [hself, waveJob_halted hv, drainQueue_idle hqueue]
    · rw [hrun, World.flush_of_idle (hworld ▸ hphase.flushes), hworld, hphase.halt]
      rfl
  | none =>
    have hphase' : Phase [.wave] none runs w₁.flush (v.append .wave) := by
      refine ⟨⟨[], hwave⟩, hphase.halt, hphase.runs, ?_, hphase.flushes⟩
      rw [← hphase.phased]
      simp [Shared.phased, Shared.append, List.filterMap_cons]
    have hrun : m.run s fuel w = (outcome (waves s m fuel runs w₁.flush).1
        (waves s m fuel runs w₁.flush).2.1, (waves s m fuel runs w₁.flush).2.2.flush) := by
      rw [run, settle, hr, hh]
      rfl
    rw [hrun] at hfinished ⊢
    obtain ⟨k', v', hdrain, hhalt, hruns, hlast⟩ := drainQueue_waves hh m fuel fuel hwave hphase' rfl
      fun h => hfinished (by rw [h]; rfl)
    exact ⟨k', v', hdrain, by rw [hlast, hhalt, ← hruns, outcome_mapLater]⟩

end Multiplex

end GraphQL
