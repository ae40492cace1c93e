import GraphQL.Proofs.Resolver.Record

/-!
# The queue of jobs

Requests that run together wait as jobs in a queue. Each begins in a job of its own. A wave is a job
that goes through all of them, and that queues the next wave when it leaves anything deferred. A
source that is asked for a new key queues a flush. Jobs run in the order in which they were queued.
What they come to is what the phases of `Multiplex.run` come to (`Loop.exists_run`).
-/

namespace GraphQL

namespace Recorded

/-- No flush waits. -/
def idle (r : Recorded) : Recorded :=
  { r with world := { r.world with flushes := [] } }

/-- More flushes wait, ahead of the others. -/
def behind (r : Recorded) (flushes : List SourceKind) : Recorded :=
  { r with world := { r.world with flushes := flushes ++ r.world.flushes } }

variable {r : Recorded} {flushes : List SourceKind}

theorem idle_eq (h : r.world.flushes = []) : r.idle = r := by
  rw [idle, ← h]

theorem behind_idle (r : Recorded) (flushes : List SourceKind) :
    r.idle.behind (flushes ++ r.world.flushes) = r.behind flushes := by
  rw [behind, behind, idle, List.append_nil]

theorem flush_behind (h : r.world.flushes = []) (flushes : List SourceKind) :
    (r.behind flushes).flush = flushes.foldl sync r := by
  show (flushes ++ r.world.flushes).foldl sync r.idle = _
  rw [h, List.append_nil, idle_eq h]

theorem flush_eq (r : Recorded) : r.flush = r.world.flushes.foldl sync r.idle :=
  rfl

theorem flushes_sync (r : Recorded) (kind : SourceKind) :
    (r.sync kind).world.flushes = r.world.flushes := by
  rw [world_sync, World.sync]
  split
  · rfl
  · simp only
    split <;> rfl

theorem flushes_foldl_sync (kinds : List SourceKind) (r : Recorded) :
    (kinds.foldl sync r).world.flushes = r.world.flushes := by
  induction kinds generalizing r with
  | nil => rfl
  | cons kind kinds ih => rw [List.foldl_cons, ih, flushes_sync]

theorem flushes_flush (r : Recorded) : r.flush.world.flushes = [] := by
  rw [flush_eq, flushes_foldl_sync]
  rfl

theorem flush_of_idle (h : r.world.flushes = []) : r.flush = r := by
  rw [flush_eq, h, idle_eq h]
  rfl

/-! ## Flushes that wait make no difference -/

theorem request_behind (r : Recorded) (flushes : List SourceKind) (kind : SourceKind)
    (key : String) : (r.behind flushes).request kind key = (r.request kind key).behind flushes := by
  have hsource : (r.behind flushes).world.source kind = r.world.source kind := rfl
  have hset : ∀ source, (r.behind flushes).world.setSource kind source =
      { r.world.setSource kind source with flushes := flushes ++ r.world.flushes } := fun _ => rfl
  simp only [request, World.request, hsource, hset]
  split
  · simp [behind, World.setSource]
  · rfl

theorem sync_behind (r : Recorded) (flushes : List SourceKind) (kind : SourceKind) :
    (r.behind flushes).sync kind = (r.sync kind).behind flushes := by
  have hsupply : (r.behind flushes).world.supply? kind = r.world.supply? kind := rfl
  simp only [sync, World.sync, hsupply]
  cases r.world.supply? kind with
  | none => rfl
  | some s =>
    simp only
    split <;> rfl

theorem awaited_behind (r : Recorded) (flushes : List SourceKind) (kind : SourceKind)
    (key : String) : (r.behind flushes).awaited kind key = (r.awaited kind key).behind flushes := by
  have hsource : (r.behind flushes).world.source kind = r.world.source kind := rfl
  simp only [awaited, hsource]
  split
  · rfl
  · exact sync_behind r flushes kind

theorem events_awaited (r : Recorded) (kind : SourceKind) (key : String) :
    r.events <+: (r.awaited kind key).events := by
  have hsync : r.events <+: (r.sync kind).events := by
    simp only [sync]
    split
    · split
      · exact List.prefix_refl _
      · exact List.prefix_append ..
    · exact List.prefix_refl _
  unfold awaited
  split
  · exact List.prefix_refl _
  · exact hsync

theorem addSupply_behind (r : Recorded) (flushes : List SourceKind) (s : Supply) :
    Recorded.mk ((r.behind flushes).world.addSupply s) r.events =
      (Recorded.mk (r.world.addSupply s) r.events).behind flushes := by
  have hsupply : (r.behind flushes).world.supply? s.kind = r.world.supply? s.kind := rfl
  simp only [World.addSupply, hsupply]
  split <;> rfl

end Recorded

namespace Resolution

/-- Work comes to the same when more flushes wait. -/
theorem record_behind : ∀ (work : Resolution) (entries : Assoc Json) (r : Recorded)
    (flushes : List SourceKind), work.record entries (r.behind flushes) =
      ((work.record entries r).1, (work.record entries r).2.1,
        (work.record entries r).2.2.behind flushes)
  | done _, _, _, _ => rfl
  | trace line next, entries, r, flushes =>
    record_behind next entries { r with world := r.world.trace [line] } flushes
  | extend key value next, entries, r, flushes =>
    record_behind next (entries.insert key value) r flushes
  | count kind next, entries, r, flushes =>
    record_behind (next (r.world.count kind).1) entries { r with world := (r.world.count kind).2 }
      flushes
  | source kind loader next, entries, r, flushes => by
    have h := record_behind next entries
      { r with world := r.world.addSupply ⟨kind, loader, .fresh⟩ } flushes
    rw [← Recorded.addSupply_behind] at h
    exact h
  | request kind key next, entries, r, flushes => by
    simp only [record, Recorded.request_behind]
    exact record_behind next entries (r.request kind key) flushes
  | await kind key next, entries, r, flushes => by
    simp only [record, Recorded.awaited_behind]
    exact record_behind (next _) entries (r.awaited kind key) flushes

/-- What has happened stays in the record. -/
theorem events_record : ∀ (work : Resolution) (entries : Assoc Json) (r : Recorded),
    r.events <+: (work.record entries r).2.2.events
  | done _, _, _ => List.prefix_refl _
  | trace line next, entries, r =>
    events_record next entries { r with world := r.world.trace [line] }
  | extend key value next, entries, r => events_record next (entries.insert key value) r
  | count kind next, entries, r =>
    events_record (next (r.world.count kind).1) entries { r with world := (r.world.count kind).2 }
  | source kind loader next, entries, r =>
    events_record next entries { r with world := r.world.addSupply ⟨kind, loader, .fresh⟩ }
  | request kind key next, entries, r =>
    (List.prefix_append ..).trans (events_record next entries (r.request kind key))
  | await kind key next, entries, r =>
    (Recorded.events_awaited r kind key).trans (events_record (next _) entries (r.awaited kind key))

end Resolution

namespace Recorded

/-- Records that differ in what waits ahead of the flushes. -/
def ahead (flushes : List SourceKind) (past : List Event) : Bond Resolution Recorded Recorded where
  paired w r := w = r.behind flushes ∧ past <+: r.events
  owed _ _ _ := True
  due _ _ _ := True

theorem ahead_alike (middleware : List Middleware) (registry : Registry Resolver)
    (flushes : List SourceKind) (past : List Event) :
    (host middleware).Alike (host middleware) registry (ahead flushes past) where
  resolve {object field spec w r} _ hw ctx entries := by
    obtain ⟨rfl, hpast⟩ := hw
    have hevents := Resolution.events_record (resolution middleware spec.resolver ctx) entries r
    exact ⟨_, _, _, _, Resolution.record_behind _ entries r flushes, rfl,
      ⟨⟨rfl, hpast.trans hevents⟩, fun _ => id, fun _ => id⟩, fun _ _ _ _ => trivial⟩
  force {lazy w r} hw _ := by
    obtain ⟨rfl, hpast⟩ := hw
    have h := Resolution.record_behind lazy [] r flushes
    exact ⟨_, _, _, congrArg (fun x => (x.1, x.2.2)) h, rfl,
      ⟨⟨rfl, hpast.trans (Resolution.events_record lazy [] r)⟩, fun _ => id, fun _ => id⟩,
      fun _ _ _ _ => trivial⟩

end Recorded

/-! ## The loop -/

inductive Job where
  /-- A query begins. -/
  | begin (index : Nat)
  /-- A wave goes through all queries. -/
  | wave
  /-- A source loads the keys that wait. -/
  | flush (kind : SourceKind)

/-- Queries whose jobs run one after the other. The log has the jobs that have run, each with what
happened to sources meanwhile. -/
structure Loop where
  queue : List Job
  /-- Whether the first wave has been queued. -/
  begun : Bool
  /-- How many waves there may still be. -/
  fuel : Nat
  halt : Option Halt
  runs : List (QueryRun Resolution)
  record : Recorded
  log : List (Job × List Event)

namespace Loop

/-- A job has run: the flushes that it has queued go to the end of the queue. -/
def done (l : Loop) (job : Job) (halt : Option Halt) (runs : List (QueryRun Resolution))
    (r : Recorded) : Loop :=
  { l with
    queue := l.queue ++ r.world.flushes.map .flush
    halt := halt
    runs := runs
    record := r.idle
    log := l.log ++ [(job, r.events.drop l.record.events.length)] }

section

variable (s : Schema Resolver Resolution Recorded) (m : Multiplex) (fuel : Nat)

/-- Runs a job that has been taken off the queue. Queries take no part any more once something has
stopped everything. -/
def perform (l : Loop) : Job → Loop
  | .flush kind => l.done (.flush kind) l.halt l.runs (l.record.sync kind)
  | .begin index =>
    match l.halt, l.runs[index]? with
    | none, some run =>
      let (halt, run, r) := Multiplex.advance s m (fun e plan => e.begin fuel plan) run l.record
      l.done (.begin index) halt (l.runs.set index run) r
    | _, _ => l.done (.begin index) l.halt l.runs l.record
  | .wave =>
    match l.halt, l.fuel with
    | none, fuel + 1 =>
      let (halt, runs, r) := Multiplex.advanceAll s m (fun e _ => e.wave) l.runs l.record
      let l := { l with fuel := fuel }.done .wave halt runs r
      if halt.isNone && runs.any QueryRun.isPending then { l with queue := l.queue ++ [.wave] }
      else l
    | none, 0 => l.done .wave (some .unfinished) l.runs l.record
    | some halt, _ => l.done .wave (some halt) l.runs l.record

/-- The next job runs. When the queue is empty for the first time, all queries have begun. -/
def next? (l : Loop) : Option Loop :=
  match l.queue with
  | job :: rest => some ({ l with queue := rest }.perform s m fuel job)
  | [] => if l.begun then none else some { l with begun := true, queue := [.wave] }

def start : Loop where
  queue := (List.range m.requests.length).map .begin
  begun := false
  fuel := fuel
  halt := none
  runs := m.receiveAll s
  record := .fresh
  log := []

def Runs : Loop → Loop → Prop :=
  Relation.ReflTransGen fun l l' => l.next? s m fuel = some l'

/-- Where the jobs come to an end. -/
def Ends (l : Loop) : Prop :=
  Runs s m fuel (start s m fuel) l ∧ l.next? s m fuel = none

end

/-- The jobs in which queries begin, from one of them on. -/
def begins (index n : Nat) : List Job :=
  (List.range' index n).map .begin

/-- The log of flushes. -/
def flushes : List SourceKind → Recorded → List (Job × List Event)
  | [], _ => []
  | kind :: kinds, r =>
    (.flush kind, (r.sync kind).events.drop r.events.length) :: flushes kinds (r.sync kind)

variable {s : Schema Resolver Resolution Recorded} {m : Multiplex} {fuel k : Nat} {begun : Bool}
  {halt : Option Halt} {runs runs' : List (QueryRun Resolution)} {r r' : Recorded}
  {log : List (Job × List Event)}

/-- Flushes at the head of the queue run before anything else. -/
theorem runs_flushes (rest : List Job) (kinds : List SourceKind) :
    ∀ {r : Recorded} {log : List (Job × List Event)}, r.world.flushes = [] →
      Runs s m fuel ⟨kinds.map .flush ++ rest, begun, k, halt, runs, r, log⟩
        ⟨rest, begun, k, halt, runs, kinds.foldl Recorded.sync r, log ++ flushes kinds r⟩ := by
  induction kinds with
  | nil =>
    intro r log _
    rw [flushes, List.append_nil]
    exact .refl
  | cons kind kinds ih =>
    intro r log hr
    have hsync : (r.sync kind).world.flushes = [] := (r.flushes_sync kind).trans hr
    have hstep : next? s m fuel ⟨(kind :: kinds).map .flush ++ rest, begun, k, halt, runs, r, log⟩ =
        some ⟨kinds.map .flush ++ rest, begun, k, halt, runs, r.sync kind,
          log ++ [(Job.flush kind, (r.sync kind).events.drop r.events.length)]⟩ := by
      replace hsync : (r.world.sync kind).flushes = [] := hsync
      simp [next?, perform, done, hsync, Recorded.idle_eq]
    rw [flushes, List.append_cons]
    exact .head hstep (ih hsync)

/-- A wave, and the flushes that it has queued. -/
theorem runs_wave (fuel : Nat) (log : List (Job × List Event))
    (hr : Multiplex.advanceAll s m (fun e _ => e.wave) runs r = (halt, runs', r')) :
    Runs s m fuel ⟨[.wave], true, k + 1, none, runs, r, log⟩
      ⟨if halt.isNone && runs'.any QueryRun.isPending then [.wave] else [], true, k, halt, runs',
        r'.flush, log ++ (.wave, r'.events.drop r.events.length) ::
          flushes r'.world.flushes r'.idle⟩ := by
  have hstep : next? s m fuel ⟨[.wave], true, k + 1, none, runs, r, log⟩ =
      some ⟨r'.world.flushes.map .flush ++
          if halt.isNone && runs'.any QueryRun.isPending then [.wave] else [], true, k, halt, runs',
        r'.idle, log ++ [(Job.wave, r'.events.drop r.events.length)]⟩ := by
    simp only [next?, perform, hr, done]
    split <;> simp
  rw [List.append_cons]
  exact .head hstep (runs_flushes _ _ rfl)

theorem begins_zero (n : Nat) : begins 0 n = (List.range n).map .begin := by
  rw [begins, List.range_eq_range']

theorem begins_succ (index n : Nat) :
    begins index (n + 1) = .begin index :: begins (index + 1) n := by
  rw [begins, List.range'_succ, List.map_cons, begins]

/-- Queries do not begin any more once something has stopped everything. -/
theorem runs_halted {halt : Halt} (rest : List Job) (n : Nat) (hr : r.world.flushes = []) :
    ∀ {index : Nat} {log : List (Job × List Event)},
      Runs s m fuel ⟨begins index n ++ rest, begun, k, some halt, runs, r, log⟩
        ⟨rest, begun, k, some halt, runs, r,
          log ++ (begins index n).zip (List.replicate n [])⟩ := by
  induction n with
  | zero =>
    intro index log
    rw [List.replicate_zero, List.zip_nil_right, List.append_nil]
    exact .refl
  | succ n ih =>
    intro index log
    have hstep : next? s m fuel
        ⟨begins index (n + 1) ++ rest, begun, k, some halt, runs, r, log⟩ =
        some ⟨begins (index + 1) n ++ rest, begun, k, some halt, runs, r,
          log ++ [(Job.begin index, [])]⟩ := by
      simp [next?, begins_succ, perform, done, hr, Recorded.idle_eq]
    rw [begins_succ] at hstep ⊢
    rw [List.replicate_succ, List.zip_cons_cons, List.append_cons]
    exact .head hstep ih

/-- Queries begin one after the other, and flushes wait until all have. -/
theorem runs_begins {middleware : List Middleware} (hh : s.host = Recorded.host middleware)
    {todo : List (QueryRun Resolution)} : ∀ (begun : List (QueryRun Resolution))
    (waiting : List SourceKind) (log : List (Job × List Event))
    {todo' : List (QueryRun Resolution)} {r r' : Recorded},
    (∀ run ∈ todo, Multiplex.Fresh run) → r.world.flushes = [] →
    Multiplex.advanceAll s m (fun e plan => e.begin fuel plan) todo (r.behind waiting) =
      (halt, todo', r') →
    ∃ r1 waiting' events, r' = r1.behind waiting' ∧ r1.world.flushes = [] ∧
      events.length = todo.length ∧ r'.events = r.events ++ events.flatten ∧
      Runs s m fuel
        ⟨begins begun.length todo.length ++ waiting.map .flush, false, k, none, begun ++ todo, r,
          log⟩
        ⟨waiting'.map .flush, false, k, halt, begun ++ todo', r1,
          log ++ (begins begun.length todo.length).zip events⟩ := by
  induction todo with
  | nil =>
    intro begun waiting log todo' r r' _ hr h
    cases h
    exact ⟨r, waiting, [], rfl, hr, rfl, by simp [Recorded.behind], by simpa using .refl⟩
  | cons run todo ih =>
    intro begun waiting log todo' r r' hfresh hr h
    have ha := Recorded.ahead_alike middleware s.registry waiting r.events
    rw [← hh] at ha
    obtain ⟨halt1, run', w1, r1, hadvance, hadvance', hc, -⟩ :=
      Multiplex.begin_alike (m := m) ha fuel ⟨rfl, List.prefix_refl _⟩
        ⟨hfresh run (List.mem_cons_self ..), fun _ _ _ _ _ {_ _ _} _ _ => trivial⟩
    obtain ⟨⟨rfl, events, hevents⟩, -, -⟩ := hc
    replace hadvance' : Multiplex.advance s m (fun e plan => e.begin fuel plan) run r =
      (halt1, run', r1) := hadvance'
    have hstep : next? s m fuel
        ⟨begins begun.length (todo.length + 1) ++ waiting.map .flush, false, k, none,
          begun ++ run :: todo, r, log⟩ =
        some ⟨begins (begun.length + 1) todo.length ++ (waiting ++ r1.world.flushes).map .flush,
          false, k, halt1, begun ++ run' :: todo, r1.idle,
          log ++ [(Job.begin begun.length, events)]⟩ := by
      simp [next?, begins_succ, perform, done, hadvance', ← hevents]
    rw [Multiplex.advanceAll, hadvance] at h
    rw [List.length_cons, begins_succ]
    rw [begins_succ] at hstep
    cases halt1 with
    | some halt1 =>
      cases h
      refine ⟨r1.idle, waiting ++ r1.world.flushes, events :: List.replicate todo.length [],
        (r1.behind_idle waiting).symm, rfl, by simp, by simp [← hevents, Recorded.behind], ?_⟩
      rw [List.zip_cons_cons, List.append_cons log]
      exact .head hstep (runs_halted _ _ rfl)
    | none =>
      cases hrest : Multiplex.advanceAll s m (fun e plan => e.begin fuel plan) todo
        (r1.behind waiting) with
      | mk halt2 ended =>
      obtain ⟨todo2, r2⟩ := ended
      simp only [hrest] at h
      cases h
      rw [← r1.behind_idle waiting] at hrest
      obtain ⟨r3, waiting', events', hr3, hidle, hlength, hevents', hruns⟩ :=
        ih (begun ++ [run']) _ _ (fun run hm => hfresh run (List.mem_cons_of_mem _ hm)) rfl hrest
      refine ⟨r3, waiting', events :: events', hr3, hidle, by simp [hlength], ?_, ?_⟩
      · rw [hevents', List.flatten_cons, ← List.append_assoc, hevents]
        rfl
      · rw [List.length_append, List.append_assoc, List.append_assoc] at hruns
        rw [List.zip_cons_cons, List.append_cons log]
        exact .head hstep hruns

/-- The jobs come to an end in one way. -/
theorem Ends.unique {l l' : Loop} (h : Ends s m fuel l) (h' : Ends s m fuel l') : l = l' := by
  have hlast : ∀ {l l' : Loop}, Runs s m fuel l l' → l.next? s m fuel = none → l = l' := by
    intro l l' h hend
    rcases h.cases_head with rfl | ⟨l1, hstep, -⟩
    · rfl
    · rw [hend] at hstep
      cases hstep
  have hone : Relator.RightUnique fun l l' : Loop => l.next? s m fuel = some l' :=
    fun _ _ _ h h' => Option.some.inj (h.symm.trans h')
  rcases Relation.ReflTransGen.total_of_right_unique hone h.1 h'.1 with hruns | hruns
  · exact hlast hruns h.2
  · exact (hlast hruns h'.2).symm

/-- A wave when there may be none any more, or something has stopped everything. -/
theorem runs_last {halt halt' : Option Halt} (hr : r.world.flushes = [])
    (h : halt = none ∧ k = 0 ∧ halt' = some .unfinished ∨ halt.isSome = true ∧ halt' = halt) :
    Runs s m fuel ⟨[.wave], true, k, halt, runs, r, log⟩
      ⟨[], true, k, halt', runs, r, log ++ [(Job.wave, [])]⟩ := by
  refine .single ?_
  obtain ⟨rfl, rfl, rfl⟩ | ⟨hhalt, rfl⟩ := h
  · simp [next?, perform, done, hr, Recorded.idle_eq]
  · obtain ⟨halt, rfl⟩ := Option.isSome_iff_exists.1 hhalt
    simp [next?, perform, done, hr, Recorded.idle_eq]

/-- The jobs of waves come to what waves come to. -/
theorem exists_waves {middleware : List Middleware} (hh : s.host = Recorded.host middleware)
    (hr : r.world.flushes = []) : ∃ l r', Runs s m fuel ⟨[.wave], true, k, none, runs, r, log⟩ l ∧
      l.next? s m fuel = none ∧ Multiplex.waves s m k runs r = (l.halt, l.runs, r') ∧
      l.record = r'.flush := by
  induction k generalizing runs r log with
  | zero =>
    exact ⟨_, r, runs_last hr (.inl ⟨rfl, rfl, rfl⟩), rfl, rfl, (Recorded.flush_of_idle hr).symm⟩
  | succ k ih =>
    cases hadvance : Multiplex.advanceAll s m (fun e _ => e.wave) runs r with
    | mk halt ended =>
    obtain ⟨runs', r'⟩ := ended
    have hwave := runs_wave (k := k) fuel log hadvance
    rw [Multiplex.waves, hadvance]
    cases halt with
    | some halt => exact ⟨_, r', hwave, rfl, rfl, rfl⟩
    | none =>
      simp only [Option.isNone_none, Bool.true_and] at hwave ⊢
      split
      · next hpending =>
        rw [if_pos hpending] at hwave
        obtain ⟨l, r2, hruns, hend, hwaves, hrecord⟩ := ih r'.flushes_flush
        refine ⟨l, r2, hwave.trans hruns, hend, ?_, hrecord⟩
        rw [hh]
        exact hwaves
      · next hpending =>
        rw [if_neg hpending] at hwave
        exact ⟨_, r', hwave, rfl, rfl, rfl⟩

/-- All queries begin, and then the flushes run that they have queued. -/
theorem runs_begun {middleware : List Middleware} (hh : s.host = Recorded.host middleware)
    (h : Multiplex.advanceAll s m (fun e plan => e.begin fuel plan) (m.receiveAll s) .fresh =
      (halt, runs', r')) : ∃ events : List (List Event),
    events.length = m.requests.length ∧ r'.events = events.flatten ∧
      Runs s m fuel (start s m fuel) ⟨[.wave], true, fuel, halt, runs', r'.flush,
        (begins 0 m.requests.length).zip events ++ flushes r'.world.flushes r'.idle⟩ := by
  obtain ⟨r1, waiting, events, rfl, hidle, hlength, hevents, hruns⟩ :=
    runs_begins (r := .fresh) (k := fuel) hh [] [] [] (Multiplex.fresh_receiveAll s m) rfl h
  rw [Multiplex.length_receiveAll] at hlength hruns
  have hwaiting : (r1.behind waiting).world.flushes = waiting := by
    show waiting ++ r1.world.flushes = waiting
    rw [hidle, List.append_nil]
  have hr1 : (r1.behind waiting).idle = r1 := Recorded.idle_eq hidle
  refine ⟨events, hlength, hevents, ?_⟩
  rw [hwaiting, hr1, Recorded.flush_behind hidle]
  have hstart : start s m fuel =
      ⟨begins 0 m.requests.length, false, fuel, none, m.receiveAll s, .fresh, []⟩ := by
    rw [start, begins_zero]
  rw [hstart]
  simp only [List.map_nil, List.append_nil, List.nil_append, List.length_nil] at hruns
  rw [← List.append_nil (waiting.map Job.flush)] at hruns
  exact (hruns.trans (runs_flushes [] waiting hidle)).tail rfl

/-- The jobs come to an end, and there to what requests come to that run in phases. -/
theorem exists_run {middleware : List Middleware} (hh : s.host = Recorded.host middleware)
    (m : Multiplex) (fuel : Nat) : ∃ l, Ends s m fuel l ∧
      m.run s fuel .fresh = (Multiplex.outcome l.halt l.runs, l.record) := by
  cases hadvance : Multiplex.advanceAll s m (fun e plan => e.begin fuel plan) (m.receiveAll s)
    .fresh with
  | mk halt ended =>
  obtain ⟨runs, r⟩ := ended
  obtain ⟨events, -, -, hbegun⟩ := runs_begun hh hadvance
  rw [Multiplex.run, Multiplex.settle, hadvance, hh]
  cases halt with
  | some halt =>
    refine ⟨_, ⟨hbegun.trans (runs_last r.flushes_flush (.inr ⟨rfl, rfl⟩)), rfl⟩, ?_⟩
    show (_, r.flush.flush) = _
    rw [Recorded.flush_of_idle r.flushes_flush]
  | none =>
    obtain ⟨l, r', hruns, hend, hwaves, hrecord⟩ := exists_waves hh r.flushes_flush
    replace hwaves : Multiplex.waves s m fuel runs ((Recorded.host middleware).drain r) =
      (l.halt, l.runs, r') := hwaves
    refine ⟨l, ⟨hbegun.trans hruns, hend⟩, ?_⟩
    simp only [hwaves, hrecord]
    rfl

end Loop

end GraphQL
