import GraphQL.Proofs.Resolver.Phase

/-!
# Batches, wave by wave

Queries that run together go through phases: all of them begin, and then there is one wave after
another. When resolvers defer by having keys loaded, no phase loads any. After each, every source
that was asked for new keys loads them with one call, whichever queries they are from
(`Multiplex.run_batched`).
-/

namespace GraphQL

open Phase

/-! ## Work that defers -/

/-- Work forces no keys but those that were asked for in an earlier phase; the lazies in what it
gives, none but those that were asked for by then. Known are the sources that were made, the keys of
earlier phases, and all keys that were asked for. -/
inductive Resolution.Batched : List SourceKind → List Ask → List Ask → Resolution → Prop where
  | done {made ready asked outcome} :
      (∀ value lazy, outcome = .ok value → value.Defers lazy → Batched made asked asked lazy) →
      Batched made ready asked (.done outcome)
  | trace {made ready asked line next} :
      Batched made ready asked next → Batched made ready asked (.trace line next)
  | extend {made ready asked key value next} :
      Batched made ready asked next → Batched made ready asked (.extend key value next)
  | count {made ready asked kind next} :
      (∀ n, Batched made ready asked (next n)) → Batched made ready asked (.count kind next)
  | source {made ready asked kind loader next} :
      Batched (kind :: made) ready asked next → Batched made ready asked (.source kind loader next)
  | request {made ready asked kind key next} : kind ∈ made →
      Batched made ready ((kind, key) :: asked) next →
      Batched made ready asked (.request kind key next)
  | await {made ready asked kind key next} : (kind, key) ∈ ready →
      (∀ answer, Batched made ready asked (next answer)) →
      Batched made ready asked (.await kind key next)

namespace Resolution.Batched

variable {made : List SourceKind} {ready asked : List Ask}

/-- What is mapped may be gone on with by what asks for more, but not by what forces it. -/
theorem andThen {f : Outcome Resolution → Resolution} {work : Resolution}
    (hf : ∀ made ready asked outcome, (Resolution.done outcome).Batched made ready asked →
      (f outcome).Batched made ready asked) (h : work.Batched made ready asked) :
    (work.andThen f).Batched made ready asked := by
  induction h with
  | done hlazies => exact hf _ _ _ _ (.done hlazies)
  | trace _ ih => exact .trace ih
  | extend _ ih => exact .extend ih
  | count _ ih => exact .count ih
  | source _ ih => exact .source ih
  | request hkind _ ih => exact .request hkind ih
  | await hkey _ ih => exact .await hkey ih

theorem of_later {work : Resolution} (h : work.Batched made asked asked) :
    (Resolution.defer work).Batched made ready asked := by
  refine .done fun value lazy he hl => ?_
  cases he
  cases hl
  exact h

theorem json (j : Json) : (Resolution.json j).Batched made ready asked := by
  refine .done fun value lazy he hl => ?_
  cases he
  cases hl

theorem ofAnswer (answer : Except FieldError (Option Json)) :
    (Resolution.ofAnswer answer).Batched made ready asked := by
  refine .done fun value lazy he hl => ?_
  cases answer with
  | error e => cases he
  | ok found =>
    cases he
    cases hl

theorem load (kind : SourceKind) (loader : Loader) (key : String) :
    (Resolution.load kind loader key).Batched made ready asked :=
  .source (.request (List.mem_cons_self ..) (of_later
    (.await (List.mem_cons_self ..) fun answer => .ofAnswer answer)))

theorem awaitAll {kind : SourceKind} {f : Except FieldError (List Value) → Resolution}
    (hf : ∀ values, (∀ items, values = .ok items → ∀ item ∈ items, ∀ lazy, ¬ item.Defers lazy) →
      (f values).Batched made ready asked) {keys : List String}
    (hkeys : ∀ key ∈ keys, (kind, key) ∈ ready) :
    (Resolution.awaitAll kind keys f).Batched made ready asked := by
  induction keys generalizing f with
  | nil =>
    refine hf (.ok []) fun items he item hm => ?_
    cases he
    cases hm
  | cons key rest ih =>
    refine .await (hkeys key (List.mem_cons_self ..)) fun answer => ?_
    cases answer with
    | error e => exact hf (.error e) nofun
    | ok found =>
      refine ih (fun values hvalues => hf _ fun items he item hm => ?_) fun key hm =>
        hkeys key (List.mem_cons_of_mem _ hm)
      cases values with
      | error e => cases he
      | ok values =>
        cases he
        rcases List.mem_cons.1 hm with rfl | hm
        · exact fun lazy hl => by cases hl
        · exact hvalues values rfl item hm

theorem loadMany (kind : SourceKind) (loader : Loader) (keys : List String) :
    (Resolution.loadMany kind loader keys).Batched made ready asked := by
  have hrequest : ∀ {work : Resolution} (keys : List String) {asked : List Ask},
      (∀ asked', (∀ key ∈ keys, (kind, key) ∈ asked') → asked ⊆ asked' →
        work.Batched (kind :: made) ready asked') →
      (keys.foldr (.request kind) work).Batched (kind :: made) ready asked := by
    intro work keys
    induction keys with
    | nil => exact fun h => h _ nofun (List.Subset.refl _)
    | cons key keys ih =>
      intro asked h
      refine .request (List.mem_cons_self ..) (ih fun asked' hkeys hsub => h asked' ?_ ?_)
      · exact List.forall_mem_cons.2 ⟨hsub (List.mem_cons_self ..), hkeys⟩
      · exact fun a ha => hsub (List.mem_cons_of_mem _ ha)
  refine .source (hrequest keys fun asked' hkeys _ =>
    of_later (awaitAll (fun values hvalues => ?_) hkeys))
  refine .done fun value lazy he hl => ?_
  cases values with
  | error e => cases he
  | ok items =>
    cases he
    cases hl with
    | list hm hl => exact absurd hl (hvalues items rfl _ hm lazy)

end Resolution.Batched

namespace Recorded

/-- Sources that were made, and keys that they were asked for. -/
structure Knows (r : Recorded) (made : List SourceKind) (asked : List Ask) : Prop where
  made : ∀ kind ∈ made, r.world.Opened kind
  asked : ∀ a ∈ asked, .asked a ∈ r.events

/-- No source and no event is lost. -/
structure Grows (r r' : Recorded) : Prop where
  made : ∀ kind, r.world.Opened kind → r'.world.Opened kind
  events : ∀ e ∈ r.events, e ∈ r'.events

variable {r r' r'' : Recorded} {made : List SourceKind} {asked : List Ask}

theorem Grows.refl (r : Recorded) : r.Grows r :=
  ⟨fun _ => id, fun _ => id⟩

theorem Grows.trans (h : r.Grows r') (h' : r'.Grows r'') : r.Grows r'' :=
  ⟨fun kind hk => h'.made kind (h.made kind hk), fun e he => h'.events e (h.events e he)⟩

theorem Knows.grows (h : r.Knows made asked) (hg : r.Grows r') : r'.Knows made asked :=
  ⟨fun kind hk => hg.made kind (h.made kind hk), fun a ha => hg.events _ (h.asked a ha)⟩

theorem grows_of_supplies (r : Recorded) {w : World} (hs : w.supplies = r.world.supplies) :
    r.Grows { r with world := w } := by
  refine ⟨fun kind hk => ?_, fun _ => id⟩
  obtain ⟨s, hk⟩ := hk
  exact ⟨s, by rw [World.supply?, hs]; exact hk⟩

theorem grows_addSupply (r : Recorded) (s : Supply) :
    r.Grows { r with world := r.world.addSupply s } := by
  refine ⟨fun kind hk => ?_, fun _ => id⟩
  obtain ⟨s', hs⟩ := hk
  rw [World.Opened, World.supply?_addSupply]
  split
  · exact ⟨_, rfl⟩
  · exact ⟨s', hs⟩

theorem grows_request (r : Recorded) (kind : SourceKind) (key : String) :
    r.Grows (r.request kind key) := by
  refine ⟨fun other ho => ?_, fun e he => List.mem_append_left _ he⟩
  obtain ⟨s, hs⟩ := ho
  exact ⟨_, by rw [world_request, World.supply?_request, hs]; rfl⟩

/-- The lazies that may be forced once there has been a flush. -/
def Owes (r : Recorded) (work : Resolution) : Prop :=
  ∃ made asked, r.Knows made asked ∧ work.Batched made asked asked

/-- What work gives in a phase: the phase goes on, and the lazies may be forced after it. -/
structure Gives (past : List Event) (r : Recorded)
    (result : Outcome Resolution × Assoc Json × Recorded) : Prop where
  phase : ∃ asks, InPhase past asks result.2.2
  grows : r.Grows result.2.2
  owes : ∀ value lazy, result.1 = .ok value → value.Defers lazy → result.2.2.Owes lazy

theorem Gives.after {past : List Event} {result : Outcome Resolution × Assoc Json × Recorded}
    (hg : r.Grows r') (h : Gives past r' result) : Gives past r result :=
  ⟨h.phase, hg.trans h.grows, h.owes⟩

end Recorded

/-- Work asks for keys and has none loaded. -/
theorem Resolution.Batched.record {past : List Event} {made : List SourceKind}
    {ready asked : List Ask} {work : Resolution} (h : work.Batched made ready asked) :
    ∀ (entries : Assoc Json) {r : Recorded} {asks : List Ask}, InPhase past asks r →
      r.Knows made asked → (∀ a ∈ ready, .asked a ∈ past) →
      Recorded.Gives past r (work.record entries r) := by
  induction h with
  | @done made ready asked outcome hlazies =>
    intro entries r asks hr hk _
    exact ⟨⟨asks, hr⟩, .refl r, fun value lazy he hl =>
      ⟨made, asked, hk, hlazies value lazy he hl⟩⟩
  | @trace made ready asked line next _ ih =>
    intro entries r asks hr hk hready
    have hg := r.grows_of_supplies (w := r.world.trace [line]) rfl
    exact .after hg (ih entries (hr.of_supplies rfl rfl) (hk.grows hg) hready)
  | extend _ ih => exact fun entries r asks hr hk => ih _ hr hk
  | @count made ready asked kind next _ ih =>
    intro entries r asks hr hk hready
    have hg := r.grows_of_supplies (w := (r.world.count kind).2) rfl
    exact .after hg
      (ih (r.world.count kind).1 entries (hr.of_supplies rfl rfl) (hk.grows hg) hready)
  | @source made ready asked kind loader next _ ih =>
    intro entries r asks hr hk hready
    have hg := r.grows_addSupply ⟨kind, loader, .fresh⟩
    have hmade : ∀ other ∈ kind :: made,
        (r.world.addSupply ⟨kind, loader, .fresh⟩).Opened other := by
      intro other hm
      rcases List.mem_cons.1 hm with rfl | hm
      · exact World.opened_addSupply r.world _
      · exact (hk.grows hg).made other hm
    exact .after hg (ih entries (hr.addSupply kind loader) ⟨hmade, hk.asked⟩ hready)
  | @request made ready asked kind key next hkind _ ih =>
    intro entries r asks hr hk hready
    have hg := r.grows_request kind key
    have hasked : ∀ a ∈ (kind, key) :: asked, .asked a ∈ (r.request kind key).events := by
      intro a hm
      rcases List.mem_cons.1 hm with rfl | hm
      · exact List.mem_append_right _ (List.mem_singleton.2 rfl)
      · exact (hk.grows hg).asked a hm
    exact .after hg (ih entries (hr.request (hk.made kind hkind) key) ⟨(hk.grows hg).made, hasked⟩
      hready)
  | @await made ready asked kind key next hkey _ ih =>
    intro entries r asks hr hk hready
    rw [Resolution.record, hr.awaited (hready _ hkey)]
    exact ih _ entries hr hk hready

/-- Resolvers that defer by having keys loaded, and middleware that keeps work so. -/
structure Registry.Batched (registry : Registry Resolver) (middleware : List Middleware) :
    Prop where
  resolver : ∀ {object field : Name} {spec : FieldSpec Resolver} {resolver : Resolver},
    registry.field? object field = some spec → spec.resolver = some resolver →
      ∀ ctx, (resolver ctx).Batched [] [] []
  middleware : ∀ m ∈ middleware, ∀ ctx next, next.Batched [] [] [] → (m ctx next).Batched [] [] []

theorem Registry.Batched.resolution {registry : Registry Resolver} {middleware : List Middleware}
    (h : registry.Batched middleware) {object field : Name} {spec : FieldSpec Resolver}
    (hf : registry.field? object field = some spec) (ctx : FieldContext) :
    (resolution middleware spec.resolver ctx).Batched [] [] [] := by
  have hwrap : ∀ (around : List Middleware) (inner : Resolution), around ⊆ middleware →
      inner.Batched [] [] [] →
      (around.foldr (fun m next => m ctx next) inner).Batched [] [] [] := by
    intro around inner hsub hinner
    induction around with
    | nil => exact hinner
    | cons m around ih =>
      exact h.middleware m (hsub (List.mem_cons_self ..)) ctx _
        (ih fun m' hm => hsub (List.mem_cons_of_mem _ hm))
  refine hwrap middleware _ (List.Subset.refl _) ?_
  cases hr : spec.resolver with
  | some resolver => exact h.resolver hf hr ctx
  | none => exact .done fun value lazy he hl => by cases he; cases hl

namespace Phase

/-- Worlds in a phase: what is put aside may be forced after it, and what was asked for before it
may be forced. -/
def bond (past : List Event) : Bond Resolution World Recorded where
  paired w r := r.world = w ∧ ∃ asks, InPhase past asks r
  owed _ r work := r.Owes work
  due _ r work := ∃ made ready, r.Knows made ready ∧ (∀ a ∈ ready, .asked a ∈ past) ∧
    work.Batched made ready ready

theorem carries_of_grows {past : List Event} {r r' : Recorded} (hg : r.Grows r')
    (h : ∃ asks, InPhase past asks r') : (bond past).Carries r.world r r'.world r' where
  paired := ⟨rfl, h⟩
  owed := fun _ ⟨made, asked, hk, hw⟩ => ⟨made, asked, hk.grows hg, hw⟩
  due := fun _ ⟨made, ready, hk, hready, hw⟩ => ⟨made, ready, hk.grows hg, hready, hw⟩

theorem host_alike {registry : Registry Resolver} {middleware : List Middleware}
    (h : registry.Batched middleware) (past : List Event) :
    (World.host middleware).Alike (Recorded.host middleware) registry (bond past) where
  resolve {object field spec w r} hf hw ctx entries := by
    obtain ⟨rfl, asks, hr⟩ := hw
    have hgives := (h.resolution hf ctx).record entries hr ⟨nofun, nofun⟩ nofun
    exact ⟨_, _, _, _, Resolution.run_eq_record _ entries r, rfl,
      carries_of_grows hgives.grows hgives.phase,
      fun value hv lazy hl => hgives.owes value lazy hv hl⟩
  force {lazy w r} hw hdue := by
    obtain ⟨rfl, asks, hr⟩ := hw
    obtain ⟨made, ready, hk, hready, hwork⟩ := hdue
    have hgives := hwork.record [] hr hk hready
    have hrun := Resolution.run_eq_record lazy [] r
    exact ⟨_, _, _, congrArg (fun x => (x.1, x.2.2)) hrun, rfl,
      carries_of_grows hgives.grows hgives.phase,
      fun value hv lazy hl => hgives.owes value lazy hv hl⟩

end Phase

/-! ## Phases of a run -/

/-- A list whose image comes in parts comes in parts. -/
theorem exists_of_map_eq_flatten {α β : Type} {f : α → β} {xs : List α} {parts : List (List β)}
    (h : xs.map f = parts.flatten) :
    ∃ xss : List (List α), xss.flatten = xs ∧ xss.map (List.map f) = parts := by
  induction parts generalizing xs with
  | nil => exact ⟨[], (List.map_eq_nil_iff.1 h).symm, rfl⟩
  | cons part parts ih =>
    obtain ⟨first, rest, rfl, rfl, hrest⟩ := List.map_eq_append_iff.1 h
    obtain ⟨xss, rfl, rfl⟩ := ih hrest
    exact ⟨first :: xss, rfl, rfl⟩

namespace InPhase

variable {past : List Event} {asks : List Ask} {r : Recorded}

theorem grows_flush (h : InPhase past asks r) : r.Grows r.flush := by
  obtain ⟨-, hevents, hsupply⟩ := h.flush_sources
  refine ⟨fun kind hk => ?_, fun e he => ?_⟩
  · obtain ⟨s, hs⟩ := hk
    exact ⟨_, by rw [hsupply, hs]; rfl⟩
  · rw [hevents]
    exact List.mem_append_left _ he

/-- What was put aside in a phase may be forced in the next one. -/
theorem due_flush (h : InPhase past asks r) {work : Resolution} (ho : r.Owes work) :
    (bond (r.events ++ loads (fresh past asks))).due r.flush.world r.flush work := by
  obtain ⟨made, asked, hk, hw⟩ := ho
  exact ⟨made, asked, hk.grows h.grows_flush,
    fun a ha => List.mem_append_left _ (hk.asked a ha), hw⟩

end InPhase

namespace Multiplex

variable {s : Schema Resolver Resolution World} {middleware : List Middleware} {m : Multiplex}

/-- From one wave on there is one phase for each wave. -/
theorem waves_batched (hs : s.registry.Batched middleware) (hh : s.host = World.host middleware)
    (fuel : Nat) {k : Nat} {runs : List (QueryRun Resolution)} {past : List Event} {r : Recorded}
    (hr : InPhase past [] r) (hruns : ∀ run ∈ runs, (bond past).Dues run.pending r.world r)
    (log : List (Job × List Event)) : ∃ l, ∃ waves : List (List Ask),
      Loop.Runs (s.under (Recorded.host middleware)) m fuel
        ⟨[.wave], true, k, none, runs, r, log⟩ l ∧
      l.next? (s.under (Recorded.host middleware)) m fuel = none ∧
      l.log = log ++ Phase.log past (waves.map fun asks => [(.wave, asks)]) := by
  induction k generalizing runs past r log with
  | zero =>
    refine ⟨_, [[]], Loop.runs_last hr.flushes (.inl ⟨rfl, rfl, rfl⟩), rfl, ?_⟩
    simp [Phase.log, Phase.flushes, fresh, kinds]
  | succ k ih =>
    have ha := host_alike hs past
    rw [← hh] at ha
    obtain ⟨halt, runs1, w1, r1, -, hadvance, hc, hk⟩ := advanceAll_alike (s := s) (m := m)
      (fun _ => fun hc hd => hd.carried hc) (wave_alike ha) ⟨rfl, [], hr⟩ hruns
    obtain ⟨-, asks, hr1⟩ := hc.paired
    have hasked : r1.events.drop r.events.length = asks.map .asked := by
      rw [hr1.events, hr.events]
      simp
    have hwave := Loop.runs_wave (k := k) fuel log hadvance
    rw [hasked, hr1.flush_sources.1] at hwave
    cases halt with
    | some halt => exact ⟨_, [asks], hwave, rfl, by simp [Phase.log]⟩
    | none =>
      simp only [Option.isNone_none, Bool.true_and] at hwave
      split at hwave
      · obtain ⟨l, waves, hruns, hend, hlog⟩ := ih hr1.flush
          (fun run hm d hd => hr1.due_flush (hk rfl run hm d hd)) _
        refine ⟨l, asks :: waves, hwave.trans hruns, hend, ?_⟩
        rw [hlog, hr1.events]
        simp [Phase.log]
      · exact ⟨_, [asks], hwave, rfl, by simp [Phase.log]⟩

/-- When resolvers defer by having keys loaded, and no request is a mutation, the jobs of a run come
in phases: in the first one all queries begin, and in each of the others there is one wave through
all of them. These jobs ask for keys and load none; after them, each source that was asked for new
keys has one flush, which loads them with one call. -/
theorem run_batched (hs : s.registry.Batched middleware) (hh : s.host = World.host middleware)
    (hm : ∀ query data p, .running query data p ∈ m.receiveAll s → query.plan.kind ≠ .mutation)
    (fuel : Nat) : ∃ l, Loop.Ends (s.under (Recorded.host middleware)) m fuel l ∧
      m.run s fuel .fresh = (outcome l.halt l.runs, l.record.world) ∧
      ∃ begins waves : List (List Ask), begins.length = m.requests.length ∧
        l.log = Phase.log [] (((List.range m.requests.length).map .begin).zip begins ::
          waves.map fun asks => [(.wave, asks)]) := by
  obtain ⟨l, hends, hrun⟩ := Loop.exists_run (s := s.under (Recorded.host middleware)) rfl m fuel
  refine ⟨l, hends, ?_, ?_⟩
  · have hrecorded := run_recorded hh m fuel .fresh
    rw [hrun] at hrecorded
    exact hrecorded
  have ha := host_alike hs []
  rw [← hh] at ha
  obtain ⟨halt, runs1, w1, r1, -, hadvance, hc, hk⟩ := advanceAll_alike (s := s) (m := m)
    (w := .fresh) (v := .fresh) (fun _ => fun _ hp => hp) (begin_alike ha fuel) ⟨rfl, [], .start⟩
    fun run (hrun : run ∈ m.receiveAll s) => ⟨fresh_receiveAll s m run hrun,
      fun query data p he hkind => absurd hkind (hm query data p (he ▸ hrun))⟩
  replace hadvance : advanceAll (s.under (Recorded.host middleware)) m
    (fun e plan => e.begin fuel plan) (m.receiveAll (s.under (Recorded.host middleware))) .fresh =
      (halt, runs1, r1) := hadvance
  obtain ⟨-, asks, hr1⟩ := hc.paired
  obtain ⟨events, hlength, hevents, hbegun⟩ := Loop.runs_begun rfl hadvance
  -- each of the jobs in which queries begin asks for some of the keys
  rw [hr1.events, List.nil_append] at hevents
  obtain ⟨begins, rfl, rfl⟩ := exists_of_map_eq_flatten hevents
  rw [List.length_map] at hlength
  rw [hr1.flush_sources.1, Loop.begins_zero] at hbegun
  have hjobs : begins.length = ((List.range m.requests.length).map Job.begin).length := by
    rw [List.length_map, List.length_range, hlength]
  cases halt with
  | some halt =>
    have hlast := hbegun.trans (Loop.runs_last r1.flushes_flush (.inr ⟨rfl, rfl⟩))
    cases hends.unique ⟨hlast, rfl⟩
    refine ⟨begins, [[]], hlength, ?_⟩
    rw [Phase.log_cons hjobs]
    simp [Phase.log, Phase.flushes, fresh, kinds]
  | none =>
    obtain ⟨l', waves, hruns, hend, hlog⟩ := waves_batched hs hh fuel hr1.flush
      (fun run hrun d hd => hr1.due_flush (hk rfl run hrun d hd)) _
    cases hends.unique ⟨hbegun.trans hruns, hend⟩
    refine ⟨begins, waves, hlength, ?_⟩
    rw [Phase.log_cons hjobs, hlog, hr1.events]

end Multiplex

theorem Resolver.batched_load (kind : SourceKind) (loader : Loader) (many : Bool)
    (keys : FieldContext → Json) (ctx : FieldContext) :
    (Resolver.load kind loader many keys ctx).Batched [] [] [] := by
  unfold load
  simp only
  split
  · exact .json .null
  · split
    · exact .loadMany kind loader _
    · exact .load kind loader _

theorem Middleware.batched_log (label : String) (ctx : FieldContext) {next : Resolution}
    {made : List SourceKind} {ready asked : List Ask} (h : next.Batched made ready asked) :
    (Middleware.log label ctx next).Batched made ready asked := by
  refine .trace (h.andThen fun made ready asked outcome ho => ?_)
  exact .trace ho

/-! A schema with two sources, one of which is asked for what the other has found. -/

namespace Chains

def loader : Loader :=
  .table "chains" [] [] fun key => .string (key ++ "'")

def middleware : List Middleware :=
  [.log "log"]

/-- The key that a key of one source leads to in the other. -/
def follow (key : String) : Resolution :=
  .source 0 loader (.request 0 key (.defer (.await 0 key fun
    | .ok (some (.string found)) => .load 1 loader found
    | answer => .ofAnswer answer)))

def fields : Assoc (FieldSpec Resolver) :=
  [("far", ⟨none, [], .named "String" true, some fun _ => follow "a"⟩),
    ("near", ⟨none, [], .named "String" true, some (.load 1 loader false fun _ => .string "a")⟩),
    ("several", ⟨none, [], .list (.named "String" true) true,
      some (.load 0 loader true fun _ => .array [.string "b", .string "a", .string "b"])⟩)]

def schema : Schema Resolver Resolution World where
  registry :=
    ⟨[("String", .scalar (some .string)), ("Query", .object [] fields)], "Query", none, none⟩
  host := World.host middleware
  config := .default
  data := []

def multiplex : Multiplex :=
  .ofRequests [.ofQuery "\x7b far near \x7d", .ofQuery "\x7b several far \x7d"]

theorem batched_follow (key : String) : (follow key).Batched [] [] [] := by
  refine .source (.request (List.mem_cons_self ..) (.of_later ?_))
  refine .await (List.mem_cons_self ..) fun answer => ?_
  split
  · exact .load 1 loader _
  · exact .ofAnswer answer

theorem batched : schema.registry.Batched middleware where
  resolver {object name spec resolver} hf hr ctx := by
    obtain ⟨type, ht, hf⟩ := Option.bind_eq_some_iff.1 hf
    have hm := Assoc.mem_of_get? ht
    simp only [schema, List.mem_cons, List.not_mem_nil, or_false, Prod.mk.injEq] at hm
    obtain ⟨-, rfl⟩ | ⟨-, rfl⟩ := hm
    · cases hf
    · have hm := Assoc.mem_of_get? hf
      simp only [fields, List.mem_cons, List.not_mem_nil, or_false, Prod.mk.injEq] at hm
      obtain ⟨-, rfl⟩ | ⟨-, rfl⟩ | ⟨-, rfl⟩ := hm
      · cases hr
        exact batched_follow "a"
      · cases hr
        exact Resolver.batched_load ..
      · cases hr
        exact Resolver.batched_load ..
  middleware m hm ctx next h := by
    cases List.mem_singleton.1 hm
    exact Middleware.batched_log _ ctx h

/-- Whether a request has no mutation to run. -/
def reads : QueryRun Resolution → Bool
  | .running query _ _ => query.plan.kind ≠ .mutation
  | _ => true

end Chains

theorem Multiplex.run_batched_chains : ∃ l,
    Loop.Ends (Chains.schema.under (Recorded.host Chains.middleware)) Chains.multiplex 3 l ∧
    Chains.multiplex.run Chains.schema 3 .fresh = (outcome l.halt l.runs, l.record.world) ∧
    ∃ begins waves : List (List Ask), begins.length = 2 ∧
      l.log = Phase.log [] (((List.range 2).map .begin).zip begins ::
        waves.map fun asks => [(.wave, asks)]) := by
  refine run_batched Chains.batched rfl (fun query data p hrun => ?_) 3
  have hreads : (Chains.multiplex.receiveAll Chains.schema).all Chains.reads = true := by
    decide +kernel
  simpa [Chains.reads] using List.all_eq_true.1 hreads _ hrun

end GraphQL
