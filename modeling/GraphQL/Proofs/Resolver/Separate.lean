import GraphQL.Proofs.Execution.Alike
import GraphQL.Proofs.Execution.Alone
import GraphQL.Proofs.Resolver.Steady

/-!
# Requests do not influence each other

Requests that run together share sources, counts and waves. When resolvers are steady, and what they
add to the response is too, the world they share is nothing to them: they might as well look keys up
in the catalogue that the sources answer by. Each request then gets the response that it gets alone
(`Schema.runAll_separate`).
-/

namespace GraphQL

namespace Resolution

/-- The entries of a response after work, when sources answer as in a catalogue. -/
def added (c : Catalogue) : Resolution → Assoc Json → Assoc Json
  | done _, entries => entries
  | trace _ next, entries => next.added c entries
  | extend key value next, entries => next.added c (entries.insert key value)
  | count _ next, entries => (next 0).added c entries
  | source _ _ next, entries => next.added c entries
  | request _ _ next, entries => next.added c entries
  | await kind key next, entries => (next (c kind key)).added c entries

/-- How many there are of a kind does not show in what work adds to the response. -/
def Reticent (c : Catalogue) : Resolution → Prop
  | done _ => True
  | trace _ next => next.Reticent c
  | extend _ _ next => next.Reticent c
  | count _ next => (∀ n, (next n).Reticent c) ∧ ∀ n, (next n).added c = (next 0).added c
  | source _ _ next => next.Reticent c
  | request _ _ next => next.Reticent c
  | await kind key next => (next (c kind key)).Reticent c

variable {c : Catalogue}

/-- Steady work that is reticent adds the same whatever the world has come to. -/
theorem Steady.entries_run {kinds : List SourceKind} {keys : List (SourceKind × String)}
    {r : Resolution} (h : r.Steady c kinds keys) : r.Reticent c →
    ∀ (entries : Assoc Json) {w : World},
      w.Meets c kinds keys → (r.run entries w).2.1 = r.added c entries := by
  induction h with
  | done _ _ _ => exact fun _ _ _ _ => rfl
  | trace _ ih =>
    exact fun hr entries w hw => ih hr entries (hw.grows (.of_supplies hw.follows rfl))
  | extend _ ih => exact fun hr entries => ih hr _
  | @count kinds keys kind next _ _ ih =>
    intro hr entries w hw
    have hg : World.Grows c w (w.count kind).2 := .of_supplies hw.follows rfl
    have hnext := ih (w.count kind).1 (hr.1 _) entries (hw.grows hg)
    rw [hr.2] at hnext
    exact hnext
  | @source kinds keys kind loader next hloader _ ih =>
    intro hr entries w hw
    have hs : (⟨kind, loader, .fresh⟩ : Supply).Follows c := ⟨hloader, nofun⟩
    exact ih hr entries (hw.source hs)
  | @request kinds keys kind key next hkind _ ih =>
    exact fun hr entries w hw => ih hr entries (hw.request hkind key)
  | @await kinds keys kind key next hkey _ ih =>
    intro hr entries w hw
    have hanswer : ((w.awaited kind key).source kind).answer key = c kind key :=
      World.answer_awaited hw.follows (hw.asked _ hkey)
    simp only [Resolution.run, hanswer]
    exact ih hr entries (hw.grows (.awaited hw.follows kind key))

end Resolution

/-- What the fields of a registry add to the response does not depend on counts. -/
def Registry.Reticent (registry : Registry Resolver) (middleware : List Middleware)
    (c : Catalogue) : Prop :=
  ∀ {object field : Name} {spec : FieldSpec Resolver}, registry.field? object field = some spec →
    ∀ ctx, (resolution middleware spec.resolver ctx).Reticent c

namespace Catalogue

variable {c : Catalogue} {middleware : List Middleware}

/-- Resolvers with middleware around them that look keys up in a catalogue. -/
def host (c : Catalogue) (middleware : List Middleware) : Host Resolver Resolution Unit where
  resolve resolver ctx entries _ :=
    let r := resolution middleware resolver ctx
    (r.outcome c, r.added c entries, ())
  force r _ := (r.outcome c, ())
  turn := id
  drain := id

/-- A world whose sources answer as in a catalogue. -/
def bond (c : Catalogue) : Bond Resolution World Unit where
  paired w _ := w.Follows c
  owed w _ r := w.Owes c r
  due w _ r := w.Owes c r

theorem carries_of_grows {w w' : World} (h : (World.ledger c).Grows w w') :
    c.bond.Carries w () w' () :=
  ⟨h.good, h.owes, h.owes⟩

theorem host_alike {registry : Registry Resolver} (hs : registry.Steady middleware c)
    (hr : registry.Reticent middleware c) :
    (World.host middleware).Alike (c.host middleware) registry c.bond where
  resolve {object field spec w v} hf hw ctx entries := by
    have hdel := (World.host_determined hs).resolve hf hw ctx entries
    have hentries : ((World.host middleware).resolve spec.resolver ctx entries w).2.1 =
        (resolution middleware spec.resolver ctx).added c entries :=
      (hs.resolution hf ctx).entries_run (hr hf ctx) entries (.nothing hw)
    refine ⟨_, _, _, (), rfl, ?_, carries_of_grows hdel.grows, fun value hv l hl =>
      hdel.owes value l hv hl⟩
    exact congrArg₂ (fun outcome entries => (outcome, entries, ())) hdel.expected.symm hentries.symm
  force {l w v} hw hl := by
    have hdel := (World.host_determined hs).force hw hl
    refine ⟨_, _, (), rfl, ?_, carries_of_grows hdel.grows, fun value hv l hl =>
      hdel.owes value l hv hl⟩
    exact congrArg (fun outcome => (outcome, ())) hdel.expected.symm

end Catalogue

namespace Schema

variable {s : Schema Resolver Resolution World} {middleware : List Middleware} {c : Catalogue}

/-- Requests come to what they come to without a world. -/
theorem runAll_eq_catalogue (hs : s.registry.Steady middleware c)
    (hr : s.registry.Reticent middleware c) (hh : s.host = World.host middleware) {w : World}
    (hw : w.Follows c) (requests : List Request) (fuel : Nat) :
    (s.runAll requests fuel w).1 = ((s.under (c.host middleware)).runAll requests fuel ()).1 := by
  have hserves : ∀ {w : World} {v : Unit}, c.bond.paired w v →
      c.bond.Serves World.flush id w v := fun {w v} hw =>
    have hg := Catalogue.carries_of_grows (World.Grows.flush hw).ledger
    ⟨hg, hg.owed⟩
  have ha := Catalogue.host_alike hs hr
  rw [← hh] at ha
  obtain ⟨responses, w', v', hrun, hrun', -⟩ := Multiplex.run_alike (m := .ofRequests requests)
    (w := w) (v := ()) ha (by rw [hh]; exact hserves) (by rw [hh]; exact hserves)
    (fun _ _ _ _ _ _ _ _ _ ho => ho) hw fuel
  rw [runAll, runAll, hrun, hrun']

/-- With steady resolvers, requests that run together have responses, and the response of each, its
errors in order and its extensions included, is the one that it has alone: whatever the others are,
whether they are refused, have nothing to run, or are mutations. -/
theorem runAll_separate (hs : s.registry.Steady middleware c)
    (hr : s.registry.Reticent middleware c) (hh : s.host = World.host middleware) {w w' : World}
    (hw : w.Follows c) (hw' : w'.Follows c) (requests : List Request) :
    (∃ bound, ∀ fuel, bound < fuel → ∃ responses, (s.runAll requests fuel w).1 = .ok responses) ∧
    ∀ fuel responses, (s.runAll requests (fuel + 1) w).1 = .ok responses ↔
      List.Forall₂ (fun r response => (s.execute r (fuel + 1) w').1 = .ok response)
        requests responses := by
  constructor
  · have hd := World.host_determined hs
    rw [← hh] at hd
    let m := Multiplex.ofRequests requests
    refine ⟨((m.receiveAll s).map (Multiplex.lazies s m (Resolution.answers middleware c))).sum,
      fun fuel hfuel => ?_⟩
    obtain ⟨responses, hresponses, -⟩ := Multiplex.run_ok hd hw hfuel
    exact ⟨responses, hresponses⟩
  · intro fuel responses
    have halone : ∀ r, (s.execute r (fuel + 1) w').1 =
        ((s.under (c.host middleware)).execute r (fuel + 1) ()).1 := fun r => by
      rw [execute_fst, execute_fst, runAll_eq_catalogue hs hr hh hw']
    simp only [halone, runAll_eq_catalogue hs hr hh hw]
    exact runAll_ok_iff

end Schema

/-! ## Work that counts nothing -/

namespace Resolution

variable {c : Catalogue}

def Uncounted : Resolution → Prop
  | done _ => True
  | trace _ next => next.Uncounted
  | extend _ _ next => next.Uncounted
  | count _ _ => False
  | source _ _ next => next.Uncounted
  | request _ _ next => next.Uncounted
  | await _ _ next => ∀ answer, (next answer).Uncounted

theorem Uncounted.reticent : ∀ {r : Resolution}, r.Uncounted → r.Reticent c
  | done _, _ => trivial
  | trace _ next, h => reticent (r := next) h
  | extend _ _ next, h => reticent (r := next) h
  | count _ _, h => h.elim
  | source _ _ next, h => reticent (r := next) h
  | request _ _ next, h => reticent (r := next) h
  | await kind key next, h => reticent (r := next (c kind key)) (h (c kind key))

theorem Uncounted.andThen {f : Outcome Resolution → Resolution}
    (hf : ∀ outcome, (f outcome).Uncounted) :
    ∀ {r : Resolution}, r.Uncounted → (r.andThen f).Uncounted
  | done outcome, _ => hf outcome
  | trace _ next, h => andThen hf (r := next) h
  | extend _ _ next, h => andThen hf (r := next) h
  | count _ _, h => h.elim
  | source _ _ next, h => andThen hf (r := next) h
  | request _ _ next, h => andThen hf (r := next) h
  | await _ _ next, h => fun answer => andThen hf (r := next answer) (h answer)

end Resolution

theorem Resolver.uncounted_load (kind : SourceKind) (loader : Loader) (keys : FieldContext → Json)
    (ctx : FieldContext) : (Resolver.load kind loader false keys ctx).Uncounted := by
  unfold load
  simp only
  split
  · trivial
  · trivial

theorem Middleware.uncounted_log (label : String) (ctx : FieldContext) {next : Resolution}
    (h : next.Uncounted) : (Middleware.log label ctx next).Uncounted := by
  refine h.andThen fun outcome => ?_
  trivial

theorem Middleware.uncounted_defer (ctx : FieldContext) {next : Resolution} (h : next.Uncounted) :
    (Middleware.defer ctx next).Uncounted := by
  refine h.andThen fun outcome => ?_
  cases outcome <;> trivial

/-! A schema with a mutation, and with fields that are deferred and add to the response. -/

namespace Letters

def middleware : List Middleware :=
  [.log "log", .defer]

def field (entries : List (String × Json)) (keys : FieldContext → Json) : FieldSpec Resolver :=
  ⟨none, [], .named "Query" true,
    some (.extending entries (.load 0 Greetings.loader false keys))⟩

def fields : Assoc (FieldSpec Resolver) :=
  [("send", field [("sent", .bool true)] fun _ => .string "you"),
    ("read", field [] fun _ => .string "nobody")]

def schema : Schema Resolver Resolution World where
  registry := ⟨[("Query", .object [] fields), ("Mutation", .object [] fields)], "Query",
    some "Mutation", none⟩
  host := World.host middleware
  config := .default
  data := []

/-- One of the requests cannot be read, and one has nothing to run. -/
def requests : List Request :=
  [.ofQuery "\x7b read send \x7b send \x7b __typename \x7d \x7d \x7d", .ofQuery "\x7b read",
    .ofQuery "fragment F on Query \x7b read \x7d",
    .ofQuery "mutation \x7b send \x7b __typename \x7d read \x7b __typename \x7d \x7d"]

theorem load_of_field? {object name : Name} {spec : FieldSpec Resolver}
    (h : schema.registry.field? object name = some spec) : ∃ entries keys,
      spec = field entries keys ∧ (entries = [] ∨ entries = [("sent", .bool true)]) := by
  obtain ⟨type, ht, hf⟩ := Option.bind_eq_some_iff.1 h
  have htype : type = .object [] fields := by
    have hm := Assoc.mem_of_get? ht
    simp only [schema, List.mem_cons, List.not_mem_nil, or_false, Prod.mk.injEq] at hm
    obtain ⟨-, h⟩ | ⟨-, h⟩ := hm <;> exact h
  rw [htype] at hf
  have hm := Assoc.mem_of_get? hf
  simp only [fields, List.mem_cons, List.not_mem_nil, or_false, Prod.mk.injEq] at hm
  obtain ⟨-, rfl⟩ | ⟨-, rfl⟩ := hm
  · exact ⟨_, _, rfl, .inr rfl⟩
  · exact ⟨_, _, rfl, .inl rfl⟩

theorem steady : schema.registry.Steady middleware Greetings.catalogue where
  resolver {object name spec resolver} hf hr ctx := by
    obtain ⟨entries, keys, rfl, hentries⟩ := load_of_field? hf
    cases hr
    have hload :
        (Resolver.load 0 Greetings.loader false keys ctx).Steady Greetings.catalogue [] [] :=
      Resolver.steady_load (Loader.follows_table _ _ _) (fun _ _ h => by cases h) keys ctx
    obtain rfl | rfl := hentries
    · exact hload
    · exact .extend hload
  middleware m hm ctx next h := by
    simp only [middleware, List.mem_cons, List.not_mem_nil, or_false] at hm
    obtain rfl | rfl := hm
    · exact Middleware.steady_log _ ctx h
    · exact Middleware.steady_defer ctx h

theorem reticent : schema.registry.Reticent middleware Greetings.catalogue := by
  intro object name spec hf ctx
  obtain ⟨entries, keys, rfl, hentries⟩ := load_of_field? hf
  have hload := Resolver.uncounted_load 0 Greetings.loader keys ctx
  have hfield :
      (Resolver.extending entries (.load 0 Greetings.loader false keys) ctx).Uncounted := by
    obtain rfl | rfl := hentries <;> exact hload
  exact (Middleware.uncounted_log _ ctx (Middleware.uncounted_defer ctx hfield)).reticent

end Letters

theorem Schema.runAll_separate_letters : ∃ responses,
    (Letters.schema.runAll Letters.requests 6 .fresh).1 = .ok responses ∧
      List.Forall₂ (fun r response => (Letters.schema.execute r 6 .fresh).1 = .ok response)
        Letters.requests responses := by
  have h := runAll_separate Letters.steady Letters.reticent rfl (World.follows_fresh _)
    (World.follows_fresh _) Letters.requests
  cases hr : (Letters.schema.runAll Letters.requests 6 .fresh).1 with
  | ok responses => exact ⟨responses, rfl, (h.2 5 responses).1 hr⟩
  | error halt =>
    have hok : (Letters.schema.runAll Letters.requests 6 .fresh).1.isOk = true := by decide +kernel
    rw [hr] at hok
    cases hok

end GraphQL
