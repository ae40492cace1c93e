import GraphQL.Proofs.Execution.Data
import GraphQL.Proofs.Resolver.World
import GraphQL.Proofs.Source
import GraphQL.Resolver.Basic

/-!
# Steady resolvers

A resolver may leave traces, count, and have keys loaded. It is steady when what it gives does not
depend on any of that: loaders answer each key as in a catalogue, whatever else they load with it,
and keys are asked for before their answers are awaited. With steady resolvers the data of a request
are those of direct evaluation, in which lazies are forced on the spot and keys are looked up in the
catalogue (`Multiplex.run_data`).
-/

namespace GraphQL

/-- What sources answer to keys. -/
abbrev Catalogue :=
  SourceKind → String → Except FieldError (Option Json)

/-- A loader answers each of the keys it loads as given, whatever the others are. -/
def Loader.Follows (l : Loader) (answer : String → Except FieldError (Option Json)) : Prop :=
  ∀ keys key, key ∈ keys → Source.answerOf (l.load keys) key = answer key

/-! ## Worlds -/

/-- What a source has answered, and what it will, is as in a catalogue. -/
structure Supply.Follows (s : Supply) (c : Catalogue) : Prop where
  loader : s.loader.Follows (c s.kind)
  answers : ∀ key answer, s.source.answer? key = some answer → answer = c s.kind key

namespace Supply

variable {c : Catalogue} {s : Supply} {key : String}

theorem Follows.request (h : s.Follows c) (key : String) :
    Follows { s with source := s.source.request key } c := by
  refine ⟨h.loader, fun key' answer ha => ?_⟩
  rw [Source.answer?_request] at ha
  exact h.answers key' answer ha

/-- A source that loads its pending keys answers them. -/
theorem answer?_synced (hm : key ∈ s.source.pending) : s.synced.source.answer? key =
    some (Source.answerOf (s.loader.load s.source.pending) key) := by
  have hne : ¬ s.source.pending.isEmpty = true := by simpa using List.ne_nil_of_mem hm
  unfold synced
  rw [if_neg hne, Source.answer?_store, if_pos hm]

theorem Follows.synced (h : s.Follows c) : s.synced.Follows c := by
  refine ⟨h.loader, fun key answer ha => ?_⟩
  by_cases hm : key ∈ s.source.pending
  · rw [answer?_synced hm] at ha
    rw [← Option.some.inj ha, h.loader _ _ hm]
    rfl
  · refine h.answers key answer ?_
    unfold Supply.synced at ha
    split at ha
    · exact ha
    · rwa [Source.answer?_store, if_neg hm] at ha

theorem asked_synced (h : s.source.Asked key) : s.synced.source.Asked key := by
  rcases h with h | hm
  · unfold synced
    split
    · exact .inl h
    · exact Source.Asked.store (.inl h) _
  · exact .inl (by rw [answer?_synced hm]; rfl)

end Supply

namespace World

/-- The sources of a world answer as in a catalogue. -/
def Follows (w : World) (c : Catalogue) : Prop :=
  ∀ kind s, w.supply? kind = some s → s.Follows c

def Opened (w : World) (kind : SourceKind) : Prop :=
  ∃ s, w.supply? kind = some s

def Asked (w : World) (kind : SourceKind) (key : String) : Prop :=
  ∃ s, w.supply? kind = some s ∧ s.source.Asked key

/-- A later world, which knows what was asked for before. -/
structure Grows (c : Catalogue) (w w' : World) : Prop where
  follows : w'.Follows c
  opened : ∀ kind, w.Opened kind → w'.Opened kind
  asked : ∀ kind key, w.Asked kind key → w'.Asked kind key

variable {c : Catalogue} {w w' w'' : World} {kind : SourceKind} {key : String} {s : Supply}

theorem follows_fresh (c : Catalogue) : World.fresh.Follows c :=
  nofun

namespace Grows

/-- Sources were changed, each by itself. -/
theorem of_map (h : w.Follows c) {f : Supply → Supply}
    (hs : ∀ kind, w'.supply? kind = (w.supply? kind).map f)
    (hfollows : ∀ s : Supply, s.Follows c → (f s).Follows c)
    (hasked : ∀ (s : Supply) (key : String), s.source.Asked key → (f s).source.Asked key) :
    Grows c w w' := by
  constructor
  · intro kind s' hs'
    rw [hs] at hs'
    obtain ⟨s, hk, rfl⟩ := Option.map_eq_some_iff.1 hs'
    exact hfollows s (h kind s hk)
  · rintro kind ⟨s, hk⟩
    exact ⟨f s, by rw [hs, hk]; rfl⟩
  · rintro kind key ⟨s, hk, ha⟩
    exact ⟨f s, by rw [hs, hk]; rfl, hasked s key ha⟩

theorem of_supplies (h : w.Follows c) (he : w'.supplies = w.supplies) : Grows c w w' :=
  of_map (f := id) h (fun kind => by rw [supply?_of_supplies he, Option.map_id]; rfl)
    (fun _ hs => hs) fun _ _ ha => ha

theorem refl (h : w.Follows c) : Grows c w w :=
  of_supplies h rfl

theorem trans (h : Grows c w w') (h' : Grows c w' w'') : Grows c w w'' :=
  ⟨h'.follows, fun kind hk => h'.opened kind (h.opened kind hk),
    fun kind key hk => h'.asked kind key (h.asked kind key hk)⟩

theorem addSupply (h : w.Follows c) (hs : s.Follows c) : Grows c w (w.addSupply s) := by
  have hkept : ∀ {kind : SourceKind} {s' : Supply}, w.supply? kind = some s' →
      (w.addSupply s).supply? kind = some s' := by
    intro kind s' hk
    rw [supply?_addSupply, if_neg, hk]
    rintro ⟨hnone, rfl⟩
    simp [hk] at hnone
  constructor
  · intro kind s' hk
    rw [supply?_addSupply] at hk
    split at hk
    · cases hk
      exact hs
    · exact h kind s' hk
  · rintro kind ⟨s', hk⟩
    exact ⟨s', hkept hk⟩
  · rintro kind key ⟨s', hk, ha⟩
    exact ⟨s', hkept hk, ha⟩

theorem request (h : w.Follows c) (kind : SourceKind) (key : String) :
    Grows c w (w.request kind key) := by
  refine of_map h (fun other => supply?_request w kind other key) (fun s hs => ?_) fun s key' ha => ?_
  · split
    · exact hs.request key
    · exact hs
  · split
    · exact ha.request key
    · exact ha

theorem sync (h : w.Follows c) (kind : SourceKind) : Grows c w (w.sync kind) := by
  refine of_map h (supply?_sync w kind) (fun s hs => ?_) fun s key ha => ?_
  · split
    · exact hs.synced
    · exact hs
  · split
    · exact Supply.asked_synced ha
    · exact ha

theorem awaited (h : w.Follows c) (kind : SourceKind) (key : String) :
    Grows c w (w.awaited kind key) := by
  unfold World.awaited
  split
  · exact refl h
  · exact sync h kind

theorem flush (h : w.Follows c) : Grows c w w.flush := by
  have hfold : ∀ (kinds : List SourceKind) {w : World}, w.Follows c →
      Grows c w (kinds.foldl World.sync w) := by
    intro kinds
    induction kinds with
    | nil => exact fun h => refl h
    | cons kind kinds ih => exact fun h => (sync h kind).trans (ih (sync h kind).follows)
  have htaken : Grows c w { w with flushes := [] } := of_supplies h rfl
  exact htaken.trans (hfold w.flushes htaken.follows)

end Grows

theorem asked_request (h : w.Opened kind) (key : String) : (w.request kind key).Asked kind key := by
  obtain ⟨s, hs⟩ := h
  refine ⟨{ s with source := s.source.request key }, ?_, Source.asked_request s.source key⟩
  rw [supply?_request, hs, Option.map_some, if_pos (kind_of_supply? hs)]

theorem source_sync (hs : w.supply? kind = some s) : (w.sync kind).source kind = s.synced.source := by
  refine source_of_supply? ?_
  rw [supply?_sync, hs, Option.map_some, if_pos (kind_of_supply? hs)]

theorem opened_addSupply (w : World) (s : Supply) : (w.addSupply s).Opened s.kind := by
  rw [Opened, supply?_addSupply]
  cases hs : w.supply? s.kind with
  | none => exact ⟨s, by simp⟩
  | some s' => exact ⟨s', by simp⟩

/-- The answer to a key that was asked for is that of the catalogue. -/
theorem answer_awaited (h : w.Follows c) (ha : w.Asked kind key) :
    ((w.awaited kind key).source kind).answer key = c kind key := by
  obtain ⟨s, hs, hkey⟩ := ha
  have hf := h kind s hs
  have hkind := kind_of_supply? hs
  have hsource := source_of_supply? hs
  unfold awaited
  rw [hsource]
  split
  · next hsome =>
    obtain ⟨answer, he⟩ := Option.isSome_iff_exists.1 hsome
    rw [hsource, Source.answer, he, hf.answers key answer he, hkind]
    rfl
  · next hnone =>
    have hm := hkey.resolve_left hnone
    rw [source_sync hs, Source.answer, Supply.answer?_synced hm, hf.loader _ _ hm, hkind]
    rfl

end World

/-! ## Work -/

namespace Resolution

/-- The outcome of work when sources answer as in a catalogue. -/
def outcome (c : Catalogue) : Resolution → Outcome Resolution
  | done outcome => outcome
  | trace _ next => next.outcome c
  | extend _ _ next => next.outcome c
  | count _ next => (next 0).outcome c
  | source _ _ next => next.outcome c
  | request _ _ next => next.outcome c
  | await kind key next => (next (c kind key)).outcome c

/-- The outcome of work does not depend on what else happens, once some sources were made and asked
for some keys; nor do those of the lazies in it. -/
inductive Steady (c : Catalogue) :
    List SourceKind → List (SourceKind × String) → Resolution → Prop where
  | done {kinds keys outcome} : (∀ message, outcome ≠ .error (.internal message)) →
      (∀ value lazy, outcome = .ok value → value.Defers lazy → Steady c kinds keys lazy) →
      Steady c kinds keys (.done outcome)
  | trace {kinds keys line next} : Steady c kinds keys next → Steady c kinds keys (.trace line next)
  | extend {kinds keys key value next} :
      Steady c kinds keys next → Steady c kinds keys (.extend key value next)
  /-- How many there are so far must not matter. -/
  | count {kinds keys kind next} : (∀ n, Steady c kinds keys (next n)) →
      (∀ n, (next n).outcome c = (next 0).outcome c) → Steady c kinds keys (.count kind next)
  | source {kinds keys kind loader next} : loader.Follows (c kind) →
      Steady c (kind :: kinds) keys next → Steady c kinds keys (.source kind loader next)
  | request {kinds keys kind key next} : kind ∈ kinds →
      Steady c kinds ((kind, key) :: keys) next → Steady c kinds keys (.request kind key next)
  | await {kinds keys kind key next} : (kind, key) ∈ keys →
      Steady c kinds keys (next (c kind key)) → Steady c kinds keys (.await kind key next)

end Resolution

namespace World

variable {c : Catalogue} {w w' : World}

/-- A world knows some sources and was asked for some keys. -/
structure Meets (c : Catalogue) (kinds : List SourceKind) (keys : List (SourceKind × String))
    (w : World) : Prop where
  follows : w.Follows c
  opened : ∀ kind ∈ kinds, w.Opened kind
  asked : ∀ k ∈ keys, w.Asked k.1 k.2

namespace Meets

variable {kinds : List SourceKind} {keys : List (SourceKind × String)}

theorem nothing (h : w.Follows c) : w.Meets c [] [] :=
  ⟨h, nofun, nofun⟩

theorem grows (h : w.Meets c kinds keys) (hg : Grows c w w') : w'.Meets c kinds keys :=
  ⟨hg.follows, fun kind hk => hg.opened kind (h.opened kind hk),
    fun k hk => hg.asked k.1 k.2 (h.asked k hk)⟩

theorem source (h : w.Meets c kinds keys) {s : Supply} (hs : s.Follows c) :
    (w.addSupply s).Meets c (s.kind :: kinds) keys := by
  have hg := h.grows (.addSupply h.follows hs)
  refine ⟨hg.follows, fun kind hk => ?_, hg.asked⟩
  rcases List.mem_cons.1 hk with rfl | hk
  · exact opened_addSupply w s
  · exact hg.opened kind hk

theorem request (h : w.Meets c kinds keys) {kind : SourceKind} (hkind : kind ∈ kinds)
    (key : String) : (w.request kind key).Meets c kinds ((kind, key) :: keys) := by
  have hg := h.grows (.request h.follows kind key)
  refine ⟨hg.follows, hg.opened, fun k hk => ?_⟩
  rcases List.mem_cons.1 hk with rfl | hk
  · exact asked_request (h.opened kind hkind) key
  · exact hg.asked k hk

end Meets

/-- A world can do work that is steady after what it knows. -/
def Owes (c : Catalogue) (w : World) (r : Resolution) : Prop :=
  ∃ kinds keys, w.Meets c kinds keys ∧ r.Steady c kinds keys

def ledger (c : Catalogue) : Ledger Resolution World where
  good w := w.Follows c
  owes w r := w.Owes c r

theorem Grows.ledger (h : Grows c w w') : (ledger c).Grows w w' where
  good := h.follows
  owes := fun _ ⟨kinds, keys, hw, hr⟩ => ⟨kinds, keys, hw.grows h, hr⟩

end World

theorem Ledger.Delivers.after {L W : Type} {g : Ledger L W} {expected outcome : Outcome L}
    {w w' w'' : W} (hg : g.Grows w w') (h : g.Delivers expected outcome w' w'') :
    g.Delivers expected outcome w w'' :=
  ⟨hg.trans h.grows, h.expected, h.safe, h.owes⟩

namespace Resolution

variable {c : Catalogue} {middleware : List Middleware}

/-- Steady work gives its outcome, whatever the world has come to. -/
theorem Steady.run {kinds : List SourceKind} {keys : List (SourceKind × String)} {r : Resolution}
    (h : r.Steady c kinds keys) : ∀ (entries : Assoc Json) {w : World}, w.Meets c kinds keys →
      (World.ledger c).Delivers (r.outcome c) (r.run entries w).1 w (r.run entries w).2.2 := by
  induction h with
  | @done kinds keys outcome hsafe hlazies =>
    intro entries w hw
    exact ⟨.refl hw.follows, rfl, hsafe, fun value lazy he hl =>
      ⟨kinds, keys, hw, hlazies value lazy he hl⟩⟩
  | @trace kinds keys line next _ ih =>
    intro entries w hw
    have hg : World.Grows c w (w.trace [line]) := .of_supplies hw.follows rfl
    exact (ih _ (hw.grows hg)).after hg.ledger
  | extend _ ih => exact fun entries => ih _
  | @count kinds keys kind next _ hsame ih =>
    intro entries w hw
    have hg : World.Grows c w (w.count kind).2 := .of_supplies hw.follows rfl
    have := ih (w.count kind).1 entries (hw.grows hg)
    rw [hsame] at this
    exact this.after hg.ledger
  | @source kinds keys kind loader next hloader _ ih =>
    intro entries w hw
    have hs : (⟨kind, loader, .fresh⟩ : Supply).Follows c := ⟨hloader, nofun⟩
    exact (ih _ (hw.source hs)).after (World.Grows.addSupply hw.follows hs).ledger
  | @request kinds keys kind key next hkind _ ih =>
    intro entries w hw
    exact (ih _ (hw.request hkind key)).after (World.Grows.request hw.follows kind key).ledger
  | @await kinds keys kind key next hkey _ ih =>
    intro entries w hw
    have hg := World.Grows.awaited hw.follows kind key
    have hanswer : ((w.awaited kind key).source kind).answer key = c kind key :=
      World.answer_awaited hw.follows (hw.asked _ hkey)
    simp only [Resolution.run, hanswer]
    exact (ih entries (hw.grows hg)).after hg.ledger

/-- How many lazies work comes to, one after the other. -/
def links (c : Catalogue) : Resolution → Nat
  | done (.ok (.later r)) => r.links c + 1
  | done _ => 0
  | trace _ next => next.links c
  | extend _ _ next => next.links c
  | count _ next => (next 0).links c
  | source _ _ next => next.links c
  | request _ _ next => next.links c
  | await kind key next => (next (c kind key)).links c

theorem links_lt (c : Catalogue) : ∀ {r r' : Resolution}, r.outcome c = .ok (.later r') →
    r'.links c < r.links c
  | done (.ok (.later r)), r', h => by
    cases h
    exact Nat.lt_succ_self _
  | trace _ next, r', h => links_lt (r := next) c h
  | extend _ _ next, r', h => links_lt (r := next) c h
  | count _ next, r', h => links_lt (r := next 0) c h
  | source _ _ next, r', h => links_lt (r := next) c h
  | request _ _ next, r', h => links_lt (r := next) c h
  | await kind key next, r', h => links_lt (r := next (c kind key)) c h

/-- What resolvers with middleware around them give, when sources answer as in a catalogue. -/
def answers (middleware : List Middleware) (c : Catalogue) : Answers Resolver Resolution where
  field resolver ctx := (resolution middleware resolver ctx).outcome c
  lazy r := r.outcome c
  links r := r.links c
  links_lt := links_lt c

end Resolution

/-- The resolvers of the fields of a registry are steady, and middleware keeps work so. -/
structure Registry.Steady (registry : Registry Resolver) (middleware : List Middleware)
    (c : Catalogue) : Prop where
  resolver : ∀ {object field : Name} {spec : FieldSpec Resolver} {resolver : Resolver},
    registry.field? object field = some spec → spec.resolver = some resolver →
      ∀ ctx, (resolver ctx).Steady c [] []
  middleware : ∀ m ∈ middleware, ∀ ctx next, next.Steady c [] [] → (m ctx next).Steady c [] []

theorem Registry.Steady.resolution {registry : Registry Resolver} {middleware : List Middleware}
    {c : Catalogue} (h : registry.Steady middleware c) {object field : Name}
    {spec : FieldSpec Resolver} (hf : registry.field? object field = some spec)
    (ctx : FieldContext) : (resolution middleware spec.resolver ctx).Steady c [] [] := by
  have hwrap : ∀ (around : List Middleware) (inner : Resolution), around ⊆ middleware →
      inner.Steady c [] [] → (around.foldr (fun m next => m ctx next) inner).Steady c [] [] := by
    intro around inner hsub hinner
    induction around with
    | nil => exact hinner
    | cons m around ih =>
      exact h.middleware m (hsub (List.mem_cons_self ..)) ctx _
        (ih fun m' hm => hsub (List.mem_cons_of_mem _ hm))
  refine hwrap middleware _ (List.Subset.refl _) ?_
  cases hr : spec.resolver with
  | some resolver => exact h.resolver hf hr ctx
  | none => exact .done nofun fun value lazy he hl => by cases he; cases hl

theorem World.host_determined {registry : Registry Resolver} {middleware : List Middleware}
    {c : Catalogue} (h : registry.Steady middleware c) :
    (World.host middleware).Determined registry (Resolution.answers middleware c)
      (World.ledger c) where
  resolve hf hg ctx entries := (h.resolution hf ctx).run entries (.nothing hg)
  force _ ho := by
    obtain ⟨kinds, keys, hw, hl⟩ := ho
    exact hl.run [] hw
  turn hg := (World.Grows.flush hg).ledger
  drain hg := (World.Grows.flush hg).ledger

/-! ## Basic resolvers and middleware -/

theorem Resolution.outcome_andThen (c : Catalogue) (f : Outcome Resolution → Resolution) :
    ∀ r : Resolution, (r.andThen f).outcome c = (f (r.outcome c)).outcome c
  | .done _ => rfl
  | .trace _ next => outcome_andThen c f next
  | .extend _ _ next => outcome_andThen c f next
  | .count _ next => outcome_andThen c f (next 0)
  | .source _ _ next => outcome_andThen c f next
  | .request _ _ next => outcome_andThen c f next
  | .await kind key next => outcome_andThen c f (next (c kind key))

/-- Steady work can be gone on with by what is steady for steady outcomes. -/
theorem Resolution.Steady.andThen {c : Catalogue} {f : Outcome Resolution → Resolution}
    {kinds : List SourceKind} {keys : List (SourceKind × String)} {r : Resolution}
    (hf : ∀ kinds keys outcome, (Resolution.done outcome).Steady c kinds keys →
      (f outcome).Steady c kinds keys) (h : r.Steady c kinds keys) :
    (r.andThen f).Steady c kinds keys := by
  induction h with
  | done hsafe hlazies => exact hf _ _ _ (.done hsafe hlazies)
  | trace _ ih => exact .trace ih
  | extend _ ih => exact .extend ih
  | count _ hsame ih =>
    refine .count ih fun n => ?_
    rw [outcome_andThen, outcome_andThen, hsame]
  | source hloader _ ih => exact .source hloader ih
  | request hkind _ ih => exact .request hkind ih
  | await hkey _ ih => exact .await hkey ih

/-- A table that refuses no key answers each by itself. -/
theorem Loader.follows_table (label : String) (missing : List String) (value : String → Json) :
    (Loader.table label [] missing value).Follows fun key =>
      .ok (if missing.contains key then none else some (value key)) := by
  intro keys key hm
  have hnone : keys.find? ([] : List String).contains = none := by simp
  simp only [Loader.table, hnone, Source.answerOf]
  have hfind := Source.find?_map_append value (keys.filter fun key => !missing.contains key) [] key
  rw [List.append_nil] at hfind
  rw [hfind]
  cases hc : missing.contains key with
  | true => rw [if_neg fun h => absurd (List.of_mem_filter h) (by simp [List.elem_iff.1 hc])]; rfl
  | false => rw [if_pos (List.mem_filter.2 ⟨hm, by rw [hc]; rfl⟩)]; rfl

theorem Resolver.steady_load {c : Catalogue} {kind : SourceKind} {loader : Loader}
    (hl : loader.Follows (c kind)) (hc : ∀ key message, c kind key ≠ .error (.internal message))
    (keys : FieldContext → Json) (ctx : FieldContext) :
    (Resolver.load kind loader false keys ctx).Steady c [] [] := by
  unfold load
  simp only
  split
  · exact .done nofun fun value lazy he hl => by cases he; cases hl
  · refine .source hl (.request (List.mem_cons_self ..) (.done nofun fun value lazy he hl => ?_))
    cases he
    cases hl
    refine .await (List.mem_cons_self ..) (.done (fun message => ?_) fun value lazy he hl => ?_)
    · cases ha : c kind (((keysOf (keys ctx)).head?).getD "") with
      | ok value => exact nofun
      | error error =>
        intro he
        cases he
        exact hc _ message ha
    · cases ha : c kind (((keysOf (keys ctx)).head?).getD "") with
      | ok found =>
        rw [ha] at he
        cases he
        cases hl
      | error error =>
        rw [ha] at he
        cases he

namespace Middleware

variable {c : Catalogue} {kinds : List SourceKind} {keys : List (SourceKind × String)}
  {next : Resolution}

theorem steady_log (label : String) (ctx : FieldContext) (h : next.Steady c kinds keys) :
    (Middleware.log label ctx next).Steady c kinds keys :=
  .trace (h.andThen fun _ _ _ ho => .trace ho)

theorem steady_count (kind key : String) (ctx : FieldContext) (h : next.Steady c kinds keys) :
    (Middleware.count kind key ctx next).Steady c kinds keys :=
  .count (fun _ => .extend h) fun _ => rfl

theorem steady_defer (ctx : FieldContext) (h : next.Steady c kinds keys) :
    (Middleware.defer ctx next).Steady c kinds keys := by
  refine h.andThen fun kinds keys outcome ho => ?_
  cases outcome with
  | error e => exact ho
  | ok value =>
    refine .done nofun fun value' lazy he hl => ?_
    cases he
    cases hl
    exact ho

end Middleware

namespace Multiplex

/-- With steady resolvers, whatever is deferred and however many waves that takes, the data of
requests are those of direct evaluation. That what a lazy of a source gives depends only on its key
is read as `Loader.Follows`: a loader that fails a batch as a whole would have it depend on the other
keys of the batch, and so on what else is deferred. -/
theorem run_data {s : Schema Resolver Resolution World} {middleware : List Middleware}
    {c : Catalogue} (hs : s.registry.Steady middleware c) (hh : s.host = World.host middleware)
    {m : Multiplex} {w : World} (hw : w.Follows c) {fuel : Nat}
    (hfuel : ((m.receiveAll s).map (lazies s m (Resolution.answers middleware c))).sum < fuel) :
    ∃ responses, (m.run s fuel w).1 = .ok responses ∧ responses.map Response.data =
      (m.receiveAll s).map (direct s m (Resolution.answers middleware c)) := by
  have hd := World.host_determined hs
  rw [← hh] at hd
  exact run_ok hd hw hfuel

end Multiplex

/-! A schema whose fields are all deferred, some of them twice. -/

namespace Greetings

def loader : Loader :=
  .table "greetings" [] ["nobody"] fun key => .string (key ++ "!")

def catalogue : Catalogue := fun _ key =>
  .ok (if ["nobody"].contains key then none else some (.string (key ++ "!")))

def middleware : List Middleware :=
  [.log "log", .count "fields" "count", .defer]

def field (type : TypeRef) (keys : FieldContext → Json) : FieldSpec Resolver :=
  ⟨none, [], type, some (Resolver.load 0 loader false keys)⟩

def fields : Assoc (FieldSpec Resolver) :=
  [("hello", field (.named "String" true) fun _ => .string "you"),
    ("reply", field (.named "String" true) fun _ => .string "nobody"),
    ("again", field (.named "Query" true) fun _ => .string "you"),
    ("needed", field (.named "String" false) fun _ => .string "nobody")]

def schema : Schema Resolver Resolution World where
  registry :=
    ⟨[("String", .scalar (some .string)), ("Query", .object [] fields)], "Query", none, none⟩
  host := World.host middleware
  config := .default
  data := []

/-- One of the fields that are asked for must not be null, and is. -/
def multiplex : Multiplex :=
  .ofRequests [.ofQuery "\x7b hello again \x7b hello needed \x7d reply \x7d"]

theorem steady : schema.registry.Steady middleware catalogue where
  resolver {object name spec resolver} hf hr ctx := by
    have hkeys : ∃ keys, resolver = Resolver.load 0 loader false keys := by
      obtain ⟨type, ht, hf⟩ := Option.bind_eq_some_iff.1 hf
      have hm := Assoc.mem_of_get? ht
      simp only [schema, List.mem_cons, List.not_mem_nil, or_false, Prod.mk.injEq] at hm
      obtain ⟨-, rfl⟩ | ⟨-, rfl⟩ := hm
      · cases hf
      · have hm := Assoc.mem_of_get? hf
        simp only [fields, List.mem_cons, List.not_mem_nil, or_false, Prod.mk.injEq] at hm
        obtain ⟨-, rfl⟩ | ⟨-, rfl⟩ | ⟨-, rfl⟩ | ⟨-, rfl⟩ := hm <;>
          exact ⟨_, (Option.some.inj hr).symm⟩
    obtain ⟨keys, rfl⟩ := hkeys
    refine Resolver.steady_load (Loader.follows_table _ _ _) (fun key message h => ?_) keys ctx
    cases h
  middleware m hm ctx next h := by
    simp only [middleware, List.mem_cons, List.not_mem_nil, or_false] at hm
    obtain rfl | rfl | rfl := hm
    · exact Middleware.steady_log _ ctx h
    · exact Middleware.steady_count _ _ ctx h
    · exact Middleware.steady_defer ctx h

end Greetings

theorem Multiplex.run_data_greetings :
    ∃ responses, (Greetings.multiplex.run Greetings.schema 11 .fresh).1 = .ok responses ∧
      responses.map Response.data = (Greetings.multiplex.receiveAll Greetings.schema).map
        (direct Greetings.schema Greetings.multiplex
          (Resolution.answers Greetings.middleware Greetings.catalogue)) :=
  run_data Greetings.steady rfl (World.follows_fresh _) (by decide +kernel)

end GraphQL
