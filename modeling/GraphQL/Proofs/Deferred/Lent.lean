import GraphQL.Proofs.Deferred.Once

/-!
# Lazies of a source

A source lends a lazy out for keys that it was asked for: when forced, it awaits their answers and
makes its result of them. Whenever such a lazy gives a result, the keys that the result depends on
have their answers, and the result is the one they make (`Thread.Lent`). In between, the lazy waits
for its script, or for a loader that the script waits for.
-/

namespace GraphQL.Deferred

variable {α ε κ σ : Type}

/-- Answers to keys, as far as they are known. -/
abbrev Answers (κ α ε : Type) :=
  κ → Option (Except ε (Option α))

namespace Answers

/-- What is known stays known. -/
def Extends (known known' : Answers κ α ε) : Prop :=
  ∀ key answer, known key = some answer → known' key = some answer

theorem Extends.refl (known : Answers κ α ε) : known.Extends known :=
  fun _ _ => id

theorem Extends.trans {a b c : Answers κ α ε} (hab : a.Extends b) (hbc : b.Extends c) :
    a.Extends c :=
  fun key answer h => hbc key answer (hab key answer h)

end Answers

/-! ## Scripts that await answers -/

namespace Script

/-- The script does nothing but await the answers of a source to some keys. -/
inductive Awaits (id : SourceId) (keys : List κ) : Script α ε κ σ → Prop where
  | done (result : Result α ε) : Awaits id keys (.done result)
  | await {key : κ} {next : Except ε (Option α) → Script α ε κ σ} : key ∈ keys →
      (∀ answer, Awaits id keys (next answer)) → Awaits id keys (.await id key next)

/-- What a script that awaits answers makes of them, as soon as those it depends on are known. -/
def reply (known : Answers κ α ε) : Script α ε κ σ → Option (Result α ε)
  | .done result => some result
  | .await _ key next => (known key).bind fun answer => (next answer).reply known
  | _ => none

variable {id : SourceId} {keys keys' : List κ} {known known' : Answers κ α ε}
  {script thunk : Script α ε κ σ}

theorem Awaits.mono (h : script.Awaits id keys) (hsub : ∀ key ∈ keys, key ∈ keys') :
    script.Awaits id keys' := by
  induction h with
  | done result => exact .done result
  | await hk _ ih => exact .await (hsub _ hk) ih

theorem reply_mono (he : known.Extends known') {result : Result α ε}
    (h : script.reply known = some result) : script.reply known' = some result := by
  induction script with
  | done => exact h
  | await id key next ih =>
    obtain ⟨answer, ha, h⟩ := Option.bind_eq_some_iff.1 h
    exact Option.bind_eq_some_iff.2 ⟨answer, he _ _ ha, ih answer h⟩
  | _ => cases h

/-- What is left of a script of a lazy: it awaits answers and makes of them what the whole does. -/
def Finishes (id : SourceId) (keys : List κ) (known : Answers κ α ε)
    (script thunk : Script α ε κ σ) : Prop :=
  script.Awaits id keys ∧
    ∀ known', known.Extends known' → script.reply known' = thunk.reply known'

theorem Awaits.finishes (h : thunk.Awaits id keys) : thunk.Finishes id keys known thunk :=
  ⟨h, fun _ _ => rfl⟩

namespace Finishes

theorem mono (h : script.Finishes id keys known thunk) (hsub : ∀ key ∈ keys, key ∈ keys')
    (he : known.Extends known') : script.Finishes id keys' known' thunk :=
  ⟨h.1.mono hsub, fun _ he' => h.2 _ (he.trans he')⟩

theorem reply {result : Result α ε}
    (h : (Script.done result : Script α ε κ σ).Finishes id keys known thunk) :
    thunk.reply known = some result :=
  (h.2 known (.refl known)).symm

theorem of_await {other : SourceId} {key : κ} {next : Except ε (Option α) → Script α ε κ σ}
    (h : (Script.await other key next).Finishes id keys known thunk) : other = id ∧ key ∈ keys := by
  cases h.1 with
  | await hk _ => exact ⟨rfl, hk⟩

/-- The answer that is awaited is known. -/
theorem answered {key : κ} {other : SourceId} {next : Except ε (Option α) → Script α ε κ σ}
    {answer : Except ε (Option α)} (h : (Script.await other key next).Finishes id keys known thunk)
    (ha : known key = some answer) : (next answer).Finishes id keys known thunk := by
  obtain ⟨hawaits, hreply⟩ := h
  cases hawaits with
  | await hk hnext =>
    refine ⟨hnext answer, fun known' he => ?_⟩
    rw [← hreply known' he, Script.reply, he key answer ha, Option.bind_some]

end Finishes

end Script

/-! ## Lazies that are lent out -/

namespace Event

/-- A lazy was made whose script awaits keys that a source had been asked for by then. -/
def Lends (id : SourceId) (events : List (Event α ε κ σ)) (ref : Ref) (thunk : Script α ε κ σ) :
    Prop :=
  ∃ before after, events = before ++ .made ref thunk :: after ∧
    thunk.Awaits id (before.filterMap (Event.asked? id))

theorem lends_concat {id : SourceId} {events : List (Event α ε κ σ)} {e : Event α ε κ σ} {ref : Ref}
    {thunk : Script α ε κ σ} (h : Lends id (events ++ [e]) ref thunk) :
    Lends id events ref thunk ∨
      e = .made ref thunk ∧ thunk.Awaits id (events.filterMap (Event.asked? id)) := by
  obtain ⟨before, after, he, hawaits⟩ := h
  rcases List.eq_nil_or_concat after with rfl | ⟨after, last, rfl⟩
  · obtain ⟨rfl, hlast⟩ := List.append_inj' he rfl
    exact .inr ⟨List.singleton_inj.1 hlast, hawaits⟩
  · rw [List.concat_eq_append, ← List.cons_append, ← List.append_assoc] at he
    obtain ⟨rfl, -⟩ := List.append_inj' he rfl
    exact .inl ⟨before, after, rfl, hawaits⟩

theorem lends_of_ne {id : SourceId} {events : List (Event α ε κ σ)} {e : Event α ε κ σ} {ref : Ref}
    {thunk : Script α ε κ σ} (hne : ∀ ref thunk, e ≠ .made ref thunk)
    (h : Lends id (events ++ [e]) ref thunk) : Lends id events ref thunk :=
  (lends_concat h).resolve_right fun hm => hne _ _ hm.1

theorem awaits_of_lends {id : SourceId} {events : List (Event α ε κ σ)} {ref : Ref}
    {thunk : Script α ε κ σ} (h : Lends id events ref thunk) :
    thunk.Awaits id (events.filterMap (Event.asked? id)) := by
  obtain ⟨before, after, rfl, hawaits⟩ := h
  refine hawaits.mono fun key hk => ?_
  rw [List.filterMap_append]
  exact List.mem_append_left _ hk

end Event

namespace Thread

variable [DecidableEq κ]

/-- The answers that a source knows. -/
def known (id : SourceId) (t : Thread α ε κ σ) : Answers κ α ε :=
  (t.store.source id).answer?

/-- What runs for a caller will serve it: for a lazy that a source lent out, that is what is left
of its script, or the loader of the source, with what is left of the script to go on with. -/
def Serves (id : SourceId) (t : Thread α ε κ σ) (above : Script α ε κ σ ⊕ Caller α ε κ σ) :
    Caller α ε κ σ → Prop
  | .lazy ref _ => ∀ thunk, Event.Lends id t.events ref thunk →
    match above with
    | .inl script => script.Finishes id (t.asks id) (t.known id) thunk
    | .inr (.source other _ _ next) => other = id ∧ ∀ source : Source κ α ε,
      (t.known id).Extends source.answer? →
      (∀ key ∈ t.asks id, (source.answer? key).isSome = true) →
      (next source).Finishes id (t.asks id) source.answer? thunk
    | .inr _ => False
  | _ => True

/-- All callers are served by what runs for them. -/
def Served (id : SourceId) (t : Thread α ε κ σ) :
    Script α ε κ σ ⊕ Caller α ε κ σ → List (Caller α ε κ σ) → Prop
  | _, [] => True
  | above, caller :: callers => t.Serves id above caller ∧ t.Served id (.inr caller) callers

/-- What steps keep of the lazies that a source has lent out. -/
structure Lent (id : SourceId) (t : Thread α ε κ σ) : Prop where
  cells : ∀ {ref thunk}, Event.Lends id t.events ref thunk →
    t.store.cells[ref]? = some (.pending thunk) ∨ t.store.cells[ref]? = some .forcing ∨
      ∃ result, t.store.cells[ref]? = some (.resolved result) ∧
        thunk.reply (t.known id) = some result
  gave : ∀ {ref thunk result}, Event.Lends id t.events ref thunk → .gave ref result ∈ t.events →
    thunk.reply (t.known id) = some result
  allocated : ∀ {ref result}, .gave ref result ∈ t.events → ref < t.store.cells.size
  callers : ∀ {ref next}, .lazy ref next ∈ t.callers → ref < t.store.cells.size
  forcing : ∀ {ref}, t.store.cells[ref]? = some .forcing → ∃ next, .lazy ref next ∈ t.callers
  served : t.Served id (.inl t.script) t.callers

variable {id : SourceId} {t t' : Thread α ε κ σ}

/-- A thread that has come further: more keys were asked for, more answers are known, and no lazy
was lent out but new ones. -/
structure Grows (id : SourceId) (t t' : Thread α ε κ σ) : Prop where
  asks : ∀ key ∈ t.asks id, key ∈ t'.asks id
  known : (t.known id).Extends (t'.known id)
  lends : ∀ {ref thunk}, Event.Lends id t'.events ref thunk → ref < t.store.cells.size →
    Event.Lends id t.events ref thunk

theorem Serves.mono {above : Script α ε κ σ ⊕ Caller α ε κ σ} {caller : Caller α ε κ σ}
    (h : t.Serves id above caller) (g : Grows id t t')
    (hsize : ∀ ref next, caller = .lazy ref next → ref < t.store.cells.size) :
    t'.Serves id above caller := by
  cases caller with
  | lazy ref next =>
    intro thunk hl
    have h := h thunk (g.lends hl (hsize ref next rfl))
    match above, h with
    | .inl script, h => exact h.mono g.asks g.known
    | .inr (.source other keys answer next), ⟨ho, h⟩ =>
      refine ⟨ho, fun source he hall => ?_⟩
      -- the loader has answered the keys that were asked for before
      have h := h source (g.known.trans he) fun key hk => hall key (g.asks key hk)
      exact h.mono g.asks (.refl _)
  | queue next => trivial
  | source other keys answer next => trivial

theorem Served.mono {callers : List (Caller α ε κ σ)} (g : Grows id t t')
    (hsize : ∀ {ref next}, .lazy ref next ∈ callers → ref < t.store.cells.size) :
    ∀ {above}, t.Served id above callers → t'.Served id above callers := by
  induction callers with
  | nil => exact fun _ => trivial
  | cons caller callers ih =>
    intro above ⟨hs, h⟩
    refine ⟨hs.mono g fun ref next he => ?_, ih (fun hm => hsize (List.mem_cons_of_mem _ hm)) h⟩
    rw [he] at hsize
    exact hsize (List.mem_cons_self ..)

/-- What runs may be replaced by what serves the first caller as well. -/
theorem Served.imp {callers : List (Caller α ε κ σ)}
    {above above' : Script α ε κ σ ⊕ Caller α ε κ σ}
    (h : t.Served id above callers)
    (himp : ∀ ref next, t.Serves id above (.lazy ref next) → t.Serves id above' (.lazy ref next)) :
    t.Served id above' callers := by
  match callers, h with
  | [], _ => trivial
  | caller :: callers, ⟨hs, h⟩ =>
    refine ⟨?_, h⟩
    cases caller with
    | lazy ref next => exact himp ref next hs
    | _ => trivial

/-- Scripts of lazies that were lent out do nothing but await answers. -/
theorem Served.of_script {callers : List (Caller α ε κ σ)} {script : Script α ε κ σ}
    (h : t.Served id (.inl script) callers) (hscript : ¬ script.Awaits id (t.asks id))
    (above : Script α ε κ σ ⊕ Caller α ε κ σ) : t.Served id above callers :=
  h.imp fun _ _ hs thunk hl => absurd (hs thunk hl).1 hscript

/-- Nor do they wait for anyone but loaders of their source. -/
theorem Served.of_caller {caller : Caller α ε κ σ} {callers : List (Caller α ε κ σ)}
    (h : t.Served id (.inr caller) callers)
    (hcaller : ∀ keys answer next, caller ≠ .source id keys answer next)
    (above : Script α ε κ σ ⊕ Caller α ε κ σ) : t.Served id above callers := by
  refine h.imp fun ref next hs thunk hl => ?_
  have hs := hs thunk hl
  match caller, hs with
  | .source other keys answer next, ⟨ho, _⟩ => exact absurd (by rw [ho]) (hcaller keys answer next)

/-! ## What a step adds -/

theorem Kept.known_eq (h : t.Kept id) (key : κ) (answer : Except ε (Option α)) :
    t.known id key = some answer ↔ ∃ keys loaded, (keys, loaded) ∈ t.loads id ∧ key ∈ keys ∧
      answer = Source.answerOf loaded key :=
  h.sound.answers key answer

/-- Steps ask for more keys and learn more answers. -/
theorem Kept.grows (h : t.Kept id) (hq : ¬ t.CallsBack id) (hn : t.next? = some t')
    (hlends : ∀ {ref thunk}, Event.Lends id t'.events ref thunk → ref < t.store.cells.size →
      Event.Lends id t.events ref thunk) : Grows id t t' := by
  have hmoves := next?_moves h.opened hq hn
  refine ⟨fun _ => hmoves.asks_subset, fun key answer ha => ?_, hlends⟩
  obtain ⟨keys, loaded, hm, hk⟩ := (h.known_eq key answer).1 ha
  exact ((h.next hq hn).known_eq key answer).2 ⟨keys, loaded, hmoves.loads_subset hm, hk⟩

theorem Lent.reply_of_resolved (h : t.Lent id) {ref : Ref} {thunk : Script α ε κ σ}
    {result : Result α ε} (hl : Event.Lends id t.events ref thunk)
    (hc : t.store.cells[ref]? = some (.resolved result)) :
    thunk.reply (t.known id) = some result := by
  rcases h.cells hl with hp | hf | ⟨_, hr, hreply⟩
  · simp [hc] at hp
  · simp [hc] at hf
  · rw [hc] at hr
    cases hr
    exact hreply

theorem Lent.lt_size (h : t.Lent id) {ref : Ref} {thunk : Script α ε κ σ}
    (hl : Event.Lends id t.events ref thunk) : ref < t.store.cells.size := by
  rcases h.cells hl with hc | hc | ⟨_, hc, -⟩ <;> exact (Array.getElem?_eq_some_iff.1 hc).1

/-- No lazy is made or changed, and what lazies give is what they had. -/
structure KeepsLazies (t t' : Thread α ε κ σ) : Prop where
  cells : t'.store.cells = t.store.cells
  events : t'.events = t.events ∨ ∃ e, t'.events = t.events ++ [e] ∧
    (∀ ref thunk, e ≠ .made ref thunk) ∧
    ∀ ref result, e = .gave ref result → t.store.cells[ref]? = some (.resolved result)

/-- A step that leaves lazies alone. -/
theorem Lent.keep (h : t.Lent id) (hk : t.Kept id) (hq : ¬ t.CallsBack id) (hn : t.next? = some t')
    (hkeeps : KeepsLazies t t')
    (hcallers : ∀ ref next, .lazy ref next ∈ t'.callers ↔ .lazy ref next ∈ t.callers)
    (hserved : Grows id t t' → t'.Served id (.inl t'.script) t'.callers) : t'.Lent id := by
  obtain ⟨hcells, hevents⟩ := hkeeps
  have hlends : ∀ {ref thunk}, Event.Lends id t'.events ref thunk →
      Event.Lends id t.events ref thunk := by
    intro ref thunk hl
    rcases hevents with he | ⟨e, he, hmade, -⟩
    · rwa [he] at hl
    · rw [he] at hl
      exact Event.lends_of_ne hmade hl
  have hgave : ∀ {ref result}, .gave ref result ∈ t'.events → .gave ref result ∈ t.events ∨
      t.store.cells[ref]? = some (.resolved result) := by
    intro ref result hm
    rcases hevents with he | ⟨e, he, -, hgave⟩
    · rw [he] at hm
      exact .inl hm
    · rw [he] at hm
      exact (List.mem_append.1 hm).imp_right fun hm => hgave _ _ (List.mem_singleton.1 hm).symm
  have g : Grows id t t' := hk.grows hq hn fun hl _ => hlends hl
  refine ⟨fun hl => ?_, fun hl hm => ?_, fun hm => ?_, fun hm => ?_, fun hf => ?_, hserved g⟩
  · rw [hcells]
    exact (h.cells (hlends hl)).imp_right (.imp_right fun ⟨result, hc, hr⟩ =>
      ⟨result, hc, Script.reply_mono g.known hr⟩)
  · refine Script.reply_mono g.known ?_
    exact (hgave hm).elim (h.gave (hlends hl)) (h.reply_of_resolved (hlends hl))
  · rw [hcells]
    exact (hgave hm).elim h.allocated fun hc => (Array.getElem?_eq_some_iff.1 hc).1
  · rw [hcells]
    exact h.callers ((hcallers _ _).1 hm)
  · rw [hcells] at hf
    obtain ⟨next, hm⟩ := h.forcing hf
    exact ⟨next, (hcallers _ _).2 hm⟩

/-- A step that leaves lazies alone, after which the callers are served as they were before. -/
theorem Lent.keep_served (h : t.Lent id) (hk : t.Kept id) (hq : ¬ t.CallsBack id)
    (hn : t.next? = some t') (hkeeps : KeepsLazies t t')
    (hcallers : ∀ ref next, .lazy ref next ∈ t'.callers ↔ .lazy ref next ∈ t.callers)
    (hserved : t.Served id (.inl t'.script) t'.callers) : t'.Lent id :=
  h.keep hk hq hn hkeeps hcallers fun g =>
    hserved.mono g fun hm => h.callers ((hcallers _ _).1 hm)

/-- A step of a script that does not await answers, which leaves lazies alone and calls nobody. -/
theorem Lent.keep_callers (h : t.Lent id) (hk : t.Kept id) (hq : ¬ t.CallsBack id)
    (hn : t.next? = some t') (hscript : ¬ t.script.Awaits id (t.asks id))
    (hkeeps : KeepsLazies t t') (hcallers : t'.callers = t.callers) : t'.Lent id :=
  h.keep_served hk hq hn hkeeps (fun _ _ => by rw [hcallers])
    (hcallers ▸ h.served.of_script hscript _)

/-- A lazy is made. -/
theorem Lent.make (h : t.Lent id) (hk : t.Kept id) (hq : ¬ t.CallsBack id) (hn : t.next? = some t')
    (hscript : ¬ t.script.Awaits id (t.asks id)) {cell : Cell α ε κ σ}
    (hcells : t'.store.cells = t.store.cells.push cell) (hcell : cell ≠ .forcing)
    (hlends : ∀ {ref thunk}, Event.Lends id t'.events ref thunk →
      Event.Lends id t.events ref thunk ∨ ref = t.store.cells.size ∧ cell = .pending thunk)
    (hgave : ∀ {ref result}, .gave ref result ∈ t'.events → .gave ref result ∈ t.events)
    (hcallers : t'.callers = t.callers) : t'.Lent id := by
  have g : Grows id t t' := hk.grows hq hn fun hl hlt =>
    (hlends hl).resolve_right fun hnew => Nat.lt_irrefl _ (hnew.1 ▸ hlt)
  have hget : ∀ ref, t'.store.cells[ref]? =
      if ref = t.store.cells.size then some cell else t.store.cells[ref]? := fun ref => by
    rw [hcells, Array.getElem?_push]
  refine ⟨fun {ref thunk} hl => ?_, fun {ref thunk result} hl hm => ?_, fun hm => ?_, fun hm => ?_,
    fun {ref} hf => ?_, ?_⟩
  · rw [hget]
    rcases hlends hl with hl | ⟨hnew, rfl⟩
    · rw [if_neg (Nat.ne_of_lt (h.lt_size hl))]
      exact (h.cells hl).imp_right (.imp_right fun ⟨result, hc, hr⟩ =>
        ⟨result, hc, Script.reply_mono g.known hr⟩)
    · exact .inl (if_pos hnew)
  · rcases hlends hl with hl | ⟨hnew, -⟩
    · exact Script.reply_mono g.known (h.gave hl (hgave hm))
    · exact absurd (h.allocated (hgave hm)) (by rw [hnew]; exact Nat.lt_irrefl _)
  · rw [hcells, Array.size_push]
    exact Nat.lt_succ_of_lt (h.allocated (hgave hm))
  · rw [hcells, Array.size_push]
    exact Nat.lt_succ_of_lt (h.callers (hcallers ▸ hm))
  · rw [hget] at hf
    split at hf
    · exact absurd (Option.some.inj hf) hcell
    · rw [hcallers]
      exact h.forcing hf
  · rw [hcallers]
    exact (h.served.of_script hscript _).mono g h.callers

/-- A lazy has its script run. -/
theorem Lent.enter (h : t.Lent id) (hk : t.Kept id) (hq : ¬ t.CallsBack id) {ref : Ref}
    {next : Result α ε → Script α ε κ σ} {thunk : Script α ε κ σ}
    (hscript : ¬ t.script.Awaits id (t.asks id))
    (hc : t.store.cells[ref]? = some (.pending thunk))
    (hn : t.next? = some { t with
      script := thunk
      callers := .lazy ref next :: t.callers
      store := t.store.setCell ref .forcing }) :
    Lent id { t with
      script := thunk
      callers := .lazy ref next :: t.callers
      store := t.store.setCell ref .forcing } := by
  have g := hk.grows hq hn fun hl _ => hl
  have hlt : ref < t.store.cells.size := (Array.getElem?_eq_some_iff.1 hc).1
  have hget : ∀ other, (t.store.setCell ref .forcing).cells[other]? =
      if ref = other then some .forcing else t.store.cells[other]? := fun other => by
    rw [Store.setCell, Array.getElem?_setIfInBounds, if_pos hlt]
  have hsize : (t.store.setCell ref .forcing).cells.size = t.store.cells.size :=
    Array.size_setIfInBounds
  refine ⟨fun {other script} hl => ?_, fun hl hm => ?_, fun hm => ?_, fun {other goal} hm => ?_,
    fun {other} hf => ?_, fun script hl => ?_, (h.served.of_script hscript _).mono g h.callers⟩
  · simp only [hget]
    split
    · exact .inr (.inl rfl)
    · exact h.cells hl
  · exact h.gave hl hm
  · exact hsize ▸ h.allocated hm
  · rw [hsize]
    rcases List.mem_cons.1 hm with he | hm
    · cases he
      exact hlt
    · exact h.callers hm
  · simp only [hget] at hf
    split at hf
    · next he =>
      subst he
      exact ⟨next, List.mem_cons_self ..⟩
    · obtain ⟨goal, hm⟩ := h.forcing hf
      exact ⟨goal, List.mem_cons_of_mem _ hm⟩
  · -- the script is the one that the lazy was made with
    rcases h.cells hl with hp | hf | ⟨_, hr, -⟩
    · rw [hc] at hp
      cases hp
      exact (Event.awaits_of_lends hl).finishes
    · simp [hc] at hf
    · simp [hc] at hr

/-- The script of a lazy is done. -/
theorem Lent.resolve (h : t.Lent id) (hk : t.Kept id) (hq : ¬ t.CallsBack id) {ref : Ref}
    {next : Result α ε → Script α ε κ σ} {callers : List (Caller α ε κ σ)} {result : Result α ε}
    (hs : t.script = .done result) (hc : t.callers = .lazy ref next :: callers)
    (hn : t.next? = some ⟨next result, callers, t.store.setCell ref (.resolved result),
      t.events ++ [Event.gave ref result]⟩) :
    Lent id ⟨next result, callers, t.store.setCell ref (.resolved result),
      t.events ++ [Event.gave ref result]⟩ := by
  have hlends : ∀ {other thunk}, Event.Lends id (t.events ++ [Event.gave ref result]) other thunk →
      Event.Lends id t.events other thunk := Event.lends_of_ne nofun
  have g := hk.grows hq hn fun hl _ => hlends hl
  have hlt : ref < t.store.cells.size := h.callers (hc ▸ List.mem_cons_self ..)
  have hget : ∀ other, (t.store.setCell ref (.resolved result)).cells[other]? =
      if ref = other then some (.resolved result) else t.store.cells[other]? := fun other => by
    rw [Store.setCell, Array.getElem?_setIfInBounds, if_pos hlt]
  have hsize : (t.store.setCell ref (.resolved result)).cells.size = t.store.cells.size :=
    Array.size_setIfInBounds
  have hserved := h.served
  rw [hs, hc] at hserved
  have hreply : ∀ {thunk}, Event.Lends id t.events ref thunk →
      thunk.reply (t.known id) = some result := fun hl => (hserved.1 _ hl).reply
  refine ⟨fun {other thunk} hl => ?_, fun {other thunk result} hl hm => ?_, fun hm => ?_,
    fun {other goal} hm => ?_, fun {other} hf => ?_, ?_⟩
  · simp only [hget]
    split
    · next he =>
      subst he
      exact .inr (.inr ⟨result, rfl, Script.reply_mono g.known (hreply (hlends hl))⟩)
    · exact (h.cells (hlends hl)).imp_right (.imp_right fun ⟨result, hc, hr⟩ =>
        ⟨result, hc, Script.reply_mono g.known hr⟩)
  · refine Script.reply_mono g.known ?_
    rcases List.mem_append.1 hm with hm | hm
    · exact h.gave (hlends hl) hm
    · cases List.mem_singleton.1 hm
      exact hreply (hlends hl)
  · rw [hsize]
    rcases List.mem_append.1 hm with hm | hm
    · exact h.allocated hm
    · cases List.mem_singleton.1 hm
      exact hlt
  · rw [hsize]
    exact h.callers (hc ▸ List.mem_cons_of_mem _ hm)
  · simp only [hget] at hf
    split at hf
    · cases hf
    · next hne =>
      obtain ⟨goal, hm⟩ := h.forcing hf
      rw [hc] at hm
      refine ⟨goal, (List.mem_cons.1 hm).resolve_left fun he => hne ?_⟩
      cases he
      rfl
  · exact (hserved.2.of_caller nofun _).mono g fun hm => h.callers (hc ▸ List.mem_cons_of_mem _ hm)

/-- The loader of a source is done. -/
theorem Lent.load (h : t.Lent id) (hk : t.Kept id) (hq : ¬ t.CallsBack id) {other : SourceId}
    {keys : List κ} {answer : List κ → σ → Loaded κ α ε} {next : Source κ α ε → Script α ε κ σ}
    {callers : List (Caller α ε κ σ)} (hc : t.callers = .source other keys answer next :: callers)
    (hcallers : t'.callers = callers) (hscript : t'.script = next (t'.store.source other))
    (hcells : t'.store.cells = t.store.cells)
    (hevents : ∃ loaded, t'.events = t.events ++ [Event.loaded other keys loaded])
    (hn : t.next? = some t') : t'.Lent id := by
  obtain ⟨loaded, he⟩ := hevents
  have hserved := h.served
  rw [hc] at hserved
  refine h.keep hk hq hn ⟨hcells, .inr ⟨_, he, by simp, by simp⟩⟩
    (fun _ _ => by rw [hcallers, hc]; simp) fun g => ?_
  rw [hscript, hcallers]
  refine (hserved.2.mono g fun hm => h.callers (hc ▸ List.mem_cons_of_mem _ hm)).imp
    fun ref goal hs thunk hl => ?_
  obtain ⟨rfl, hs⟩ := hs thunk hl
  -- all batches have come back
  have hloading : t.loading other = keys :: callers.filterMap (Caller.loading? other) := by
    simp [loading, hc, Caller.loading?]
  have hdone : t'.loading other = [] := by
    rw [loading, hcallers]
    rcases hk.sound.alone with hnil | ⟨_, hone, -⟩
    · exact absurd (hloading.symm.trans hnil) (by simp)
    · exact (List.cons.inj (hloading.symm.trans hone)).2
  have hpending := (next?_moves hk.opened hq hn).pending_of_done hk.sound
    (show t.loading other ≠ [] by rw [hloading]; simp) hdone
  refine hs _ (.refl _) fun key hkey => ?_
  refine ((hk.next hq hn).sound.asked hdone hkey).resolve_right fun hm => ?_
  rw [hpending] at hm
  cases hm

/-! Sources that have their pending keys loaded -/

theorem Served.answered {other : SourceId} {key : κ} {next : Except ε (Option α) → Script α ε κ σ}
    {callers : List (Caller α ε κ σ)} (h : t.Served id (.inl (.await other key next)) callers)
    (hknown : ((t.store.source other).answer? key).isSome = true) :
    t.Served id (.inl (next ((t.store.source other).answer key))) callers := by
  obtain ⟨answer, ha⟩ := Option.isSome_iff_exists.1 hknown
  refine h.imp fun ref goal hs thunk hl => ?_
  have hfin := hs thunk hl
  obtain ⟨rfl, -⟩ := hfin.of_await
  have hanswer : (t.store.source other).answer key = answer := by rw [Source.answer, ha]; rfl
  rw [hanswer]
  exact hfin.answered ha

/-- When no key waits, the answer that is awaited is known. -/
theorem Served.of_idle (h : t.Served id (.inl t.script) t.callers) (hk : t.Kept id)
    (hq : ¬ t.CallsBack id) {other : SourceId} {goal : Source κ α ε → Script α ε κ σ}
    (hs : t.script.Syncs t.store other goal) (hp : (t.store.source other).pending = [])
    (script : Script α ε κ σ) : t.Served id (.inl script) t.callers := by
  obtain ⟨_, callers, s, events⟩ := t
  cases hs with
  | sync => exact h.of_script (by rintro ⟨⟩) _
  | @await key next hunknown =>
    refine h.imp fun ref goal hs thunk hl => ?_
    obtain ⟨rfl, hkey⟩ := (hs thunk hl).of_await
    have hloading := Classical.not_not.1 fun hl => hq ⟨hl, rfl⟩
    have hpending : key ∈ (s.source other).pending :=
      (hk.sound.asked hloading hkey).resolve_left hunknown
    rw [hp] at hpending
    cases hpending

/-- Otherwise what awaits it waits for the loader. -/
theorem Served.of_call (h : t.Served id (.inl t.script) t.callers) {other : SourceId}
    {goal : Source κ α ε → Script α ε κ σ} (hs : t.script.Syncs t.store other goal)
    (keys : List κ) (answer : List κ → σ → Loaded κ α ε) :
    t.Served id (.inr (.source other keys answer goal)) t.callers := by
  obtain ⟨_, callers, s, events⟩ := t
  cases hs with
  | sync => exact h.of_script (by rintro ⟨⟩) _
  | @await key next _ =>
    refine h.imp fun ref goal hs thunk hl => ?_
    have hfin := hs thunk hl
    obtain ⟨rfl, hkey⟩ := hfin.of_await
    refine ⟨rfl, fun source he hall => ?_⟩
    obtain ⟨answer, ha⟩ := Option.isSome_iff_exists.1 (hall key hkey)
    have hanswer : source.answer key = answer := by rw [Source.answer, ha]; rfl
    show (next (source.answer key)).Finishes other _ _ thunk
    rw [hanswer]
    exact (hfin.mono (fun _ hm => hm) he).answered ha

theorem Lent.next (h : t.Lent id) (hk : t.Kept id) (hq : ¬ t.CallsBack id)
    (hn : t.next? = some t') : t'.Lent id := by
  cases step_of_next? hn with
  | look hlooks =>
    cases hlooks with
    | await hknown =>
      exact h.keep_served hk hq hn ⟨rfl, .inl rfl⟩ (fun _ _ => .rfl) (h.served.answered hknown)
    | _ => exact h.keep_callers hk hq hn (by rintro ⟨⟩) ⟨rfl, .inl rfl⟩ rfl
  | write | close => exact h.keep_callers hk hq hn (by rintro ⟨⟩) ⟨rfl, .inl rfl⟩ rfl
  | job => exact h.keep_callers hk hq hn (by rintro ⟨⟩) ⟨Store.cells_addJob .., .inl rfl⟩ rfl
  | source => exact h.keep_callers hk hq hn (by rintro ⟨⟩) ⟨Store.cells_addSource .., .inl rfl⟩ rfl
  | request =>
    exact h.keep_callers hk hq hn (by rintro ⟨⟩)
      ⟨Store.cells_request .., .inr ⟨_, rfl, by simp, by simp⟩⟩ rfl
  | defer =>
    refine h.make hk hq hn (by rintro ⟨⟩) rfl (by simp) (fun hl => ?_) (fun hm => ?_) rfl
    · refine (Event.lends_concat hl).imp_right fun hm => ?_
      cases hm.1
      exact ⟨rfl, rfl⟩
    · exact (List.mem_append.1 hm).resolve_right (by simp)
  | ready => exact h.make hk hq hn (by rintro ⟨⟩) rfl (by simp) .inl (fun hm => hm) rfl
  | give hc =>
    exact h.keep_callers hk hq hn (by rintro ⟨⟩)
      ⟨rfl, .inr ⟨_, rfl, by simp, by rintro _ _ ⟨⟩; exact hc⟩⟩ rfl
  | enter hc => exact h.enter hk hq (by rintro ⟨⟩) hc hn
  | resolve => exact h.resolve hk hq rfl rfl hn
  | run =>
    exact h.keep_served hk hq hn ⟨rfl, .inl rfl⟩ (fun _ _ => by simp)
      ⟨trivial, h.served.of_script (by rintro ⟨⟩) _⟩
  | take =>
    exact h.keep_served hk hq hn ⟨rfl, .inl rfl⟩ (fun _ _ => .rfl) ⟨trivial, h.served.2⟩
  | leave =>
    exact h.keep_served hk hq hn ⟨rfl, .inr ⟨_, rfl, by simp, by simp⟩⟩ (fun _ _ => by simp)
      (h.served.2.of_caller (by simp) _)
  | idle hs hp =>
    exact h.keep_served hk hq hn ⟨rfl, .inl rfl⟩ (fun _ _ => .rfl) (h.served.of_idle hk hq hs hp _)
  | call hs =>
    exact h.keep_served hk hq hn ⟨rfl, .inr ⟨_, rfl, by simp, by simp⟩⟩ (fun _ _ => by simp)
      ⟨trivial, h.served.of_call hs _ _⟩
  | load => exact h.load hk hq rfl rfl rfl rfl ⟨_, rfl⟩ hn

theorem Lent.runs (h : t.Lent id) (hk : t.Kept id) (hr : Runs id t t') : t'.Lent id := by
  induction hr with
  | refl => exact h
  | tail hr hstep ih => exact ih.next (hk.runs hr) hstep.1 hstep.2

theorem lent_start (script : Script α ε κ σ) (state : σ) : (start script state).Lent id := by
  have hlends : ∀ {ref : Ref} {thunk : Script α ε κ σ}, ¬ Event.Lends id [] ref thunk :=
    fun ⟨_, _, he, _⟩ => by simp at he
  exact ⟨fun hl => (hlends hl).elim, nofun, nofun, nofun, nofun, trivial⟩

end Thread

end GraphQL.Deferred
