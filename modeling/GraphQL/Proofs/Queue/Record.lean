import GraphQL.Proofs.Queue.Jobs

/-!
# The record of a queue

Calls are inside one another: whatever is recorded between the ends of a call is inside of it
(`Moment.Nested`). Once a call has failed in a way that makes everything meaningless, no job calls
anything. What still is called belongs to the calls in which the queue was being run then, and to
the queries that go on when these calls are left (`Shared.Goes`).
-/

namespace GraphQL

variable {ρ L J W : Type}

namespace Moment

/-- Moments inside of calls, which come to whole calls. -/
inductive Nested : List Site → List (Moment L) → Prop
  | nil {calls} : Nested calls []
  | call {calls site inner rest} (outcome : Outcome L) (hinner : Nested (site :: calls) inner)
    (hrest : Nested calls rest) :
    Nested calls (enter site calls :: (inner ++ leave site calls outcome :: rest))

namespace Nested

variable {calls : List Site} {new new' : List (Moment L)} {moment : Moment L}

theorem append (h : Nested calls new) (h' : Nested calls new') : Nested calls (new ++ new') := by
  induction h with
  | nil => exact h'
  | call outcome hinner _ _ ih =>
    rw [List.cons_append, List.append_assoc, List.cons_append]
    exact .call outcome hinner (ih h')

theorem suffix_around (h : Nested calls new) : ∀ moment ∈ new, calls <:+ moment.around := by
  induction h with
  | nil => exact List.forall_mem_nil _
  | @call calls site inner rest outcome _ _ ihinner ihrest =>
    refine List.forall_mem_cons.2 ⟨List.suffix_refl _, List.forall_mem_append.2 ⟨?_, ?_⟩⟩
    · exact fun moment hm => (List.suffix_cons site calls).trans (ihinner moment hm)
    · exact List.forall_mem_cons.2 ⟨List.suffix_refl _, ihrest⟩

/-- The calls around a moment have been entered before. -/
theorem entered (h : Nested calls new) {before after : List (Moment L)}
    (he : new = before ++ moment :: after) : ∀ call ∈ moment.around, call ∈ calls ∨
      ∃ around, enter call around ∈ before := by
  induction h generalizing before after with
  | nil => simp at he
  | @call calls site inner rest outcome hinner _ ihinner ihrest =>
    intro call hcall
    cases before with
    | nil =>
      cases he
      exact .inl hcall
    | cons first before =>
      obtain ⟨rfl, hsplit⟩ := List.cons.inj he
      rcases List.append_eq_append_iff.1 hsplit with ⟨more, rfl, hrest⟩ | ⟨more, rfl, hinner'⟩
      · -- the moment is the end of the call, or after it
        cases more with
        | nil =>
          cases hrest
          exact .inl hcall
        | cons last more =>
          obtain ⟨rfl, hafter⟩ := List.cons.inj hrest
          refine (ihrest hafter call hcall).imp_right ?_
          rintro ⟨around, hm⟩
          exact ⟨around, by simp [hm]⟩
      · -- or it is inside of the call
        cases more with
        | nil =>
          cases hinner'
          exact .inl hcall
        | cons inside more =>
          obtain ⟨rfl, -⟩ := List.cons.inj hinner'
          rcases ihinner rfl call hcall with hm | ⟨around, hm⟩
          · rcases List.mem_cons.1 hm with rfl | hm
            · exact .inr ⟨calls, by simp⟩
            · exact .inl hm
          · exact .inr ⟨around, by simp [hm]⟩

end Nested

/-- How moments inside of calls and the end of what they belong to go together. Either nothing
fails, or the first failure is why everything stops, and all that comes after it belongs to queries
that have calls around it. -/
def Ended (calls : List Site) (new : List (Moment L)) : Option Halt → Prop
  | none => ∀ moment ∈ new, moment.failure? = none
  | some .unfinished => True
  | some (.internal message) => ∃ before failing after inside, new = before ++ failing :: after ∧
    failing.failure? = some message ∧ (∀ moment ∈ before, moment.failure? = none) ∧
    failing.around = inside ++ calls ∧
    ∀ moment ∈ after, ∃ call ∈ inside, call.query = moment.site.query

namespace Ended

variable {calls : List Site} {new new' rest : List (Moment L)} {halt : Option Halt} {site : Site}

theorem append (h : Ended calls new none) (h' : Ended calls new' halt) :
    Ended calls (new ++ new') halt := by
  cases halt with
  | none => exact List.forall_mem_append.2 ⟨h, h'⟩
  | some halt =>
    cases halt with
    | unfinished => trivial
    | internal message =>
      obtain ⟨before, failing, after, inside, rfl, hfailing, hbefore, hrest⟩ := h'
      exact ⟨new ++ before, failing, after, inside, (List.append_assoc ..).symm, hfailing,
        List.forall_mem_append.2 ⟨h, hbefore⟩, hrest⟩

/-- A failure inside of a call, of whose query is what comes after it. -/
theorem around {reason : Halt} (h : Ended (site :: calls) new (some reason))
    (hrest : ∀ moment ∈ rest, moment.site.query = site.query) :
    Ended calls (enter site calls :: (new ++ rest)) (some reason) := by
  cases reason with
  | unfinished => trivial
  | internal message =>
    obtain ⟨before, failing, after, inside, rfl, hfailing, hbefore, haround, hafter⟩ := h
    refine ⟨enter site calls :: before, failing, after ++ rest, inside ++ [site], by simp, hfailing,
      List.forall_mem_cons.2 ⟨rfl, hbefore⟩, by simp [haround], ?_⟩
    intro moment hm
    rcases List.mem_append.1 hm with hm | hm
    · obtain ⟨call, hc, hquery⟩ := hafter moment hm
      exact ⟨call, List.mem_append_left _ hc, hquery⟩
    · exact ⟨site, List.mem_append_right _ (List.mem_singleton_self _), (hrest moment hm).symm⟩

end Ended

end Moment

open Moment Shared

/-- What happens to what is shared: the calls that have been made are left again, and nothing is
called once there is a reason to stop. -/
structure Shared.Goes (v v' : Shared L J W) : Prop where
  calls : v'.calls = v.calls
  halted : v.halt ≠ none → v'.halt = v.halt
  record : ∃ new, v'.record = v.record ++ new ∧ Nested v.calls new ∧ (v.halt ≠ none → new = []) ∧
    (v.halt = none → Ended v.calls new v'.halt)

namespace Shared.Goes

variable {v v₁ v' : Shared L J W}

theorem refl (v : Shared L J W) : Goes v v :=
  ⟨rfl, fun _ => rfl, [], (List.append_nil _).symm, .nil, fun _ => rfl,
    fun h => h ▸ List.forall_mem_nil _⟩

theorem trans (h : Goes v v₁) (h' : Goes v₁ v') : Goes v v' := by
  obtain ⟨new, hrecord, hnested, hnone, hended⟩ := h.record
  obtain ⟨new', hrecord', hnested', hnone', hended'⟩ := h'.record
  rw [h.calls] at hnested' hended'
  have hhalted : v.halt ≠ none → v₁.halt ≠ none := fun hv => (h.halted hv).symm ▸ hv
  refine ⟨h'.calls.trans h.calls, fun hv => (h'.halted (hhalted hv)).trans (h.halted hv),
    new ++ new', ?_, hnested.append hnested', fun hv => ?_, fun hv => ?_⟩
  · rw [hrecord', hrecord, List.append_assoc]
  · rw [hnone hv, hnone' (hhalted hv), List.append_nil]
  · cases hv₁ : v₁.halt with
    | none => exact (hv₁ ▸ hended hv).append (hended' hv₁)
    | some halt =>
      have hstays := hv₁ ▸ Option.some_ne_none halt
      rw [hnone' hstays, List.append_nil, h'.halted hstays]
      exact hended hv

/-- Nothing is recorded, and there is no new reason to stop. -/
theorem of_quiet (hcalls : v'.calls = v.calls) (hhalt : v'.halt = v.halt)
    (hrecord : v'.record = v.record) : Goes v v' :=
  ⟨hcalls, fun _ => hhalt, [], by simp [hrecord], .nil, fun _ => rfl,
    fun hv => hhalt ▸ hv ▸ List.forall_mem_nil _⟩

theorem append (v : Shared L J W) (job : QueuedJob J) : Goes v (v.append job) :=
  of_quiet rfl rfl rfl

theorem unfinished (v : Shared L J W) : Goes v (v.stop (some .unfinished)) where
  calls := rfl
  halted hv := by
    obtain ⟨halt, hhalt⟩ := Option.ne_none_iff_exists'.1 hv
    rw [Shared.stop, hhalt, Option.some_or]
  record := by
    refine ⟨[], (List.append_nil _).symm, .nil, fun _ => rfl, fun hv => ?_⟩
    rw [Shared.stop, hv, Option.none_or]
    trivial

end Shared.Goes

/-! ## Calls -/

section

variable {Q : Shared L J W → Shared L J W → Prop} {query : Nat} {inWave : Bool} {c : Call L}
  {calls : List (Call L)} {v v' : Shared L J W}

/-- A call, with what is recorded of it. -/
theorem Shared.Called.moments (hQ : ∀ v v', Q v v' → Goes v v') (h : Called Q query inWave v c v') :
    ∃ v₁ new, Q (v.enter (c.site query inWave)) v₁ ∧
      v₁.record = (v.enter (c.site query inWave)).record ++ new ∧
      v' = { v₁ with calls := v.calls, record := v.record ++ .enter (c.site query inWave) v.calls ::
        (new ++ [.leave (c.site query inWave) v.calls c.outcome]) } ∧
      Nested (c.site query inWave :: v.calls) new ∧
      (v.halt ≠ none → v₁.halt = v.halt ∧ new = []) ∧
      (v.halt = none → Ended (c.site query inWave :: v.calls) new v₁.halt) := by
  obtain ⟨v₁, hq, rfl⟩ := h
  have hgoes := hQ _ _ hq
  obtain ⟨new, hrecord, hnested, hnone, hended⟩ := hgoes.record
  have hcalls : v₁.calls = c.site query inWave :: v.calls := hgoes.calls
  refine ⟨v₁, new, hq, hrecord, ?_, hnested, fun hv => ⟨hgoes.halted hv, hnone hv⟩, hended⟩
  rw [Shared.leave, hcalls, hrecord]
  simp [Shared.enter]

/-- A chain of calls, with what is recorded of it. -/
theorem Chain.moments (hQ : ∀ v v', Q v v' → Goes v v')
    (h : Chain (Called Q query inWave) v calls v') : v'.calls = v.calls ∧
      (v.halt ≠ none → v'.halt = v.halt) ∧ ∃ new, v'.record = v.record ++ new ∧ Nested v.calls new ∧
        (v.halt ≠ none → ∀ moment ∈ new, moment.site.query = query) := by
  induction h with
  | nil => exact ⟨rfl, fun _ => rfl, [], (List.append_nil _).symm, .nil, fun _ => List.forall_mem_nil _⟩
  | @cons v v₁ v' c calls hcall _ ih =>
    obtain ⟨u, inner, -, -, rfl, hinner, hhalted, -⟩ := hcall.moments hQ
    obtain ⟨hcalls, hhalted', new, hrecord, hnested, hquery⟩ := ih
    refine ⟨hcalls, fun hv => ?_, .enter (c.site query inWave) v.calls ::
      (inner ++ .leave (c.site query inWave) v.calls c.outcome :: new), ?_, .call _ hinner hnested, ?_⟩
    · have hu := (hhalted hv).1
      exact (hhalted' (hu ▸ hv)).trans hu
    · rw [hrecord]
      simp
    · intro hv
      obtain ⟨hu, rfl⟩ := hhalted hv
      refine List.forall_mem_cons.2 ⟨rfl, List.forall_mem_cons.2 ⟨rfl, hquery ?_⟩⟩
      exact hu ▸ hv

/-- How a chain of calls ends, with the end of the part that makes it. -/
theorem Chain.ended (hQ : ∀ v v', Q v v' → Goes v v')
    (h : Chain (Called Q query inWave) v calls v') {halt : Option Halt} (hstops : Stops halt calls)
    (hv : v.halt = none) : ∃ new, v'.record = v.record ++ new ∧ Nested v.calls new ∧
      Ended v.calls new (v'.halt.or halt) := by
  induction h with
  | nil =>
    refine ⟨[], (List.append_nil _).symm, .nil, ?_⟩
    rw [hv, Option.none_or]
    cases halt with
    | none => exact List.forall_mem_nil _
    | some halt =>
      cases halt with
      | unfinished => trivial
      | internal message =>
        obtain ⟨before, last, he, -⟩ := hstops
        simp at he
  | @cons v v₁ v' c calls hcall hchain ih =>
    obtain ⟨u, inner, -, -, rfl, hinner, -, hended⟩ := hcall.moments hQ
    replace hended := hended hv
    cases hu : u.halt with
    | some reason =>
      -- something inside of the call is why everything stops
      obtain ⟨hcalls, hhalted, new, hrecord, hnested, hquery⟩ := hchain.moments hQ
      have hstays := hu ▸ Option.some_ne_none reason
      rw [hu] at hended
      refine ⟨.enter (c.site query inWave) v.calls ::
        (inner ++ .leave (c.site query inWave) v.calls c.outcome :: new), ?_, .call _ hinner hnested, ?_⟩
      · rw [hrecord]
        simp
      · rw [hhalted hstays, hu, Option.some_or]
        exact hended.around (List.forall_mem_cons.2 ⟨rfl, hquery hstays⟩)
    | none =>
      rw [hu] at hended
      have hinside : ∀ moment ∈ Moment.enter (c.site query inWave) v.calls :: inner,
          moment.failure? = none := List.forall_mem_cons.2 ⟨rfl, hended⟩
      have hleave := failure?_leave (c.site query inWave) v.calls c
      rcases hstops.cons_cases with ⟨hfine, hstops⟩ | ⟨rfl, message, hfails, rfl⟩
      · obtain ⟨new, hrecord, hnested, hrest⟩ := ih hstops hu
        refine ⟨.enter (c.site query inWave) v.calls ::
          (inner ++ .leave (c.site query inWave) v.calls c.outcome :: new), ?_,
          .call _ hinner hnested, ?_⟩
        · rw [hrecord]
          simp
        · rw [← List.cons_append, List.append_cons]
          refine Ended.append (List.forall_mem_append.2 ⟨hinside, ?_⟩) hrest
          rw [List.forall_mem_singleton, hleave, hfine]
      · cases hchain
        refine ⟨_, rfl, .call _ hinner .nil, ?_⟩
        rw [hu, Option.none_or]
        exact ⟨_, _, [], [], rfl, hleave.trans hfails, hinside, rfl, List.forall_mem_nil _⟩

theorem Multiplex.Took.goes (hQ : ∀ v v', Q v v' → Goes v v') (h : Took Q query inWave v v') :
    Goes v v' := by
  cases h with
  | nothing => exact .refl v
  | @part v₁ calls halt run hv hchain hstops =>
    obtain ⟨new, hrecord, hnested, hended⟩ := hchain.ended hQ hstops hv
    exact ⟨(hchain.moments hQ).1, fun h => absurd hv h, new, hrecord, hnested, fun h => absurd hv h,
      fun _ => hended⟩

end

/-- What happens to what is shared while the queue is run. -/
theorem Multiplex.kept_goes (s : QueueSchema ρ L J W) (m : Multiplex) (fuel : Nat) :
    Kept s m fuel Goes :=
  .of_took .refl .trans (fun _ _ _ => .of_quiet rfl rfl rfl) .unfinished (Took.goes fun _ _ => id)

/-! ## What is preserved -/

/-- `M` holds of all that is recorded. -/
def Shared.Records (M : Moment L → Prop) (v v' : Shared L J W) : Prop :=
  ∃ new, v'.record = v.record ++ new ∧ ∀ moment ∈ new, M moment

/-- As long as `S` holds of what is shared, it goes on to, and `M` holds of all that is recorded. -/
def Shared.Preserves (S : Shared L J W → Prop) (M : Moment L → Prop) (v v' : Shared L J W) : Prop :=
  S v → S v' ∧ Records M v v'

/-- What depends on the queue, the progress of queries, and the reason to stop. -/
def Shared.Local (S : Shared L J W → Prop) : Prop :=
  ∀ v v', v'.queue = v.queue → v'.runs = v.runs → v'.halt = v.halt → S v → S v'

section

variable {S : Shared L J W → Prop} {M M' : Moment L → Prop} {v v₁ v' : Shared L J W}

namespace Shared.Records

theorem of_quiet (h : v'.record = v.record) : Records M v v' :=
  ⟨[], by simp [h], List.forall_mem_nil _⟩

theorem trans (h : Records M v v₁) (h' : Records M v₁ v') : Records M v v' := by
  obtain ⟨new, hrecord, hnew⟩ := h
  obtain ⟨new', hrecord', hnew'⟩ := h'
  exact ⟨new ++ new', by rw [hrecord', hrecord, List.append_assoc],
    List.forall_mem_append.2 ⟨hnew, hnew'⟩⟩

theorem mono (h : Records M v v') (hM : ∀ moment, M moment → M' moment) : Records M' v v' :=
  h.imp fun _ => .imp_right fun hnew moment hm => hM moment (hnew moment hm)

theorem enter {site : Site} (h : M (.enter site v.calls)) : Records M v (v.enter site) :=
  ⟨_, rfl, List.forall_mem_singleton.2 h⟩

theorem leave {site : Site} {outcome : Outcome L} (h : M (.leave site v.calls.tail outcome)) :
    Records M v (v.leave site outcome) :=
  ⟨_, rfl, List.forall_mem_singleton.2 h⟩

end Shared.Records

namespace Shared.Preserves

theorem of_quiet (hrecord : v'.record = v.record) (h : S v → S v') : Preserves S M v v' :=
  fun hv => ⟨h hv, .of_quiet hrecord⟩

theorem refl (v : Shared L J W) : Preserves S M v v :=
  .of_quiet rfl id

/-- Jobs are taken off the queue, or more are put into it. -/
theorem queue (queue : List (QueuedJob J)) (h : S v → S { v with queue := queue }) :
    Preserves S M v { v with queue := queue } :=
  .of_quiet rfl h

theorem trans (h : Preserves S M v v₁) (h' : Preserves S M v₁ v') : Preserves S M v v' := by
  intro hv
  obtain ⟨hv₁, hrecords⟩ := h hv
  exact (h' hv₁).imp_right hrecords.trans

theorem mono (h : Preserves S M v v') (hM : ∀ moment, M moment → M' moment) : Preserves S M' v v' :=
  fun hv => (h hv).imp_right fun hrecords => hrecords.mono hM

end Shared.Preserves

theorem Shared.Preserves.lasts (hlocal : Local S) (happend : ∀ v job, S v → S (v.append (.host job))) :
    Lasts (Preserves S M) :=
  ⟨.refl, .trans, fun v _ => .of_quiet rfl (hlocal v _ rfl rfl rfl),
    fun v job => .of_quiet rfl (happend v job)⟩

variable {Q : Shared L J W → Shared L J W → Prop} {query : Nat} {inWave : Bool}

/-- A chain of calls preserves what is kept inside of its calls. -/
theorem Chain.preserves {calls : List (Call L)} (hQ : ∀ v v', Q v v' → Goes v v' ∧ Preserves S M v v')
    (hlocal : Local S) (hchain : Chain (Called Q query inWave) v calls v')
    (henter : ∀ path, M (.enter ⟨query, path, inWave⟩ v.calls))
    (hleave : ∀ path outcome, M (.leave ⟨query, path, inWave⟩ v.calls outcome)) : Preserves S M v v' := by
  induction hchain with
  | nil => exact .refl _
  | @cons v v₁ v' c calls hcall _ ih =>
    obtain ⟨u, hq, rfl⟩ := hcall
    have hcalls : u.calls = c.site query inWave :: v.calls := (hQ _ _ hq).1.calls
    refine .trans (fun hv => ?_) (ih ?_ ?_)
    · obtain ⟨hu, hrecords⟩ := (hQ _ _ hq).2 (hlocal v _ rfl rfl rfl hv)
      refine ⟨hlocal u _ rfl rfl rfl hu, (Records.enter (henter _)).trans (hrecords.trans (.leave ?_))⟩
      rw [hcalls]
      exact hleave _ _
    · simpa [Shared.leave, hcalls] using henter
    · simpa [Shared.leave, hcalls] using hleave

theorem Multiplex.Took.preserves (hQ : ∀ v v', Q v v' → Goes v v' ∧ Preserves S M v v') (hlocal : Local S)
    (hset : ∀ {v : Shared L J W} run halt, S v →
      S (stop { v with runs := v.runs.set query run } halt))
    (henter : ∀ path, M (.enter ⟨query, path, inWave⟩ v.calls))
    (hleave : ∀ path outcome, M (.leave ⟨query, path, inWave⟩ v.calls outcome))
    (h : Took Q query inWave v v') : Preserves S M v v' := by
  cases h with
  | nothing => exact .refl v
  | @part v₁ calls halt run _ hchain _ =>
    exact (hchain.preserves hQ hlocal henter hleave).trans (.of_quiet rfl (hset run halt))

namespace Multiplex

variable {s : QueueSchema ρ L J W} {m : Multiplex} {fuel jobs : Nat}

theorem does_and (hlasts : Lasts Q) (hd : ∀ v, Q v (drainQueue s m fuel jobs v)) :
    s.host.Does (drainQueue s m fuel jobs) fun v v' => Goes v v' ∧ Q v v' :=
  have hgoes := kept_goes s m fuel
  ⟨fun _ _ _ v => ⟨hgoes.run (hgoes.drainQueue jobs) _ v, hlasts.run hd _ v⟩,
    fun _ v => ⟨hgoes.run (hgoes.drainQueue jobs) _ v, hlasts.run hd _ v⟩⟩

/-- A query begins, and inside of its calls happens what happens while the queue is run. -/
theorem took_begin (hlasts : Lasts Q) (hd : ∀ v, Q v (drainQueue s m fuel jobs v)) (query : Nat)
    (v : Shared L J W) : Took (fun v v' => Goes v v' ∧ Q v v') query false v
      (beginJob s m fuel (drainQueue s m fuel jobs) query v) :=
  took_takePart (begin_calls (does_and hlasts hd) m fuel) query v

theorem took_wave (hlasts : Lasts Q) (hd : ∀ v, Q v (drainQueue s m fuel jobs v)) (query : Nat)
    (v : Shared L J W) : Took (fun v v' => Goes v v' ∧ Q v v') query true v
      (takePart s m (drainQueue s m fuel jobs) (fun e _ => e.wave) true query v) :=
  took_takePart (wave_calls (does_and hlasts hd) m) query v

end Multiplex

end

end GraphQL
