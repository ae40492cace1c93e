import GraphQL.Proofs.Deferred.Once
import Mathlib.Data.Fintype.EquivFin

/-!
# Lazies are run once

A lazy that waits may be started, and one that was started may be finished; it never goes back
(`Cell.Leads`). A lazy is between its start and its end exactly while its script is among those that
run, so forcing it there is the only way to get stuck (`Memo.Sound`), and there is no way to come
there when lazies depend on each other without a cycle. The only others that are in that state were
left there by an earlier run which got stuck.
-/

namespace GraphQL.Deferred

variable {α ε κ σ : Type}

/-! ## One lazy -/

namespace Cell

/-- What can happen to a lazy. -/
inductive Moves : Cell α ε κ σ → Cell α ε κ σ → Prop
  | start {thunk} : Moves (.pending thunk) .forcing
  | finish {result} : Moves .forcing (.resolved result)

/-- What can become of a lazy. -/
def Leads : Cell α ε κ σ → Cell α ε κ σ → Prop :=
  Relation.ReflTransGen Moves

variable {cell : Cell α ε κ σ}

/-- A result stays. -/
theorem Leads.resolved {result : Result α ε} (h : Leads (.resolved result) cell) :
    cell = .resolved result := by
  rcases Relation.ReflTransGen.cases_head h with h | ⟨_, h, _⟩
  · exact h.symm
  · cases h

/-- What was started is never to be started again. -/
theorem Leads.forcing (h : Leads .forcing cell) : ∀ thunk, cell ≠ .pending thunk := by
  rcases Relation.ReflTransGen.cases_head h with rfl | ⟨_, h, hleads⟩
  · exact fun _ => nofun
  · cases h
    rw [Leads.resolved hleads]
    exact fun _ => nofun

end Cell

/-! ## All lazies -/

/-- The lazies of a store, those whose scripts run, the innermost first, and what was given by those
that were forced. -/
structure Memo (α ε κ σ : Type) where
  cells : Array (Cell α ε κ σ)
  running : List Ref
  given : List (Ref × Result α ε)

namespace Memo

/-- What one step does with lazies, and which it starts. -/
inductive Moves (m : Memo α ε κ σ) : Option Ref → Memo α ε κ σ → Prop
  | idle : Moves m none m
  | make {cell} (h : cell ≠ .forcing) : Moves m none { m with cells := m.cells.push cell }
  | start {ref thunk} (h : m.cells[ref]? = some (.pending thunk)) :
    Moves m (some ref) { m with
      cells := m.cells.setIfInBounds ref .forcing
      running := ref :: m.running }
  | finish {ref rest result} (h : m.running = ref :: rest) :
    Moves m none
      ⟨m.cells.setIfInBounds ref (.resolved result), rest, m.given ++ [(ref, result)]⟩
  | give {ref result} (h : m.cells[ref]? = some (.resolved result)) :
    Moves m none { m with given := m.given ++ [(ref, result)] }

/-- The lazies between their start and their end are those whose scripts run, and some that were cut
off before; what was given is what the lazies have. -/
structure Sound (cut : Ref → Prop) (m : Memo α ε κ σ) : Prop where
  nodup : m.running.Nodup
  forcing : ∀ ref, m.cells[ref]? = some .forcing ↔ ref ∈ m.running ∨ cut ref
  apart : ∀ ref ∈ m.running, ¬ cut ref
  given : ∀ ref result, (ref, result) ∈ m.given → m.cells[ref]? = some (.resolved result)

variable {m m' : Memo α ε κ σ} {cut : Ref → Prop} {started : Option Ref} {ref : Ref}
  {cell : Cell α ε κ σ}

theorem Sound.leads (h : m.Sound cut) (hm : m.Moves started m') (hc : m.cells[ref]? = some cell) :
    ∃ cell', m'.cells[ref]? = some cell' ∧ cell.Leads cell' := by
  have hlt : ref < m.cells.size := (Array.getElem?_eq_some_iff.1 hc).1
  cases hm with
  | idle | give => exact ⟨cell, hc, .refl⟩
  | make =>
    refine ⟨cell, ?_, .refl⟩
    show (m.cells.push _)[ref]? = _
    rw [Array.getElem?_push_lt hlt, ← hc, Array.getElem?_eq_getElem hlt]
  | @start other thunk hother =>
    show ∃ cell', (m.cells.setIfInBounds other .forcing)[ref]? = some cell' ∧ _
    rw [Array.getElem?_setIfInBounds]
    split
    · next he =>
      subst he
      rw [hother] at hc
      cases hc
      exact ⟨_, if_pos hlt, .single .start⟩
    · exact ⟨cell, hc, .refl⟩
  | @finish other rest result hother =>
    show ∃ cell', (m.cells.setIfInBounds other (.resolved result))[ref]? = some cell' ∧ _
    rw [Array.getElem?_setIfInBounds]
    split
    · next he =>
      subst he
      rw [(h.forcing other).2 (.inl (hother ▸ List.mem_cons_self ..))] at hc
      cases hc
      exact ⟨_, if_pos hlt, .single .finish⟩
    · exact ⟨cell, hc, .refl⟩

/-! Which lazies are between their start and their end, after each step. -/

theorem Sound.forcing_push (h : m.Sound cut) (hcell : cell ≠ .forcing) (ref : Ref) :
    (m.cells.push cell)[ref]? = some .forcing ↔ ref ∈ m.running ∨ cut ref := by
  rw [← h.forcing ref, Array.getElem?_push]
  split
  · next he =>
    subst he
    rw [Array.getElem?_eq_none (Nat.le_refl _)]
    exact ⟨fun he => absurd (Option.some.inj he) hcell, fun he => by cases he⟩
  · exact Iff.rfl

theorem Sound.forcing_start (h : m.Sound cut) (hlt : ref < m.cells.size) (other : Ref) :
    (m.cells.setIfInBounds ref .forcing)[other]? = some .forcing ↔
      other ∈ ref :: m.running ∨ cut other := by
  rw [Array.getElem?_setIfInBounds, List.mem_cons]
  split
  · next he =>
    subst he
    exact ⟨fun _ => .inl (.inl rfl), fun _ => rfl⟩
  · next hne => rw [h.forcing other, or_assoc, or_iff_right (Ne.symm hne)]

theorem Sound.forcing_finish (h : m.Sound cut) {rest : List Ref} {result : Result α ε}
    (hrunning : m.running = ref :: rest) (other : Ref) :
    (m.cells.setIfInBounds ref (.resolved result))[other]? = some .forcing ↔
      other ∈ rest ∨ cut other := by
  have hnodup := h.nodup
  rw [hrunning, List.nodup_cons] at hnodup
  rw [Array.getElem?_setIfInBounds]
  split
  · next he =>
    subst he
    refine ⟨fun he => ?_, fun hm => ?_⟩
    · split at he <;> cases he
    · exact absurd hm (not_or.2 ⟨hnodup.1, h.apart ref (hrunning ▸ List.mem_cons_self ..)⟩)
  · next hne => rw [h.forcing other, hrunning, List.mem_cons, or_iff_right (Ne.symm hne)]

theorem Sound.moves (h : m.Sound cut) (hm : m.Moves started m') : m'.Sound cut := by
  have hgiven : ∀ ref result, (ref, result) ∈ m.given → m'.cells[ref]? = some (.resolved result) := by
    intro ref result hg
    obtain ⟨cell, hc, hleads⟩ := h.leads hm (h.given ref result hg)
    rw [hc, hleads.resolved]
  cases hm with
  | idle => exact h
  | make hcell => exact ⟨h.nodup, h.forcing_push hcell, h.apart, hgiven⟩
  | @start ref thunk hc =>
    have hfresh : ¬ (ref ∈ m.running ∨ cut ref) := by
      rw [← h.forcing ref, hc]
      intro he
      cases he
    rw [not_or] at hfresh
    refine ⟨List.nodup_cons.2 ⟨hfresh.1, h.nodup⟩,
      h.forcing_start (Array.getElem?_eq_some_iff.1 hc).1, ?_, hgiven⟩
    exact List.forall_mem_cons.2 ⟨hfresh.2, h.apart⟩
  | @finish ref rest result hrunning =>
    have hmem : ref ∈ m.running := hrunning ▸ List.mem_cons_self ..
    refine ⟨?_, h.forcing_finish hrunning, fun other hm => h.apart other ?_, fun other result' hg => ?_⟩
    · exact (List.nodup_cons.1 (hrunning ▸ h.nodup)).2
    · exact hrunning ▸ List.mem_cons_of_mem _ hm
    · rcases List.mem_append.1 hg with hg | hg
      · exact hgiven other result' hg
      · cases List.mem_singleton.1 hg
        have hlt := (Array.getElem?_eq_some_iff.1 ((h.forcing ref).2 (.inl hmem))).1
        exact Array.getElem?_setIfInBounds_self_of_lt hlt
  | give hc =>
    refine ⟨h.nodup, h.forcing, h.apart, fun other result' hg => ?_⟩
    rcases List.mem_append.1 hg with hg | hg
    · exact hgiven other result' hg
    · cases List.mem_singleton.1 hg
      exact hc

end Memo

/-! ## Lazies of threads -/

def Event.gave? : Event α ε κ σ → Option (Ref × Result α ε)
  | .gave ref result => some (ref, result)
  | _ => none

def Caller.lazy? : Caller α ε κ σ → Option Ref
  | .lazy ref _ => some ref
  | _ => none

namespace Thread

/-- The lazies whose scripts run, the innermost first. -/
def running (t : Thread α ε κ σ) : List Ref :=
  t.callers.filterMap Caller.lazy?

def memo (t : Thread α ε κ σ) : Memo α ε κ σ :=
  ⟨t.store.cells, t.running, t.events.filterMap Event.gave?⟩

/-- The lazy that the next step starts. -/
def starts? (t : Thread α ε κ σ) : Option Ref :=
  match t.script with
  | .force ref _ =>
    match t.store.cells[ref]? with
    | some (.pending _) => some ref
    | _ => none
  | _ => none

variable {t t' : Thread α ε κ σ} {ref : Ref}

theorem mem_given {result : Result α ε} : (ref, result) ∈ t.memo.given ↔ .gave ref result ∈ t.events := by
  show _ ∈ t.events.filterMap Event.gave? ↔ _
  rw [List.mem_filterMap]
  constructor
  · rintro ⟨e, he, h⟩
    cases e with
    | gave =>
      cases h
      exact he
    | _ => cases h
  · exact fun h => ⟨_, h, rfl⟩

theorem starts?_eq_some (h : t.starts? = some ref) : ∃ next thunk, t.script = .force ref next ∧
    t.store.cells[ref]? = some (.pending thunk) := by
  unfold starts? at h
  split at h
  · next next hs =>
    split at h
    · next thunk hc =>
      cases h
      exact ⟨next, thunk, hs, hc⟩
    · cases h
  · cases h

theorem starts?_of_force {next : Result α ε → Script α ε κ σ} {thunk : Script α ε κ σ}
    (hs : t.script = .force ref next) (hc : t.store.cells[ref]? = some (.pending thunk)) :
    t.starts? = some ref := by
  unfold starts?
  simp only [hs, hc]

theorem starts?_of_resolved {next : Result α ε → Script α ε κ σ} {result : Result α ε}
    (hs : t.script = .force ref next) (hc : t.store.cells[ref]? = some (.resolved result)) :
    t.starts? = none := by
  unfold starts?
  simp only [hs, hc]

/-- A step that leaves lazies alone. -/
theorem moves_of_idle (hc : t'.store.cells = t.store.cells) (hr : t'.running = t.running)
    (hg : t'.events.filterMap Event.gave? = t.events.filterMap Event.gave?) :
    t.memo.Moves none t'.memo := by
  unfold memo
  rw [hc, hr, hg]
  exact .idle

/-- A step that gives a result. -/
theorem memo_concat_gave {script : Script α ε κ σ} {callers : List (Caller α ε κ σ)}
    {s : Store α ε κ σ} {events : List (Event α ε κ σ)} {result : Result α ε} :
    (⟨script, callers, s, events ++ [Event.gave ref result]⟩ : Thread α ε κ σ).memo =
      ⟨s.cells, callers.filterMap Caller.lazy?,
        events.filterMap Event.gave? ++ [(ref, result)]⟩ := by
  show Memo.mk _ _ _ = _
  rw [List.filterMap_append]
  rfl

variable [DecidableEq κ]

/-- What one step of a thread does with lazies. -/
theorem Step.memo (h : t.Step t') : t.memo.Moves t.starts? t'.memo := by
  cases h with
  | give hc =>
    rw [starts?_of_resolved rfl hc, memo_concat_gave]
    exact .give hc
  | enter hc =>
    rw [starts?_of_force rfl hc]
    exact .start hc
  | resolve =>
    rw [memo_concat_gave]
    exact .finish rfl
  | defer =>
    show Memo.Moves _ _ ⟨_, _, _⟩
    rw [Event.filterMap_concat rfl]
    exact .make nofun
  | ready => exact .make nofun
  | look h => cases h <;> exact .idle
  | job => exact moves_of_idle (Store.cells_addJob ..) rfl rfl
  | source => exact moves_of_idle (Store.cells_addSource ..) rfl rfl
  | request => exact moves_of_idle (Store.cells_request ..) rfl (Event.filterMap_concat rfl _)
  | run => exact moves_of_idle rfl (List.filterMap_cons_none rfl) rfl
  | leave =>
    exact moves_of_idle rfl (List.filterMap_cons_none rfl).symm (Event.filterMap_concat rfl _)
  | idle h => cases h <;> exact .idle
  | call h =>
    cases h <;>
      exact moves_of_idle rfl (List.filterMap_cons_none rfl) (Event.filterMap_concat rfl _)
  | load =>
    exact moves_of_idle rfl (List.filterMap_cons_none rfl).symm (Event.filterMap_concat rfl _)
  | _ => exact .idle

theorem next?_memo (hn : t.next? = some t') : t.memo.Moves t.starts? t'.memo :=
  (step_of_next? hn).memo

variable {cut : Ref → Prop} {m : Nat}

theorem after_sound (h : t.memo.Sound cut) (ht : t.after m = some t') : t'.memo.Sound cut := by
  induction m generalizing t with
  | zero =>
    cases ht
    exact h
  | succ m ih =>
    obtain ⟨u, hu, ht⟩ := Option.bind_eq_some_iff.1 ht
    exact ih (h.moves (next?_memo hu)) ht

/-- What has become of a lazy after some steps. -/
theorem after_leads (h : t.memo.Sound cut) (ht : t.after m = some t') {cell : Cell α ε κ σ}
    (hc : t.store.cells[ref]? = some cell) :
    ∃ cell', t'.store.cells[ref]? = some cell' ∧ cell.Leads cell' := by
  induction m generalizing t cell with
  | zero =>
    cases ht
    exact ⟨cell, hc, .refl⟩
  | succ m ih =>
    obtain ⟨u, hu, ht⟩ := Option.bind_eq_some_iff.1 ht
    obtain ⟨cell', hc', hleads⟩ := h.leads (next?_memo hu) hc
    obtain ⟨cell'', hc'', hleads'⟩ := ih (h.moves (next?_memo hu)) ht hc'
    exact ⟨cell'', hc'', hleads.trans hleads'⟩

/-- A lazy that is started is not started again. -/
theorem not_starts_again (h : t.memo.Sound cut) (hs : t.starts? = some ref)
    (ht : t.after (m + 1) = some t') : t'.starts? ≠ some ref := by
  obtain ⟨u, hu, ht⟩ := Option.bind_eq_some_iff.1 ht
  have hmoves := next?_memo hu
  rw [hs] at hmoves
  have hsound := h.moves hmoves
  have hforcing : u.store.cells[ref]? = some .forcing := by
    refine (hsound.forcing ref).2 (.inl ?_)
    generalize u.memo = memo at hmoves
    cases hmoves
    exact List.mem_cons_self ..
  intro hs'
  obtain ⟨_, thunk, _, hc⟩ := starts?_eq_some hs'
  obtain ⟨cell, hc', hleads⟩ := after_leads hsound ht hforcing
  rw [hc] at hc'
  cases hc'
  exact hleads.forcing thunk rfl

/-- To get stuck is to force a lazy between its start and its end, or one that there is not. -/
theorem stuck_iff : t.Stuck ↔ ∃ ref next, t.script = .force ref next ∧
    (t.store.cells[ref]? = some .forcing ∨ t.store.cells[ref]? = none) := by
  obtain ⟨script, callers, s, events⟩ := t
  constructor
  · rintro ⟨hn, hdone⟩
    cases script with
    | done result => exact absurd rfl (hdone result)
    | force ref next =>
      refine ⟨ref, next, rfl, ?_⟩
      replace hn : force? _ ref next = none := hn
      unfold force? at hn
      split at hn
      · cases hn
      · cases hn
      · next hc => exact .inl hc
      · next hc => exact .inr hc
    | _ => cases hn
  · rintro ⟨ref, next, rfl, hc⟩
    refine ⟨?_, fun _ => nofun⟩
    show force? _ ref next = none
    unfold force?
    rcases hc with hc | hc <;> simp only [hc]

/-! ## Lazies that depend on each other -/

/-- Whatever is forced while scripts run, and has no result, the innermost of them depends on. -/
def DependsBy (depends : Ref → Ref → Prop) (t : Thread α ε κ σ) : Prop :=
  ∀ m u ref next inner rest, t.after m = some u → u.script = .force ref next →
    u.store.isResolved ref = false → u.running = inner :: rest → depends inner ref

variable {depends : Ref → Ref → Prop}

theorem DependsBy.next (h : t.DependsBy depends) (hn : t.next? = some t') : t'.DependsBy depends :=
  fun m u ref next inner rest hu => h (m + 1) u ref next inner rest ((after_succ hn m).trans hu)

theorem DependsBy.starts (h : t.DependsBy depends) (hs : t.starts? = some ref) {inner : Ref}
    {rest : List Ref} (hr : t.running = inner :: rest) : depends inner ref := by
  obtain ⟨next, thunk, hs, hc⟩ := starts?_eq_some hs
  refine h 0 t ref next inner rest rfl hs ?_ hr
  unfold Store.isResolved
  rw [hc]

/-- What depends on the innermost of the lazies whose scripts run. -/
theorem pairwise_cons_of_depends {running : List Ref}
    (h : running.Pairwise fun inner outer => Relation.TransGen depends outer inner)
    (hd : ∀ inner rest, running = inner :: rest → depends inner ref) :
    ∀ outer ∈ running, Relation.TransGen depends outer ref := by
  intro outer hm
  cases running with
  | nil => cases hm
  | cons inner rest =>
    have hinner := hd inner rest rfl
    rcases List.mem_cons.1 hm with rfl | hm
    · exact .single hinner
    · exact ((List.pairwise_cons.1 h).1 outer hm).tail hinner

/-- The lazies whose scripts run depend on those that were started from them. -/
theorem after_pairwise (hd : t.DependsBy depends)
    (h : t.running.Pairwise fun inner outer => Relation.TransGen depends outer inner)
    (ht : t.after m = some t') :
    t'.running.Pairwise fun inner outer => Relation.TransGen depends outer inner := by
  induction m generalizing t with
  | zero =>
    cases ht
    exact h
  | succ m ih =>
    obtain ⟨u, hu, ht⟩ := Option.bind_eq_some_iff.1 ht
    refine ih (hd.next hu) ?_ ht
    have hmoves := next?_memo hu
    have hstart : ∀ ref, t.starts? = some ref → (ref :: t.running).Pairwise _ := fun ref hs =>
      List.pairwise_cons.2 ⟨pairwise_cons_of_depends h fun inner rest => hd.starts hs, h⟩
    show u.memo.running.Pairwise _
    replace h : t.memo.running.Pairwise _ := h
    replace hstart : ∀ ref, t.starts? = some ref → (ref :: t.memo.running).Pairwise _ := hstart
    generalize t.memo = memo at *
    generalize u.memo = memo' at *
    generalize t.starts? = started at *
    cases hmoves with
    | idle | make | give => exact h
    | start => exact hstart _ rfl
    | finish hr =>
      rw [hr] at h
      exact (List.pairwise_cons.1 h).2

/-- Lazies that depend on each other without a cycle are not forced from their own scripts. -/
theorem not_mem_running (hd : t.DependsBy depends) (hacyclic : ∀ ref, ¬ Relation.TransGen depends ref ref)
    (h : t.running.Pairwise fun inner outer => Relation.TransGen depends outer inner)
    (hs : t.memo.Sound cut) (ht : t.after m = some t') {next : Result α ε → Script α ε κ σ}
    (hf : t'.script = .force ref next) : ref ∉ t'.running := by
  intro hm
  have hforcing : t'.store.cells[ref]? = some .forcing := ((after_sound hs ht).forcing ref).2 (.inl hm)
  have hunresolved : t'.store.isResolved ref = false := by
    unfold Store.isResolved
    rw [hforcing]
  exact hacyclic ref (pairwise_cons_of_depends (after_pairwise hd h ht)
    (fun inner rest hr => hd m t' ref next inner rest ht hf hunresolved hr) ref hm)

end Thread

/-! ## Heaps without cycles -/

/-- A script that does nothing but look at lazies, force them and go on with what they give; it
forces none but these. -/
inductive Script.Uses (uses : Ref → Prop) : Script α ε κ σ → Prop
  | done {result} : Uses uses (.done result)
  | read {next} (h : ∀ state, Uses uses (next state)) : Uses uses (.read next)
  | write {state next} (h : Uses uses next) : Uses uses (.write state next)
  | isResolved {ref next} (h : ∀ b, Uses uses (next b)) : Uses uses (.isResolved ref next)
  | force {ref next} (href : uses ref) (h : ∀ result, Uses uses (next result)) :
    Uses uses (.force ref next)

namespace Store

variable {heap s s' : Store α ε κ σ} {depends : Ref → Ref → Prop} {ref : Ref}

/-- Lazies that wait, each of which forces none but lazies that it depends on, without a cycle, or
have a result. -/
structure Acyclic (heap : Store α ε κ σ) (depends : Ref → Ref → Prop) : Prop where
  uses : ∀ (ref : Ref) thunk, heap.cells[ref]? = some (.pending thunk) → thunk.Uses (depends ref)
  exist : ∀ ref other : Ref, depends ref other → other < heap.cells.size
  whole : ∀ ref : Ref, heap.cells[ref]? ≠ some .forcing
  acyclic : ∀ ref, ¬ Relation.TransGen depends ref ref

/-- A lazy that waits as it did in a heap, or has a result. -/
def Ready (heap s : Store α ε κ σ) (ref : Ref) : Prop :=
  (∃ thunk, s.cells[ref]? = some (.pending thunk) ∧ heap.cells[ref]? = some (.pending thunk)) ∨
    ∃ result, s.cells[ref]? = some (.resolved result)

/-- Nothing has become of lazies but that some have a result. -/
def Settles (s s' : Store α ε κ σ) : Prop :=
  ∀ ref : Ref, s'.cells[ref]? = s.cells[ref]? ∨ ∃ result, s'.cells[ref]? = some (.resolved result)

theorem Settles.trans {s'' : Store α ε κ σ} (h : s.Settles s') (h' : s'.Settles s'') : s.Settles s'' := by
  intro ref
  rcases h' ref with hc | hc
  · rw [hc]
    exact h ref
  · exact .inr hc

theorem Settles.lt_size (h : s.Settles s') (hlt : ref < s.cells.size) : ref < s'.cells.size := by
  rcases h ref with hc | ⟨result, hc⟩
  · rw [Array.getElem?_eq_getElem hlt] at hc
    exact (Array.getElem?_eq_some_iff.1 hc).1
  · exact (Array.getElem?_eq_some_iff.1 hc).1

theorem Ready.settles (h : heap.Ready s ref) (hs : s.Settles s') : heap.Ready s' ref := by
  rcases hs ref with hc | hc
  · unfold Ready
    rw [hc]
    exact h
  · exact .inr hc

theorem Acyclic.ready (h : heap.Acyclic depends) (hlt : ref < heap.cells.size) : heap.Ready heap ref := by
  have hc := Array.getElem?_eq_getElem hlt
  cases hcell : heap.cells[ref] with
  | pending thunk => exact .inl ⟨thunk, hcell ▸ hc, hcell ▸ hc⟩
  | forcing => exact absurd (hcell ▸ hc) (h.whole ref)
  | resolved result => exact .inr ⟨result, hcell ▸ hc⟩

theorem Acyclic.accessible (h : heap.Acyclic depends) (ref : Ref) :
    Acc (fun other ref => depends ref other) ref := by
  let below (b a : Fin heap.cells.size) : Prop := Relation.TransGen depends a b
  have : IsTrans _ below := ⟨fun _ _ _ hab hbc => hbc.trans hab⟩
  have : Std.Irrefl below := ⟨fun a => h.acyclic a⟩
  have hwf : WellFounded below := Finite.wellFounded_of_trans_of_irrefl below
  have hacc : ∀ b : Fin heap.cells.size, Acc (fun other ref => depends ref other) b.val := fun b => by
    induction b using hwf.induction with
    | _ b ih => exact ⟨_, fun c hc => ih ⟨c, h.exist b c hc⟩ (.single hc)⟩
  exact ⟨_, fun other ho => hacc ⟨other, h.exist ref other ho⟩⟩

end Store

namespace Thread

variable [DecidableEq κ] {heap : Store α ε κ σ} {depends : Ref → Ref → Prop} {ref : Ref}

/-- A lazy comes to a result wherever it is forced, if the lazies that it depends on are ready. -/
def Comes (heap : Store α ε κ σ) (depends : Ref → Ref → Prop) (ref : Ref) : Prop :=
  ∀ s, (∀ other, Relation.ReflTransGen depends ref other → heap.Ready s other) →
    ∀ next callers events, ∃ m result s' events',
      (⟨.force ref next, callers, s, events⟩ : Thread α ε κ σ).after m =
        some ⟨next result, callers, s', events'⟩ ∧ s.Settles s'

/-- A script comes to its end, if what it forces comes to results. -/
theorem comes_of_uses {uses : Ref → Prop} {script : Script α ε κ σ} (h : script.Uses uses)
    (hcomes : ∀ ref, uses ref → Comes heap depends ref) (s : Store α ε κ σ)
    (hs : ∀ ref, uses ref → ∀ other, Relation.ReflTransGen depends ref other → heap.Ready s other)
    (callers : List (Caller α ε κ σ)) (events : List (Event α ε κ σ)) :
    ∃ m result s' events', (⟨script, callers, s, events⟩ : Thread α ε κ σ).after m =
      some ⟨.done result, callers, s', events'⟩ ∧ s.Settles s' := by
  induction h generalizing s events with
  | done => exact ⟨0, _, s, events, rfl, fun _ => .inl rfl⟩
  | read _ ih =>
    obtain ⟨m, result, s', events', h⟩ := ih s.state s hs events
    exact ⟨m + 1, result, s', events', h⟩
  | @write state _ _ ih =>
    obtain ⟨m, result, s', events', h⟩ := ih { s with state := state } hs events
    exact ⟨m + 1, result, s', events', h⟩
  | @isResolved ref _ _ ih =>
    obtain ⟨m, result, s', events', h⟩ := ih (s.isResolved ref) s hs events
    exact ⟨m + 1, result, s', events', h⟩
  | @force ref next href _ ih =>
    obtain ⟨m, result, s', events', h, hsettles⟩ := hcomes ref href s (hs ref href) next callers events
    obtain ⟨k, result', s'', events'', h', hsettles'⟩ := ih result s'
      (fun ref href other ho => (hs ref href other ho).settles hsettles) events'
    exact ⟨m + k, result', s'', events'', (after_add h k).trans h', hsettles.trans hsettles'⟩

theorem comes (ha : heap.Acyclic depends) (ref : Ref) : Comes heap depends ref := by
  induction ha.accessible ref with
  | intro ref _ ih =>
    intro s hs next callers events
    rcases hs ref .refl with ⟨thunk, hc, hheap⟩ | ⟨result, hc⟩
    · have hstart : Step ⟨.force ref next, callers, s, events⟩ _ := .enter hc
      -- nothing that the lazy depends on is the lazy
      have hready : ∀ other, depends ref other → ∀ below, Relation.ReflTransGen depends other below →
          heap.Ready (s.setCell ref .forcing) below := by
        intro other ho below hb
        have hne : ref ≠ below := by
          rintro rfl
          exact ha.acyclic ref (.head' ho hb)
        have hcell : (s.setCell ref .forcing).cells[below]? = s.cells[below]? :=
          Array.getElem?_setIfInBounds_ne hne
        unfold Store.Ready
        rw [hcell]
        exact hs below (.head ho hb)
      obtain ⟨m, result, s', events', h, hsettles⟩ :=
        comes_of_uses (ha.uses ref thunk hheap) ih _ hready (.lazy ref next :: callers) events
      refine ⟨m + 1 + 1, result, s'.setCell ref (.resolved result), events' ++ [.gave ref result], ?_, ?_⟩
      · rw [Nat.add_right_comm, after_succ hstart.next?_eq, after_add h]
        rfl
      · intro other
        show (s'.cells.setIfInBounds ref _)[other]? = _ ∨ ∃ _, (s'.cells.setIfInBounds ref _)[other]? = _
        by_cases he : ref = other
        · subst he
          have hlt : ref < s'.cells.size := hsettles.lt_size (by
            rw [Store.setCell, Array.size_setIfInBounds]
            exact (Array.getElem?_eq_some_iff.1 hc).1)
          exact .inr ⟨result, Array.getElem?_setIfInBounds_self_of_lt hlt⟩
        · rw [Array.getElem?_setIfInBounds_ne he]
          rcases hsettles other with hsame | hresolved
          · exact .inl (hsame.trans (Array.getElem?_setIfInBounds_ne he))
          · exact .inr hresolved
    · have hgive : Step ⟨.force ref next, callers, s, events⟩ _ := .give hc
      exact ⟨1, result, s, _, after_succ hgive.next?_eq 0, fun _ => .inl rfl⟩

/-- Any script that forces lazies of a heap without cycles runs to an end. -/
theorem runFor_of_acyclic (ha : heap.Acyclic depends) {script : Script α ε κ σ}
    (h : script.Uses fun ref => ref < heap.cells.size) :
    ∃ n result s, script.runFor n heap = .ok result s := by
  have hready : ∀ ref, ref < heap.cells.size → ∀ other, Relation.ReflTransGen depends ref other →
      heap.Ready heap other := by
    intro ref hlt other ho
    refine ha.ready ?_
    rcases Relation.ReflTransGen.cases_tail ho with rfl | ⟨_, _, ho⟩
    · exact hlt
    · exact ha.exist _ _ ho
  obtain ⟨m, result, s, events, hend, _⟩ :=
    comes_of_uses h (fun ref _ => comes ha ref) heap hready [] []
  obtain ⟨n, hn⟩ := (Script.runFor_ok_iff script heap result s).2 ⟨m, events, hend⟩
  exact ⟨n, result, s, hn⟩

end Thread

/-! ## Runs -/

/-- A lazy for each of several functions, of the result of the lazy before it. -/
def Script.chain : List (Result α ε → Script α ε κ σ) → Ref → (Ref → Script α ε κ σ) → Script α ε κ σ
  | [], ref, next => next ref
  | f :: rest, ref, next => .andThen ref f fun ref => chain rest ref next

namespace Thread

theorem sound_on (heap : Store α ε κ σ) (script : Script α ε κ σ) :
    (on heap script).memo.Sound fun ref => heap.cells[ref]? = some .forcing where
  nodup := .nil
  forcing _ := ⟨.inr, fun h => h.resolve_left List.not_mem_nil⟩
  apart _ h := absurd h List.not_mem_nil
  given _ _ h := absurd h List.not_mem_nil

variable [DecidableEq κ]

/-- To make a chain of lazies is to add that many, all of which wait; no lazy is started. -/
theorem chain_after (functions : List (Result α ε → Script α ε κ σ)) (ref : Ref)
    (next : Ref → Script α ε κ σ) (callers : List (Caller α ε κ σ)) (s : Store α ε κ σ)
    (events : List (Event α ε κ σ)) : ∃ last added events',
      (⟨.chain functions ref next, callers, s, events⟩ : Thread α ε κ σ).after functions.length =
        some ⟨next last, callers, { s with cells := s.cells ++ added }, events'⟩ ∧
      added.size = functions.length ∧ (∀ cell ∈ added, ∃ thunk, cell = .pending thunk) ∧
      ∀ k < functions.length, ∀ t,
        (⟨.chain functions ref next, callers, s, events⟩ : Thread α ε κ σ).after k = some t →
          t.starts? = none := by
  induction functions generalizing ref s events with
  | nil => exact ⟨ref, #[], events, by simp [after, Script.chain], rfl, by simp, by simp⟩
  | cons f rest ih =>
    have hstep : (⟨.chain (f :: rest) ref next, callers, s, events⟩ : Thread α ε κ σ).next? =
        some ⟨.chain rest s.cells.size next, callers, s.alloc (.pending (.force ref f)),
          events ++ [Event.made s.cells.size (.force ref f)]⟩ := rfl
    obtain ⟨last, added, events', hafter, hsize, hadded, hstarts⟩ := ih s.cells.size
      (s.alloc (.pending (.force ref f))) (events ++ [Event.made s.cells.size (.force ref f)])
    refine ⟨last, #[.pending (.force ref f)] ++ added, events', ?_, ?_, ?_, fun k hk t ht => ?_⟩
    · rw [List.length_cons, after_succ hstep, hafter]
      show some (Thread.mk _ _ { s with cells := s.cells.push _ ++ added } _) = _
      rw [Array.push_eq_append, Array.append_assoc]
    · rw [Array.size_append, hsize, List.length_cons, Nat.add_comm]
      rfl
    · intro cell hm
      rcases Array.mem_append.1 hm with hm | hm
      · exact ⟨_, List.mem_singleton.1 (Array.mem_def.1 hm)⟩
      · exact hadded cell hm
    · cases k with
      | zero =>
        cases ht
        rfl
      | succ k =>
        rw [after_succ hstep] at ht
        exact hstarts k (Nat.lt_of_succ_lt_succ hk) t ht

/-- What holds of lazies in every run of a script on a heap. -/
structure Memoizes (heap : Store α ε κ σ) (script : Script α ε κ σ) : Prop where
  /-- The run and its thread come to the same end. -/
  ends : ∀ result s, (∃ n, script.runFor n heap = .ok result s) ↔
    ∃ m events, (on heap script).after m = some ⟨.done result, [], s, events⟩
  /-- No lazy is started twice. -/
  once : ∀ ref j k t u, (on heap script).after j = some t → (on heap script).after k = some u →
    t.starts? = some ref → u.starts? = some ref → j = k
  /-- A lazy keeps its result. -/
  keeps : ∀ (ref : Ref) result j k t u, j ≤ k → (on heap script).after j = some t →
    (on heap script).after k = some u → t.store.cells[ref]? = some (.resolved result) →
      u.store.cells[ref]? = some (.resolved result)
  /-- Whoever forces a lazy is given that result. -/
  gives : ∀ (ref : Ref) result m t, (on heap script).after m = some t → .gave ref result ∈ t.events →
    t.store.cells[ref]? = some (.resolved result)
  /-- A chain of lazies is made without running any. -/
  chains : ∀ functions ref next m t, (on heap script).after m = some t →
    t.script = .chain functions ref next → ∃ last added events,
      t.after functions.length =
        some ⟨next last, t.callers, { t.store with cells := t.store.cells ++ added }, events⟩ ∧
      added.size = functions.length ∧ (∀ cell ∈ added, ∃ thunk, cell = .pending thunk) ∧
      ∀ k < functions.length, ∀ u, t.after k = some u → u.starts? = none
  /-- To panic is to come back to a lazy whose script still runs. The others that could not be forced
  are those that a panic has cut off before, and those that there are not. -/
  panics : (∃ n s, script.runFor n heap = .reentered s) ↔
    ∃ m t ref next, (on heap script).after m = some t ∧ t.script = .force ref next ∧
      (ref ∈ t.running ∨ heap.cells[ref]? = some .forcing ∨ t.store.cells.size ≤ ref)
  /-- Where what is forced in the run, and waits, is no cycle, no lazy whose script runs is forced. -/
  acyclic : ∀ depends, (on heap script).DependsBy depends →
    (∀ ref, ¬ Relation.TransGen depends ref ref) → ∀ m t ref next,
      (on heap script).after m = some t → t.script = .force ref next → ref ∉ t.running
  /-- Where there is no cycle in what the lazies of the heap may force, the run comes to an end. -/
  terminates : ∀ depends, heap.Acyclic depends → script.Uses (fun ref => ref < heap.cells.size) →
    ∃ n result s, script.runFor n heap = .ok result s

/-- A lazy is run at most once and never changes. -/
theorem memoizes (heap : Store α ε κ σ) (script : Script α ε κ σ) : Memoizes heap script where
  ends := script.runFor_ok_iff heap
  once := by
    have hlt : ∀ {ref j k t u}, (on heap script).after j = some t → (on heap script).after k = some u →
        t.starts? = some ref → u.starts? = some ref → ¬ j < k := by
      intro ref j k t u hj hk hs hs' hlt
      obtain ⟨d, rfl⟩ := Nat.exists_eq_add_of_le hlt
      rw [Nat.succ_add, ← Nat.add_succ, after_add hj] at hk
      exact not_starts_again (after_sound (sound_on heap script) hj) hs hk hs'
    intro ref j k t u hj hk hs hs'
    exact Nat.le_antisymm (Nat.not_lt.1 (hlt hk hj hs' hs)) (Nat.not_lt.1 (hlt hj hk hs hs'))
  keeps := by
    intro ref result j k t u hle hj hk hc
    obtain ⟨d, rfl⟩ := Nat.exists_eq_add_of_le hle
    rw [after_add hj] at hk
    obtain ⟨cell, hc', hleads⟩ := after_leads (after_sound (sound_on heap script) hj) hk hc
    rw [hc', hleads.resolved]
  gives ref result m t ht hm := (after_sound (sound_on heap script) ht).given ref result (mem_given.2 hm)
  chains := by
    rintro functions ref next m ⟨_, callers, s, events⟩ - rfl
    exact chain_after functions ref next callers s events
  panics := by
    rw [script.runFor_reentered_iff heap]
    refine exists_congr fun m => ⟨?_, ?_⟩
    · rintro ⟨t, ht, hstuck⟩
      obtain ⟨ref, next, hs, hc⟩ := stuck_iff.1 hstuck
      refine ⟨t, ref, next, ht, hs, ?_⟩
      rcases hc with hc | hc
      · exact (((after_sound (sound_on heap script) ht).forcing ref).1 hc).imp_right .inl
      · exact .inr (.inr (Array.getElem?_eq_none_iff.1 hc))
    · rintro ⟨t, ref, next, ht, hs, h⟩
      refine ⟨t, ht, stuck_iff.2 ⟨ref, next, hs, ?_⟩⟩
      rw [← or_assoc] at h
      exact h.imp ((after_sound (sound_on heap script) ht).forcing ref).2 Array.getElem?_eq_none
  acyclic depends hd hacyclic m t ref next ht hs :=
    not_mem_running hd hacyclic .nil (sound_on heap script) ht hs
  terminates _ ha h := runFor_of_acyclic ha h

end Thread

/-! Two lazies that share a third one, which counts how often it is run. -/

namespace Diamond

def heap : Store Nat String Nat Nat :=
  ⟨0, #[.pending (.read fun n => .write (n + 1) (.done (.ok (.leaf 42)))), .pending (.force 0 .done),
    .pending (.force 0 .done)], [], .fresh⟩

def script : Script Nat String Nat Nat :=
  .force 1 fun _ => .force 2 fun _ => .force 0 .done

theorem heap_acyclic : heap.Acyclic fun ref other => 0 < ref ∧ other = 0 where
  uses ref thunk h := by
    rcases ref with _ | _ | _ | ref
    · cases h
      exact .read fun _ => .write .done
    · cases h
      exact .force ⟨Nat.succ_pos _, rfl⟩ fun _ => .done
    · cases h
      exact .force ⟨Nat.succ_pos _, rfl⟩ fun _ => .done
    · simp [heap] at h
  exist _ _ h := h.2 ▸ Nat.succ_pos _
  whole ref h := by
    rcases ref with _ | _ | _ | ref
    all_goals simp [heap] at h
  acyclic ref h := by
    obtain ⟨_, ⟨hpos, rfl⟩, h⟩ := Relation.TransGen.head'_iff.1 h
    rcases Relation.ReflTransGen.cases_head h with rfl | ⟨_, ⟨hzero, _⟩, _⟩
    · exact Nat.lt_irrefl 0 hpos
    · exact Nat.lt_irrefl 0 hzero

end Diamond

theorem Thread.memoizes_diamond :
    (∃ n result s, Diamond.script.runFor n Diamond.heap = .ok result s) ∧
    ∃ s, Diamond.script.runFor 3 Diamond.heap = .ok (.ok (.leaf 42)) s ∧ s.state = 1 :=
  ⟨(memoizes Diamond.heap Diamond.script).terminates _ Diamond.heap_acyclic
    (.force (by decide) fun _ => .force (by decide) fun _ => .force (by decide) fun _ => .done),
    _, rfl, rfl⟩

end GraphQL.Deferred
