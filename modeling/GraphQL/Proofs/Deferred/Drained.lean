import GraphQL.Proofs.Deferred.Step
import Mathlib.Data.List.Perm.Basic

/-!
# The queue is drained breadth first

`Thread.Trace` is some steps of a thread together with the jobs that they take off the queue and
those that they put into it. As long as the queue is held, what is taken off is what was put in, in
that order (`Trace.queue`). A run of the queue is a sequence of turns (`Turns`), in each of which a
job runs on the store that the jobs before it have left; what it puts into the queue may depend on
that store. Afterwards the jobs are known to be a forest (`Spawn`): each has below it those that it
put into the queue. The turns go through that forest one generation after the other
(`Turns.exists_forest`).
-/

namespace GraphQL.Deferred

variable {α ε κ σ : Type}

/-! ## Trees of jobs -/

/-- A job, and the trees of the jobs that it puts into the queue, in order. -/
inductive Spawn (α ε κ σ : Type) where
  | node (job : Script α ε κ σ) (children : List (Spawn α ε κ σ))

namespace Spawn

def job : Spawn α ε κ σ → Script α ε κ σ
  | node job _ => job

def children : Spawn α ε κ σ → List (Spawn α ε κ σ)
  | node _ children => children

/-- The job, with those that it puts into the queue. -/
def entry (x : Spawn α ε κ σ) : Script α ε κ σ × List (Script α ε κ σ) :=
  (x.job, x.children.map job)

mutual

/-- How many generations a tree has. -/
def height : Spawn α ε κ σ → Nat
  | node _ children => heights children + 1

def heights : List (Spawn α ε κ σ) → Nat
  | [] => 0
  | x :: rest => max x.height (heights rest)

end

mutual

/-- A tree and all trees in it. -/
def within : Spawn α ε κ σ → List (Spawn α ε κ σ)
  | node job children => node job children :: allWithin children

def allWithin : List (Spawn α ε κ σ) → List (Spawn α ε κ σ)
  | [] => []
  | x :: rest => x.within ++ allWithin rest

end

/-- The trees that are so far below the top of one, from left to right. -/
def atDepth : Nat → Spawn α ε κ σ → List (Spawn α ε κ σ)
  | 0, x => [x]
  | n + 1, x => x.children.flatMap (atDepth n)

/-- All that is in some trees, one generation after the other. -/
def breadthFirst (trees : List (Spawn α ε κ σ)) : List (Spawn α ε κ σ) :=
  (List.range (heights trees)).flatMap fun n => trees.flatMap (atDepth n)

theorem heights_append (xs ys : List (Spawn α ε κ σ)) :
    heights (xs ++ ys) = max (heights xs) (heights ys) := by
  induction xs with
  | nil => simp [heights]
  | cons x rest ih => simp [heights, ih, Nat.max_assoc]

/-- The trees below have one generation less. -/
theorem heights_children (trees : List (Spawn α ε κ σ)) :
    heights (trees.flatMap children) = heights trees - 1 := by
  induction trees with
  | nil => rfl
  | cons x rest ih =>
    obtain ⟨job, children⟩ := x
    rw [List.flatMap_cons, heights_append, ih, heights, height, Spawn.children]
    omega

theorem heights_eq_zero {trees : List (Spawn α ε κ σ)} (h : heights trees = 0) : trees = [] := by
  cases trees with
  | nil => rfl
  | cons x rest =>
    obtain ⟨job, children⟩ := x
    rw [heights, height] at h
    omega

/-- The first generation, and then those of the trees below. -/
theorem breadthFirst_eq (trees : List (Spawn α ε κ σ)) :
    breadthFirst trees = trees ++ breadthFirst (trees.flatMap children) := by
  unfold breadthFirst
  rw [heights_children]
  cases h : heights trees with
  | zero => rw [heights_eq_zero h]; rfl
  | succ n =>
    have hfirst : trees.flatMap (atDepth 0) = trees := List.flatMap_singleton' trees
    rw [List.range_succ_eq_map, List.flatMap_cons, hfirst, List.flatMap_map, Nat.add_sub_cancel]
    simp only [List.flatMap_assoc, atDepth]

/-- Where the first trees have had their turn, the trees below them come after the others. -/
theorem breadthFirst_append (xs ys : List (Spawn α ε κ σ)) :
    breadthFirst (xs ++ ys) = xs ++ breadthFirst (ys ++ xs.flatMap children) := by
  generalize hn : heights (xs ++ ys) = n
  induction n generalizing xs ys with
  | zero =>
    obtain ⟨rfl, rfl⟩ := List.append_eq_nil_iff.1 (heights_eq_zero hn)
    rfl
  | succ n ih =>
    have hbelow := ih (xs.flatMap children) (ys.flatMap children)
      (by rw [← List.flatMap_append, heights_children, hn]; rfl)
    rw [breadthFirst_eq, List.flatMap_append, hbelow, breadthFirst_eq (ys ++ xs.flatMap children),
      List.flatMap_append]
    simp only [List.append_assoc]

theorem within_eq (x : Spawn α ε κ σ) : x.within = x :: allWithin x.children := by
  obtain ⟨job, children⟩ := x
  rfl

theorem allWithin_eq (trees : List (Spawn α ε κ σ)) : allWithin trees = trees.flatMap within := by
  induction trees with
  | nil => rfl
  | cons x rest ih => rw [allWithin, ih, List.flatMap_cons]

/-- Breadth first all that is in the trees comes once. -/
theorem breadthFirst_perm (trees : List (Spawn α ε κ σ)) :
    (breadthFirst trees).Perm (allWithin trees) := by
  generalize hn : heights trees = n
  induction n generalizing trees with
  | zero => rw [heights_eq_zero hn]; exact .nil
  | succ n ih =>
    have hbelow := ih (trees.flatMap children) (by rw [heights_children, hn]; rfl)
    rw [breadthFirst_eq, allWithin_eq]
    refine (hbelow.append_left _).trans ?_
    have hfirst := List.map_append_flatMap_perm trees id fun x => allWithin x.children
    simp only [allWithin_eq, List.flatMap_assoc, List.map_id] at hfirst ⊢
    refine hfirst.trans (.of_eq (congrArg trees.flatMap ?_))
    funext x
    rw [within_eq, allWithin_eq]
    rfl

end Spawn

/-! ## Traces -/

namespace Thread

/-- The job that the next step takes off the queue, if it does. -/
def taken (t : Thread α ε κ σ) : List (Script α ε κ σ) :=
  match t.script, t.callers with
  | .done _, .queue _ :: _ => t.store.queue.jobs.take 1
  | _, _ => []

variable [DecidableEq κ]

/-- The job that the next step puts into the queue, if it does. -/
def added (t : Thread α ε κ σ) : List (Script α ε κ σ) :=
  match t.script with
  | .job work _ => if t.store.queue.held then [work] else []
  | .request id key _ =>
    match t.store.batch? id with
    | none => []
    | some b => if b.source.needsFlush key && t.store.queue.isAlive then [.flush id] else []
  | _ => []

/-- The job that a step takes off the queue is what runs next. -/
theorem next?_of_taken {t : Thread α ε κ σ} {job : Script α ε κ σ} (h : t.taken = [job]) :
    t.next? = some { t with
      script := job
      store := { t.store with queue := { t.store.queue with jobs := t.store.queue.jobs.tail } } } := by
  obtain ⟨script, callers, s, events⟩ := t
  unfold taken at h
  split at h
  · next hs hc =>
    cases hs
    cases hc
    cases hjobs : s.queue.jobs with
    | nil => simp [hjobs] at h
    | cons first rest =>
      obtain rfl : first = job := by simpa [hjobs] using h
      exact (Step.take hjobs).next?_eq
  · cases h

/-- Some steps of a thread, with the jobs that they take off the queue and those that they put into
it. -/
inductive Trace : Thread α ε κ σ → List (Script α ε κ σ) → List (Script α ε κ σ) →
    Thread α ε κ σ → Prop where
  | refl (t : Thread α ε κ σ) : Trace t [] [] t
  | step {t t' t'' : Thread α ε κ σ} {taken added : List (Script α ε κ σ)} :
      t.next? = some t' → Trace t' taken added t'' →
      Trace t (t.taken ++ taken) (t.added ++ added) t''

variable {t t' t'' : Thread α ε κ σ}

/-- What a step does to the queue while it is held. -/
def Shifts (t t' : Thread α ε κ σ) : Prop :=
  t.store.queue.held = true ∧ t.store.queue.jobs ++ t.added = t.taken ++ t'.store.queue.jobs

theorem shifts_of_idle (htaken : t.taken = []) (hadded : t.added = [])
    (hq : t'.store.queue = t.store.queue) (hheld : t'.store.queue.held = true) : t.Shifts t' := by
  rw [Shifts, htaken, hadded, ← hq, List.append_nil]
  exact ⟨hheld, rfl⟩

/-- A request puts the flush of its source into the queue if that is called for. -/
theorem request_shifts {id : SourceId} {key : κ} {next : Script α ε κ σ} {b : Batch α ε κ σ}
    {callers : List (Caller α ε κ σ)} {s : Store α ε κ σ} {events events' : List (Event α ε κ σ)}
    (hb : s.batch? id = some b) (hheld : (s.request id key).queue.held = true) :
    Shifts ⟨.request id key next, callers, s, events⟩
      ⟨next, callers, s.request id key, events'⟩ := by
  simp only [Store.request, hb] at hheld ⊢
  cases hneeds : b.source.needsFlush key && s.queue.isAlive with
  | false =>
    rw [hneeds] at hheld
    exact shifts_of_idle rfl (by simp [added, hb, hneeds]) rfl hheld
  | true =>
    rw [hneeds] at hheld
    exact ⟨hheld, by simp [taken, added, hb, hneeds, Queue.append, Store.setSource]⟩

/-- While the queue is held, a step takes its job off the front and puts its job at the end. -/
theorem Step.shifts (h : t.Step t') (hheld : t'.store.queue.held = true) : t.Shifts t' := by
  cases h with
  | look h =>
    cases h with
    | request hb => exact shifts_of_idle rfl (by simp [added, hb]) rfl hheld
    | _ => exact shifts_of_idle rfl rfl rfl hheld
  | @job work next callers s events =>
    have hq : s.queue.held = true := by
      rcases s.queue_addJob work with hq | hq <;> rwa [hq] at hheld
    refine ⟨hq, ?_⟩
    simp [taken, added, hq, Store.addJob, Queue.append]
  | run hq => exact ⟨hq, by simp [taken, added, Queue.entered]⟩
  | take hjobs => exact ⟨hheld, by simp [taken, added, hjobs]⟩
  | @leave result next callers s events hjobs =>
    have hq : s.queue.left = { s.queue with runs := s.queue.runs - 1 } :=
      Queue.settled_of_held ((Queue.held_settled _).symm.trans hheld)
    rw [hq] at hheld
    exact ⟨hheld, by simp [taken, added, hjobs, hq]⟩
  | close => exact absurd ((Queue.held_settled _).symm.trans hheld) Bool.false_ne_true
  | source => exact shifts_of_idle rfl rfl (Store.queue_addSource ..) hheld
  | request hb => exact request_shifts hb hheld
  | idle h | call h => cases h <;> exact shifts_of_idle rfl rfl rfl hheld
  | _ => exact shifts_of_idle rfl rfl rfl hheld

namespace Trace

variable {ran put ran' put' : List (Script α ε κ σ)}

theorem single (h : t.next? = some t') : Trace t t.taken t.added t' := by
  simpa using Trace.step h (.refl t')

theorem trans (h : Trace t ran put t') (h' : Trace t' ran' put' t'') :
    Trace t (ran ++ ran') (put ++ put') t'' := by
  induction h with
  | refl => exact h'
  | step hn _ ih =>
    rw [List.append_assoc, List.append_assoc]
    exact .step hn (ih h')

theorem exists_after (h : Trace t ran put t') : ∃ m, t.after m = some t' := by
  induction h with
  | refl t => exact ⟨0, rfl⟩
  | step hn _ ih =>
    obtain ⟨m, hm⟩ := ih
    exact ⟨m + 1, (after_succ hn m).trans hm⟩

/-- What is taken off the queue is what was in it and what is put into it, in that order. -/
theorem queue (h : Trace t ran put t') (hheld : t'.store.queue.held = true) :
    t.store.queue.held = true ∧
      t.store.queue.jobs ++ put = ran ++ t'.store.queue.jobs := by
  induction h with
  | refl t => exact ⟨hheld, List.append_nil _⟩
  | step hn _ ih =>
    obtain ⟨hheld, hrest⟩ := ih hheld
    obtain ⟨hheld, hstep⟩ := (step_of_next? hn).shifts hheld
    refine ⟨hheld, ?_⟩
    rw [← List.append_assoc, hstep, List.append_assoc, hrest, List.append_assoc]

end Trace

/-! ## Threads under others -/

/-- The thread with others that wait behind its own, and something that happened before. -/
def under (t : Thread α ε κ σ) (callers : List (Caller α ε κ σ)) (events : List (Event α ε κ σ)) :
    Thread α ε κ σ :=
  ⟨t.script, t.callers ++ callers, t.store, events ++ t.events⟩

omit [DecidableEq κ] in
theorem under_concat {script : Script α ε κ σ} {waiting : List (Caller α ε κ σ)} {s : Store α ε κ σ}
    {before : List (Event α ε κ σ)} {e : Event α ε κ σ} (callers : List (Caller α ε κ σ))
    (events : List (Event α ε κ σ)) :
    under ⟨script, waiting, s, before ++ [e]⟩ callers events =
      ⟨script, waiting ++ callers, s, events ++ before ++ [e]⟩ := by
  rw [under, ← List.append_assoc]

/-- What waits behind makes no difference to a step. -/
theorem Step.under (h : t.Step t') (callers : List (Caller α ε κ σ))
    (events : List (Event α ε κ σ)) : (t.under callers events).Step (t'.under callers events) := by
  cases h with
  | look h => exact .look h
  | write => exact .write
  | defer => rw [under_concat]; exact .defer
  | ready => exact .ready
  | give hc => rw [under_concat]; exact .give hc
  | enter hc => exact .enter hc
  | resolve => rw [under_concat]; exact .resolve
  | job => exact .job
  | run hheld => exact .run hheld
  | take hjobs => exact .take hjobs
  | leave hjobs => rw [under_concat]; exact .leave hjobs
  | close => exact .close
  | source => exact .source
  | request hb => rw [under_concat]; exact .request hb
  | idle h hp => exact .idle h hp
  | call h hb hp => rw [under_concat]; exact .call h hb hp
  | load => rw [under_concat]; exact .load

theorem taken_under (h : t.Step t') (callers : List (Caller α ε κ σ))
    (events : List (Event α ε κ σ)) : (t.under callers events).taken = t.taken := by
  cases h with
  | look h | idle h | call h => cases h <;> rfl
  | _ => rfl

theorem Trace.under {ran put : List (Script α ε κ σ)} (h : Trace t ran put t')
    (callers : List (Caller α ε κ σ)) (events : List (Event α ε κ σ)) :
    Trace (t.under callers events) ran put (t'.under callers events) := by
  induction h with
  | refl t => exact .refl _
  | step hn _ ih =>
    have hstep := step_of_next? hn
    rw [← taken_under hstep callers events]
    exact .step (hstep.under callers events).next?_eq ih

end Thread

/-! ## Turns -/

/-- A job that is taken off the queue, with the jobs that are taken off and put in while it runs. -/
structure Turn (α ε κ σ : Type) where
  job : Script α ε κ σ
  taken : List (Script α ε κ σ)
  put : List (Script α ε κ σ)

namespace Turn

/-- The job of a turn, and those that it takes off by running the queue itself. -/
def jobs (turn : Turn α ε κ σ) : List (Script α ε κ σ) :=
  turn.job :: turn.taken

/-- The job of a turn, with those that it puts into the queue. -/
def entry (turn : Turn α ε κ σ) : Script α ε κ σ × List (Script α ε κ σ) :=
  (turn.job, turn.put)

end Turn

namespace Store

/-- The store when a run of the queue begins. -/
def entered (s : Store α ε κ σ) : Store α ε κ σ :=
  { s with queue := s.queue.entered }

/-- The store when a run of the queue is over. -/
def left (s : Store α ε κ σ) : Store α ε κ σ :=
  { s with queue := s.queue.left }

/-- The store with other jobs in its queue. -/
def withJobs (s : Store α ε κ σ) (jobs : List (Script α ε κ σ)) : Store α ε κ σ :=
  { s with queue := { s.queue with jobs := jobs } }

end Store

variable [DecidableEq κ]

/-- The turns of a run of the queue: each job runs on what the jobs before it have left, until none
waits. -/
inductive Turns : Store α ε κ σ → List (Turn α ε κ σ) → Store α ε κ σ → Prop where
  | done {s : Store α ε κ σ} : s.queue.jobs = [] → Turns s [] s
  | turn {s s' s'' : Store α ε κ σ} {turn : Turn α ε κ σ} {turns : List (Turn α ε κ σ)}
      {rest : List (Script α ε κ σ)} {result : Result α ε} {events : List (Event α ε κ σ)} :
      s.queue.jobs = turn.job :: rest →
      Thread.Trace (.on (s.withJobs rest) turn.job) turn.taken turn.put
        ⟨.done result, [], s', events⟩ →
      Turns s' turns s'' → Turns s (turn :: turns) s''

/-- The turns of several runs of the queue, with groups of jobs that are put into it in between. -/
inductive Rounds : Store α ε κ σ → List (List (Script α ε κ σ)) → List (List (Turn α ε κ σ)) →
    Store α ε κ σ → Prop where
  | last {s s' : Store α ε κ σ} {turns : List (Turn α ε κ σ)} :
      s.queue.held = true → Turns s.entered turns s' → Rounds s [] [turns] s'.left
  | next {s s' s'' : Store α ε κ σ} {turns : List (Turn α ε κ σ)} {jobs : List (Script α ε κ σ)}
      {groups : List (List (Script α ε κ σ))} {rounds : List (List (Turn α ε κ σ))} :
      s.queue.held = true → Turns s.entered turns s' →
      Rounds (jobs.foldl Store.addJob s'.left) groups rounds s'' →
      Rounds s (jobs :: groups) (turns :: rounds) s''

/-- Runs the queue, and then again after each group of jobs that is put into it. -/
def Script.rounds : List (List (Script α ε κ σ)) → Script α ε κ σ
  | [] => .run .nothing
  | jobs :: groups => .run (jobs.foldr .job (rounds groups))

namespace Turns

variable {s s' : Store α ε κ σ} {turns : List (Turn α ε κ σ)}

/-- Nothing waits after the last turn. -/
theorem jobs_eq_nil (h : Turns s turns s') : s'.queue.jobs = [] := by
  induction h with
  | done hempty => exact hempty
  | turn _ _ _ ih => exact ih

/-- Jobs are taken off in the order in which they are put in, each of them once. -/
theorem queue (h : Turns s turns s') (hheld : s'.queue.held = true) : s.queue.held = true ∧
    s.queue.jobs ++ turns.flatMap Turn.put = turns.flatMap Turn.jobs := by
  induction h with
  | done hempty => exact ⟨hheld, by rw [hempty]; rfl⟩
  | @turn s s' s'' turn turns rest result events hjobs htrace _ ih =>
    obtain ⟨hheld', hrest⟩ := ih hheld
    obtain ⟨hheld, hturn⟩ := htrace.queue hheld'
    refine ⟨hheld, ?_⟩
    have hturn : rest ++ turn.put = turn.taken ++ s'.queue.jobs := hturn
    rw [hjobs, List.flatMap_cons, List.flatMap_cons, List.cons_append, ← List.append_assoc, hturn,
      List.append_assoc, hrest]
    rfl

open Spawn in
/-- Where no job runs the queue itself, the turns are the forest of the jobs that wait, one
generation after the other. -/
theorem exists_forest (h : Turns s turns s') (hheld : s'.queue.held = true)
    (htaken : ∀ turn ∈ turns, turn.taken = []) : ∃ forest : List (Spawn α ε κ σ),
      forest.map job = s.queue.jobs ∧
      (breadthFirst forest).map Spawn.entry = turns.map Turn.entry := by
  induction h with
  | done hempty => exact ⟨[], hempty.symm, rfl⟩
  | @turn s s' s'' turn turns rest result events hjobs htrace hturns ih =>
    obtain ⟨hnone, hothers⟩ := List.forall_mem_cons.1 htaken
    obtain ⟨trees, hroots, hrest⟩ := ih hheld hothers
    -- what the job has put into the queue stands behind the rest of it
    have hbehind : rest ++ turn.put = s'.queue.jobs := by
      have hturn := (htrace.queue (hturns.queue hheld).1).2
      rw [hnone] at hturn
      exact hturn
    rw [← hbehind] at hroots
    obtain ⟨waiting, children, rfl, rfl, hchildren⟩ := List.map_eq_append_iff.1 hroots
    refine ⟨.node turn.job children :: waiting, hjobs.symm, ?_⟩
    have hone := breadthFirst_append [.node turn.job children] waiting
    rw [List.flatMap_singleton] at hone
    rw [← List.singleton_append, hone, List.map_append, List.map_cons, show
      (Spawn.node turn.job children).children = children from rfl, hrest]
    show ((turn.job, children.map job) :: _) = (turn.job, turn.put) :: _
    rw [hchildren]
    rfl

end Turns

/-- How a run of the queue goes through the jobs that wait: they and those that are put in are taken
off in that order, each of them once. Where no job runs the queue itself, they are a forest that is
gone through breadth first. -/
structure Drains (waiting : List (Script α ε κ σ)) (turns : List (Turn α ε κ σ)) : Prop where
  order : waiting ++ turns.flatMap Turn.put = turns.flatMap Turn.jobs
  forest : (∀ turn ∈ turns, turn.taken = []) → ∃ forest : List (Spawn α ε κ σ),
    forest.map Spawn.job = waiting ∧
    (Spawn.breadthFirst forest).map Spawn.entry = turns.map Turn.entry ∧
    (Spawn.breadthFirst forest).Perm (Spawn.allWithin forest)

theorem Turns.drains {s s' : Store α ε κ σ} {turns : List (Turn α ε κ σ)} (h : Turns s turns s')
    (hheld : s'.queue.held = true) : Drains s.queue.jobs turns := by
  refine ⟨(h.queue hheld).2, fun htaken => ?_⟩
  obtain ⟨forest, hroots, hturns⟩ := h.exists_forest hheld htaken
  exact ⟨forest, hroots, hturns, Spawn.breadthFirst_perm forest⟩

namespace Thread

variable {s s' : Store α ε κ σ} {turns : List (Turn α ε κ σ)}
  {groups : List (List (Script α ε κ σ))} {rounds : List (List (Turn α ε κ σ))}

/-! ## A run takes its turns -/

section

variable (next : Script α ε κ σ) (callers : List (Caller α ε κ σ))

theorem trace_enter (hheld : s.queue.held = true) (events : List (Event α ε κ σ)) :
    Trace ⟨.run next, callers, s, events⟩ [] []
      ⟨.nothing, .queue next :: callers, s.entered, events⟩ := by
  exact Trace.single (Step.run hheld).next?_eq

theorem trace_leave (hempty : s.queue.jobs = []) (result : Result α ε)
    (events : List (Event α ε κ σ)) :
    Trace ⟨.done result, .queue next :: callers, s, events⟩ [] []
      ⟨next, callers, s.left, events ++ [Event.ran]⟩ := by
  have htaken : taken ⟨.done result, .queue next :: callers, s, events⟩ = [] := by
    simp [taken, hempty]
  have hstep : Step ⟨.done result, .queue next :: callers, s, events⟩ _ := .leave hempty
  have htrace := Trace.single hstep.next?_eq
  rwa [htaken] at htrace

theorem trace_turns (h : Turns s turns s') (result : Result α ε) (events : List (Event α ε κ σ)) :
    ∃ result' events', Trace ⟨.done result, .queue next :: callers, s, events⟩
      (turns.flatMap Turn.jobs) (turns.flatMap Turn.put)
      ⟨.done result', .queue next :: callers, s', events'⟩ := by
  induction h generalizing result events with
  | done _ => exact ⟨result, events, .refl _⟩
  | @turn s s' s'' turn turns rest ended events' hjobs htrace _ ih =>
    have htaken : taken ⟨.done result, .queue next :: callers, s, events⟩ = [turn.job] := by
      simp [taken, hjobs]
    have hnext := next?_of_taken htaken
    have hrun := htrace.under (.queue next :: callers) events
    rw [under, on, List.append_nil] at hrun
    rw [hjobs, List.tail_cons] at hnext
    replace hrun := Trace.step hnext hrun
    rw [htaken] at hrun
    obtain ⟨result', events'', hrest⟩ := ih ended (events ++ events')
    exact ⟨result', events'', hrun.trans hrest⟩

/-- A run of the queue takes its turns. -/
theorem trace_run (hheld : s.queue.held = true) (h : Turns s.entered turns s')
    (events : List (Event α ε κ σ)) :
    ∃ events', Trace ⟨.run next, callers, s, events⟩ (turns.flatMap Turn.jobs)
      (turns.flatMap Turn.put) ⟨next, callers, s'.left, events'⟩ := by
  obtain ⟨result, events', hturns⟩ := trace_turns next callers h (.ok (.list [])) events
  have htrace := (trace_enter next callers hheld events).trans
    (hturns.trans (trace_leave next callers h.jobs_eq_nil result events'))
  rw [List.append_nil, List.append_nil] at htrace
  exact ⟨_, htrace⟩

/-- A run of the queue while nothing waits in it changes nothing. -/
theorem trace_run_idle (hheld : s.queue.held = true) (hempty : s.queue.jobs = [])
    (events : List (Event α ε κ σ)) :
    Trace ⟨.run next, callers, s, events⟩ [] [] ⟨next, callers, s, events ++ [Event.ran]⟩ := by
  have hleft : s.entered.left = s := by
    have hqueue : s.queue.entered.left = s.queue := Queue.settled_of_held hheld
    rw [Store.left, Store.entered, hqueue]
  have hleave := trace_leave next callers (s := s.entered) hempty (.ok (.list [])) events
  rw [hleft] at hleave
  exact (trace_enter next callers hheld events).trans hleave

end

/-- Jobs are put into the queue while nothing runs it. -/
theorem trace_jobs (jobs : List (Script α ε κ σ)) (next : Script α ε κ σ)
    (callers : List (Caller α ε κ σ)) (events : List (Event α ε κ σ)) :
    ∀ s : Store α ε κ σ, (jobs.foldl Store.addJob s).queue.held = true →
      Trace ⟨jobs.foldr .job next, callers, s, events⟩ [] jobs
        ⟨next, callers, jobs.foldl Store.addJob s, events⟩ := by
  induction jobs with
  | nil => exact fun s _ => .refl _
  | cons job jobs ih =>
    intro s hheld
    have hrest := ih (s.addJob job) hheld
    have hstep : (⟨(job :: jobs).foldr .job next, callers, s, events⟩ : Thread α ε κ σ).next? =
        some ⟨jobs.foldr .job next, callers, s.addJob job, events⟩ := rfl
    have hs : s.queue.held = true := ((step_of_next? hstep).shifts (hrest.queue hheld).1).1
    simpa [taken, added, hs] using Trace.step hstep hrest

end Thread

/-! ## Turns are what a run takes -/

namespace Thread

variable {s s' : Store α ε κ σ} {groups : List (List (Script α ε κ σ))}
  {rounds : List (List (Turn α ε κ σ))}

theorem exists_trace {t t' : Thread α ε κ σ} {m : Nat} (h : t.after m = some t') :
    ∃ ran put, Trace t ran put t' := by
  induction m generalizing t with
  | zero =>
    cases h
    exact ⟨[], [], .refl _⟩
  | succ m ih =>
    obtain ⟨u, hu, h⟩ := Option.bind_eq_some_iff.1 h
    obtain ⟨ran, put, htrace⟩ := ih h
    exact ⟨_, _, .step hu htrace⟩

/-- What a script comes to has a trace. -/
theorem trace_of_runFor {script : Script α ε κ σ} {n : Nat} {result : Result α ε}
    (h : script.runFor n s = .ok result s') :
    ∃ ran put events, Trace (.on s script) ran put ⟨.done result, [], s', events⟩ := by
  obtain ⟨m, events, hm⟩ := (Script.runFor_ok_iff script s result s').1 ⟨n, h⟩
  obtain ⟨ran, put, htrace⟩ := exists_trace hm
  exact ⟨ran, put, events, htrace⟩

/-- A queue that is held in the end was held all the time. -/
theorem held_of_runFor {script : Script α ε κ σ} {n : Nat} {result : Result α ε}
    (h : script.runFor n s = .ok result s') (hheld : s'.queue.held = true) :
    s.queue.held = true := by
  obtain ⟨ran, put, events, htrace⟩ := trace_of_runFor h
  exact (htrace.queue hheld).1

theorem exists_turns {n d : Nat} (h : Store.drain (Script.runFor n) d s = .ok () s') :
    ∃ turns, Turns s turns s' := by
  induction d generalizing s with
  | zero =>
    unfold Store.drain at h
    split at h
    · next hempty =>
      cases h
      exact ⟨[], .done hempty⟩
    · cases h
  | succ d ih =>
    unfold Store.drain at h
    split at h
    · next hempty =>
      cases h
      exact ⟨[], .done hempty⟩
    · next job rest hjobs =>
      obtain ⟨result, s₁, hjob, hrest⟩ := Ran.bind_eq_ok h
      obtain ⟨ran, put, events, htrace⟩ := trace_of_runFor hjob
      obtain ⟨turns, hturns⟩ := ih hrest
      exact ⟨⟨job, ran, put⟩ :: turns, .turn hjobs htrace hturns⟩

theorem exec_jobs (run : Runner α ε κ σ) (n : Nat)
    (jobs : List (Script α ε κ σ)) (next : Script α ε κ σ) (s : Store α ε κ σ) :
    (jobs.foldr .job next).exec run n s = next.exec run n (jobs.foldl Store.addJob s) := by
  induction jobs generalizing s with
  | nil => rfl
  | cons job jobs ih => exact ih (s.addJob job)

/-- A run of the queue that goes on to an end has taken its turns. -/
theorem turns_of_exec {n : Nat} {next : Script α ε κ σ} {result : Result α ε}
    (h : (Script.run next).exec (Script.runFor n) n s = .ok result s')
    (hheld : s'.queue.held = true) : s.queue.held = true ∧ ∃ turns s₁, Turns s.entered turns s₁ ∧
      next.exec (Script.runFor n) n s₁.left = .ok result s' := by
  have hs : s.queue.held = true := held_of_runFor (n := n + 1) h hheld
  obtain ⟨_, s₂, hrun, hnext⟩ := Ran.bind_eq_ok h
  unfold Store.runQueue at hrun
  rw [if_pos hs] at hrun
  cases hdrain : Store.drain (Script.runFor n) n s.entered with
  | ok _ s₁ =>
    obtain ⟨turns, hturns⟩ := exists_turns hdrain
    rw [show ({ s with queue := s.queue.entered } : Store α ε κ σ) = s.entered from rfl,
      hdrain] at hrun
    cases hrun
    exact ⟨hs, turns, s₁, hturns, hnext⟩
  | _ =>
    rw [show ({ s with queue := s.queue.entered } : Store α ε κ σ) = s.entered from rfl,
      hdrain] at hrun
    cases hrun

theorem rounds_of_exec {n : Nat} {result : Result α ε}
    (h : (Script.rounds groups).exec (Script.runFor n) n s = .ok result s')
    (hheld : s'.queue.held = true) : ∃ rounds, Rounds s groups rounds s' := by
  induction groups generalizing s with
  | nil =>
    obtain ⟨hs, turns, s₁, hturns, hnext⟩ := turns_of_exec h hheld
    cases hnext
    exact ⟨[turns], .last hs hturns⟩
  | cons jobs groups ih =>
    obtain ⟨hs, turns, s₁, hturns, hnext⟩ := turns_of_exec h hheld
    rw [exec_jobs] at hnext
    obtain ⟨rounds, hrounds⟩ := ih hnext
    exact ⟨turns :: rounds, .next hs hturns hrounds⟩

end Thread

namespace Rounds

variable {s s' : Store α ε κ σ} {groups : List (List (Script α ε κ σ))}
  {rounds : List (List (Turn α ε κ σ))}

theorem held (h : Rounds s groups rounds s') : s.queue.held = true := by
  cases h with
  | last hs _ => exact hs
  | next hs _ _ => exact hs

omit [DecidableEq κ] in
theorem jobs_left (h : s.queue.jobs = []) : s.left.queue.jobs = [] := by
  show (Queue.settled { s.queue with runs := s.queue.runs - 1 }).jobs = []
  unfold Queue.settled
  split
  · exact h
  · rfl

omit [DecidableEq κ] in
theorem held_left (h : s.left.queue.held = true) : s.queue.held = true :=
  (Queue.held_settled { s.queue with runs := s.queue.runs - 1 }).symm.trans h

/-- The rounds are taken one after the other, each through the jobs that wait by then. -/
theorem trace (h : Rounds s groups rounds s') (hheld : s'.queue.held = true)
    (events : List (Event α ε κ σ)) : s'.queue.jobs = [] ∧
      List.Forall₂ Drains (s.queue.jobs :: groups) rounds ∧
      ∃ put events', Thread.Trace ⟨.rounds groups, [], s, events⟩
        (rounds.flatMap (List.flatMap Turn.jobs)) put ⟨.nothing, [], s', events'⟩ := by
  induction h generalizing events with
  | @last s s₁ turns hs hturns =>
    have hdrains := hturns.drains (held_left hheld)
    obtain ⟨events', htrace⟩ := Thread.trace_run .nothing [] hs hturns events
    refine ⟨jobs_left hturns.jobs_eq_nil, .cons hdrains .nil, turns.flatMap Turn.put, events', ?_⟩
    rw [List.flatMap_singleton]
    exact htrace
  | @next s s₁ s' turns jobs groups rounds hs hturns hrest ih =>
    obtain ⟨events₁, hfirst⟩ := Thread.trace_run (jobs.foldr .job (.rounds groups)) [] hs hturns events
    have hput := Thread.trace_jobs jobs (.rounds groups) [] events₁ s₁.left hrest.held
    obtain ⟨hheld₁, hwaiting⟩ := hput.queue hrest.held
    obtain ⟨hempty, hdrains, put, events', htrace⟩ := ih hheld events₁
    replace hwaiting : s₁.left.queue.jobs ++ jobs = (jobs.foldl Store.addJob s₁.left).queue.jobs :=
      hwaiting
    rw [jobs_left hturns.jobs_eq_nil, List.nil_append] at hwaiting
    rw [← hwaiting] at hdrains
    have hall := hfirst.trans (hput.trans htrace)
    refine ⟨hempty, .cons (hturns.drains (held_left hheld₁)) hdrains,
      turns.flatMap Turn.put ++ (jobs ++ put), events', ?_⟩
    rw [List.flatMap_cons]
    exact hall

end Rounds

/-- Runs of the queue come to their end if and only if there are turns for them: finitely many jobs,
each of which ends on the store that it comes upon. The turns take each job once, in the order in
which jobs were put into the queue, and one generation after the other where no job runs the queue
itself. The queue is empty then, and another run of it does nothing. -/
theorem Thread.drains_breadthFirst {s s' : Store α ε κ σ} (hheld : s'.queue.held = true)
    (groups : List (List (Script α ε κ σ))) :
    ((∃ n result, (Script.rounds groups).runFor n s = .ok result s') ↔
      ∃ rounds, Rounds s groups rounds s') ∧
    ∀ rounds, Rounds s groups rounds s' →
      List.Forall₂ Drains (s.queue.jobs :: groups) rounds ∧
      (∃ put events, Trace (.on s (.rounds groups)) (rounds.flatMap (List.flatMap Turn.jobs)) put
          ⟨.nothing, [], s', events⟩ ∧
        s.queue.jobs ++ put = rounds.flatMap (List.flatMap Turn.jobs)) ∧
      s'.queue.jobs = [] ∧
      Trace (.on s' (.run .nothing)) [] [] ⟨.nothing, [], s', [.ran]⟩ := by
  have htrace := fun rounds (h : Rounds s groups rounds s') => h.trace hheld []
  refine ⟨⟨?_, ?_⟩, ?_⟩
  · rintro ⟨n, result, h⟩
    cases n with
    | zero => cases h
    | succ n => exact rounds_of_exec h hheld
  · rintro ⟨rounds, h⟩
    obtain ⟨-, -, put, events, h⟩ := htrace rounds h
    obtain ⟨n, hn⟩ := (Script.runFor_ok_iff ..).2 (h.exists_after.imp fun _ hm => ⟨events, hm⟩)
    exact ⟨n, _, hn⟩
  · intro rounds h
    obtain ⟨hempty, hdrains, put, events, htrace⟩ := htrace rounds h
    have hqueue := (htrace.queue hheld).2
    rw [hempty, List.append_nil] at hqueue
    exact ⟨hdrains, ⟨put, events, htrace, hqueue⟩, hempty, trace_run_idle .nothing [] hheld hempty []⟩

/-! Jobs that write down their names. What some of them put into the queue depends on what was written
before, and one asks a source for a key that may be new. -/

namespace Family

abbrev Job :=
  Script Nat String Nat (List String)

def leaf (name : String) : Job :=
  .read fun log => .write (log ++ [name]) .nothing

/-- Puts a job into the queue for each name so far. -/
def heir (name : String) : Job :=
  .read fun log =>
    log.foldr (fun old next => .job (leaf (old ++ name)) next) (.write (log ++ [name]) .nothing)

def asking : Job :=
  .source 0 (fun _ => leaf "loaded") (fun keys _ => .ok (keys.map fun key => (key, key))) fun _ =>
    .request 0 7 .nothing

def store : Store Nat String Nat (List String) :=
  { Store.fresh [] with queue := ⟨[leaf "a", heir "b", asking, heir "c"], true, 0⟩ }

def groups : List (List Job) :=
  [[asking, heir "d"], []]

/-- The store in the end. -/
def final : Store Nat String Nat (List String) :=
  match (Script.rounds groups).runFor 11 store with
  | .ok _ s => s
  | _ => store

end Family

theorem Thread.drains_breadthFirst_family : ∃ rounds,
    Rounds Family.store Family.groups rounds Family.final ∧
    List.Forall₂ Drains (Family.store.queue.jobs :: Family.groups) rounds ∧
    Family.final.state = ["a", "b", "c", "ab", "loaded", "ac", "bc", "d", "ad", "bd", "cd", "abd",
      "loadedd", "acd", "bcd"] ∧
    Family.final.queue.jobs = [] := by
  have hheld : Family.final.queue.held = true := rfl
  obtain ⟨⟨hrounds, -⟩, hdrains⟩ := drains_breadthFirst (s := Family.store) hheld Family.groups
  obtain ⟨rounds, h⟩ := hrounds ⟨11, .ok (.list []), rfl⟩
  obtain ⟨hdrains, -, hempty, -⟩ := hdrains rounds h
  exact ⟨rounds, h, hdrains, rfl, hempty⟩

end GraphQL.Deferred
