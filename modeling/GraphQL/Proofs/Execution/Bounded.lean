import GraphQL.Proofs.Execution.Accounting
import GraphQL.Proofs.Execution.Throughout
import Mathlib.Algebra.GroupWithZero.Nat

/-!
# Depth and complexity bound execution

`Ran` follows a query like `Reached` and keeps the fields that it has executed. The path of each goes
through no more fields than the plan is deep: what a task has gone through and what may still lie
below it never exceed the depth together (`Machine.Shallow`). Without lists there are no more of them
than the complexity of the plan: each executed field is paid for with what its task was worth
(`Machine.worth`), and no step makes the tasks worth more. A list would multiply them.
-/

namespace GraphQL

variable {ρ L W : Type}

/-! ## Nodes and their bounds -/

/-- How many fields a path goes through. -/
def Path.fieldCount (path : Path) : Nat :=
  path.countP fun
    | .field _ => true
    | .index _ => false

@[simp] theorem Path.fieldCount_child_field (path : Path) (key : String) :
    fieldCount (path.child (.field key)) = fieldCount path + 1 := by
  simp [fieldCount, child]

@[simp] theorem Path.fieldCount_child_index (path : Path) (i : Nat) :
    fieldCount (path.child (.index i)) = fieldCount path := by
  simp [fieldCount, child]

namespace Plan

/-- The fields of a plan, at any depth. -/
inductive Contains (plan : Plan) : Node → Prop where
  | root {n : Node} : n ∈ plan.fields → Contains plan n
  | child {n below : Node} {object : Name} {nodes : List Node} : Contains plan n →
    n.childrenFor? object = some nodes → below ∈ nodes → Contains plan below

/-- No field of the plan is a list. -/
def Listless (plan : Plan) : Prop :=
  ∀ n, plan.Contains n → n.type.isList = false

mutual

/-- Whether no field at or below a node is a list. -/
def Node.isListless : Node → Bool
  | ⟨_, _, type, _, _, children⟩ => !type.isList && Node.eachListless children

def Node.eachListless : List (Name × List Node) → Bool
  | [] => true
  | (_, nodes) :: rest => Node.allListless nodes && Node.eachListless rest

def Node.allListless : List Node → Bool
  | [] => true
  | n :: rest => n.isListless && Node.allListless rest

end

theorem Node.isListless_of_mem {n : Node} {nodes : List Node} (h : Node.allListless nodes = true)
    (hn : n ∈ nodes) : n.isListless = true := by
  induction nodes with
  | nil => cases hn
  | cons first rest ih =>
    rw [allListless, Bool.and_eq_true] at h
    rcases List.mem_cons.1 hn with rfl | hn
    · exact h.1
    · exact ih h.2 hn

theorem Node.allListless_of_mem {object : Name} {nodes : List Node}
    {children : List (Name × List Node)} (h : Node.eachListless children = true)
    (hn : (object, nodes) ∈ children) : Node.allListless nodes = true := by
  induction children with
  | nil => cases hn
  | cons first rest ih =>
    obtain ⟨name, found⟩ := first
    rw [eachListless, Bool.and_eq_true] at h
    rcases List.mem_cons.1 hn with he | hn
    · cases he
      exact h.1
    · exact ih h.2 hn

theorem listless_of_allListless {plan : Plan} (h : Node.allListless plan.fields = true) :
    plan.Listless := by
  have hall : ∀ n, plan.Contains n → n.isListless = true := by
    intro n hn
    induction hn with
    | root hm => exact Node.isListless_of_mem h hm
    | @child n below object nodes _ hnodes hm ih =>
      obtain ⟨_, _, _, _, _, children⟩ := n
      rw [Node.isListless, Bool.and_eq_true] at ih
      exact Node.isListless_of_mem (Node.allListless_of_mem ih.2 (Assoc.mem_of_get? hnodes)) hm
  intro n hn
  have hlistless := hall n hn
  obtain ⟨_, _, type, _, _, _⟩ := n
  rw [Node.isListless, Bool.and_eq_true] at hlistless
  simpa using hlistless.1

namespace Node

theorem depth_eq (n : Node) : n.depth = 1 + worstDepth n.children := by
  cases n
  rw [depth]

theorem complexity_eq (n : Node) : n.complexity = 1 + worstComplexity n.children := by
  cases n
  rw [complexity]

theorem depth_le_greatestDepth {n : Node} {nodes : List Node} (h : n ∈ nodes) :
    n.depth ≤ greatestDepth nodes := by
  induction nodes with
  | nil => cases h
  | cons first rest ih =>
    rw [greatestDepth]
    rcases List.mem_cons.1 h with rfl | h
    · exact Nat.le_max_left _ _
    · exact Nat.le_trans (ih h) (Nat.le_max_right _ _)

theorem le_worst_of_mem {object : Name} {nodes : List Node} {children : List (Name × List Node)}
    (h : (object, nodes) ∈ children) : greatestDepth nodes ≤ worstDepth children ∧
      totalComplexity nodes ≤ worstComplexity children := by
  induction children with
  | nil => cases h
  | cons entry rest ih =>
    rw [worstDepth, worstComplexity]
    rcases List.mem_cons.1 h with rfl | h
    · exact ⟨Nat.le_max_left _ _, Nat.le_max_left _ _⟩
    · obtain ⟨hdepth, hcomplexity⟩ := ih h
      exact ⟨Nat.le_trans hdepth (Nat.le_max_right _ _),
        Nat.le_trans hcomplexity (Nat.le_max_right _ _)⟩

/-- What is selected on a value of an object type is no worse than the worst. -/
theorem le_worst {n : Node} {object : Name} {nodes : List Node}
    (h : n.childrenFor? object = some nodes) : greatestDepth nodes ≤ worstDepth n.children ∧
      totalComplexity nodes ≤ worstComplexity n.children :=
  le_worst_of_mem (Assoc.mem_of_get? h)

end Node

end Plan

/-! ## Runs with the fields they execute -/

namespace Machine

/-- The field that is executed next, unless its place cannot make it into the response. -/
def executing (m : Machine L W) : List Frame :=
  match m.todo with
  | ⟨frame, .resolve _ _⟩ :: _ => if m.progress.tree.isLive frame.slot then [frame] else []
  | _ => []

/-- A wave begins. -/
def nextWave (m : Machine L W) : Machine L W :=
  ⟨{ m.progress with pending := [] }, m.world, m.progress.pending.map Task.ofPending ++ m.todo⟩

theorem executing_field {frame : Frame} {object : Name} {parent : Json} {p : Progress L} {w : W}
    {rest : List (Task L)} (h : p.tree.isLive frame.slot = true) :
    (⟨p, w, ⟨frame, .resolve object parent⟩ :: rest⟩ : Machine L W).executing = [frame] := by
  rw [executing]
  exact if_pos h

theorem executing_dead {task : Task L} {p : Progress L} {w : W} {rest : List (Task L)}
    (h : p.tree.isLive task.slot = false) :
    (⟨p, w, task :: rest⟩ : Machine L W).executing = [] := by
  obtain ⟨frame, work⟩ := task
  cases work with
  | resolve object parent =>
    rw [executing]
    exact if_neg (Bool.eq_false_iff.1 h)
  | _ => rfl

end Machine

/-- The machines that a query comes to, each with the fields that it has executed on the way. Any step
but the beginning of a wave is one with the task on top. -/
inductive Ran (e : Execution ρ L W) (plan : Plan) : List Frame → Machine L W → Prop where
  | start (w : W) : Ran e plan [] (.start plan w)
  | step {frames : List Frame} {m m' : Machine L W} : Ran e plan frames m → Step e m m' →
    m' ≠ m.nextWave → Ran e plan (frames ++ m.executing) m'
  | wave {frames : List Frame} {m : Machine L W} : Ran e plan frames m → Ran e plan frames m.nextWave
  /-- Others have their turn when nothing is to be done before the next wave. -/
  | turn {frames : List Frame} {p : Progress L} {w : W} (w' : W) :
      Ran e plan frames ⟨p, w, []⟩ → Ran e plan frames ⟨p, w', []⟩

/-- A step may execute a field. -/
theorem Ran.next {e : Execution ρ L W} {plan : Plan} {frames : List Frame} {m m' : Machine L W}
    (h : Ran e plan frames m) (hs : Step e m m') : ∃ more, Ran e plan (frames ++ more) m' := by
  by_cases hwave : m' = m.nextWave
  · refine ⟨[], ?_⟩
    rw [hwave, List.append_nil]
    exact h.wave
  · exact ⟨m.executing, h.step hs hwave⟩

theorem Ran.steps {e : Execution ρ L W} {plan : Plan} {frames : List Frame} {m m' : Machine L W}
    (h : Ran e plan frames m) (hs : Steps e m m') : ∃ more, Ran e plan (frames ++ more) m' := by
  induction hs with
  | refl => exact ⟨[], by rwa [List.append_nil]⟩
  | tail _ hs ih =>
    obtain ⟨more, hr⟩ := ih
    obtain ⟨last, hr⟩ := hr.next hs
    exact ⟨more ++ last, by rwa [← List.append_assoc]⟩

/-- A query that begins goes on from its start, to its first wave or to where it stops. -/
theorem Execution.begin_ran {e : Execution ρ L W} {fuel : Nat} {plan : Plan} {p : Progress L}
    {w w' : W} (h : (e.begin fuel plan).run (.fresh, w) = (.ok (), p, w')) :
    ∃ frames, Ran e plan frames ⟨p, w', []⟩ := by
  obtain ⟨frames, hr⟩ := (Ran.start (e := e) w).steps (begin_steps h)
  exact ⟨[] ++ frames, hr⟩

/-- A run goes on to where it stops; when that is because of an internal failure, the task on top
breaks. -/
def Ran.Stops (e : Execution ρ L W) (plan : Plan) (frames : List Frame) (halt : Halt) : Prop :=
  ∃ more m, Ran e plan (frames ++ more) m ∧ ∀ message, halt = .internal message → Breaks e m message

theorem Ran.stops {e : Execution ρ L W} {plan : Plan} {frames : List Frame} {m : Machine L W}
    {halt : Halt} (h : Ran e plan frames m) (hs : Execution.StopsAt e m halt) :
    Ran.Stops e plan frames halt := by
  obtain ⟨m', hsteps, hbreaks⟩ := hs
  obtain ⟨more, hr⟩ := h.steps hsteps
  exact ⟨more, m', hr, hbreaks⟩

/-- A wave goes on with a run. -/
theorem Execution.wave_ran {e : Execution ρ L W} {plan : Plan} {frames : List Frame}
    {p p' : Progress L} {w w' : W} (hr : Ran e plan frames ⟨p, w, []⟩) (hsound : (⟨p, w, []⟩ :
      Machine L W).Sound) (h : e.wave.run (p, w) = (.ok (), p', w')) :
    ∃ more, Ran e plan (frames ++ more) ⟨p', w', []⟩ :=
  hr.steps (wave_does.steps_of_ok hsound h)

/-! ## Depth -/

/-- A place below which the plan goes no deeper than its depth. -/
def Frame.Shallow (plan : Plan) (frame : Frame) : Prop :=
  frame.path.fieldCount + Plan.Node.worstDepth frame.field.children ≤ plan.depth

theorem Frame.Shallow.fieldCount_le {plan : Plan} {frame : Frame} (h : frame.Shallow plan) :
    frame.path.fieldCount ≤ plan.depth :=
  Nat.le_trans (Nat.le_add_right _ _) h

theorem Frame.inherited_shallow (plan : Plan) : Frame.Inherited (Frame.Shallow plan) := by
  constructor
  · intro frame object nodes node slot h hnodes hnode _
    unfold Shallow at h ⊢
    have hnode := Plan.Node.depth_le_greatestDepth hnode
    rw [Plan.Node.depth_eq] at hnode
    have hworst := (Plan.Node.le_worst hnodes).1
    simp only [Path.fieldCount_child_field]
    omega
  · intro frame item nullable i slot h _ _
    unfold Shallow at h ⊢
    rw [Path.fieldCount_child_index]
    exact h

/-- At every moment of a run, no place goes too deep. -/
theorem Reached.shallow {e : Execution ρ L W} {plan : Plan} {m : Machine L W}
    (h : Reached e plan m) : m.Throughout (Frame.Shallow plan) := by
  apply h.throughout (Frame.inherited_shallow plan)
  intro node hnode slot _
  have hnode := Plan.Node.depth_le_greatestDepth hnode
  rw [Plan.Node.depth_eq] at hnode
  exact hnode

/-! ## Complexity -/

/-- A place for a field of the plan, not for an element of a list in it. -/
def Frame.Whole (plan : Plan) (frame : Frame) : Prop :=
  plan.Contains frame.field ∧ frame.type = frame.field.type

theorem Frame.inherited_whole {plan : Plan} (hlist : plan.Listless) :
    Frame.Inherited (Frame.Whole plan) := by
  constructor
  · intro frame object nodes node slot h hnodes hnode _
    exact ⟨.child h.1 hnodes hnode, rfl⟩
  · intro frame item nullable i slot h htype _
    have hnone := hlist frame.field h.1
    rw [← h.2, htype] at hnone
    cases hnone

theorem Reached.whole {e : Execution ρ L W} {plan : Plan} (hlist : plan.Listless) {m : Machine L W}
    (h : Reached e plan m) : m.Throughout (Frame.Whole plan) :=
  h.throughout (Frame.inherited_whole hlist) fun _ hnode _ _ => ⟨.root hnode, rfl⟩

/-- How many fields a task can make necessary, its own included when it is still to be executed. -/
def Task.worth (task : Task L) : Nat :=
  match task.work with
  | .resolve _ _ => task.frame.field.complexity
  | _ => Plan.Node.worstComplexity task.frame.field.children

theorem Task.worth_ofNodes (object : Name) (value : Json) (path : Path) (nodes : List Plan.Node)
    (slots : List SlotId) : ((Task.ofNodes (L := L) object value path nodes slots).map worth).sum ≤
      Plan.Node.totalComplexity nodes := by
  induction nodes generalizing slots with
  | nil => exact Nat.zero_le _
  | cons node nodes ih =>
    cases slots with
    | nil => exact Nat.zero_le _
    | cons slot slots =>
      rw [ofNodes, List.map_cons, List.sum_cons, Plan.Node.totalComplexity]
      exact Nat.add_le_add_left (ih slots) _

/-- How many fields all tasks can make necessary. -/
def Machine.worth (m : Machine L W) : Nat :=
  (m.todo.map Task.worth).sum + (m.progress.pending.map fun p => (Task.ofPending p).worth).sum

theorem Machine.worth_cons (task : Task L) (p : Progress L) (w : W) (rest : List (Task L)) :
    (⟨p, w, task :: rest⟩ : Machine L W).worth =
      task.worth + (⟨p, w, rest⟩ : Machine L W).worth := by
  simp only [worth, List.map_cons, List.sum_cons, Nat.add_assoc]

theorem Machine.worth_append (new : List (Task L)) (p : Progress L) (w : W) (rest : List (Task L)) :
    (⟨p, w, new ++ rest⟩ : Machine L W).worth =
      (new.map Task.worth).sum + (⟨p, w, rest⟩ : Machine L W).worth := by
  simp only [worth, List.map_append, List.sum_append, Nat.add_assoc]

/-- A step pays for the field that it executes, if any. -/
theorem Step.worth_le {e : Execution ρ L W} {plan : Plan} (hlist : plan.Listless) {m m' : Machine L W}
    (hs : Step e m m') (h : m.Throughout (Frame.Whole plan)) (hwave : m' ≠ m.nextWave) :
    m.executing.length + m'.worth ≤ m.worth := by
  cases hs with
  | skip hl =>
    rw [Machine.executing_dead hl, Machine.worth_cons, List.length_nil]
    omega
  | @resolved frame object parent value p p' w w' rest hl hr =>
    obtain ⟨outcome, entries, w1, hrun⟩ := fieldOutcome_run e frame object parent p w
    cases hr.symm.trans hrun
    have hcomplexity := frame.field.complexity_eq
    rw [Machine.executing_field hl, Machine.worth_cons, Machine.worth_cons]
    show 1 + (Plan.Node.worstComplexity frame.field.children + (⟨p, w, rest⟩ : Machine L W).worth) ≤
      frame.field.complexity + (⟨p, w, rest⟩ : Machine L W).worth
    omega
  | @unresolved frame object parent error p p' w w' rest hl hr =>
    obtain ⟨outcome, entries, w1, hrun⟩ := fieldOutcome_run e frame object parent p w
    cases hr.symm.trans hrun
    have hcomplexity := frame.field.complexity_eq
    rw [Machine.executing_field hl, Machine.worth_cons]
    show 1 + (⟨p, w, rest⟩ : Machine L W).worth ≤
      frame.field.complexity + (⟨p, w, rest⟩ : Machine L W).worth
    omega
  | @forced frame lazy value p w w' rest hl hf =>
    rw [Machine.worth_cons, Machine.worth_cons]
    exact Nat.le_of_eq (Nat.zero_add _)
  | unforced _ _ | null _ _ | rejected _ _ | leaf _ _ =>
    rw [Machine.worth_cons]
    exact Nat.add_le_add_right (Nat.zero_le _) _
  | @aside frame value lazy p w rest hl hc =>
    rw [Machine.worth_cons]
    simp only [Machine.worth, Progress.putAside, List.map_append, List.sum_append, List.map_cons,
      List.map_nil, List.sum_cons, List.sum_nil]
    show 0 + _ ≤ Plan.Node.worstComplexity frame.field.children + _
    show 0 + (_ + (_ + (Plan.Node.worstComplexity frame.field.children + 0))) ≤ _
    omega
  | @object frame value object nodes json p w rest hl hc =>
    have hfits := e.fits_completion frame value
    rw [hc] at hfits
    have hnew := Task.worth_ofNodes (L := L) object json frame.path nodes
      (p.growObject frame.slot nodes).1
    have hworst := (Plan.Node.le_worst hfits.1).2
    rw [Machine.worth_append, Machine.worth_cons]
    show 0 + (_ + (⟨p, w, rest⟩ : Machine L W).worth) ≤
      Plan.Node.worstComplexity frame.field.children + (⟨p, w, rest⟩ : Machine L W).worth
    omega
  | @list frame value item nullable items p w rest hl hc =>
    have hfits := e.fits_completion frame value
    rw [hc] at hfits
    obtain ⟨hcontains, htype⟩ := h.todo _ (List.mem_cons_self ..)
    have hnone := hlist frame.field hcontains
    rw [← htype, hfits.1] at hnone
    cases hnone
  | wave => exact absurd rfl hwave

namespace Ran

variable {e : Execution ρ L W} {plan : Plan} {frames : List Frame} {m : Machine L W}

theorem reached (h : Ran e plan frames m) : Reached e plan m := by
  induction h with
  | start w => exact .start w
  | step _ hs _ ih => exact ih.step hs
  | wave _ ih => exact ih.step .wave
  | turn w' _ ih => exact ih.turn w'

/-- A field that is executed next is at a place that is not too deep. -/
theorem fieldCount_executing {m : Machine L W} (h : m.Throughout (Frame.Shallow plan)) :
    ∀ frame ∈ m.executing, frame.path.fieldCount ≤ plan.depth := by
  intro frame hm
  unfold Machine.executing at hm
  split at hm
  · next top object parent rest htodo =>
    split at hm
    · rw [List.mem_singleton.1 hm]
      exact (h.todo ⟨top, .resolve object parent⟩ (by simp [htodo])).fieldCount_le
    · cases hm
  · cases hm

theorem fieldCount_le (h : Ran e plan frames m) :
    ∀ frame ∈ frames ++ m.executing, frame.path.fieldCount ≤ plan.depth := by
  apply List.forall_mem_append.2 ⟨?_, fieldCount_executing h.reached.shallow⟩
  induction h with
  | start w => exact List.forall_mem_nil _
  | step hr _ _ ih => exact List.forall_mem_append.2 ⟨ih, fieldCount_executing hr.reached.shallow⟩
  | wave _ ih => exact ih
  | turn _ _ ih => exact ih

/-- What was executed and what may still be is bounded together. -/
theorem length_add_worth_le (hlist : plan.Listless) (h : Ran e plan frames m) :
    frames.length + m.worth ≤ plan.complexity := by
  induction h with
  | start w =>
    have hnew := Task.worth_ofNodes (L := L) plan.root (.object []) [] plan.fields
      (Progress.fresh (L := L).growObject ResponseTree.root plan.fields).1
    show 0 + (_ + 0) ≤ Plan.Node.totalComplexity plan.fields
    rw [Nat.zero_add, Nat.add_zero]
    exact hnew
  | @step frames m m' hr hs hwave ih =>
    have hpaid := hs.worth_le hlist (hr.reached.whole hlist) hwave
    rw [List.length_append]
    omega
  | @wave frames m _ ih =>
    have hsame : m.nextWave.worth = m.worth := by
      simp only [Machine.worth, Machine.nextWave, List.map_append, List.sum_append, List.map_map,
        List.map_nil, List.sum_nil, Nat.add_zero]
      exact Nat.add_comm _ _
    omega
  | turn _ _ ih => exact ih

/-- A field that is executed next can be paid for. -/
theorem executing_le_worth (m : Machine L W) : m.executing.length ≤ m.worth := by
  obtain ⟨p, w, todo⟩ := m
  unfold Machine.executing
  split
  · next frame object parent rest htodo =>
    cases htodo
    have hcomplexity := frame.field.complexity_eq
    have hworth : (⟨frame, .resolve object parent⟩ : Task L).worth = frame.field.complexity := rfl
    rw [Machine.worth_cons]
    split
    · rw [List.length_singleton]
      omega
    · exact Nat.zero_le _
  · exact Nat.zero_le _

theorem length_le (hlist : plan.Listless) (h : Ran e plan frames m) :
    (frames ++ m.executing).length ≤ plan.complexity := by
  have hpaid := h.length_add_worth_le hlist
  have hnext := executing_le_worth m
  rw [List.length_append]
  omega

end Ran

namespace Multiplex

variable {s : Schema ρ L W} {m : Multiplex}

theorem ran_begin {fuel : Nat} {run run' : QueryRun L} {w w' : W} (hfresh : Fresh run)
    (h : advance s m (fun e plan => e.begin fuel plan) run w = (none, run', w')) {query : Prepared}
    {data : Data} {p : Progress L} (hrun : run' = .running query data p) :
    ∃ frames w₁, Ran (execution s m query data) query.plan frames ⟨p, w₁, []⟩ := by
  subst hrun
  cases run with
  | running query' data' p' =>
    obtain rfl : p' = .fresh := hfresh query' data' p' rfl
    obtain ⟨p'', he, hr⟩ := advance_running h
    cases he
    obtain ⟨frames, hr⟩ := Execution.begin_ran hr
    exact ⟨frames, w', hr⟩
  | _ => cases h

theorem ran_wave {run run' : QueryRun L} {w w' : W}
    (hran : ∀ query data p, run = .running query data p →
      ∃ frames w₁, Ran (execution s m query data) query.plan frames ⟨p, w₁, []⟩)
    (h : advance s m (fun e _ => e.wave) run w = (none, run', w')) {query : Prepared}
    {data : Data} {p : Progress L} (hrun : run' = .running query data p) :
    ∃ frames w₁, Ran (execution s m query data) query.plan frames ⟨p, w₁, []⟩ := by
  subst hrun
  cases run with
  | running query' data' p' =>
    obtain ⟨p'', he, hr⟩ := advance_running h
    cases he
    obtain ⟨frames, w₁, hran⟩ := hran _ _ _ rfl
    replace hran := hran.turn w
    obtain ⟨more, hran⟩ := Execution.wave_ran hran hran.reached.sound hr
    exact ⟨frames ++ more, w', hran⟩
  | _ => cases h

end Multiplex

/-- The depth of a plan bounds the paths of the fields that are executed, and of the errors placed
there. Its complexity bounds how many fields are executed, when none of them is a list. What is
bounded are all the runs that queries take, also those that stop on the way. -/
theorem Multiplex.runs_bounded (s : Schema ρ L W) (multiplex : Multiplex) :
    (∀ (e : Execution ρ L W) (plan : Plan) (frames : List Frame) (m : Machine L W),
      Ran e plan frames m →
      (∀ frame ∈ frames ++ m.executing, frame.path.fieldCount ≤ plan.depth) ∧
      (∀ f ∈ m.progress.failures, f.isPlaced = true →
        f.entry.path = some f.frame.path ∧ f.frame.path.fieldCount ≤ plan.depth) ∧
      (plan.Listless → (frames ++ m.executing).length ≤ plan.complexity)) ∧
    (∀ (e : Execution ρ L W) (plan : Plan) (fuel : Nat) (w : W) (p : Progress L) (w' : W),
      ((e.begin fuel plan).run (.fresh, w) = (.ok (), p, w') →
        ∃ frames, Ran e plan frames ⟨p, w', []⟩) ∧
      ∀ halt, (e.begin fuel plan).run (.fresh, w) = (.error halt, p, w') →
        Ran.Stops e plan [] halt) ∧
    (∀ (e : Execution ρ L W) (plan : Plan) (frames : List Frame) (p : Progress L) (w : W)
      (p' : Progress L) (w' : W), Ran e plan frames ⟨p, w, []⟩ →
      (e.wave.run (p, w) = (.ok (), p', w') → ∃ more, Ran e plan (frames ++ more) ⟨p', w', []⟩) ∧
      ∀ halt, e.wave.run (p, w) = (.error halt, p', w') → Ran.Stops e plan frames halt) ∧
    ∀ (fuel : Nat) (w w' : W) (runs : List (QueryRun L)),
      multiplex.settle s fuel w = (none, runs, w') →
      ∀ query data p, .running query data p ∈ runs →
        p.response.errors = p.failures.map Failure.entry ∧
        ∃ frames w₁, Ran (execution s multiplex query data) query.plan frames ⟨p, w₁, []⟩ := by
  refine ⟨?_, ?_, ?_, ?_⟩
  · intro e plan frames m h
    refine ⟨h.fieldCount_le, fun f hf hplaced => ⟨Failure.path_of_isPlaced hplaced, ?_⟩,
      fun hlist => h.length_le hlist⟩
    exact (h.reached.shallow.notes _ (mem_notes_of_failure hf)).fieldCount_le
  · intro e plan fuel w p w'
    refine ⟨fun h => Execution.begin_ran h, fun halt h => ?_⟩
    exact (Ran.start w).stops (Execution.begin_stopsAt h)
  · intro e plan frames p w p' w' hr
    have hsound := hr.reached.sound
    refine ⟨fun h => Execution.wave_ran hr hsound h, fun halt h => ?_⟩
    exact hr.stops (Execution.wave_does.ends.stopsAt hsound h)
  · intro fuel w w' runs hsettle query data p hrun
    obtain ⟨hran, -⟩ := forall₂_settle (R := fun _ run => ∀ query data p,
      run = .running query data p →
        ∃ frames w₁, Ran (execution s multiplex query data) query.plan frames ⟨p, w₁, []⟩)
      (fun _ _ _ _ hfresh h _ _ _ hrun => ran_begin hfresh h hrun)
      (fun _ _ _ _ _ hran h _ _ _ hrun => ran_wave hran h hrun) hsettle
    obtain ⟨received, -, hran⟩ := exists_of_forall₂ hran hrun
    exact ⟨p.errors_eq, hran query data p rfl⟩

namespace Losses

/-- A field within a field, and a type name, that are executed all; the first one is lost. -/
def nested : Multiplex :=
  .ofRequests [.ofQuery "\x7b self \x7b needed __typename \x7d \x7d"]

/-- Whether a request runs by a plan without lists of depth two and of complexity three, and has
failed somewhere. -/
def fits {L : Type} : QueryRun L → Bool
  | .running query _ p => Plan.Node.allListless query.plan.fields && query.plan.depth == 2 &&
      query.plan.complexity == 3 && p.failures.any Failure.isPlaced
  | _ => false

end Losses

theorem Multiplex.runs_bounded_losses : ∃ query data p frames w₁ f,
    .running query data p ∈ (Losses.nested.settle Losses.schema 2 ()).2.1 ∧ query.plan.Listless ∧
    Ran (execution Losses.schema Losses.nested query data) query.plan frames ⟨p, w₁, []⟩ ∧
    frames.length ≤ 3 ∧ f ∈ p.failures ∧ f.isPlaced = true ∧ f.frame.path.fieldCount ≤ 2 := by
  have hnone : (Losses.nested.settle Losses.schema 2 ()).1 = none :=
    Option.isNone_iff_eq_none.1 (by decide +kernel)
  have hany : (Losses.nested.settle Losses.schema 2 ()).2.1.any Losses.fits = true := by
    decide +kernel
  obtain ⟨hbounds, -, -, hsettled⟩ := runs_bounded Losses.schema Losses.nested
  replace hsettled := hsettled 2 ()
  generalize hs : Losses.nested.settle Losses.schema 2 () = ended at hnone hany ⊢
  obtain ⟨halt, runs, w⟩ := ended
  cases hnone
  obtain ⟨run, hrun, hfits⟩ := List.any_eq_true.1 hany
  cases run with
  | running query data p =>
    simp only [Losses.fits, Bool.and_eq_true, beq_iff_eq] at hfits
    obtain ⟨⟨⟨hlistless, hdepth⟩, hcomplexity⟩, hfailure⟩ := hfits
    obtain ⟨f, hf, hplaced⟩ := List.any_eq_true.1 hfailure
    obtain ⟨-, frames, w₁, hr⟩ := hsettled w runs hs query data p hrun
    obtain ⟨-, hplaces, hlength⟩ := hbounds _ query.plan frames ⟨p, w₁, []⟩ hr
    have hlist := Plan.listless_of_allListless hlistless
    refine ⟨query, data, p, frames, w₁, f, hrun, hlist, hr, ?_, hf, hplaced, ?_⟩
    · have := hlength hlist
      rwa [hcomplexity, show (⟨p, w₁, []⟩ : Machine Unit Unit).executing = [] from rfl,
        List.append_nil] at this
    · exact hdepth ▸ (hplaces f hf hplaced).2
  | _ => cases hfits

end GraphQL
