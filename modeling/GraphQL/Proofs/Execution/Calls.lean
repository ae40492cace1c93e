import GraphQL.Multiplex.Queue
import GraphQL.Proofs.Execution.Determined
import GraphQL.Proofs.Execution.Mirrored

/-!
# The calls of a run

A host is called for the value of a field, which is what its resolver and the middleware around it
give, and for the result of a lazy. A traced host keeps the calls in their order, each with the
position it is made for; a lazy is called for the position of the field that it comes from. That
makes no difference to the run (`Multiplex.run_traced`).

A part of a run is a chain of such calls, whatever happens inside them. A call may fail in a way
that makes everything meaningless: whatever part of a run it happens in, it is the last call of that
part (`Execution.Logs`).
-/

namespace GraphQL

variable {ρ L V W α β : Type}

/-- A call of a host, with what it gives. -/
inductive Call (L : Type) where
  | resolve (ctx : FieldContext) (outcome : Outcome L)
  | force (path : Path) (lazy : L) (outcome : Outcome L)

namespace Call

/-- The position that the call is made for. -/
def path : Call L → Path
  | resolve ctx _ => ctx.path
  | force path _ _ => path

def outcome : Call L → Outcome L
  | resolve _ outcome => outcome
  | force _ _ outcome => outcome

/-- What the call fails with, if that makes everything meaningless. -/
def failure? (c : Call L) : Option String :=
  match c.outcome with
  | .error (.internal message) => some message
  | _ => none

end Call

/-- A world, and the calls so far. -/
structure Traced (L W : Type) where
  world : W
  calls : List (Call L)

/-- The host that keeps its calls. -/
def Host.traced (h : Host ρ L W) : Host ρ (Placed L) (Traced L W) where
  resolve resolver ctx entries w :=
    let (outcome, entries, world) := h.resolve resolver ctx entries w.world
    (outcome.mapLater fun lazy => ⟨lazy, ctx.path⟩, entries, ⟨world, w.calls ++ [.resolve ctx outcome]⟩)
  force lazy w :=
    let (outcome, world) := h.force lazy.lazy w.world
    (outcome.mapLater fun l => ⟨l, lazy.path⟩, ⟨world, w.calls ++ [.force lazy.path lazy.lazy outcome]⟩)
  turn w := ⟨h.turn w.world, w.calls⟩
  drain w := ⟨h.drain w.world, w.calls⟩

/-- Requests that are run with a host that keeps its calls. -/
def Schema.traced (s : Schema ρ L W) : Schema ρ (Placed L) (Traced L W) :=
  s.hostedBy s.host.traced

/-! ## Tracing makes no difference -/

mutual

theorem Tree.mapLater_placed (path : Path) : (value : Tree α L) →
    (value.mapLater fun lazy => (⟨lazy, path⟩ : Placed L)).mapLater Placed.lazy = value
  | .leaf _ => rfl
  | .list items => by rw [mapLater, mapLater, mapLaterItems_placed path items]
  | .later _ => rfl

theorem Tree.mapLaterItems_placed (path : Path) : (items : List (Tree α L)) →
    mapLaterItems Placed.lazy (mapLaterItems (fun lazy => (⟨lazy, path⟩ : Placed L)) items) = items
  | [] => rfl
  | item :: rest => by
    rw [mapLaterItems, mapLaterItems, mapLater_placed path item, mapLaterItems_placed path rest]

end

theorem Outcome.mapLater_placed (path : Path) (outcome : Outcome L) :
    (outcome.mapLater fun lazy => (⟨lazy, path⟩ : Placed L)).mapLater Placed.lazy = outcome := by
  cases outcome with
  | ok value => exact congrArg Except.ok (Tree.mapLater_placed path value)
  | error error => rfl

theorem Host.traced_mirrors (h : Host ρ L W) : h.traced.Mirrors h Placed.lazy Traced.world where
  resolve resolver ctx entries w := by
    show _ = (((h.resolve resolver ctx entries w.world).1.mapLater _).mapLater _, _, _)
    rw [Outcome.mapLater_placed]
    rfl
  force lazy w := by
    show _ = (((h.force lazy.lazy w.world).1.mapLater _).mapLater _, _)
    rw [Outcome.mapLater_placed]
    rfl
  turn _ := rfl
  drain _ := rfl

/-- Keeping the calls makes no difference to what requests come to. -/
theorem Multiplex.run_traced (s : Schema ρ L W) (m : Multiplex) (fuel : Nat) (w : Traced L W) :
    m.run s fuel w.world = ((m.run s.traced fuel w).1, (m.run s.traced fuel w).2.world) :=
  run_mirrored s.host.traced_mirrors m fuel w

/-- The lazies of a value are placed where the value is. -/
theorem Tree.path_of_defers {path : Path} {value : Tree α L} {lazy : Placed L}
    (h : (value.mapLater fun l => (⟨l, path⟩ : Placed L)).Defers lazy) : lazy.path = path := by
  generalize hv : (value.mapLater fun l => (⟨l, path⟩ : Placed L)) = placed at h
  induction h generalizing value with
  | later =>
    cases value with
    | later l =>
      cases hv
      rfl
    | _ => cases hv
  | @list items item hm _ ih =>
    cases value with
    | list found =>
      rw [mapLater, mapLaterItems_eq] at hv
      cases hv
      obtain ⟨value, _, he⟩ := List.mem_map.1 hm
      exact ih he
    | _ => cases hv

/-! ## Chains of calls -/

/-- Calls one after the other, where `R` says what a call makes of a world. -/
inductive Chain (R : V → Call L → V → Prop) : V → List (Call L) → V → Prop
  | nil {v} : Chain R v [] v
  | cons {v v₁ v' c calls} (h : R v c v₁) (hrest : Chain R v₁ calls v') : Chain R v (c :: calls) v'

theorem Chain.append {R : V → Call L → V → Prop} {v v₁ v' : V} {calls calls' : List (Call L)}
    (h : Chain R v calls v₁) (h' : Chain R v₁ calls' v') : Chain R v (calls ++ calls') v' := by
  induction h with
  | nil => exact h'
  | cons hcall _ ih => exact .cons hcall (ih h')

/-- Whatever a host is asked for, it makes one call, and places lazies where the call is made. -/
structure Host.Makes (h : Host ρ (Placed L) V) (R : V → Call L → V → Prop) : Prop where
  resolve : ∀ resolver ctx entries v, ∃ outcome entries' v',
    h.resolve resolver ctx entries v = (outcome.placed ctx.path, entries', v') ∧
      R v (.resolve ctx outcome) v'
  force : ∀ (lazy : Placed L) v, ∃ outcome v', h.force lazy v = (outcome.placed lazy.path, v') ∧
    R v (.force lazy.path lazy.lazy outcome) v'

/-- One more call has been made. -/
def Traced.Adds (w : Traced L W) (c : Call L) (w' : Traced L W) : Prop :=
  w'.calls = w.calls ++ [c]

theorem Host.traced_makes (h : Host ρ L W) : h.traced.Makes Traced.Adds where
  resolve _ _ _ _ := ⟨_, _, _, rfl, rfl⟩
  force _ _ := ⟨_, _, rfl, rfl⟩

theorem Chain.calls_eq {w w' : Traced L W} {calls : List (Call L)} (h : Chain Traced.Adds w calls w') :
    w'.calls = w.calls ++ calls := by
  induction h with
  | nil => exact (List.append_nil _).symm
  | cons hcall _ ih => rw [ih, hcall, List.append_assoc, List.singleton_append]

/-! ## Calls of a part of a run -/

/-- How calls and the end of what they belong to go together: no call fails but the last one, and
what that fails with is why everything stops. -/
def Stops : Option Halt → List (Call L) → Prop
  | some (.internal message), calls => ∃ before last, calls = before ++ [last] ∧
    last.failure? = some message ∧ ∀ c ∈ before, c.failure? = none
  | _, calls => ∀ c ∈ calls, c.failure? = none

theorem Stops.append {halt : Option Halt} {calls calls' : List (Call L)} (h : Stops none calls)
    (h' : Stops halt calls') : Stops halt (calls ++ calls') := by
  have hall : Stops none calls' → Stops none (calls ++ calls') := fun h' c hm =>
    (List.mem_append.1 hm).elim (h c) (h' c)
  cases halt with
  | none => exact hall h'
  | some halt =>
    cases halt with
    | internal message =>
      obtain ⟨before, last, rfl, hlast, hbefore⟩ := h'
      refine ⟨calls ++ before, last, (List.append_assoc ..).symm, hlast, fun c hm => ?_⟩
      exact (List.mem_append.1 hm).elim (h c) (hbefore c)
    | unfinished => exact hall h'

/-- A call that fails is the last one, and why everything stops. -/
theorem Stops.split {halt : Option Halt} {before after : List (Call L)} {c : Call L} {message : String}
    (h : Stops halt (before ++ c :: after)) (hc : c.failure? = some message) :
    after = [] ∧ (∀ c' ∈ before, c'.failure? = none) ∧ halt = some (.internal message) := by
  have hfine : ∀ calls : List (Call L), c ∈ calls → ¬ ∀ c' ∈ calls, c'.failure? = none := by
    intro calls hm hall
    rw [hall c hm] at hc
    cases hc
  have hm : ∀ rest, c ∈ before ++ c :: rest := fun _ => List.mem_append_right _ (List.mem_cons_self ..)
  cases halt with
  | none => exact absurd h (hfine _ (hm _))
  | some halt =>
    cases halt with
    | unfinished => exact absurd h (hfine _ (hm _))
    | internal message' =>
      obtain ⟨before', last, he, hlast, hbefore⟩ := h
      rcases List.eq_nil_or_concat after with rfl | ⟨after, x, rfl⟩
      · obtain ⟨rfl, hl⟩ := List.append_inj' he rfl
        cases hl
        rw [hc] at hlast
        cases hlast
        exact ⟨rfl, hbefore, rfl⟩
      · rw [List.concat_eq_append, ← List.cons_append, ← List.append_assoc] at he
        obtain ⟨rfl, -⟩ := List.append_inj' he rfl
        exact absurd hbefore (hfine _ (hm _))

/-- Only the last call fails, and it is why everything stops. -/
theorem Stops.cons_cases {halt : Option Halt} {c : Call L} {calls : List (Call L)}
    (h : Stops halt (c :: calls)) :
    c.failure? = none ∧ Stops halt calls ∨
      calls = [] ∧ ∃ message, c.failure? = some message ∧ halt = some (.internal message) := by
  cases hc : c.failure? with
  | some message =>
    have hsplit : Stops halt ([] ++ c :: calls) := h
    obtain ⟨hafter, -, hhalt⟩ := hsplit.split hc
    exact .inr ⟨hafter, message, rfl, hhalt⟩
  | none =>
    refine .inl ⟨rfl, ?_⟩
    cases halt with
    | none => exact (List.forall_mem_cons.1 h).2
    | some halt =>
      cases halt with
      | unfinished => exact (List.forall_mem_cons.1 h).2
      | internal message =>
        obtain ⟨before, last, he, hlast, hbefore⟩ := h
        cases before with
        | nil =>
          cases he
          rw [hc] at hlast
          cases hlast
        | cons first before =>
          cases he
          exact ⟨before, last, rfl, hlast, (List.forall_mem_cons.1 hbefore).2⟩

/-- Why a part of a run stops. -/
def halt? : Except Halt α → Option Halt
  | .ok _ => none
  | .error halt => some halt

/-- All that was put aside is at positions that `P` holds of. -/
def Progress.Within (P : Path → Prop) (p : Progress (Placed L)) : Prop :=
  ∀ d ∈ p.pending, P d.frame.path ∧ P d.lazy.path

/-- The lazies of a value are at positions that `P` holds of. -/
def FieldValue.Within (P : Path → Prop) (value : FieldValue (Placed L)) : Prop :=
  ∀ lazy, value.Defers lazy → P lazy.path

namespace Execution

variable (R : V → Call L → V → Prop) (P : Path → Prop)

/-- A part of a run is a chain of calls for positions that `P` holds of, and stops at the first one
that fails. -/
def Logs (m : Running (Placed L) V α) : Prop :=
  ∀ p w, p.Within P → ∃ r p' w' calls, m.run (p, w) = (r, p', w') ∧ Chain R w calls w' ∧
    (∀ c ∈ calls, P c.path) ∧ p'.Within P ∧ Stops (halt? r) calls

/-- What is asked of a host is asked for positions that `P` holds of, and nothing is done with it. -/
def Asks (m : Running (Placed L) V (Outcome (Placed L))) : Prop :=
  ∀ p w, ∃ outcome p' w' calls, m.run (p, w) = (.ok outcome, p', w') ∧ Chain R w calls w' ∧
    (∀ c ∈ calls, P c.path) ∧ p'.pending = p.pending ∧
    (∀ value, outcome = .ok value → value.Within P) ∧
    (∀ message, outcome = .error (.internal message) → Stops (some (.internal message)) calls) ∧
    ((∀ message, outcome ≠ .error (.internal message)) → Stops none calls)

variable {R : V → Call L → V → Prop} {P : Path → Prop}

/-- The calls of a part of a run that goes on after other calls, none of which failed. -/
theorem Logs.after {m : Running (Placed L) V α} (h : Logs R P m) {p : Progress (Placed L)}
    {w w' : V} {calls : List (Call L)} (hp : p.Within P) (hcalls : Chain R w calls w')
    (hpath : ∀ c ∈ calls, P c.path) (hstops : Stops none calls) :
    ∃ r p' w'' calls', m.run (p, w') = (r, p', w'') ∧ Chain R w calls' w'' ∧
      (∀ c ∈ calls', P c.path) ∧ p'.Within P ∧ Stops (halt? r) calls' := by
  obtain ⟨r, p', w'', calls', hr, hcalls', hpath', hp', hstops'⟩ := h p w' hp
  refine ⟨r, p', w'', calls ++ calls', hr, hcalls.append hcalls', fun c hm => ?_, hp',
    hstops.append hstops'⟩
  exact (List.mem_append.1 hm).elim (hpath c) (hpath' c)

theorem Logs.bind {m : Running (Placed L) V α} {f : α → Running (Placed L) V β}
    (h : Logs R P m) (hf : ∀ a, Logs R P (f a)) : Logs R P (m >>= f) := by
  intro p w hp
  obtain ⟨r, p', w', calls, hr, hcalls, hpath, hp', hstops⟩ := h p w hp
  rw [run_bind, hr]
  cases r with
  | error halt => exact ⟨.error halt, p', w', calls, rfl, hcalls, hpath, hp', hstops⟩
  | ok a => exact (hf a).after hp' hcalls hpath hstops

/-- A part of a run that comes to its end and calls nothing. -/
theorem logs_of_quiet {m : Running (Placed L) V α}
    (h : ∀ p w, ∃ a p', m.run (p, w) = (.ok a, p', w) ∧ (p.Within P → p'.Within P)) : Logs R P m := by
  intro p w hp
  obtain ⟨a, p', hr, hp'⟩ := h p w
  exact ⟨.ok a, p', w, [], hr, .nil, List.forall_mem_nil _, hp' hp, List.forall_mem_nil _⟩

theorem logs_pure (a : α) : Logs R P (pure a : Running (Placed L) V α) :=
  logs_of_quiet fun p _ => ⟨a, p, rfl, id⟩

theorem logs_unfinished : Logs R P (throw .unfinished : Running (Placed L) V α) :=
  fun p w hp => ⟨.error .unfinished, p, w, [], rfl, .nil, List.forall_mem_nil _, hp,
    List.forall_mem_nil _⟩

theorem logs_update (u : Progress (Placed L) → Progress (Placed L))
    (h : ∀ p, p.Within P → (u p).Within P) : Logs R P (update u : Running (Placed L) V Unit) :=
  logs_of_quiet fun p _ => ⟨(), u p, rfl, h p⟩

theorem logs_grow (t : ResponseTree → List SlotId × ResponseTree) :
    Logs R P (grow t : Running (Placed L) V (List SlotId)) :=
  logs_of_quiet fun p _ => ⟨(t p.tree).1, _, rfl, id⟩

theorem logs_isLive (slot : SlotId) : Logs R P (isLive slot : Running (Placed L) V Bool) :=
  logs_of_quiet fun p _ => ⟨p.tree.isLive slot, p, rfl, id⟩

theorem Logs.whileLive {slot : SlotId} {m : Running (Placed L) V Unit} (h : Logs R P m) :
    Logs R P (do if ← isLive slot then m) := by
  refine (logs_isLive slot).bind fun live => ?_
  cases live with
  | true => exact h
  | false => exact logs_pure ()

theorem logs_report (frame : Frame) (error : Error) :
    Logs R P (report frame error : Running (Placed L) V Unit) :=
  logs_update _ fun _ => id

/-- What goes on with an outcome makes its failure the reason to stop. -/
theorem Asks.finish {m : Running (Placed L) V (Outcome (Placed L))}
    {complete : Frame → FieldValue (Placed L) → Running (Placed L) V Unit} {frame : Frame}
    (h : Asks R P m) (hc : ∀ value, value.Within P → Logs R P (complete frame value)) :
    Logs R P (m >>= finish complete frame) := by
  intro p w hp
  obtain ⟨outcome, p', w', calls, hr, hcalls, hpath, hpending, hvalue, hfails, hfine⟩ := h p w
  have hp' : p'.Within P := by
    unfold Progress.Within
    rw [hpending]
    exact hp
  rw [run_bind, hr]
  cases outcome with
  | ok value =>
    exact (hc value (hvalue value rfl)).after hp' hcalls hpath (hfine fun _ h => by cases h)
  | error error =>
    cases error with
    | field error => exact (logs_report frame error).after hp' hcalls hpath (hfine fun _ h => by cases h)
    | internal message =>
      exact ⟨.error (.internal message), p', w', calls, rfl, hcalls, hpath, hp', hfails message rfl⟩

/-! ## Hosts -/

variable {e : Execution ρ (Placed L) V}

/-- A call of its own, which is for one position, and of which the lazies of its value are. -/
theorem asks_of_call {m : Running (Placed L) V (Outcome (Placed L))} {path : Path}
    (hpath : P path) (h : ∀ p w, ∃ c p' w', m.run (p, w) = (.ok (c.outcome.placed path), p', w') ∧
        R w c w' ∧ c.path = path ∧ p'.pending = p.pending) : Asks R P m := by
  intro p w
  obtain ⟨c, p', w', hr, hcall, rfl, hp⟩ := h p w
  have hfails : ∀ message, c.outcome = .error (.internal message) → c.failure? = some message := by
    intro message he
    rw [Call.failure?, he]
  refine ⟨_, p', w', [c], hr, .cons hcall .nil, by simpa using hpath, hp, ?_, ?_, ?_⟩
  · intro value hv lazy hl
    cases ho : c.outcome with
    | ok found =>
      rw [ho] at hv
      cases hv
      rw [Tree.path_of_defers hl]
      exact hpath
    | error error =>
      rw [ho] at hv
      cases hv
  · intro message he
    refine ⟨[], c, rfl, hfails message ?_, List.forall_mem_nil _⟩
    cases ho : c.outcome with
    | ok found =>
      rw [ho] at he
      cases he
    | error error =>
      rw [ho] at he
      cases he
      rfl
  · intro hne c' hm
    rw [List.mem_singleton.1 hm, Call.failure?]
    split
    · next message ho => exact absurd (congrArg (Outcome.placed c.path) ho) (hne message)
    · rfl

/-- An outcome that is had without a call. -/
theorem asks_pure {outcome : Outcome (Placed L)}
    (h : ∀ value, outcome = .ok value → value.Within P)
    (hne : ∀ message, outcome ≠ .error (.internal message)) :
    Asks R P (pure outcome : Running (Placed L) V (Outcome (Placed L))) :=
  fun p w => ⟨outcome, p, w, [], rfl, .nil, List.forall_mem_nil _, rfl, h,
    fun message he => absurd he (hne message), fun _ => List.forall_mem_nil _⟩

theorem asks_leaf (json : Json) :
    Asks R P (pure (.ok (.leaf json)) : Running (Placed L) V (Outcome (Placed L))) := by
  refine asks_pure ?_ fun message he => ?_
  · rintro value ⟨⟩ lazy ⟨⟩
  · cases he

theorem asks_error (error : Error) :
    Asks R P (pure (.error (.field error)) : Running (Placed L) V (Outcome (Placed L))) := by
  refine asks_pure (fun value he => ?_) fun message he => ?_
  · cases he
  · cases he

theorem fieldOutcome_asks (he : e.host.Makes R) (frame : Frame) (object : Name) (parent : Json)
    (hp : P frame.path) : Asks R P (e.fieldOutcome frame object parent) := by
  unfold fieldOutcome
  simp only
  split
  · exact asks_leaf _
  · cases e.registry.field? object frame.field.name with
    | none => exact asks_error _
    | some spec =>
      simp only
      cases e.registry.coerceArguments e.variableValues frame.field.name spec.arguments
          frame.field.first with
      | error error => exact asks_error _
      | ok arguments =>
        refine asks_of_call hp fun p w => ?_
        obtain ⟨outcome, entries, w', hr, hcall⟩ := he.resolve spec.resolver
          ⟨object, frame.field.name, parent, arguments, frame.path, frame.field.first,
            e.variableValues, e.data⟩ p.extensions w
        refine ⟨_, { p with extensions := entries }, w', ?_, hcall, rfl, rfl⟩
        rw [run_resolve, hr]
        rfl

theorem force_asks (he : e.host.Makes R) (lazy : Placed L) (hp : P lazy.path) :
    Asks R P (e.force lazy) := by
  refine asks_of_call hp fun p w => ?_
  obtain ⟨outcome, w', hr, hcall⟩ := he.force lazy w
  refine ⟨_, p, w', ?_, hcall, rfl, rfl⟩
  rw [run_force, hr]
  rfl

/-! ## Values and fields -/

/-- Whatever holds of a position holds of those below it. -/
def Downward (P : Path → Prop) : Prop :=
  ∀ path segment, P path → P (Path.child path segment)

theorem completeElements_logs (hd : Downward P)
    {complete : Frame → FieldValue (Placed L) → Running (Placed L) V Unit} {list : Frame}
    {item : TypeRef} (hp : P list.path)
    (hitem : ∀ (frame : Frame) value, frame.field = list.field → frame.type = item → P frame.path →
      value.Within P → Logs R P (complete frame value))
    (items : List (SlotId × FieldValue (Placed L))) (hitems : ∀ entry ∈ items, entry.2.Within P) (i : Nat) :
    Logs R P (completeElements complete list item i items) := by
  induction items generalizing i with
  | nil => exact logs_pure ()
  | cons entry items ih =>
    obtain ⟨slot, value⟩ := entry
    obtain ⟨hvalue, hitems⟩ := List.forall_mem_cons.1 hitems
    exact (hitem ⟨list.field, item, list.path.child (.index i), slot⟩ value rfl rfl (hd _ _ hp)
      hvalue).bind fun _ => .whileLive (ih hitems (i + 1))

/-- What running fields calls is for positions below those of their object. -/
def NodesLog (R : V → Call L → V → Prop) (P : Path → Prop) (e : Execution ρ (Placed L) V)
    (nodes : List Plan.Node) : Prop :=
  ∀ object value above path slots, P path → Logs R P (e.runNodes object value above path nodes slots)

theorem perform_logs (hd : Downward P) {select : Select (Placed L) V} {frame : Frame}
    {value : FieldValue (Placed L)} (hp : P frame.path) (hv : value.Within P)
    (hnodes : ∀ object nodes, frame.field.childrenFor? object = some nodes → NodesLog R P e nodes)
    (hitem : ∀ item nullable, frame.type = .list item nullable → ∀ (inner : Frame) value,
      inner.field = frame.field → inner.type = item → P inner.path → value.Within P →
        Logs R P (e.completeAs select item inner value)) :
    Logs R P (perform e select frame (e.completion frame value)) := by
  have hfit := e.fits_completion frame value
  cases hc : e.completion frame value with
  | aside lazy =>
    rw [hc] at hfit
    cases hfit
    refine logs_update (fun p => p.putAside frame lazy) fun p hw d hm => ?_
    rcases List.mem_append.1 hm with hm | hm
    · exact hw d hm
    · cases List.mem_singleton.1 hm
      exact ⟨hp, hv lazy .later⟩
  | null => exact logs_update (fun p => p.record (.null frame)) fun _ => id
  | reject error => exact logs_report frame _
  | leaf json => exact logs_update (fun p => { p with tree := p.tree.setLeaf frame.slot json }) fun _ => id
  | object object nodes json =>
    rw [hc] at hfit
    exact (logs_grow _).bind fun slots =>
      hnodes object nodes hfit.1 object json frame.slot frame.path slots hp
  | list item nullable items =>
    rw [hc] at hfit
    refine (logs_grow _).bind fun slots => completeElements_logs hd hp (hitem item nullable hfit.1) _ ?_ 0
    exact fun entry hm lazy hl => hv lazy (defers_of_elements hfit.2 (List.of_mem_zip hm).2 hl)

theorem completeAs_logs (hd : Downward P) (field : Plan.Node)
    (hnodes : ∀ object nodes, field.childrenFor? object = some nodes → NodesLog R P e nodes)
    (type : TypeRef) : ∀ (frame : Frame) (value : FieldValue (Placed L)), frame.field = field →
      frame.type = type → P frame.path → value.Within P →
        Logs R P (e.completeAs (e.selectFrom field.children) type frame value) := by
  induction type with
  | named name nullable =>
    rintro frame value rfl ht hp hv
    rw [← ht, completeAs_eq]
    refine perform_logs hd hp hv hnodes fun item nullable ht' => ?_
    rw [ht] at ht'
    cases ht'
  | list item nullable ih =>
    rintro frame value rfl ht hp hv
    rw [← ht, completeAs_eq]
    refine perform_logs hd hp hv hnodes fun item nullable ht' => ?_
    rw [ht] at ht'
    cases ht'
    exact ih

mutual

theorem runNode_logs (he : e.host.Makes R) (hd : Downward P) : (node : Plan.Node) →
    ∀ object parent slot path, P path → Logs R P (e.runNode object parent node slot path)
  | ⟨key, owner, type, first, others, children⟩ => fun object parent slot path hp => by
    rw [runNode]
    exact (fieldOutcome_asks he _ object parent hp).finish fun value hv =>
      completeAs_logs hd ⟨key, owner, type, first, others, children⟩ (children_log he hd children) type
        ⟨_, type, path, slot⟩ value rfl rfl hp hv

theorem runNodes_log (he : e.host.Makes R) (hd : Downward P) : (nodes : List Plan.Node) →
    NodesLog R P e nodes
  | [] => fun _ _ _ _ _ _ => logs_pure ()
  | node :: nodes => fun object value above path slots hp => by
    cases slots with
    | nil => exact logs_pure ()
    | cons slot slots =>
      exact (runNode_logs he hd node object value slot _ (hd _ _ hp)).bind fun _ =>
        .whileLive (runNodes_log he hd nodes object value above path slots hp)

theorem children_log (he : e.host.Makes R) (hd : Downward P) : (children : List (Name × List Plan.Node)) →
    ∀ object nodes, Assoc.get? children object = some nodes → NodesLog R P e nodes
  | [] => fun _ _ h => by cases h
  | (name, nodes) :: rest => fun object found h => by
    rw [Assoc.get?] at h
    split at h
    · cases h
      exact runNodes_log he hd nodes
    · exact children_log he hd rest object found h

end

/-! ## Waves -/

section

variable (he : e.host.Makes R) (hd : Downward P)

include he hd

theorem completePending_logs (pending : List (Pending (Placed L)))
    (hp : ∀ d ∈ pending, P d.frame.path ∧ P d.lazy.path) :
    Logs R P (e.completePending pending) := by
  induction pending with
  | nil => exact logs_pure ()
  | cons d pending ih =>
    obtain ⟨⟨hframe, hlazy⟩, hrest⟩ := List.forall_mem_cons.1 hp
    refine (logs_isLive d.frame.slot).bind fun live => ?_
    cases live with
    | true =>
      have hone : Logs R P (e.force d.lazy >>= finish e.complete d.frame) :=
        (force_asks he d.lazy hlazy).finish fun value hv =>
          completeAs_logs hd d.frame.field (children_log he hd _) d.frame.type d.frame value rfl rfl hframe hv
      have hboth := hone.bind fun _ => ih hrest
      rw [bind_assoc] at hboth
      exact hboth
    | false => exact ih hrest

theorem wave_logs : Logs R P e.wave := by
  intro p w hp
  exact completePending_logs he hd p.pending hp { p with pending := [] } w (List.forall_mem_nil _)

theorem settle_logs (fuel : Nat) : Logs R P (e.settle fuel) := by
  induction fuel with
  | zero =>
    intro p w hp
    rw [settle, run_bind, run_progress]
    simp only
    split
    · exact logs_unfinished p w hp
    · exact logs_pure () p w hp
  | succ fuel ih =>
    intro p w hp
    rw [settle, run_bind, run_progress]
    simp only
    split
    · exact ((wave_logs he hd).bind fun _ => ih) p w hp
    · exact logs_pure () p w hp

theorem runRoot_logs (fuel : Nat) (serial : Bool) (root : Name)
    (nodes : List Plan.Node) (slots : List SlotId) (hp : ∀ node ∈ nodes, P [.field node.key]) :
    Logs R P (e.runRoot fuel serial root nodes slots) := by
  induction nodes generalizing slots with
  | nil => exact logs_pure ()
  | cons node nodes ih =>
    cases slots with
    | nil => exact logs_pure ()
    | cons slot slots =>
      obtain ⟨hnode, hnodes⟩ := List.forall_mem_cons.1 hp
      rw [runRoot_cons]
      refine (runNode_logs he hd node root _ slot _ hnode).bind fun _ => .bind ?_ fun _ =>
        .whileLive (ih slots hnodes)
      cases serial with
      | true => exact settle_logs he hd fuel
      | false => exact logs_pure ()

theorem begin_logs (fuel : Nat) (plan : Plan)
    (hp : ∀ node ∈ plan.fields, P [.field node.key]) : Logs R P (e.begin fuel plan) :=
  (logs_grow _).bind fun slots => runRoot_logs he hd fuel _ plan.root plan.fields slots hp

end

end Execution

end GraphQL
