import GraphQL.Execution.Host
import GraphQL.Proofs.Deferred.Memoized

/-!
# Values resolved in depth

A value of finite depth unfolds into what its lazies give, and what these give in turn
(`Unfolding`). To resolve it is to force its lazies one after the other, depth first and from left
to right. That gives the value with each lazy replaced by what finally comes of it, or the error of
the first lazy that fails, after which no other one is forced (`deep_visits`). Lazies may be shared:
one that stands at several places is forced at each of them, and run at the first.
-/

namespace GraphQL.Deferred

/-- A lazy, and what it gives when it is forced. -/
abbrev Visit (α ε : Type) :=
  Ref × Result α ε

/-- A value of finite depth with what its lazies give. -/
inductive Unfolding (α ε : Type) where
  | leaf (value : α)
  | list (items : List (Unfolding α ε))
  /-- A lazy, and the value that it gives. -/
  | gives (ref : Ref) (value : Unfolding α ε)
  | fails (ref : Ref) (e : ε)

variable {α β γ δ ε κ σ : Type}

namespace Unfolding

mutual

/-- The value itself, in which only the outermost lazies are to be seen. -/
def tree : Unfolding α ε → Tree α Ref
  | leaf value => .leaf value
  | list items => .list (trees items)
  | gives ref _ | fails ref _ => .later ref

def trees : List (Unfolding α ε) → List (Tree α Ref)
  | [] => []
  | u :: us => u.tree :: trees us

end

mutual

/-- All lazies, depth first and from left to right. -/
def lazies : Unfolding α ε → List (Visit α ε)
  | leaf _ => []
  | list items => itemLazies items
  | gives ref value => (ref, .ok value.tree) :: value.lazies
  | fails ref e => [(ref, .error e)]

def itemLazies : List (Unfolding α ε) → List (Visit α ε)
  | [] => []
  | u :: us => u.lazies ++ itemLazies us

end

mutual

/-- The value with what finally comes of each lazy in its place, unless one of them fails. -/
def plain? : Unfolding α ε → Option (Tree α Ref)
  | leaf value => some (.leaf value)
  | list items => (itemPlains? items).map .list
  | gives _ value => value.plain?
  | fails _ _ => none

def itemPlains? : List (Unfolding α ε) → Option (List (Tree α Ref))
  | [] => some []
  | u :: us => do
    let item ← u.plain?
    let rest ← itemPlains? us
    pure (item :: rest)

end

end Unfolding

/-- None of the lazies fails. -/
def AllGive (visits : List (Visit α ε)) : Prop :=
  ∀ v ∈ visits, ∃ tree, v.2 = .ok tree

/-- What comes of a value, and which lazies are forced for it, where `plain` is the value without
lazies, and `lazies` are those that it has. -/
inductive Ending (plain : Option β) (lazies : List (Visit α ε)) :
    Except ε β → List (Visit α ε) → Prop
  | gives {b : β} : AllGive lazies → plain = some b → Ending plain lazies (.ok b) lazies
  | fails {before after : List (Visit α ε)} {ref : Ref} {e : ε} : AllGive before →
      lazies = before ++ (ref, .error e) :: after →
      Ending plain lazies (.error e) (before ++ [(ref, .error e)])

/-- What comes of a value that unfolds so, and which lazies are forced for it. -/
abbrev Unfolding.Ends (u : Unfolding α ε) (result : Result α ε)
    (visits : List (Visit α ε)) : Prop :=
  Ending u.plain? u.lazies result visits

namespace Store

variable [DecidableEq κ]

/-- Forcing a lazy comes to an end, with the result and the store. -/
def Forces (s : Store α ε κ σ) (ref : Ref) (result : Result α ε) (s' : Store α ε κ σ) : Prop :=
  ∃ n, s.force (Script.runFor n) ref = .ok result s'

/-- Lazies are forced one after the other, and nothing else happens. -/
inductive Visits : Store α ε κ σ → List (Visit α ε) → Store α ε κ σ → Prop
  | nil {s : Store α ε κ σ} : Visits s [] s
  | cons {s s₁ s₂ : Store α ε κ σ} {ref : Ref} {result : Result α ε} {visits : List (Visit α ε)} :
      s.Forces ref result s₁ → Visits s₁ visits s₂ → Visits s ((ref, result) :: visits) s₂

/-- The value is of finite depth, and the lazies that are forced for it can be forced one after the
other. -/
def Unfolds (s : Store α ε κ σ) (tree : Tree α Ref) (result : Result α ε) (s' : Store α ε κ σ) :
    Prop :=
  ∃ u : Unfolding α ε, ∃ visits, u.tree = tree ∧ u.Ends result visits ∧ s.Visits visits s'

end Store

/-! ## How a value ends -/

namespace Ending

variable {plain : Option β} {plain' : Option γ} {lazies lazies' visits visits' : List (Visit α ε)}
  {result : Except ε β} {result' : Except ε γ}

theorem nil {b : β} : Ending (some b) [] (.ok b) ([] : List (Visit α ε)) :=
  .gives (by simp [AllGive]) rfl

theorem fail {ref : Ref} {e : ε} :
    Ending plain [(ref, .error e)] (.error e) ([(ref, .error e)] : List (Visit α ε)) := by
  have hnone : AllGive ([] : List (Visit α ε)) := by simp [AllGive]
  exact .fails hnone rfl

theorem map (f : β → γ) (h : Ending plain lazies result visits) :
    Ending (plain.map f) lazies (result.map f) visits := by
  cases h with
  | gives hall h => exact .gives hall (by rw [h, Option.map_some])
  | fails hall h => exact .fails hall h

/-- A lazy that does not fail comes before. -/
theorem cons {ref : Ref} {tree : Tree α Ref} (h : Ending plain lazies result visits) :
    Ending plain ((ref, .ok tree) :: lazies) result ((ref, .ok tree) :: visits) := by
  have hcons : ∀ {visits : List (Visit α ε)}, AllGive visits →
      AllGive ((ref, .ok tree) :: visits) :=
    fun hall => List.forall_mem_cons.2 ⟨⟨tree, rfl⟩, hall⟩
  cases h with
  | gives hall h => exact .gives (hcons hall) h
  | fails hall h => exact .fails (hcons hall) (by rw [h, List.cons_append])

theorem andThen {b : β} (h : Ending plain lazies (.ok b) visits)
    (h' : Ending plain' lazies' result' visits') (f : β → γ → δ) :
    Ending (do return f (← plain) (← plain')) (lazies ++ lazies') (result'.map (f b))
      (visits ++ visits') := by
  cases h with
  | gives hall hplain =>
    cases h' with
    | gives hall' hplain' =>
      exact .gives (List.forall_mem_append.2 ⟨hall, hall'⟩) (by rw [hplain, hplain']; rfl)
    | fails hall' hlazies =>
      rw [← List.append_assoc]
      exact .fails (List.forall_mem_append.2 ⟨hall, hall'⟩) (by rw [hlazies, List.append_assoc])

/-- What comes after a lazy that fails makes no difference. -/
theorem stops {e : ε} (h : Ending plain lazies (.error e) visits) :
    Ending plain' (lazies ++ lazies') (.error e) visits := by
  cases h with
  | fails hall h => exact .fails hall (by rw [h, List.append_assoc, List.cons_append])

/-- There is only one lazy that is the first to fail. -/
theorem first_unique {before before' after after' : List (Visit α ε)} {ref ref' : Ref} {e e' : ε}
    (hall : AllGive before) (hall' : AllGive before')
    (h : before ++ (ref, .error e) :: after = before' ++ (ref', .error e') :: after') :
    before = before' ∧ ref = ref' ∧ e = e' := by
  induction before generalizing before' with
  | nil =>
    cases before' with
    | nil =>
      cases h
      exact ⟨rfl, rfl, rfl⟩
    | cons w before' =>
      cases h
      obtain ⟨tree, htree⟩ := hall' _ (List.mem_cons_self ..)
      cases htree
  | cons w before ih =>
    cases before' with
    | nil =>
      cases h
      obtain ⟨tree, htree⟩ := hall _ (List.mem_cons_self ..)
      cases htree
    | cons w' before' =>
      obtain ⟨rfl, hrest⟩ := List.cons.inj h
      obtain ⟨-, hall⟩ := List.forall_mem_cons.1 hall
      obtain ⟨-, hall'⟩ := List.forall_mem_cons.1 hall'
      obtain ⟨rfl, hfirst⟩ := ih hall hall' hrest
      exact ⟨rfl, hfirst⟩

theorem not_allGive {before after : List (Visit α ε)} {ref : Ref} {e : ε}
    (h : lazies = before ++ (ref, .error e) :: after) : ¬ AllGive lazies := by
  intro hall
  obtain ⟨tree, htree⟩ := hall (ref, .error e) (by rw [h]; simp)
  cases htree

theorem unique {result' : Except ε β} (h : Ending plain lazies result visits)
    (h' : Ending plain lazies result' visits') : result' = result ∧ visits' = visits := by
  cases h with
  | gives hall hplain =>
    cases h' with
    | gives _ hplain' =>
      rw [hplain, Option.some.injEq] at hplain'
      exact ⟨congrArg Except.ok hplain'.symm, rfl⟩
    | fails _ hlazies => exact absurd hall (not_allGive hlazies)
  | @fails before after ref e hall hlazies =>
    cases h' with
    | gives hall' _ => exact absurd hall' (not_allGive hlazies)
    | @fails before' after' ref' e' hall' hlazies' =>
      obtain ⟨rfl, rfl, rfl⟩ := first_unique hall hall' (hlazies.symm.trans hlazies')
      exact ⟨rfl, rfl⟩

end Ending

/-! ## Forcing one lazy after the other -/

namespace Store

variable [DecidableEq κ] {s s' s₁ : Store α ε κ σ} {ref : Ref} {result : Result α ε}
  {visits visits' : List (Visit α ε)}

theorem Visits.append (h : s.Visits visits s₁) (h' : s₁.Visits visits' s') :
    s.Visits (visits ++ visits') s' := by
  induction h with
  | nil => exact h'
  | cons hf _ ih => exact .cons hf (ih h')

theorem visits_append_iff : s.Visits (visits ++ visits') s' ↔
    ∃ s₁, s.Visits visits s₁ ∧ s₁.Visits visits' s' := by
  refine ⟨fun h => ?_, fun ⟨s₁, h, h'⟩ => h.append h'⟩
  induction visits generalizing s with
  | nil => exact ⟨s, .nil, h⟩
  | cons v visits ih =>
    cases h with
    | cons hf h =>
      obtain ⟨s₁, h, h'⟩ := ih h
      exact ⟨s₁, .cons hf h, h'⟩

/-- What becomes of lazies while a script runs. -/
theorem runFor_leads {n : Nat} {script : Script α ε κ σ} (h : script.runFor n s = .ok result s')
    {cell : Cell α ε κ σ} (hc : s.cells[ref]? = some cell) :
    ∃ cell', s'.cells[ref]? = some cell' ∧ cell.Leads cell' := by
  obtain ⟨m, events, ht⟩ := (script.runFor_ok_iff s result s').1 ⟨n, h⟩
  exact Thread.after_leads (Thread.sound_on s script) ht hc

/-- What becomes of lazies while one of them is forced. -/
theorem Forces.leads (h : s.Forces ref result s') {other : Ref} {cell : Cell α ε κ σ}
    (hc : s.cells[other]? = some cell) :
    ∃ cell', s'.cells[other]? = some cell' ∧ cell.Leads cell' := by
  obtain ⟨n, h⟩ := h
  have hrun : (Script.force ref .done).runFor (n + 1) s = .ok result s' := by
    show (s.force (Script.runFor n) ref).bind _ = _
    rw [h]
    rfl
  exact runFor_leads hrun hc

/-- A lazy that was forced has its result. -/
theorem Forces.resolved (h : s.Forces ref result s') :
    s'.cells[ref]? = some (.resolved result) := by
  obtain ⟨n, h⟩ := h
  unfold force at h
  split at h
  · next hc =>
    cases h
    exact hc
  · next thunk hc =>
    obtain ⟨result', s₁, hrun, h⟩ := Ran.bind_eq_ok h
    cases h
    have hlt : ref < s.cells.size := (Array.getElem?_eq_some_iff.1 hc).1
    have hforcing : (s.setCell ref .forcing).cells[ref]? = some .forcing :=
      Array.getElem?_setIfInBounds_self_of_lt hlt
    obtain ⟨cell, hcell, -⟩ := runFor_leads hrun hforcing
    exact Array.getElem?_setIfInBounds_self_of_lt (Array.getElem?_eq_some_iff.1 hcell).1
  · cases h
  · cases h

theorem Visits.keeps (h : s.Visits visits s') (hc : s.cells[ref]? = some (.resolved result)) :
    s'.cells[ref]? = some (.resolved result) := by
  induction h with
  | nil => exact hc
  | cons hf _ ih =>
    obtain ⟨cell, hcell, hleads⟩ := hf.leads hc
    exact ih (by rw [hcell, hleads.resolved])

theorem Visits.resolved (h : s.Visits visits s') :
    ∀ v ∈ visits, s'.cells[v.1]? = some (.resolved v.2) := by
  induction h with
  | nil => simp
  | cons hf h ih => exact List.forall_mem_cons.2 ⟨h.keeps hf.resolved, ih⟩

/-- Something happens to a lazy only while one of those that are visited is forced. -/
theorem Visits.exists_changed (h : s.Visits visits s') (hc : s'.cells[ref]? ≠ s.cells[ref]?) :
    ∃ before v after s₁ s₂, visits = before ++ v :: after ∧ s.Visits before s₁ ∧
      s₁.Forces v.1 v.2 s₂ ∧ s₁.cells[ref]? = s.cells[ref]? ∧ s₂.cells[ref]? ≠ s₁.cells[ref]? := by
  induction h with
  | nil => exact absurd rfl hc
  | @cons s s₁ s₂ first result visits hf _ ih =>
    by_cases he : s₁.cells[ref]? = s.cells[ref]?
    · obtain ⟨before, v, after, t, t', rfl, hb, hv, hsame, hother⟩ := ih (by rwa [he])
      exact ⟨(first, result) :: before, v, after, t, t', rfl, .cons hf hb, hv, hsame.trans he,
        hother⟩
    · exact ⟨[], (first, result), visits, s, s₁, rfl, .nil, hf, rfl, he⟩

end Store

/-! ## From unfoldings to runs -/

namespace Thread

variable [DecidableEq κ] {s s' s₁ : Store α ε κ σ} {tree : Tree α Ref} {result : Result α ε}
  {ref : Ref} {e : ε}

/-- Threads that resolve the value go on with the result. -/
def Deepens (s : Store α ε κ σ) (tree : Tree α Ref) (result : Result α ε) (s' : Store α ε κ σ) :
    Prop :=
  ∀ callers events next, ∃ m events',
    (⟨.deep tree next, callers, s, events⟩ : Thread α ε κ σ).after m =
      some ⟨next result, callers, s', events'⟩

/-- Threads that resolve the items go on with the result. -/
def DeepensItems (s : Store α ε κ σ) (items : List (Tree α Ref))
    (result : Except ε (List (Tree α Ref))) (s' : Store α ε κ σ) : Prop :=
  ∀ callers events next, ∃ m events',
    (⟨.deepItems items next, callers, s, events⟩ : Thread α ε κ σ).after m =
      some ⟨next result, callers, s', events'⟩

theorem forces_after (h : s.Forces ref result s') (callers : List (Caller α ε κ σ))
    (events : List (Event α ε κ σ)) (next : Result α ε → Script α ε κ σ) : ∃ m events',
      (⟨.force ref next, callers, s, events⟩ : Thread α ε κ σ).after m =
        some ⟨next result, callers, s', events'⟩ := by
  obtain ⟨n, h⟩ := h
  have hf : (⟨.force ref next, callers, s, events⟩ : Thread α ε κ σ).Follows (n + 1)
      (fun result s events => ⟨next result, callers, s, events⟩) (s.force (Script.runFor n) ref) :=
    Store.force_follows (Script.runFor_follows n) ref next
  rw [h] at hf
  exact hf

namespace Deepens

theorem leaf (value : α) : Deepens s (.leaf value) (.ok (.leaf value)) s :=
  fun _ events _ => ⟨1, events, rfl⟩

theorem list {items : List (Tree α Ref)} {result : Except ε (List (Tree α Ref))}
    (h : DeepensItems s items result s') : Deepens s (.list items) (result.map .list) s' := by
  intro callers events next
  obtain ⟨m, events', h⟩ := h callers events fun result => next (result.map .list)
  exact ⟨m + 1, events', h⟩

theorem gives (hf : s.Forces ref (.ok tree) s₁) (h : Deepens s₁ tree result s') :
    Deepens s (.later ref) result s' := by
  intro callers events next
  obtain ⟨m, events₁, hm⟩ : ∃ m events₁,
      (⟨.deepen (.later ref) next, callers, s, events⟩ : Thread α ε κ σ).after m =
        some ⟨.deep tree next, callers, s₁, events₁⟩ := forces_after hf callers events _
  obtain ⟨k, events', hk⟩ := h callers events₁ next
  refine ⟨m + k + 1, events', ?_⟩
  rw [after_succ rfl, after_add hm, hk]

theorem fails (hf : s.Forces ref (.error e) s') : Deepens s (.later ref) (.error e) s' := by
  intro callers events next
  obtain ⟨m, events', hm⟩ : ∃ m events',
      (⟨.deepen (.later ref) next, callers, s, events⟩ : Thread α ε κ σ).after m =
        some ⟨next (.error e), callers, s', events'⟩ := forces_after hf callers events _
  exact ⟨m + 1, events', hm⟩

/-- A script that only resolves a value runs to its result. -/
theorem exists_runFor (h : Deepens s tree result s') :
    ∃ n, (Script.deep tree .done).runFor n s = .ok result s' := by
  obtain ⟨m, events, h⟩ := h [] [] .done
  exact (Script.runFor_ok_iff _ s result s').2 ⟨m, events, h⟩

end Deepens

namespace DeepensItems

variable {items : List (Tree α Ref)} {results : Except ε (List (Tree α Ref))} {item : Tree α Ref}

theorem nil : DeepensItems s [] (.ok []) s :=
  fun _ events _ => ⟨0, events, rfl⟩

theorem gives (h : Deepens s tree (.ok item) s₁) (h' : DeepensItems s₁ items results s') :
    DeepensItems s (tree :: items) (results.map fun rest => item :: rest) s' := by
  intro callers events next
  obtain ⟨m, events₁, hm⟩ : ∃ m events₁,
      (⟨.deepItems (tree :: items) next, callers, s, events⟩ : Thread α ε κ σ).after m =
        some ⟨.deepItems items fun result => next (result.map fun rest => item :: rest),
          callers, s₁, events₁⟩ := h callers events _
  obtain ⟨k, events', hk⟩ := h' callers events₁ fun result =>
    next (result.map fun rest => item :: rest)
  exact ⟨m + k, events', by rw [after_add hm, hk]⟩

theorem fails (h : Deepens s tree (.error e) s') :
    DeepensItems s (tree :: items) (.error e) s' := by
  intro callers events next
  exact h callers events _

end DeepensItems

end Thread

open Thread

variable [DecidableEq κ]

mutual

/-- Every value of finite depth comes to an end, and so does resolving it if the lazies give what
they are said to give. This is by recursion on the unfolding, for all stores at once: each item starts
from the store that the items before it leave. -/
theorem Unfolding.exists_ends : (u : Unfolding α ε) → ∃ result visits, u.Ends result visits ∧
    ∀ {s s' : Store α ε κ σ}, s.Visits visits s' → Deepens s u.tree result s'
  | .leaf value => by
    refine ⟨.ok (.leaf value), [], .nil, fun h => ?_⟩
    cases h
    exact .leaf value
  | .list items => by
    obtain ⟨result, visits, hends, hdeepens⟩ := exists_itemEnds items
    exact ⟨result.map .list, visits, hends.map Tree.list, fun h => .list (hdeepens h)⟩
  | .gives ref value => by
    obtain ⟨result, visits, hends, hdeepens⟩ := value.exists_ends
    refine ⟨result, (ref, .ok value.tree) :: visits, hends.cons, fun h => ?_⟩
    cases h with
    | cons hf h => exact .gives hf (hdeepens h)
  | .fails ref e => by
    refine ⟨.error e, [(ref, .error e)], .fail, fun h => ?_⟩
    cases h with
    | cons hf h =>
      cases h
      exact .fails hf

theorem Unfolding.exists_itemEnds : (us : List (Unfolding α ε)) → ∃ result visits,
    Ending (itemPlains? us) (itemLazies us) result visits ∧
      ∀ {s s' : Store α ε κ σ}, s.Visits visits s' → DeepensItems s (trees us) result s'
  | [] => by
    refine ⟨.ok [], [], .nil, fun h => ?_⟩
    cases h
    exact .nil
  | u :: us => by
    obtain ⟨result, visits, hends, hdeepens⟩ := u.exists_ends
    cases result with
    | error e => exact ⟨.error e, visits, hends.stops, fun h => .fails (hdeepens h)⟩
    | ok item =>
      obtain ⟨results, visits', hends', hdeepens'⟩ := exists_itemEnds us
      refine ⟨_, visits ++ visits', hends.andThen hends' List.cons, fun h => ?_⟩
      obtain ⟨s₁, h, h'⟩ := Store.visits_append_iff.1 h
      exact .gives (hdeepens h) (hdeepens' h')

end

/-! ## From runs to unfoldings -/

mutual

/-- Whatever is not looked at may be taken to fail. -/
theorem Unfolding.exists_tree (e : ε) : (tree : Tree α Ref) → ∃ u : Unfolding α ε, u.tree = tree
  | .leaf value => ⟨.leaf value, rfl⟩
  | .list items => by
    obtain ⟨us, h⟩ := exists_trees e items
    exact ⟨.list us, congrArg Tree.list h⟩
  | .later ref => ⟨.fails ref e, rfl⟩

theorem Unfolding.exists_trees (e : ε) : (items : List (Tree α Ref)) →
    ∃ us : List (Unfolding α ε), trees us = items
  | [] => ⟨[], rfl⟩
  | item :: rest => by
    obtain ⟨u, hu⟩ := exists_tree e item
    obtain ⟨us, hus⟩ := exists_trees e rest
    exact ⟨u :: us, by rw [trees, hu, hus]⟩

end

namespace Store

theorem exists_of_deepItems {deep : Store α ε κ σ → Tree α Ref → Ran α ε κ σ (Result α ε)}
    (hdeep : ∀ {s s' tree result}, deep s tree = .ok result s' → s.Unfolds tree result s')
    (items : List (Tree α Ref)) : ∀ {s s' results}, deepItems deep s items = .ok results s' →
      ∃ us visits, Unfolding.trees us = items ∧
        Ending (Unfolding.itemPlains? us) (Unfolding.itemLazies us) results visits ∧
          s.Visits visits s' := by
  induction items with
  | nil =>
    intro s s' results h
    cases h
    exact ⟨[], [], rfl, .nil, .nil⟩
  | cons item rest ih =>
    intro s s' results h
    obtain ⟨result, s₁, hitem, h⟩ := Ran.bind_eq_ok h
    obtain ⟨u, visits, rfl, hends, hvisits⟩ := hdeep hitem
    cases result with
    | error e =>
      cases h
      -- the items after it are not looked at, so it does not matter how they unfold
      obtain ⟨us, rfl⟩ := Unfolding.exists_trees e rest
      exact ⟨u :: us, visits, rfl, hends.stops, hvisits⟩
    | ok plain =>
      obtain ⟨results', s₂, hrest, h⟩ := Ran.bind_eq_ok h
      cases h
      obtain ⟨us, visits', rfl, hends', hvisits'⟩ := ih hrest
      exact ⟨u :: us, visits ++ visits', rfl, hends.andThen hends' List.cons,
        hvisits.append hvisits'⟩

theorem unfolds_of_deep {n d : Nat} : ∀ {s s' : Store α ε κ σ} {tree : Tree α Ref}
    {result : Result α ε}, s.deep (Script.runFor n) d tree = .ok result s' →
      s.Unfolds tree result s' := by
  induction d with
  | zero =>
    intro s s' tree result h
    cases h
  | succ d ih =>
    intro s s' tree result h
    cases tree with
    | leaf value =>
      cases h
      exact ⟨.leaf value, [], rfl, .nil, .nil⟩
    | list items =>
      obtain ⟨results, s₁, hitems, h⟩ := Ran.bind_eq_ok h
      cases h
      obtain ⟨us, visits, rfl, hends, hvisits⟩ := exists_of_deepItems ih items hitems
      exact ⟨.list us, visits, rfl, hends.map Tree.list, hvisits⟩
    | later ref =>
      obtain ⟨given, s₁, hforce, h⟩ := Ran.bind_eq_ok h
      cases given with
      | error e =>
        cases h
        exact ⟨.fails ref e, _, rfl, .fail, .cons ⟨n, hforce⟩ .nil⟩
      | ok tree =>
        obtain ⟨u, visits, rfl, hends, hvisits⟩ := ih h
        exact ⟨.gives ref u, _, rfl, hends.cons, .cons ⟨n, hforce⟩ hvisits⟩

end Store

/-! ## Values of fields -/

mutual

theorem Unfolding.isSome_toJson? : (u : Unfolding Json ε) → ∀ {plain}, u.plain? = some plain →
    (FieldValue.toJson? plain).isSome = true
  | .leaf value, _, h => by
    cases h
    rfl
  | .list items, _, h => by
    obtain ⟨plains, hplains, rfl⟩ := Option.map_eq_some_iff.1 h
    rw [FieldValue.toJson?, Option.isSome_map]
    exact isSome_itemsJson? items hplains
  | .gives _ value, _, h => value.isSome_toJson? h
  | .fails _ _, _, h => by cases h

theorem Unfolding.isSome_itemsJson? : (us : List (Unfolding Json ε)) → ∀ {plains},
    itemPlains? us = some plains → (FieldValue.itemsJson? plains).isSome = true
  | [], _, h => by
    cases h
    rfl
  | u :: us, _, h => by
    obtain ⟨plain, hplain, h⟩ := Option.bind_eq_some_iff.1 h
    obtain ⟨plains, hplains, h⟩ := Option.bind_eq_some_iff.1 h
    cases h
    obtain ⟨json, hjson⟩ := Option.isSome_iff_exists.1 (u.isSome_toJson? hplain)
    obtain ⟨jsons, hjsons⟩ := Option.isSome_iff_exists.1 (isSome_itemsJson? us hplains)
    rw [FieldValue.itemsJson?, hjson, hjsons]
    rfl

end

/-- Resolving the value of a field comes to an end if and only if the value is of finite depth: it
forces the lazies of some unfolding one after the other, all of them or up to the first that fails,
and gives the value without lazies or that error. What was forced has its result, and nothing else
has happened to any lazy. -/
theorem deep_visits (tree : FieldValue Ref) (heap s : Store Json ε κ σ) (result : Result Json ε) :
    ((∃ n, (Script.deep tree .done).runFor n heap = .ok result s) ↔
      heap.Unfolds tree result s) ∧
    (∀ u : Unfolding Json ε, ∃! ends : Result Json ε × List (Visit Json ε),
      u.Ends ends.1 ends.2) ∧
    ∀ (u : Unfolding Json ε) visits, u.Ends result visits → heap.Visits visits s →
      (∀ plain, result = .ok plain → (FieldValue.toJson? plain).isSome = true) ∧
      (∀ v ∈ visits, s.cells[v.1]? = some (.resolved v.2)) ∧
      ∀ ref : Ref, s.cells[ref]? ≠ heap.cells[ref]? → ∃ before v after s₁ s₂,
        visits = before ++ v :: after ∧ heap.Visits before s₁ ∧ s₁.Forces v.1 v.2 s₂ ∧
          s₁.cells[ref]? = heap.cells[ref]? ∧ s₂.cells[ref]? ≠ s₁.cells[ref]? := by
  refine ⟨⟨?_, ?_⟩, fun u => ?_, ?_⟩
  · rintro ⟨n, h⟩
    cases n with
    | zero => cases h
    | succ n =>
      obtain ⟨result', s', hdeep, hdone⟩ := Ran.bind_eq_ok h
      cases hdone
      exact Store.unfolds_of_deep hdeep
  · rintro ⟨u, visits, rfl, hends, hvisits⟩
    obtain ⟨result', visits', hends', hdeepens⟩ := u.exists_ends (κ := κ) (σ := σ)
    obtain ⟨rfl, rfl⟩ := hends'.unique hends
    exact (hdeepens hvisits).exists_runFor
  · obtain ⟨result', visits', hends, -⟩ := u.exists_ends (κ := κ) (σ := σ)
    refine ⟨(result', visits'), hends, fun ends h => ?_⟩
    exact Prod.ext (hends.unique h).1 (hends.unique h).2
  · intro u visits hends hvisits
    refine ⟨?_, hvisits.resolved, fun ref hchanged => hvisits.exists_changed hchanged⟩
    rintro plain rfl
    cases hends with
    | gives _ hplain => exact u.isSome_toJson? hplain

/-- The first lazy gives the second one, which stands elsewhere as well; the third one fails, and
the fourth one is left alone. -/
example :
    let heap : Store Json String Nat Nat :=
      ⟨0, #[.pending (.done (.ok (.later 1))),
        .pending (.read fun n => .write (n + 1) (.done (.ok (.leaf .null)))),
        .pending (.done (.error "no")), .pending (.done (.ok (.leaf .null)))], [], .fresh⟩
    let tree : FieldValue Ref := .list [.later 0, .list [.later 1, .later 2], .later 3]
    ∃ s, (Script.deep tree .done).runFor 6 heap = .ok (.error "no") s ∧ s.state = 1 ∧
      s.cells[3]? = heap.cells[3]? :=
  ⟨_, rfl, rfl, rfl⟩

end GraphQL.Deferred
