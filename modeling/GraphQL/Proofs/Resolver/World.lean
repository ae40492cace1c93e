import GraphQL.Resolver

/-!
# The sources of a world

What the operations of a world do to its sources and to the flushes that wait, each as one equation
for all kinds.
-/

namespace GraphQL

/-- A source when its pending keys have been loaded. -/
def Supply.synced (s : Supply) : Supply :=
  { s with source :=
      if s.source.pending.isEmpty then s.source.taken
      else s.source.taken.store s.source.pending (s.loader.load s.source.pending) }

namespace World

variable {w w' : World} {kind other : SourceKind} {s : Supply}

theorem kind_of_supply? (h : w.supply? kind = some s) : s.kind = kind := by
  simpa using List.find?_some h

theorem source_of_supply? (h : w.supply? kind = some s) : w.source kind = s.source := by
  rw [source, h]

/-- There is one source of each kind. -/
theorem supply?_of_kind (h : w.supply? other = some s) (hk : s.kind = kind) :
    w.supply? kind = some s := by
  rw [← hk, kind_of_supply? h]
  exact h

theorem supply?_of_supplies (h : w'.supplies = w.supplies) (kind : SourceKind) :
    w'.supply? kind = w.supply? kind := by
  rw [supply?, h]
  rfl

theorem supply?_setSource (w : World) (kind other : SourceKind)
    (source : Source String Json FieldError) : (w.setSource kind source).supply? other =
      (w.supply? other).map fun s => if s.kind = kind then { s with source := source } else s := by
  unfold supply? setSource
  rw [List.find?_map]
  congr 2
  funext s
  simp only [Function.comp]
  split <;> rfl

theorem supply?_addSupply (w : World) (s : Supply) (kind : SourceKind) :
    (w.addSupply s).supply? kind =
      if (w.supply? s.kind).isNone ∧ s.kind = kind then some s else w.supply? kind := by
  unfold addSupply
  cases hs : w.supply? s.kind with
  | some s' => simp
  | none =>
    simp only [Option.isSome_none, Bool.false_eq_true, if_false, Option.isNone_none, true_and]
    by_cases hk : s.kind = kind
    · subst hk
      rw [if_pos rfl]
      unfold supply? at hs ⊢
      rw [List.find?_append, hs]
      simp
    · rw [if_neg hk]
      unfold supply?
      rw [List.find?_append]
      simp [hk]

theorem flushes_addSupply (w : World) (s : Supply) : (w.addSupply s).flushes = w.flushes := by
  unfold addSupply
  split <;> rfl

theorem supply?_request (w : World) (kind other : SourceKind) (key : String) :
    (w.request kind key).supply? other = (w.supply? other).map fun s =>
      if s.kind = kind then { s with source := s.source.request key } else s := by
  have hset : (w.request kind key).supply? other =
      (w.setSource kind ((w.source kind).request key)).supply? other := by
    unfold request
    dsimp only
    split <;> rfl
  rw [hset, supply?_setSource]
  refine Option.map_congr fun s hs => ?_
  split
  · next hk => rw [source_of_supply? (supply?_of_kind hs hk)]
  · rfl

theorem flushes_request (w : World) (kind : SourceKind) (key : String) :
    (w.request kind key).flushes =
      if (w.source kind).needsFlush key then w.flushes ++ [kind] else w.flushes := by
  unfold request
  dsimp only
  split <;> rfl

theorem supply?_sync (w : World) (kind other : SourceKind) :
    (w.sync kind).supply? other = (w.supply? other).map fun s =>
      if s.kind = kind then s.synced else s := by
  cases hs : w.supply? kind with
  | none =>
    have hsync : w.sync kind = w := by simp only [sync, hs]
    rw [hsync]
    cases ho : w.supply? other with
    | none => rfl
    | some s =>
      have hne : s.kind ≠ kind := fun hk => by simp [supply?_of_kind ho hk] at hs
      simp [hne]
  | some s0 =>
    have hsync : (w.sync kind).supply? other = (w.supply? other).map fun s =>
        if s.kind = kind then { s with source := s0.synced.source } else s := by
      unfold sync Supply.synced
      simp only [hs]
      split
      · exact supply?_setSource w kind other _
      · rw [supply?_setSource]
        show ((w.setSource kind s0.source.taken).supply? other).map _ = _
        rw [supply?_setSource, Option.map_map]
        congr 1
        funext s
        by_cases hk : s.kind = kind <;> simp [hk]
    rw [hsync]
    refine Option.map_congr fun s ho => ?_
    split
    · next hk =>
      rw [supply?_of_kind ho hk] at hs
      cases hs
      rfl
    · rfl

end World

end GraphQL
