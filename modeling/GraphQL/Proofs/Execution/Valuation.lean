import GraphQL.Proofs.Execution.Direct
import GraphQL.Proofs.Response.Positions

/-!
# Valuations of a response

While a response is under construction, a valuation gives each slot the data it comes to in the
end. It has to agree with what the slots hold so far (`Valued`); of slots that are pending nothing
is asked. Nulling a slot that has no data of its own, and filling one as its data say, leave a
valuation as it is.
-/

namespace GraphQL

namespace Verdict

theorem mapM_none {α β : Type} {f : α → Option β} {xs : List α} {x : α} (hx : x ∈ xs)
    (h : f x = none) : xs.mapM f = none := by
  induction xs with
  | nil => cases hx
  | cons y xs ih =>
    rw [List.mapM_cons]
    rcases List.mem_cons.1 hx with rfl | hx
    · rw [h]
      rfl
    · rw [ih hx]
      cases f y <;> rfl

theorem mapM_some {α β : Type} {f : α → Option β} {g : α → β} {xs : List α}
    (h : ∀ x ∈ xs, f x = some (g x)) : xs.mapM f = some (xs.map g) := by
  induction xs with
  | nil => rfl
  | cons x xs ih =>
    rw [List.mapM_cons, h x (List.mem_cons_self ..), ih fun y hy => h y (List.mem_cons_of_mem _ hy)]
    rfl

theorem arrayOf_none {items : List (Bool × Option Json)} (h : (false, none) ∈ items) :
    arrayOf items = none := by
  rw [arrayOf, mapM_none h rfl]
  rfl

theorem arrayOf_some {items : List Nat} {flag : Nat → Bool} {v : Nat → Option Json}
    {value : Nat → Json} (h : ∀ i ∈ items, placed (flag i) (v i) = some (value i)) :
    arrayOf (items.map fun i => (flag i, v i)) = some (.array (items.map value)) := by
  rw [arrayOf, List.mapM_map]
  exact congrArg (Option.map Json.array) (mapM_some h)

theorem objectOf_some {fields : List (String × Nat)} {flag : Nat → Bool} {v : Nat → Option Json}
    {value : Nat → Json} (h : ∀ f ∈ fields, placed (flag f.2) (v f.2) = some (value f.2)) :
    objectOf (fields.map fun f => (f.1, flag f.2, v f.2)) =
      some (.object (fields.map fun f => (f.1, value f.2))) := by
  have : ∀ f ∈ fields, (placed (flag f.2) (v f.2)).map (fun value => (f.1, value)) =
      some (f.1, value f.2) := fun f hf => by
    rw [h f hf]
    rfl
  rw [objectOf, List.mapM_map]
  exact congrArg (Option.map Json.object) (mapM_some this)

theorem objectOf_none {fields : List (String × Bool × Option Json)} (key : String)
    (h : (key, false, none) ∈ fields) : objectOf fields = none := by
  rw [objectOf, mapM_none h rfl]
  rfl

end Verdict

namespace ResponseTree

/-- Whether a slot may be null. -/
def mayBeNull (t : ResponseTree) (id : Nat) : Bool :=
  ((t.get? id).map Slot.nullable).getD true

structure Valued (t : ResponseTree) (v : Nat → Option Json) : Prop where
  leaf : ∀ {id : Nat} {slot json}, t.get? id = some slot → slot.content = .leaf json →
    v id = some json
  null : ∀ {id : Nat} {slot}, t.get? id = some slot → slot.content = .null → v id = none
  list : ∀ {id : Nat} {slot items}, t.get? id = some slot → slot.content = .list items →
    v id = Verdict.arrayOf (items.map fun child => (t.mayBeNull child, v child))
  object : ∀ {id : Nat} {slot fields}, t.get? id = some slot → slot.content = .object fields →
    v id = Verdict.objectOf (fields.map fun f => (f.1, t.mayBeNull f.2, v f.2))

variable {t : ResponseTree} {v v' : Nat → Option Json} {id : Nat} {slot : Slot}

theorem mayBeNull_eq (h : t.get? id = some slot) : t.mayBeNull id = slot.nullable := by
  rw [mayBeNull, h]
  rfl

theorem mayBeNull_setNull (t : ResponseTree) (id j : Nat) :
    (t.setNull id).mayBeNull j = t.mayBeNull j := by
  rw [mayBeNull, mayBeNull, get?_setNull]
  split
  · cases t.get? j <;> rfl
  · rfl

namespace Valued

theorem of_parent (h : Valued t v) (wf : t.WellFormed) (hs : t.get? id = some slot)
    (hn : slot.nullable = false) {parent : Nat} (hp : slot.parent = some parent)
    (hl : t.isLive parent = true) (hv : v id = none) : v parent = none := by
  obtain ⟨p, hps, hc⟩ := wf.child_of_parent hs hp
  have hlive := ((isLive_eq wf hps).1 hl).1
  have hin := hc.resolve_left hlive
  have hflag : t.mayBeNull id = false := (mayBeNull_eq hs).trans hn
  cases hcontent : p.content with
  | list items =>
    rw [hcontent] at hin
    rw [h.list hps hcontent]
    refine Verdict.arrayOf_none (List.mem_map.2 ⟨id, hin, ?_⟩)
    rw [hflag, hv]
  | object fields =>
    rw [hcontent] at hin
    obtain ⟨f, hf, he⟩ := List.mem_map.1 hin
    rw [h.object hps hcontent]
    refine Verdict.objectOf_none f.1 (List.mem_map.2 ⟨f, hf, ?_⟩)
    rw [he, hflag, hv]
  | _ =>
    rw [hcontent] at hin
    cases hin

/-- A slot without data leaves the one that becomes null for it without data, too. -/
theorem nulled (h : Valued t v) (wf : t.WellFormed) (hs : t.get? id = some slot)
    (hl : t.isLive id = true) (hv : v id = none) : v (t.nulled id) = none := by
  refine nulled_induction wf (motive := fun id => t.isLive id = true → v id = none →
    v (t.nulled id) = none) ?_ ?_ hs hl hv
  · intro id slot _ _ he _ hv
    rw [he]
    exact hv
  · intro id parent slot hs hn hp he ih hl hv
    have hlp := ((isLive_eq wf hs).1 hl).2 parent hp
    rw [he]
    exact ih hlp (h.of_parent wf hs hn hp hlp hv)

theorem setNull (h : Valued t v) (wf : t.WellFormed) (hs : t.get? id = some slot)
    (hl : t.isLive id = true) (hv : v id = none) : Valued (t.setNull id) v := by
  have hold : ∀ {j : Nat} {s : Slot}, (t.setNull id).get? j = some s →
      (j = t.nulled id ∧ s.content = .null) ∨ t.get? j = some s := by
    intro j s hj
    rw [get?_setNull] at hj
    split at hj
    · next he =>
      obtain ⟨s', -, rfl⟩ := Option.map_eq_some_iff.1 hj
      exact .inl ⟨he, rfl⟩
    · exact .inr hj
  constructor
  · intro j s json hj hc
    obtain ⟨-, hn⟩ | hj := hold hj
    · rw [hn] at hc
      cases hc
    · exact h.leaf hj hc
  · intro j s hj hc
    obtain ⟨rfl, -⟩ | hj := hold hj
    · exact h.nulled wf hs hl hv
    · exact h.null hj hc
  · intro j s items hj hc
    obtain ⟨-, hn⟩ | hj := hold hj
    · rw [hn] at hc
      cases hc
    · simp only [mayBeNull_setNull]
      exact h.list hj hc
  · intro j s fields hj hc
    obtain ⟨-, hn⟩ | hj := hold hj
    · rw [hn] at hc
      cases hc
    · simp only [mayBeNull_setNull]
      exact h.object hj hc

theorem mayBeNull_grow (hs : t.get? id = some slot) (flags : List Bool) (content : Content) {j : Nat}
    {s : Slot} (hj : t.get? j = some s) : (t.grow id flags content).mayBeNull j = t.mayBeNull j := by
  by_cases he : j = id
  · subst he
    rw [mayBeNull_eq hj, mayBeNull_eq (get?_grow_self hj flags content)]
  · rw [mayBeNull, mayBeNull, get?_grow_old he (lt_size hj)]

theorem mayBeNull_grow_new (hs : t.get? id = some slot) (content : Content) {flags : List Bool}
    {k : Nat} {nullable : Bool} (hk : flags[k]? = some nullable) :
    (t.grow id flags content).mayBeNull (t.slots.size + k) = nullable :=
  mayBeNull_eq (get?_grow_new hs hk)

theorem grow (h : Valued t v) (wf : t.WellFormed) (hs : t.get? id = some slot) {flags : List Bool}
    {content : Content} (hold : ∀ {j : Nat} {s}, t.get? j = some s → v' j = v j)
    (hleaf : ∀ json, content = .leaf json → v' id = some json) (hnull : content ≠ .null)
    (hlist : ∀ items, content = .list items → v' id =
      Verdict.arrayOf (items.map fun child => ((t.grow id flags content).mayBeNull child, v' child)))
    (hobject : ∀ fields, content = .object fields → v' id = Verdict.objectOf
      (fields.map fun f => (f.1, (t.grow id flags content).mayBeNull f.2, v' f.2))) :
    Valued (t.grow id flags content) v' := by
  constructor
  · intro j s json hj hc
    obtain ⟨rfl, rfl⟩ | ⟨-, hj⟩ | ⟨k, nullable, -, -, rfl⟩ := get?_grow_cases hs hj
    · exact hleaf json hc
    · rw [hold hj]
      exact h.leaf hj hc
    · cases hc
  · intro j s hj hc
    obtain ⟨rfl, rfl⟩ | ⟨-, hj⟩ | ⟨k, nullable, -, -, rfl⟩ := get?_grow_cases hs hj
    · exact absurd hc hnull
    · rw [hold hj]
      exact h.null hj hc
    · cases hc
  · intro j s items hj hc
    obtain ⟨rfl, rfl⟩ | ⟨-, hj⟩ | ⟨k, nullable, -, -, rfl⟩ := get?_grow_cases hs hj
    · exact hlist items hc
    · rw [hold hj, h.list hj hc]
      refine congrArg Verdict.arrayOf (List.map_congr_left fun child hm => ?_)
      obtain ⟨c, hc, -⟩ := wf.parent_of_child hj (show child ∈ s.content.children by rw [hc]; exact hm)
      rw [mayBeNull_grow hs flags content hc, hold hc]
    · cases hc
  · intro j s fields hj hc
    obtain ⟨rfl, rfl⟩ | ⟨-, hj⟩ | ⟨k, nullable, -, -, rfl⟩ := get?_grow_cases hs hj
    · exact hobject fields hc
    · rw [hold hj, h.object hj hc]
      refine congrArg Verdict.objectOf (List.map_congr_left fun f hm => ?_)
      obtain ⟨c, hc, -⟩ := wf.parent_of_child hj
        (show f.2 ∈ s.content.children by rw [hc]; exact List.mem_map_of_mem hm)
      rw [mayBeNull_grow hs flags content hc, hold hc]
    · cases hc

/-- Once no slot is pending that is live, a valuation gives the data. -/
theorem placed_eq (h : Valued t v) (wf : t.WellFormed)
    (hdone : ∀ {id : Nat} {slot}, t.get? id = some slot → slot.content = .pending →
      t.isLive id = false) (n : Nat) : ∀ {id : Nat} {slot : Slot}, t.slots.size ≤ id + n →
      t.get? id = some slot → (∀ parent, slot.parent = some parent → t.isLive parent = true) →
      Verdict.placed slot.nullable (v id) = some (t.jsonOf id) := by
  induction n with
  | zero =>
    intro id slot hle hs
    have := lt_size hs
    omega
  | succ n ih =>
    intro id slot hle hs hparent
    have hlive : slot.content ≠ .null → t.isLive id = true := fun hc =>
      (isLive_eq wf hs).2 ⟨hc, hparent⟩
    have hbelow : slot.content ≠ .null → ∀ child ∈ slot.content.children,
        Verdict.placed (t.mayBeNull child) (v child) = some (t.jsonOf child) := by
      intro hne child hm
      obtain ⟨c, hc, hpar⟩ := wf.parent_of_child hs hm
      have := wf.lt_of_child hs hm
      rw [mayBeNull_eq hc]
      refine ih (by omega) hc fun parent hp => ?_
      rw [hpar] at hp
      cases hp
      exact hlive hne
    rw [jsonOf_eq wf hs]
    cases hc : slot.content with
    | pending =>
      have := hlive (by rw [hc]; exact nofun)
      rw [hdone hs hc] at this
      cases this
    | null =>
      rw [h.null hs hc, wf.null hs hc]
      rfl
    | leaf json =>
      rw [h.leaf hs hc]
      rfl
    | list items =>
      rw [hc] at hbelow
      have hitems : ∀ child ∈ items, Verdict.placed (t.mayBeNull child) (v child) =
        some (t.jsonOf child) := hbelow nofun
      rw [h.list hs hc, Verdict.arrayOf_some hitems]
      rfl
    | object fields =>
      rw [hc] at hbelow
      rw [h.object hs hc, Verdict.objectOf_some fun f hf =>
        hbelow nofun f.2 (List.mem_map_of_mem hf)]
      rfl

theorem toJson_eq (h : Valued t v) (wf : t.WellFormed)
    (hdone : ∀ {id : Nat} {slot}, t.get? id = some slot → slot.content = .pending →
      t.isLive id = false) : t.toJson = (v root).getD .null := by
  obtain ⟨content, hr⟩ := wf.root
  have := h.placed_eq wf hdone t.slots.size (Nat.le_add_left ..) hr nofun
  rw [ResponseTree.toJson_eq]
  cases hv : v root with
  | none =>
    rw [hv] at this
    exact (Option.some.inj this).symm
  | some value =>
    rw [hv] at this
    exact (Option.some.inj this).symm

end Valued

end ResponseTree

end GraphQL
