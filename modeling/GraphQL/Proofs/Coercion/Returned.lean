import GraphQL.Proofs.Number.Integral

/-!
# Arguments that are given back

A resolver that gives an argument of a built-in scalar back gives the value that was coerced, and
reads an `Int` as an integer (`Scalar.Returns`). The one exception is an `Int` that is given as a
double without a fractional part: input keeps the double, output makes an integer of it.
-/

namespace GraphQL

namespace Number

theorem isInt64_of_int32 {i : Int} (hlow : -0x80000000 ≤ i) (hhigh : i < 0x80000000) :
    isInt64 i = true := by
  unfold isInt64
  rw [Bool.and_eq_true, decide_eq_true_iff, decide_eq_true_iff]
  omega

/-- A number of 32 bits that is kept as an integer is that integer. -/
theorem eq_of_toInt32?_int {n i : Int} (h : (int n).toInt32? = some i) :
    n = i ∧ -0x80000000 ≤ i ∧ i < 0x80000000 := by
  obtain ⟨hn, hrange⟩ := toInt32?_eq_some_iff.1 h
  exact ⟨Int.cast_injective hn, hrange⟩

end Number

namespace Scalar

variable {s : Scalar} {given value : Const}

/-- An argument that is given back is the output, and one of type `Int` is an integer of 32 bits. -/
structure Returns (s : Scalar) (value : Const) : Prop where
  same : s.serialize? value.toJson = some value.toJson
  integer : s = .int → ∃ i, value.toInt64? = some i ∧ -0x80000000 ≤ i ∧ i < 0x80000000

/-- What input accepts as an `Int`, it keeps as it is. -/
theorem parse?_int (h : parse? .int given = some value) :
    ∃ n i, given = .number n ∧ value = .number n ∧ n.toInt32? = some i := by
  cases given with
  | number n =>
    obtain ⟨i, hi, rfl⟩ := Option.map_eq_some_iff.1 h
    exact ⟨n, i, rfl, rfl, hi⟩
  | _ => cases h

theorem serialize?_int {n : Number} {i : Int} (h : n.toInt32? = some i) :
    serialize? .int (.number n) = some (.ofInt i) := by
  rw [serialize?, h, Option.map_some]

/-- The other scalars give back whatever they accept. -/
theorem serialize?_of_ne_int (hs : s ≠ .int) (h : s.parse? given = some value) :
    s.serialize? value.toJson = some value.toJson := by
  unfold parse? at h
  split at h
  · exact absurd rfl hs
  · cases h
    rfl
  · cases h
    rfl
  · cases h
    rfl
  · cases h
    rfl
  · split at h
    · cases h
      rfl
    · cases h
  · cases h

theorem returns_integer {n i : Int} (h : (Number.int n).toInt32? = some i) :
    Returns .int (.number (.int n)) := by
  obtain ⟨rfl, hlow, hhigh⟩ := Number.eq_of_toInt32?_int h
  exact ⟨serialize?_int h, fun _ => ⟨n, if_pos (Number.isInt64_of_int32 hlow hhigh), hlow, hhigh⟩⟩

theorem not_returns_double (x : Binary64) : ¬ Returns .int (.number (.double x)) := by
  intro h
  obtain ⟨i, hi, -⟩ := h.integer rfl
  cases hi

/-- Whatever a built-in scalar accepts is given back, unless it is an `Int` that was given as a
double: it stays one, does not read as an integer, and comes out as the integer that it denotes. -/
theorem returns_iff (h : s.parse? given = some value) :
    (s.Returns value ↔ ¬ (s = .int ∧ ∃ x, given = .number (.double x))) ∧
    ∀ x, s = .int → given = .number (.double x) →
      value = given ∧ value.toInt64? = none ∧
        ∃ i : Int, x.toRat = i ∧ -0x80000000 ≤ i ∧ i < 0x80000000 ∧
          s.serialize? value.toJson = some (.ofInt i) := by
  by_cases hs : s = .int
  · subst hs
    obtain ⟨n, i, rfl, rfl, hi⟩ := parse?_int h
    cases n with
    | int n =>
      refine ⟨⟨fun _ => ?_, fun _ => returns_integer hi⟩, fun x _ hx => by cases hx⟩
      rintro ⟨-, x, hx⟩
      cases hx
    | double x =>
      refine ⟨⟨fun hr => absurd hr (not_returns_double x), fun hn => absurd ⟨rfl, x, rfl⟩ hn⟩, ?_⟩
      rintro _ - ⟨⟩
      obtain ⟨hrat, hlow, hhigh⟩ := Number.toInt32?_eq_some_iff.1 hi
      exact ⟨rfl, rfl, i, hrat, hlow, hhigh, serialize?_int hi⟩
  · refine ⟨⟨fun _ hn => hs hn.1, fun _ => ?_⟩, fun x hint => absurd hint hs⟩
    exact ⟨serialize?_of_ne_int hs h, fun hint => absurd hint hs⟩

/-- The double `3.0`. -/
def three : Binary64 :=
  ⟨false, 0x18000000000000, -51, by decide⟩

theorem returns_iff_three :
    parse? .int (.number (.double three)) = some (.number (.double three)) ∧
      ¬ Returns .int (.number (.double three)) ∧
      serialize? .int (Const.toJson (.number (.double three))) = some (.ofInt 3) := by
  have h : parse? .int (.number (.double three)) = some (.number (.double three)) := rfl
  obtain ⟨hiff, hdouble⟩ := returns_iff h
  exact ⟨h, fun hr => hiff.1 hr ⟨rfl, three, rfl⟩, rfl⟩

/-- Not everything that is accepted is given back. -/
theorem parse?_not_returned :
    ¬ ∀ s given value, parse? s given = some value → Returns s value := by
  intro h
  have hreturns := h .int (.number (.double three)) (.number (.double three)) rfl
  obtain ⟨i, hi, -⟩ := hreturns.integer rfl
  cases hi

end Scalar

end GraphQL
