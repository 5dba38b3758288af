import TensorCompiler.Operator.Evaluate
import TensorCompiler.Proofs.Shapes
/-!
# Evaluation element by element

An evaluation walks the output and reads the inputs at coordinates computed from its own. This
module says what a successful evaluation is, one element at a time, and what it depends on.

* `gather_ok_iff`: every element of a gathered array is read at its source index.
* `combine_ok_iff`: every element of a combination is computed from the elements at its position.
* `evaluate_pointwise_ok_iff`: the evaluation of a pointwise operator.
-/

namespace TensorCompiler

theorem option_mapM_iff {β γ : Type} {f : β → Option γ} {xs : List β} {ys : List γ} :
    xs.mapM f = some ys ↔ List.Forall₂ (fun x y => f x = some y) xs ys := by
  induction xs generalizing ys with
  | nil => simp [eq_comm]
  | cons x xs ih =>
    simp only [List.mapM_cons, bind, Option.bind_eq_some_iff, ih]
    constructor
    · rintro ⟨y, hy, ys', hys, e⟩
      cases e
      exact .cons hy hys
    · rintro (_ | ⟨hy, hys⟩)
      exact ⟨_, hy, _, hys, rfl⟩

theorem array_mapM_ok_iff {ε β γ : Type} {f : β → Except ε γ} {xs : Array β} {ys : Array γ} :
    xs.mapM f = .ok ys ↔ xs.toList.mapM f = .ok ys.toList := by
  rw [Array.mapM_eq_mapM_toList]
  cases xs.toList.mapM f with
  | error e => simp [Functor.map, Except.map]
  | ok zs =>
    show (Except.ok zs.toArray = Except.ok ys) ↔ _
    rw [Except.ok.injEq, Except.ok.injEq]
    constructor
    · rintro rfl
      rfl
    · rintro rfl
      rfl

/-- An array made by a function of the positions. -/
theorem range_mapM_ok_iff {ε γ : Type} {f : Nat → Except ε γ} {n : Nat} {r : Array γ} :
    (Array.range n).mapM f = .ok r ↔
      r.size = n ∧ ∀ i < n, ∃ y, f i = .ok y ∧ r[i]? = some y := by
  rw [array_mapM_ok_iff, mapM_ok_iff, List.forall₂_iff_get]
  simp only [Array.toList_range, List.length_range, Array.length_toList]
  constructor
  · rintro ⟨hlen, h⟩
    refine ⟨hlen.symm, fun i hi => ?_⟩
    have hr : i < r.size := hlen ▸ hi
    have := h i hi hr
    exact ⟨r[i], by simpa using this, Array.getElem?_eq_getElem hr⟩
  · rintro ⟨hlen, h⟩
    refine ⟨hlen.symm, fun i hi hr => ?_⟩
    obtain ⟨y, hy, hri⟩ := h i hi
    rw [Array.getElem?_eq_getElem hr, Option.some.injEq] at hri
    simpa [hri] using hy

/-- The axes of an input as an output coordinate is sent to them. -/
def sourceAxes (axes : List Axis) (sizes strides : List Nat) : List SourceAxis :=
  (axes.zipIdx.zip (sizes.zip strides)).map
    fun ((axis, position), size, stride) => SourceAxis.mk axis position size stride

/-- The part that one output axis has in the source index. -/
def sourceStep (map : CoordinateMap) (sources : List SourceAxis) (index : Nat)
    (e : Axis × Nat × Nat) : Option Nat :=
  match sources.find? (·.axis = e.1) with
  | none => some index
  | some s => do
    let c ← map s e.2.1 e.2.2
    Arith.add.apply index (← Arith.mul.apply c s.stride)

theorem sourceIndex_eq (map : CoordinateMap) (sources : List SourceAxis)
    (walk : List (Axis × Nat × Nat)) :
    sourceIndex map sources walk = walk.foldlM (sourceStep map sources) 0 := rfl

/-- The axes of an output with the coordinates of one of its elements. -/
def walkOf (axes : List Axis) (shape : List Nat) (i : Nat) : List (Axis × Nat × Nat) :=
  axes.zip ((unravel shape i).zip shape)

variable {α : Type}

theorem gather_ok_iff {map : CoordinateMap} {shape : List Nat} {order : Order} {type : TensorType}
    {data r : Array α} : gather map shape order (type, data) = .ok r ↔
      ∃ sizes strides, type.shape = sizes.map .known ∧ data.size = sizes.prod ∧
        wordStrides sizes = some strides ∧ r.size = shape.prod ∧
        ∀ i < shape.prod, ∃ index y,
          sourceIndex map (sourceAxes type.order.axes sizes strides)
            (walkOf order.axes shape i) = some index ∧ data[index]? = some y ∧ r[i]? = some y := by
  simp only [gather, bind_ok_iff, concreteShape_ok_iff, guard_ok_iff, foldl_mul_eq_prod]
  refine exists_congr fun sizes => ?_
  cases hs : wordStrides sizes with
  | none => simp [throw_ok_iff]
  | some strides =>
    simp only [Decidable.not_not, ne_eq, range_mapM_ok_iff, Option.some.injEq]
    constructor
    · rintro ⟨hsizes, hdata, hr, h⟩
      refine ⟨strides, hsizes, hdata, rfl, hr, fun i hi => ?_⟩
      obtain ⟨y, hy, hri⟩ := h i hi
      split at hy
      · cases hy
      · next index hindex =>
        split at hy
        · next hx =>
          cases hy
          exact ⟨index, y, hindex, hx, hri⟩
        · cases hy
    · rintro ⟨_, hsizes, hdata, rfl, hr, h⟩
      refine ⟨hsizes, hdata, hr, fun i hi => ?_⟩
      obtain ⟨index, y, hindex, hy, hri⟩ := h i hi
      refine ⟨y, ?_, hri⟩
      unfold sourceAxes walkOf at hindex
      rw [hindex]
      simp only [hy]

variable [Scalar α]

theorem combine_ok_iff {f : Pointwise α} {n : Nat} {columns : List (Array α)} {r : Array α} :
    f.combine n columns = .ok r ↔ r.size = n ∧ ∀ i < n, ∃ xs y,
      List.Forall₂ (fun column x => column[i]? = some x) columns xs ∧ f.eval? xs = some y ∧
        r[i]? = some y := by
  unfold Pointwise.combine
  rw [range_mapM_ok_iff]
  refine and_congr_right fun _ => forall_congr' fun i => imp_congr_right fun _ => ?_
  constructor
  · rintro ⟨y, hy, hr⟩
    split at hy
    · next z hz =>
      cases hy
      obtain ⟨xs, hxs, hz⟩ := Option.bind_eq_some_iff.1 hz
      exact ⟨xs, y, option_mapM_iff.1 hxs, hz, hr⟩
    · cases hy
  · rintro ⟨xs, y, hxs, hy, hr⟩
    refine ⟨y, ?_, hr⟩
    rw [option_mapM_iff.2 hxs, Option.bind_some, hy]

theorem evaluate_pointwise_ok_iff {f : Pointwise α} {inputs : List (TensorType × Array α)}
    {output : TensorType} {r : Array α} :
    (Operator.pointwise f).evaluate inputs output = .ok r ↔ ∃ shape columns,
      output.shape = shape.map .known ∧
      List.Forall₂ (fun x c => gather .wrap shape output.order x = .ok c) inputs columns ∧
      f.combine shape.prod columns = .ok r := by
  simp only [Operator.evaluate, bind_ok_iff, concreteShape_ok_iff, mapM_ok_iff, foldl_mul_eq_prod]
  constructor
  · rintro ⟨shape, hs, columns, hc, h⟩
    exact ⟨shape, columns, hs, hc, h⟩
  · rintro ⟨shape, columns, hs, hc, h⟩
    exact ⟨shape, hs, columns, hc, h⟩

end TensorCompiler
