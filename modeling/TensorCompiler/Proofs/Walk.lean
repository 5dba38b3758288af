import Mathlib.Data.List.Induction
import TensorCompiler.Proofs.Coordinates
import TensorCompiler.Proofs.Execution
/-!
# The loop over the axes

The loop of a kernel takes the coordinates of a position apart, from the innermost axis outwards,
and adds up what each of them contributes to an index. These are the coordinates that the
interpreter computes, so the two arrive at the same index as soon as they agree on each axis.

* `position`: the row-major position of coordinates; `position_lt`, `position_unravel`.
* `axisWalk_iff`: the loop adds up one part for each coordinate.
* `axisWalk_pad`: axes of extent one that fill a table up contribute nothing.
-/

namespace TensorCompiler

/-! ## Coordinates of a position -/

/-- The row-major position of the element with these coordinates. -/
def position (coordinates sizes : List Nat) : Nat :=
  (List.zipWith (· * ·) coordinates (strideList sizes)).sum

theorem length_unravel (sizes : List Nat) (i : Nat) : (unravel sizes i).length = sizes.length := by
  induction sizes with
  | nil => rfl
  | cons n sizes ih => simp [unravel, ih]

theorem unravel_cons (n : Nat) (sizes : List Nat) (i : Nat) :
    unravel (n :: sizes) i = i / sizes.prod % n :: unravel sizes i := by
  rw [unravel, foldr_mul_eq_prod]

theorem unravel_concat (sizes : List Nat) (n i : Nat) :
    unravel (sizes ++ [n]) i = unravel sizes (i / n) ++ [i % n] := by
  induction sizes with
  | nil => simp [unravel]
  | cons m sizes ih =>
    rw [List.cons_append, unravel_cons, unravel_cons, ih, List.prod_append, List.prod_singleton,
      Nat.mul_comm, Nat.div_div_eq_div_mul]
    rfl

/-- Axes of extent one have the coordinate zero. -/
theorem unravel_ones (sizes : List Nat) (m i : Nat) :
    unravel (sizes ++ List.replicate m 1) i = unravel sizes i ++ List.replicate m 0 := by
  induction m with
  | zero => simp
  | succ m ih =>
    rw [List.replicate_succ', ← List.append_assoc, unravel_concat, Nat.div_one, ih, Nat.mod_one,
      List.replicate_succ', List.append_assoc]

theorem unravel_lt {sizes : List Nat} (hpos : ∀ n ∈ sizes, 0 < n) (i : Nat) :
    List.Forall₂ (· < ·) (unravel sizes i) sizes := by
  induction sizes with
  | nil => exact .nil
  | cons n sizes ih =>
    obtain ⟨hn, hpos⟩ := List.forall_mem_cons.1 hpos
    exact .cons (Nat.mod_lt _ hn) (ih hpos)

theorem pos_of_lt_prod {sizes : List Nat} {i : Nat} (hi : i < sizes.prod) : ∀ n ∈ sizes, 0 < n :=
  List.prod_pos_iff_forall_pos_nat.1 (Nat.zero_lt_of_lt hi)

theorem position_cons (c n : Nat) (cs sizes : List Nat) :
    position (c :: cs) (n :: sizes) = c * sizes.prod + position cs sizes := rfl

theorem position_lt {cs sizes : List Nat} (h : List.Forall₂ (· < ·) cs sizes) :
    position cs sizes < sizes.prod := by
  induction h with
  | nil => exact Nat.one_pos
  | @cons c n cs sizes hc _ ih =>
    rw [position_cons, List.prod_cons]
    calc c * sizes.prod + position cs sizes < c * sizes.prod + sizes.prod := by omega
      _ = (c + 1) * sizes.prod := by rw [Nat.add_mul, Nat.one_mul]
      _ ≤ n * sizes.prod := Nat.mul_le_mul_right _ hc

theorem position_unravel (sizes : List Nat) (i : Nat) :
    position (unravel sizes i) sizes = i % sizes.prod := by
  induction sizes with
  | nil => simp [position, unravel, Nat.mod_one]
  | cons n sizes ih =>
    rw [unravel_cons, position_cons, ih, List.prod_cons, Nat.mul_comm n, Nat.mod_mul, Nat.mul_comm,
      Nat.add_comm]

/-! ## The loop -/

section

variable {part part' : Nat → Nat → Option Nat} {shape shape' : List Nat} {i index k : Nat}

/-- The loop reads the tables only at the axes that it walks. -/
theorem axisWalk_congr {axes : Nat} (hshape : ∀ d < axes, shape'[d]? = shape[d]?)
    (hpart : ∀ d < axes, ∀ c, part' d c = part d c) :
    axisWalk shape' part' axes i index = axisWalk shape part axes i index := by
  induction axes generalizing i index with
  | zero => rfl
  | succ d ih =>
    unfold axisWalk
    rw [hshape d (Nat.lt_succ_self d)]
    refine bind_congr fun n => ?_
    split
    · rfl
    · rw [hpart d (Nat.lt_succ_self d)]
      exact bind_congr fun p => ih (fun e he => hshape e (Nat.lt_succ_of_lt he))
        fun e he => hpart e (Nat.lt_succ_of_lt he)

/-- One round of the loop, at the innermost axis. -/
theorem axisWalk_concat (n : Nat) : axisWalk (shape ++ [n]) part (shape.length + 1) i index =
    if n = 0 then none
    else (part shape.length (i % n)).bind fun p =>
      axisWalk shape part shape.length (i / n) (index + p) := by
  have hrest : ∀ j index, axisWalk (shape ++ [n]) part shape.length j index =
      axisWalk shape part shape.length j index := fun j index =>
    axisWalk_congr (fun d hd => List.getElem?_append_left hd) fun _ _ _ => rfl
  rw [axisWalk, List.getElem?_concat_length]
  simp only [hrest]
  rfl

/-- The loop adds up what the coordinates of the position contribute. -/
theorem axisWalk_iff (hpos : ∀ n ∈ shape, 0 < n) :
    axisWalk shape part shape.length i index = some k ↔ ∃ parts : List Nat,
      List.Forall₂ (fun e p => part e.2 e.1 = some p) (unravel shape i).zipIdx parts ∧
        index + parts.sum = k := by
  induction shape using List.reverseRecOn generalizing i index with
  | nil => simp [axisWalk, unravel]
  | append_singleton shape n ih =>
    have hn : n ≠ 0 := Nat.pos_iff_ne_zero.1 (hpos n (by simp))
    have hzip : (unravel (shape ++ [n]) i).zipIdx =
        (unravel shape (i / n)).zipIdx ++ [(i % n, shape.length)] := by
      rw [unravel_concat, List.zipIdx_append, length_unravel]
      simp
    rw [List.length_append, List.length_singleton, axisWalk_concat, if_neg hn, hzip]
    simp only [Option.bind_eq_some_iff, ih fun m hm => hpos m (List.mem_append_left _ hm)]
    constructor
    · rintro ⟨p, hp, parts, hparts, hsum⟩
      refine ⟨parts ++ [p], List.rel_append hparts (.cons hp .nil), ?_⟩
      rw [List.sum_append, List.sum_singleton]
      omega
    · rintro ⟨parts, hparts, hsum⟩
      obtain ⟨init, last, rfl, hinit, hlast⟩ := forall₂_append_left hparts
      obtain ⟨p, rest, hp, hrest, rfl⟩ := List.forall₂_cons_left_iff.1 hlast
      cases hrest
      rw [List.sum_append, List.sum_singleton] at hsum
      exact ⟨p, hp, init, hinit, by omega⟩

/-- Axes of extent one that fill the table up contribute nothing. -/
theorem axisWalk_pad (m : Nat) (hpart : ∀ d, shape.length ≤ d → d < shape.length + m →
    part d 0 = some 0) : axisWalk (shape ++ List.replicate m 1) part (shape.length + m) i index =
      axisWalk shape part shape.length i index := by
  induction m generalizing i index with
  | zero => simp
  | succ m ih =>
    have hlen : (shape ++ List.replicate m 1).length = shape.length + m := by simp
    have hlast := hpart (shape.length + m) (Nat.le_add_right _ _) (by omega)
    rw [List.replicate_succ', ← List.append_assoc, ← Nat.add_assoc, ← hlen, axisWalk_concat, hlen,
      Nat.mod_one, Nat.div_one, hlast]
    exact ih fun d hd hd' => hpart d hd (by omega)

end

end TensorCompiler
