import TensorCompiler.Proofs.Iteration
import TensorCompiler.Proofs.Movement
/-!
# Kernels that compute element by element

The loop of a pointwise kernel walks the axes of the output, and every operand has a stride along
each of them: its own one, or zero where the operand is broadcast. However the dimensions are read
as numbers, the loop arrives at the element that a broadcast read takes.

* `TensorType.BroadcastsAt`: the operand can be read at the coordinates of the output.
* `strideAlong_reads`: what one axis of the output adds to the index of an operand.
* `axisWalk_broadcast`: the loop over the strides arrives at the offset of the coordinates.
-/

namespace TensorCompiler

open Dim

/-- Every axis of the first type is one of the second, of the same size unless it has size one. -/
def TensorType.BroadcastsAt (val : Dim → Option Nat) (x y : TensorType) : Prop :=
  ∀ e ∈ x.dims, ∃ d, (e.1, d) ∈ y.dims ∧ (val d = val e.2 ∨ e.2.is 1 = true)

section

variable {val : Dim → Option Nat} {x y : TensorType} {xs ys : List Nat}

theorem TensorType.Broadcasts.at_known (h : x.Broadcasts y) : x.BroadcastsAt Dim.known? y := by
  intro e he
  obtain ⟨d, hd, hde⟩ := h e he
  exact ⟨d, hd, hde.imp_left fun hde => (Dim.beq_iff.1 hde).1⟩

/-- Dimensions that are compared as equal have the same name, and so the same value. -/
theorem TensorType.Broadcasts.at_named {σ : Names} {m n : Nat} (h : x.Broadcasts y)
    (hx : x.Named σ m) (hy : y.Named σ n) (val : Dim → Option Nat) : x.BroadcastsAt val y := by
  intro e he
  obtain ⟨d, hd, hde⟩ := h e he
  refine ⟨d, hd, hde.imp_left fun hde => ?_⟩
  rw [eq_of_same (hy d (mem_dims_shape hd)) (hx e.2 (mem_dims_shape he)) hde]

theorem TensorType.broadcastsAt_self (val : Dim → Option Nat) (x : TensorType) :
    x.BroadcastsAt val x := fun e he => ⟨e.2, he, .inl rfl⟩

/-- Axes with their dimensions, and with the numbers of these. -/
theorem mem_zip_of_readAs (hx : ReadAs val x.shape xs) {a : Axis} {n : Nat} :
    (a, n) ∈ x.order.axes.zip xs ↔ ∃ d, (a, d) ∈ x.dims ∧ val d = some n := by
  constructor
  · intro h
    obtain ⟨i, hi⟩ := List.mem_iff_getElem?.1 h
    obtain ⟨ha, hn⟩ := List.getElem?_zip_eq_some.1 hi
    have hlt : i < x.shape.length := hx.length_eq ▸ (List.getElem?_eq_some_iff.1 hn).1
    have hd := List.getElem?_eq_getElem hlt
    exact ⟨_, List.mem_of_getElem? (List.getElem?_zip_eq_some.2 ⟨ha, hd⟩), forall₂_getElem? hx hd hn⟩
  · rintro ⟨d, hd, hn⟩
    obtain ⟨m, hm, hread⟩ := Operator.exists_zip_of_forall₂ hx hd
    cases hn.symm.trans hread
    exact hm

theorem TensorType.BroadcastsAt.stretches (hval : Dim.Reads val) (h : x.BroadcastsAt val y)
    (hx : ReadAs val x.shape xs) (hy : ReadAs val y.shape ys) :
    Stretches x.order.axes xs y.order.axes ys := by
  intro a n hn
  obtain ⟨size, hsize, hread⟩ := (mem_zip_of_readAs hx).1 hn
  obtain ⟨d, hd, hde⟩ := h _ hsize
  obtain ⟨m, hm, hread'⟩ := Operator.exists_zip_of_forall₂ hy hd
  refine ⟨m, hm, ?_⟩
  rcases hde with hde | hone
  · rw [hread, hread'] at hde
    exact .inl (Option.some.inj hde).symm
  · rw [show size = .known 1 from Operator.is_iff.1 hone, hval.known] at hread
    exact .inr (Option.some.inj hread).symm

end

/-! ## Strides -/

theorem indexOf?_of_getElem? {o : Order} {a : Axis} {i : Nat} (h : o.axes[i]? = some a) :
    o.indexOf? a = some i := by
  obtain ⟨hi, rfl⟩ := List.getElem?_eq_some_iff.1 h
  refine List.findIdx?_eq_some_iff_getElem.2 ⟨hi, by simp, fun j hj => ?_⟩
  have hne : o.axes[j] ≠ o.axes[i] := by
    rw [Ne, o.nodup.getElem_inj_iff]
    omega
  simpa using hne

section

variable {val : Dim → Option Nat} {x y : TensorType} {xs ys strides : List Nat} {ds : List Dim}
  {s s' : Supply}

/-- An axis that an operand does not have adds nothing to its index. -/
theorem wrapPart_of_absent {a : Axis} {strides : List Nat} (h : x.dimOf? a = none) (c m : Nat) :
    wrapPart (sourceAxes x.order.axes xs strides) (a, c, m) = 0 := by
  have hnone : (sourceAxes x.order.axes xs strides).find? (·.axis = a) = none := by
    rw [List.find?_eq_none]
    intro source hsource heq
    obtain ⟨size, hsize⟩ := Operator.exists_dim_of_axis (axis_of_mem_sourcesFrom hsource)
    rw [decide_eq_true_eq] at heq
    simpa [heq] using List.lookup_eq_none_iff.1 h _ hsize
  rw [wrapPart, hnone]

/-- The stride along an axis of an operand is the one of its numbers. -/
theorem strideOf?_reads (hval : Dim.Reads val) (hx : ReadAs val x.shape xs) {a : Axis} {i k t : Nat}
    {stride : Option Dim} (ha : x.order.axes[i]? = some a) (hk : (strideList xs)[i]? = some k)
    (h : Makes (x.strideOf? a) s stride s') (ht : val (stride.getD (.known 0)) = some t) :
    t = k := by
  rw [TensorType.strideOf?, indexOf?_of_getElem? ha] at h
  obtain ⟨ds, s₂, hds, h⟩ := makes_bind_iff.1 h
  obtain ⟨rfl, -⟩ := makes_pure_iff.1 h
  have hi := length_strideList xs ▸ (List.getElem?_eq_some_iff.1 hk).1
  have hd : i < ds.length := length_stridesOf hds ▸ hx.length_eq ▸ hi
  rw [List.getElem?_eq_getElem hd, Option.getD_some] at ht
  exact Option.some.inj
    ((hval.stride_eq hx hds (List.getElem?_eq_getElem hd) ht).symm.trans hk)

/-- What a coordinate along an axis of the output adds to the index of an operand: its multiple of
the stride is the part of a broadcast read. -/
theorem strideAlong_reads (hval : Dim.Reads val) (hx : ReadAs val x.shape xs) {e : Axis × Dim}
    {d : Dim} {m t c : Nat} (hm : val e.2 = some m) (hc : c < m)
    (hfit : ∀ size, (e.1, size) ∈ x.dims → val e.2 = val size ∨ size.is 1 = true)
    (h : Makes (IterationOrder.strideAlong x e) s d s') (ht : val d = some t) :
    c * t = wrapPart (sourceAxes x.order.axes xs (strideList xs)) (e.1, c, m) := by
  unfold IterationOrder.strideAlong at h
  cases hdim : x.dimOf? e.1 with
  | none =>
    rw [hdim] at h
    obtain ⟨rfl, -⟩ := makes_pure_iff.1 h
    cases (hval.known 0).symm.trans ht
    rw [wrapPart_of_absent hdim, Nat.mul_zero]
  | some size =>
    rw [hdim] at h
    have hmem := Operator.mem_of_lookup hdim
    obtain ⟨i, hi⟩ := List.mem_iff_getElem?.1 hmem
    obtain ⟨ha, hsize⟩ := List.getElem?_zip_eq_some.1 hi
    obtain ⟨n, hn, hread⟩ : ∃ n, xs[i]? = some n ∧ val size = some n := hx.exists_number hsize
    have hi : i < (strideList xs).length :=
      length_strideList xs ▸ (List.getElem?_eq_some_iff.1 hn).1
    obtain ⟨k, hk⟩ : ∃ k, (strideList xs)[i]? = some k := ⟨_, List.getElem?_eq_getElem hi⟩
    have hpart : wrapPart (sourceAxes x.order.axes xs (strideList xs)) (e.1, c, m) =
        c % n * k := by
      rw [wrapPart, find?_sourceAxes x.order.nodup ha hn hk]
    rw [hpart]
    -- An operand of size one adds nothing, whatever its stride.
    have hone : size.is 1 = true → c % n * k = 0 := by
      intro hone
      rw [Operator.is_iff.1 hone, hval.known, Option.some.injEq] at hread
      rw [← hread, Nat.mod_one, Nat.zero_mul]
    dsimp only at h
    split at h
    · next hbroadcast =>
      obtain ⟨rfl, -⟩ := makes_pure_iff.1 h
      cases (hval.known 0).symm.trans ht
      rw [Nat.mul_zero]
      exact (hone (Bool.and_eq_true_iff.1 hbroadcast).1).symm
    · next hkept =>
      obtain ⟨stride, s₁, hof, h⟩ := makes_bind_iff.1 h
      obtain ⟨rfl, -⟩ := makes_pure_iff.1 h
      obtain rfl := strideOf?_reads hval hx ha hk hof ht
      rcases hfit size hmem with hsame | hone'
      · rw [hm, hread, Option.some.injEq] at hsame
        rw [← hsame, Nat.mod_eq_of_lt hc]
      · have hlast : e.2.is 1 = true := by simpa [hone'] using hkept
        rw [Operator.is_iff.1 hlast, hval.known, Option.some.injEq] at hm
        obtain rfl : c = 0 := by omega
        rw [hone hone', Nat.zero_mul]

/-- The loop over the strides of an operand arrives at the element of a broadcast read. -/
theorem axisWalk_broadcast (hval : Dim.Reads val) (hx : ReadAs val x.shape xs)
    (hy : ReadAs val y.shape ys) (hfit : x.BroadcastsAt val y)
    (hds : Makes (y.dims.mapM (IterationOrder.strideAlong x)) s ds s')
    (hstrides : ReadAs val ds strides) (hpos : ∀ n ∈ ys, 0 < n) (i : Nat) :
    axisWalk ys (along strides) ys.length i 0 =
      some (offset x.order.axes xs (coordinate y.order.axes ys i)) := by
  have hranky : y.order.axes.length = ys.length := y.rank_eq.symm.trans hy.length_eq
  refine (axisWalk_iff hpos).2 ⟨(walkOf y.order.axes ys i).map
    (wrapPart (sourceAxes x.order.axes xs (strideList xs))), ?_, ?_⟩
  · have hall := forall₂_of_makes_mapM hds
    have hwalk : (walkOf y.order.axes ys i).length = ys.length := by
      rw [walkOf, List.length_zip, List.length_zip, length_unravel, hranky, Nat.min_self,
        Nat.min_self]
    refine List.forall₂_iff_get.2 ⟨?_, fun d hd hd' => ?_⟩
    · rw [List.length_zipIdx, length_unravel, List.length_map, hwalk]
    rw [List.length_zipIdx, length_unravel] at hd
    obtain ⟨n, hn⟩ : ∃ n, ys[d]? = some n := ⟨_, List.getElem?_eq_getElem hd⟩
    obtain ⟨a, ha⟩ : ∃ a, y.order.axes[d]? = some a := ⟨_, List.getElem?_eq_getElem (hranky ▸ hd)⟩
    obtain ⟨size, hsize⟩ : ∃ size, y.shape[d]? = some size :=
      ⟨_, List.getElem?_eq_getElem (hy.length_eq ▸ hd)⟩
    obtain ⟨c, hc⟩ : ∃ c, (unravel ys i)[d]? = some c :=
      ⟨_, List.getElem?_eq_getElem (length_unravel ys i ▸ hd)⟩
    have hentry : y.dims[d]? = some (a, size) := List.getElem?_zip_eq_some.2 ⟨ha, hsize⟩
    obtain ⟨dim, hdim⟩ : ∃ dim, ds[d]? = some dim :=
      ⟨_, List.getElem?_eq_getElem (hall.length_eq ▸ (List.getElem?_eq_some_iff.1 hentry).1)⟩
    obtain ⟨t, ht, hread⟩ := hstrides.exists_number hdim
    obtain ⟨r, r', hmakes⟩ := forall₂_getElem? hall hentry hdim
    have hpart := strideAlong_reads hval hx (forall₂_getElem? hy hsize hn)
      (forall₂_getElem? (unravel_lt hpos i) hc hn) (fun size' hmem => by
        obtain ⟨size'', hmem', hsame⟩ := hfit _ hmem
        obtain ⟨j, hj⟩ := List.mem_iff_getElem?.1 hmem'
        obtain ⟨haj, hsj⟩ := List.getElem?_zip_eq_some.1 hj
        obtain rfl : j = d := Option.some.inj
          ((indexOf?_of_getElem? haj).symm.trans (indexOf?_of_getElem? ha))
        obtain rfl : size'' = size := Option.some.inj (hsj.symm.trans hsize)
        exact hsame) hmakes hread
    have hwalk' : (walkOf y.order.axes ys i)[d]? = some (a, c, n) := by
      simp only [walkOf, List.getElem?_zip_eq_some]
      exact ⟨ha, hc, hn⟩
    simp only [List.get_eq_getElem, List.getElem_zipIdx, List.getElem_map,
      (List.getElem?_eq_some_iff.1 hwalk').2, (List.getElem?_eq_some_iff.1 hc).2, Nat.zero_add,
      along, ht]
    exact congrArg some hpart
  · rw [Nat.zero_add]
    exact sum_wrapPart_walkOf (hfit.stretches hval hx hy) x.order.nodup y.order.nodup
      (x.rank_eq.symm.trans hx.length_eq) hranky i

end

end TensorCompiler
