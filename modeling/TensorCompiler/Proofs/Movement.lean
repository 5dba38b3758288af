import Mathlib.Algebra.BigOperators.Group.List.Lemmas
import TensorCompiler.Proofs.Broadcasting
import TensorCompiler.Proofs.Inference
import TensorCompiler.Proofs.Valuations
import TensorCompiler.Proofs.Walk
/-!
# Where data movements read

A tile, slice, resize or reinterpretation reads one input element for each output element. Along
every axis, the input coordinate is a function of the output coordinate, of the two sizes and of the
parameters. The interpreter follows that function in 64-bit words, and only along the axes that an
operator touches; a kernel follows it along all axes in the loop over its tables.

* `Operator.sourceCoordinate`, `Operator.sourceIndexOf`: the function, and the index it leads to.
* `Operator.Moves`: how the sizes of input and output are related; `moves_of_infer`.
* `Moves.sourceIndexOf_lt`: the element read is in range.
* `Moves.axisWalk_eq`: the loop of a kernel arrives at that index.
* `Moves.readIndex?_eq`, `Moves.exists_evaluate`: the interpreter reads there as well.
-/

namespace TensorCompiler

open Dim

namespace Operator

variable {α : Type}

/-- The input coordinate that belongs to the output coordinate `c`, along the axis at position `d`
with the sizes `x` of the input and `y` of the output. -/
def sourceCoordinate (op : Operator α) (d x y c : Nat) : Nat :=
  match op with
  | tile _ => c % x
  | slice start _ step => start.getD d 0 + c * step.getD d 1
  | resize .. => c * x / y
  | _ => c

/-- The input coordinates that belong to the output element at a position. -/
def sourceCoordinates (op : Operator α) (xs ys : List Nat) (i : Nat) : List Nat :=
  (List.range xs.length).map fun d =>
    op.sourceCoordinate d (xs.getD d 1) (ys.getD d 1) ((unravel ys i).getD d 0)

/-- The index in the input that belongs to a position in the output. -/
def sourceIndexOf (op : Operator α) (xs ys : List Nat) (i : Nat) : Nat :=
  position (op.sourceCoordinates xs ys i) xs

/-- How an operator that moves data changes the size along the axis at a position. -/
def MovesAt (op : Operator α) (a : Axis) (d x y : Nat) : Prop :=
  match op with
  | pointwise _ => False
  | tile m => ∃ k, m[d]? = some k ∧ y = x * k
  | slice start stop step => ∃ b e k, start[d]? = some b ∧ stop[d]? = some e ∧ step[d]? = some k ∧
      0 < k ∧ b < e ∧ e ≤ x ∧ y = (e - b + (k - 1)) / k
  | reinterpret .. => y = x
  | resize a₁ _ a₂ _ => a = a₁ ∨ a = a₂ ∨ y = x

/-- How an operator that moves data changes the sizes along the axes of its input. -/
structure Moves (op : Operator α) (axes : List Axis) (xs ys : List Nat) : Prop where
  rank : axes.length = xs.length
  length : ys.length = xs.length
  sizes : ∀ d a x y, axes[d]? = some a → xs[d]? = some x → ys[d]? = some y → op.MovesAt a d x y

/-- Along a resized axis there is an element for every output coordinate, and the words of the
interpreter hold what it multiplies to find that element. -/
def ScalesAt (op : Operator α) (a : Axis) (x y : Nat) : Prop :=
  match op with
  | resize a₁ _ a₂ _ => a = a₁ ∨ a = a₂ → 0 < x ∧ (y - 1) * x < wordLimit
  | _ => True

/-- No slice ends behind the sizes of its input. -/
def SlicesWithin (op : Operator α) (xs : List Nat) : Prop :=
  ∀ start stop step, op = slice start stop step → List.Forall₂ (· ≤ ·) stop xs

/-! ## Inference -/

end Operator

theorem eq_known_of_alike {ds : List Dim} {ns : List Nat} (h : ShapesAlike ds (ns.map known)) :
    ds = ns.map known := by
  rw [ShapesAlike, List.forall₂_map_right_iff] at h
  induction h with
  | nil => rfl
  | cons hd _ ih => rw [List.map_cons, ← ih, known?_eq_some_iff.1 (hd.known.trans rfl)]

section

variable {val : Dim → Option Nat} {ds : List Dim} {ns : List Nat} {s s' : Supply}

theorem mapM_combine_reads (hval : Dim.Reads val) {pairs : List (Dim × Nat)}
    (h : Makes (pairs.mapM fun p => combine .mul p.1 (known p.2)) s ds s') (hns : ReadAs val ds ns) :
    List.Forall₂ (fun p n => ∃ a, val p.1 = some a ∧ n = a * p.2) pairs ns := by
  induction pairs generalizing s ds ns with
  | nil =>
    rw [List.mapM_nil, makes_pure_iff] at h
    obtain ⟨rfl, -⟩ := h
    cases hns
    exact .nil
  | cons p pairs ih =>
    obtain ⟨d, s₁, ds, hd, hds, rfl⟩ := makes_mapM_cons_iff.1 h
    cases hns with
    | cons hn hns =>
      obtain ⟨a, b, ha, hb, rfl⟩ := hval.product hd hn
      cases (hval.known p.2).symm.trans hb
      exact .cons ⟨a, ha, rfl⟩ (ih hds hns)

theorem sliceExtents_reads (hval : Dim.Reads val) {fault : Mismatch → GraphError} {i : Nat}
    {ranges : List (Dim × Nat × Nat × Nat)} (h : Operator.sliceExtents fault i ranges = .ok ds)
    (hns : ReadAs val ds ns) :
    List.Forall₂ (fun (r : Dim × Nat × Nat × Nat) n => 0 < r.2.2.2 ∧ r.2.1 < r.2.2.1 ∧
      (∀ m, r.1 = known m → r.2.2.1 ≤ m) ∧ n = (r.2.2.1 - r.2.1 + (r.2.2.2 - 1)) / r.2.2.2)
      ranges ns := by
  induction ranges generalizing i ds ns with
  | nil =>
    cases h
    cases hns
    exact .nil
  | cons r ranges ih =>
    obtain ⟨size, start, stop, step⟩ := r
    simp only [Operator.sliceExtents, guard_ok_iff, bind_ok_iff, pure_ok_iff] at h
    obtain ⟨hrange, hbound, rest, hrest, rfl⟩ := h
    rw [not_or, Nat.not_le] at hrange
    cases hns with
    | cons hn hns =>
      cases (hval.known _).symm.trans hn
      refine .cons ⟨Nat.pos_of_ne_zero hrange.1, hrange.2, ?_, rfl⟩ (ih hrest hns)
      rintro m rfl
      simpa [known?] using hbound

end

theorem getElem?_of_indexOf? {o : Order} {a : Axis} {i : Nat} (h : o.indexOf? a = some i) :
    o.axes[i]? = some a := by
  obtain ⟨hi, ha, -⟩ := List.findIdx?_eq_some_iff_getElem.1 h
  rw [List.getElem?_eq_getElem hi, of_decide_eq_true ha]

namespace Operator

variable {α : Type} {op : Operator α} {x t : TensorType} {s s' : Supply} {xs ys : List Nat}

section

variable {val : Dim → Option Nat}

/-- A tiling repeats the sizes of its input. -/
theorem moves_tile (hval : Dim.Reads val) {m : List Nat}
    (h : Gives ((tile m : Operator α).infer [x]) s t s') (hx : ReadAs val x.shape xs)
    (ht : ReadAs val t.shape ys) : (tile m : Operator α).Moves x.order.axes xs ys := by
  obtain ⟨_, ⟨⟩, hm, -, shape, s₁, hshape, h⟩ := infer_tile h
  rw [(make_gives_iff.1 h).1] at ht
  have hall := mapM_combine_reads hval hshape ht
  rw [TensorType.rank, hx.length_eq] at hm
  have hlen : ys.length = xs.length := by
    rw [← hall.length_eq, List.length_zip, hx.length_eq, hm, Nat.min_self]
  refine ⟨x.rank_eq.symm.trans hx.length_eq, hlen, fun d a u v _ hu hv => ?_⟩
  have hd : d < m.length := hm ▸ (List.getElem?_eq_some_iff.1 hu).1
  have hk := List.getElem?_eq_getElem hd
  obtain ⟨size, hsize, hread⟩ := hx.exists_dim hu
  have hpair : (x.shape.zip m)[d]? = some (size, m[d]) := List.getElem?_zip_eq_some.2 ⟨hsize, hk⟩
  obtain ⟨_, hread', rfl⟩ := forall₂_getElem? hall hpair hv
  cases hread.symm.trans hread'
  exact ⟨m[d], hk, rfl⟩

/-- A slice that ends within its input takes every so many of its elements. -/
theorem moves_slice (hval : Dim.Reads val) {start stop step : List Nat}
    (h : Gives ((slice start stop step : Operator α).infer [x]) s t s')
    (hx : ReadAs val x.shape xs) (ht : ReadAs val t.shape ys)
    (hwithin : List.Forall₂ (· ≤ ·) stop xs) :
    (slice start stop step : Operator α).Moves x.order.axes xs ys := by
  obtain ⟨_, ⟨⟩, ⟨hstart, hstop, hstep⟩, fault, shape, hshape, h⟩ := infer_slice h
  rw [(make_gives_iff.1 h).1] at ht
  have hall := sliceExtents_reads hval hshape ht
  simp only [TensorType.rank, hx.length_eq] at hstart hstop hstep
  have hlen : ys.length = xs.length := by
    rw [← hall.length_eq]
    simp [hstart, hstop, hstep, hx.length_eq]
  refine ⟨x.rank_eq.symm.trans hx.length_eq, hlen, fun d a u v _ hu hv => ?_⟩
  have hd := (List.getElem?_eq_some_iff.1 hu).1
  have hb := List.getElem?_eq_getElem (hstart ▸ hd : d < start.length)
  have he := List.getElem?_eq_getElem (hstop ▸ hd : d < stop.length)
  have hk := List.getElem?_eq_getElem (hstep ▸ hd : d < step.length)
  obtain ⟨size, hsize, -⟩ := hx.exists_dim hu
  have hranges : (x.shape.zip (start.zip (stop.zip step)))[d]? =
      some (size, start[d], stop[d], step[d]) := by
    simp only [List.getElem?_zip_eq_some]
    exact ⟨hsize, hb, he, hk⟩
  obtain ⟨hpos, hrange, -, rfl⟩ := forall₂_getElem? hall hranges hv
  exact ⟨_, _, _, hb, he, hk, hpos, hrange, forall₂_getElem? hwithin he hu, rfl⟩

/-- A resizing keeps the sizes along all axes but the two that it names. -/
theorem moves_resize {a₁ a₂ : Axis} {m n : Nat}
    (h : Gives ((resize a₁ m a₂ n : Operator α).infer [x]) s t s')
    (hx : ReadAs val x.shape xs) (ht : ReadAs val t.shape ys) :
    (resize a₁ m a₂ n : Operator α).Moves x.order.axes xs ys := by
  obtain ⟨_, i, j, ⟨⟩, -, -, hi, hj, h⟩ := infer_resize h
  rw [(make_gives_iff.1 h).1] at ht
  have hlen : ys.length = xs.length := by
    rw [← ht.length_eq, List.length_set, List.length_set, hx.length_eq]
  refine ⟨x.rank_eq.symm.trans hx.length_eq, hlen, fun d a u v ha hu hv => ?_⟩
  have named : ∀ {b k}, x.order.indexOf? b = some k → k = d → a = b := by
    rintro b k hk rfl
    exact Option.some.inj (ha.symm.trans (getElem?_of_indexOf? hk))
  by_cases hid : i = d
  · exact .inl (named hi hid)
  by_cases hjd : j = d
  · exact .inr (.inl (named hj hjd))
  obtain ⟨size, hsize, hread⟩ := hx.exists_dim hu
  have hset : ((x.shape.set i (known m)).set j (known n))[d]? = some size := by
    rw [List.getElem?_set_ne hjd, List.getElem?_set_ne hid, hsize]
  have hread' := forall₂_getElem? ht hset hv
  exact .inr (.inr (Option.some.inj (hread'.symm.trans hread)))

/-- Inference relates the sizes of the output to those of the input, however they are read, if the
input has all that a slice takes. -/
theorem moves_of_reads (hval : Dim.Reads val) (hop : ∀ f, op ≠ .pointwise f)
    (h : Gives (op.infer [x]) s t s') (hx : ReadAs val x.shape xs) (ht : ReadAs val t.shape ys)
    (hslices : op.SlicesWithin xs) : op.Moves x.order.axes xs ys := by
  cases op with
  | pointwise f => exact absurd rfl (hop f)
  | tile m => exact moves_tile hval h hx ht
  | slice start stop step => exact moves_slice hval h hx ht (hslices _ _ _ rfl)
  | reinterpret source target =>
    obtain ⟨_, ⟨⟩, -, -, h⟩ := infer_reinterpret h
    rw [(make_gives_iff.1 h).1] at ht
    obtain rfl := ht.unique hx
    refine ⟨x.rank_eq.symm.trans hx.length_eq, rfl, fun d a u v _ hu hv => ?_⟩
    exact Option.some.inj (hv.symm.trans hu)
  | resize a₁ m a₂ n => exact moves_resize h hx ht

end

/-- Inference checks the end of a slice against a known size. -/
theorem slicesWithin_of_infer (h : Gives (op.infer [x]) s t s') (hx : x.shape = xs.map known) :
    op.SlicesWithin xs := by
  rintro start stop step rfl
  obtain ⟨_, ⟨⟩, ⟨hstart, hstop, hstep⟩, fault, shape, hshape, -⟩ := infer_slice h
  simp only [TensorType.rank, hx, List.length_map] at hstart hstop hstep
  have hall := sliceExtents_reads Dim.reads_known hshape
    (readAs_filterMap fun d hd => by
      obtain ⟨n, rfl⟩ := known_of_sliceExtents hshape hd
      exact ⟨n, rfl⟩)
  rw [hx] at hall
  refine List.forall₂_iff_get.2 ⟨hstop, fun d hd hd' => ?_⟩
  have hdstart : d < start.length := hstart ▸ hd'
  have hdstep : d < step.length := hstep ▸ hd'
  have hranges : ((xs.map known).zip (start.zip (stop.zip step)))[d]? =
      some (known xs[d], start[d], stop[d], step[d]) := by
    simp only [List.getElem?_zip_eq_some]
    simp [hdstart, hdstep, hd, hd']
  obtain ⟨n, -, hn⟩ := exists_of_forall₂_left hall (List.mem_of_getElem? hranges)
  exact hn.2.2.1 _ rfl

/-- Inference on known sizes relates those of the output to those of the input. -/
theorem moves_of_infer (hop : ∀ f, op ≠ .pointwise f) (h : Gives (op.infer [x]) s t s')
    (hx : x.shape = xs.map known) (ht : t.shape = ys.map known) :
    op.Moves x.order.axes xs ys :=
  moves_of_reads Dim.reads_known hop h (hx ▸ readAs_known fun _ => rfl)
    (ht ▸ readAs_known fun _ => rfl) (slicesWithin_of_infer h hx)

/-! ## Coordinates in range -/

variable {axes : List Axis} {a : Axis} {d x y c i : Nat}

theorem MovesAt.sourceCoordinate_lt (h : op.MovesAt a d x y) (hx : 0 < x) (hc : c < y) :
    op.sourceCoordinate d x y c < x := by
  cases op with
  | pointwise f => cases h
  | tile m => exact Nat.mod_lt _ hx
  | slice start stop step =>
    obtain ⟨b, e, k, hb, -, hk, hpos, hlt, hle, rfl⟩ := h
    have hlast : (c + 1) * k ≤ e - b + (k - 1) := (Nat.le_div_iff_mul_le hpos).1 hc
    rw [Nat.succ_mul] at hlast
    simp only [sourceCoordinate, List.getD_eq_getElem?_getD, hb, hk, Option.getD_some]
    omega
  | reinterpret source target =>
    obtain rfl : y = x := h
    exact hc
  | resize a₁ m a₂ n =>
    exact Nat.div_lt_of_lt_mul (Nat.mul_lt_mul_of_pos_right hc hx)

theorem length_sourceCoordinates : (op.sourceCoordinates xs ys i).length = xs.length := by
  simp [sourceCoordinates]

/-- Everything that belongs to one axis: its name, both sizes, the output coordinate and the stride
of the input. -/
theorem Moves.exists_axis (h : op.Moves axes xs ys) (i : Nat) (hd : d < xs.length) :
    ∃ a x y c t, axes[d]? = some a ∧ xs[d]? = some x ∧ ys[d]? = some y ∧
      (unravel ys i)[d]? = some c ∧ (strideList xs)[d]? = some t :=
  ⟨_, _, _, _, _, List.getElem?_eq_getElem (h.rank ▸ hd), List.getElem?_eq_getElem hd,
    List.getElem?_eq_getElem (h.length ▸ hd),
    List.getElem?_eq_getElem ((length_unravel ys i).trans h.length ▸ hd),
    List.getElem?_eq_getElem (length_strideList xs ▸ hd)⟩

theorem getElem?_sourceCoordinates (hx : xs[d]? = some x) (hy : ys[d]? = some y)
    (hc : (unravel ys i)[d]? = some c) :
    (op.sourceCoordinates xs ys i)[d]? = some (op.sourceCoordinate d x y c) := by
  obtain ⟨hd, rfl⟩ := List.getElem?_eq_some_iff.1 hx
  simp [sourceCoordinates, hd, hy, hc]

theorem Moves.sourceCoordinates_lt (h : op.Moves axes xs ys) (hx : ∀ n ∈ xs, 0 < n)
    (hy : ∀ n ∈ ys, 0 < n) (i : Nat) :
    List.Forall₂ (· < ·) (op.sourceCoordinates xs ys i) xs := by
  refine List.forall₂_iff_get.2 ⟨length_sourceCoordinates, fun d hd hd' => ?_⟩
  obtain ⟨a, n, m, c, t, ha, hn, hm, hc, -⟩ := h.exists_axis i hd'
  have hread : (op.sourceCoordinates xs ys i)[d]? = some (op.sourceCoordinate d n m c) :=
    getElem?_sourceCoordinates hn hm hc
  rw [List.get_eq_getElem, List.get_eq_getElem, (List.getElem?_eq_some_iff.1 hread).2,
    (List.getElem?_eq_some_iff.1 hn).2]
  exact (h.sizes d a n m ha hn hm).sourceCoordinate_lt (hx n (List.mem_of_getElem? hn))
    (forall₂_getElem? (unravel_lt hy i) hc hm)

/-- The element read is in range. -/
theorem Moves.sourceIndexOf_lt (h : op.Moves axes xs ys) (hx : ∀ n ∈ xs, 0 < n)
    (hy : ∀ n ∈ ys, 0 < n) (i : Nat) : op.sourceIndexOf xs ys i < xs.prod :=
  position_lt (h.sourceCoordinates_lt hx hy i)

/-! ## Walks along the axes -/

/-- A walk along the axes adds up the source index if it adds up the part of each axis. -/
theorem Moves.forall₂_parts {β : Type} {R : β → Nat → Prop} {walk : List β}
    (h : op.Moves axes xs ys) (hlen : walk.length = xs.length)
    (hR : ∀ d e a x y c t, walk[d]? = some e → axes[d]? = some a → xs[d]? = some x →
      ys[d]? = some y → (unravel ys i)[d]? = some c → (strideList xs)[d]? = some t →
        R e (op.sourceCoordinate d x y c * t)) :
    List.Forall₂ R walk
      (List.zipWith (· * ·) (op.sourceCoordinates xs ys i) (strideList xs)) := by
  refine List.forall₂_iff_get.2 ⟨?_, fun d hd hd' => ?_⟩
  · rw [List.length_zipWith, length_sourceCoordinates, length_strideList, Nat.min_self, hlen]
  · obtain ⟨a, x, y, c, t, ha, hx, hy, hc, ht⟩ := h.exists_axis i (hlen ▸ hd)
    have hpart : (List.zipWith (· * ·) (op.sourceCoordinates xs ys i) (strideList xs))[d]? =
        some (op.sourceCoordinate d x y c * t) := by
      rw [List.getElem?_zipWith, getElem?_sourceCoordinates hx hy hc, ht]
    rw [List.get_eq_getElem, List.get_eq_getElem, (List.getElem?_eq_some_iff.1 hpart).2]
    exact hR d _ a x y c t (List.getElem?_eq_getElem hd) ha hx hy hc ht

/-- The loop of a kernel arrives at the source index if its rounds add the parts of the axes. -/
theorem Moves.axisWalk_eq {part : Nat → Nat → Option Nat} (h : op.Moves axes xs ys)
    (hy : ∀ n ∈ ys, 0 < n)
    (hpart : ∀ d x y c t, xs[d]? = some x → ys[d]? = some y → (strideList xs)[d]? = some t →
      0 < y → part d c = some (op.sourceCoordinate d x y c * t)) :
    axisWalk ys part ys.length i 0 = some (op.sourceIndexOf xs ys i) := by
  refine (axisWalk_iff hy).2 ⟨_, h.forall₂_parts ?_ ?_, Nat.zero_add _⟩
  · rw [List.length_zipIdx, length_unravel, h.length]
  · intro d e a x y c t he ha hx hy' hc ht
    obtain rfl : e = (c, d) := by
      rw [List.getElem?_zipIdx, hc] at he
      simpa [eq_comm] using he
    exact hpart d x y c t hx hy' ht (hy y (List.mem_of_getElem? hy'))

/-! ## The interpreter -/

/-- The coordinate map of an operator that gathers. -/
def coordinateMap? : Operator α → Option CoordinateMap
  | tile _ => some .wrap
  | slice start _ step => some (.range start step)
  | resize axis1 _ axis2 _ => some (.scale axis1 axis2)
  | _ => none

/-- The input index that evaluation computes for a position of the output. A reinterpretation hands
its input on. -/
def readIndex? (op : Operator α) (x y : TensorType) (i : Nat) : Option Nat :=
  match op with
  | reinterpret .. => some i
  | op => do
    sourceIndex (← op.coordinateMap?)
      (sourceAxes x.order.axes x.sizes (← wordStrides x.sizes)) (walkOf y.order.axes y.sizes i)

theorem evaluate_gather_iff [Scalar α] {map : CoordinateMap} {y : TensorType}
    {x : TensorType × Array α} {r : Array α} (hmap : op.coordinateMap? = some map) :
    op.evaluate [x] y = .ok r ↔
      ∃ ys : List Nat, y.shape = ys.map known ∧ gather map ys y.order x = .ok r := by
  cases op with
  | pointwise f => cases hmap
  | reinterpret source target => cases hmap
  | tile m =>
    cases hmap
    simp only [evaluate, bind_ok_iff, concreteShape_ok_iff, firstInput, Except.ok.injEq,
      exists_eq_left']
  | slice start stop step =>
    cases hmap
    simp only [evaluate, bind_ok_iff, concreteShape_ok_iff, firstInput, Except.ok.injEq,
      exists_eq_left']
  | resize a m b n =>
    cases hmap
    simp only [evaluate, bind_ok_iff, concreteShape_ok_iff, firstInput, Except.ok.injEq,
      exists_eq_left']

theorem readIndex?_gather {map : CoordinateMap} {x y : TensorType} (hmap : op.coordinateMap? = some map)
    (i : Nat) : op.readIndex? x y i = (wordStrides x.sizes).bind fun strides =>
      sourceIndex map (sourceAxes x.order.axes x.sizes strides) (walkOf y.order.axes y.sizes i) := by
  cases op with
  | pointwise f => cases hmap
  | reinterpret source target => cases hmap
  | tile m =>
    cases hmap
    rfl
  | slice start stop step =>
    cases hmap
    rfl
  | resize a m b n =>
    cases hmap
    rfl

/-- An operator that gathers keeps the order of its input. -/
theorem order_of_fits {map : CoordinateMap} {x y : TensorType} (hmap : op.coordinateMap? = some map)
    (hfits : op.Fits [x] y) : y.order = x.order := by
  cases op with
  | pointwise f => cases hmap
  | reinterpret source target => cases hmap
  | tile m =>
    obtain ⟨_, ⟨⟩, e⟩ := hfits
    exact e
  | slice start stop step =>
    obtain ⟨_, ⟨⟩, e, -⟩ := hfits
    exact e
  | resize a m b n =>
    obtain ⟨_, ⟨⟩, e, -⟩ := hfits
    exact e

/-- Every operator that moves data gathers or is a reinterpretation. -/
theorem gathers_or_reinterprets (hop : ∀ f, op ≠ .pointwise f) :
    (∃ map, op.coordinateMap? = some map) ∨ ∃ source target, op = .reinterpret source target := by
  cases op with
  | pointwise f => exact absurd rfl (hop f)
  | reinterpret source target => exact .inr ⟨source, target, rfl⟩
  | tile m => exact .inl ⟨_, rfl⟩
  | slice start stop step => exact .inl ⟨_, rfl⟩
  | resize a m b n => exact .inl ⟨_, rfl⟩

/-- Every element of the output is read at the index computed for its position. -/
theorem read_of_evaluate [Scalar α] (hop : ∀ f, op ≠ .pointwise f) {x y : TensorType}
    {data r : Array α} (h : op.evaluate [(x, data)] y = .ok r) {i : Nat} (hi : i < r.size) :
    ∃ j v, op.readIndex? x y i = some j ∧ data[j]? = some v ∧ r[i]? = some v := by
  rcases gathers_or_reinterprets hop with ⟨map, hmap⟩ | ⟨source, target, rfl⟩
  · obtain ⟨ys, hys, hg⟩ := (evaluate_gather_iff hmap).1 h
    obtain ⟨xs, strides, hxs, -, hstrides, hr, hread⟩ := gather_ok_iff.1 hg
    obtain ⟨j, v, hj, hv, hri⟩ := hread i (hr ▸ hi)
    refine ⟨j, v, ?_, hv, hri⟩
    rw [readIndex?_gather hmap, TensorType.sizes_eq hxs, TensorType.sizes_eq hys, hstrides]
    exact hj
  · simp only [evaluate, bind_ok_iff, firstInput, Except.ok.injEq, pure_ok_iff,
      exists_eq_left'] at h
    obtain ⟨-, -, rfl⟩ := h
    exact ⟨i, data[i], rfl, Array.getElem?_eq_getElem hi, Array.getElem?_eq_getElem hi⟩

end Operator

/-! ### Word arithmetic of the interpreter -/

theorem wordStrides_of_pos {sizes : List Nat} (hpos : ∀ n ∈ sizes, 0 < n)
    (hsized : sizes.prod < wordLimit) : wordStrides sizes = some (strideList sizes) := by
  induction sizes with
  | nil => rfl
  | cons m sizes ih =>
    cases sizes with
    | nil => rfl
    | cons n sizes =>
      obtain ⟨hm, hpos⟩ := List.forall_mem_cons.1 hpos
      have hinner : (n :: sizes).prod < wordLimit := by
        rw [List.prod_cons] at hsized
        exact Nat.lt_of_le_of_lt (Nat.le_mul_of_pos_left _ hm) hsized
      have hword : sizes.prod * n < wordLimit := by
        rwa [List.prod_cons, Nat.mul_comm] at hinner
      have happly : Arith.mul.apply sizes.prod n = some (sizes.prod * n) := if_pos hword
      simp only [wordStrides, ih hpos hinner, bind, Option.bind_some, strideList, List.headD_cons,
        happly, pure]
      rw [List.prod_cons, Nat.mul_comm n]

theorem le_prod_of_mem {sizes : List Nat} (hpos : ∀ n ∈ sizes, 0 < n) {n : Nat} (hn : n ∈ sizes) :
    n ≤ sizes.prod :=
  Nat.le_of_dvd (List.prod_pos_iff_forall_pos_nat.2 hpos) (List.dvd_prod hn)

theorem getElem?_sourceAxes {axes : List Axis} {sizes strides : List Nat} {d : Nat} {a : Axis}
    {n t : Nat} (ha : axes[d]? = some a) (hn : sizes[d]? = some n) (ht : strides[d]? = some t) :
    (sourceAxes axes sizes strides)[d]? = some ⟨a, d, n, t⟩ := by
  have hzip : (axes.zipIdx.zip (sizes.zip strides))[d]? = some ((a, d), n, t) := by
    simp only [List.getElem?_zip_eq_some, List.getElem?_zipIdx, ha, Option.map_some, Nat.zero_add]
    exact ⟨trivial, hn, ht⟩
  rw [sourceAxes, List.getElem?_map, hzip]
  rfl

theorem find?_sourceAxes {axes : List Axis} {sizes strides : List Nat} {d : Nat} {a : Axis}
    {n t : Nat} (hnodup : axes.Nodup) (ha : axes[d]? = some a) (hn : sizes[d]? = some n)
    (ht : strides[d]? = some t) :
    (sourceAxes axes sizes strides).find? (·.axis = a) = some ⟨a, d, n, t⟩ := by
  obtain ⟨hd, hget⟩ := List.getElem?_eq_some_iff.1 (getElem?_sourceAxes ha hn ht)
  refine List.find?_eq_some_iff_getElem.2 ⟨by simp, d, hd, hget, fun e he => ?_⟩
  obtain ⟨hda, rfl⟩ := List.getElem?_eq_some_iff.1 ha
  have hea : e < axes.length := he.trans hda
  have hn' := List.getElem?_eq_getElem (he.trans (List.getElem?_eq_some_iff.1 hn).1)
  have ht' := List.getElem?_eq_getElem (he.trans (List.getElem?_eq_some_iff.1 ht).1)
  have hget' := getElem?_sourceAxes (List.getElem?_eq_getElem hea) hn' ht'
  rw [(List.getElem?_eq_some_iff.1 hget').2]
  have hne : axes[e] ≠ axes[d] := by
    rw [Ne, hnodup.getElem_inj_iff]
    omega
  simpa using hne

namespace Operator

variable {α : Type} {op : Operator α} {axes : List Axis} {xs ys : List Nat} {a : Axis}
  {d x y c t : Nat}

theorem scalesAt_of_mul_lt (hpos : 0 < x) (h : op.kind = .resize2d → x * y < wordLimit) :
    op.ScalesAt a x y := by
  cases op with
  | resize a₁ m a₂ n =>
    intro _
    refine ⟨hpos, Nat.lt_of_le_of_lt ?_ (h rfl)⟩
    rw [Nat.mul_comm x]
    exact Nat.mul_le_mul_right x (Nat.sub_le y 1)
  | _ => trivial

/-- The coordinate map computes the input coordinate, if words hold what it multiplies. -/
theorem MovesAt.coordinateMap_eq {map : CoordinateMap} (h : op.MovesAt a d x y)
    (hmap : op.coordinateMap? = some map) (hx : x < wordLimit) (hc : c < y)
    (hscales : op.ScalesAt a x y) (hpos : 0 < x) :
    map ⟨a, d, x, t⟩ c y = some (op.sourceCoordinate d x y c) := by
  cases op with
  | pointwise f => cases hmap
  | reinterpret source target => cases hmap
  | tile m =>
    cases hmap
    simp [CoordinateMap.wrap, Arith.apply, sourceCoordinate, hpos.ne']
  | slice start stop step =>
    cases hmap
    have hlt := h.sourceCoordinate_lt hpos hc
    obtain ⟨b, e, k, hb, -, hk, -, -, -, -⟩ := h
    simp only [sourceCoordinate, List.getD_eq_getElem?_getD, hb, hk, Option.getD_some] at hlt ⊢
    have hmul : c * k < wordLimit := by omega
    have hadd : b + c * k < wordLimit := by omega
    simp [CoordinateMap.range, Arith.apply, hb, hk, hmul, hadd]
  | resize a₁ m a₂ n =>
    cases hmap
    simp only [CoordinateMap.scale, sourceCoordinate]
    split
    · next haxis =>
      have hmul : c * x < wordLimit :=
        Nat.lt_of_le_of_lt (Nat.mul_le_mul_right x (Nat.le_sub_one_of_lt hc)) (hscales haxis).2
      have hy : y ≠ 0 := by omega
      simp [Arith.apply, hmul, hy]
    · next hne =>
      have hy : y = x := by
        rcases h with rfl | rfl | rfl
        · simp at hne
        · simp at hne
        · rfl
      rw [hy, Nat.mul_div_cancel c hpos]

/-- What one axis adds is part of the index. -/
theorem part_le_sourceIndexOf {i : Nat} (hx : xs[d]? = some x) (hy : ys[d]? = some y)
    (hc : (unravel ys i)[d]? = some c) (ht : (strideList xs)[d]? = some t) :
    op.sourceCoordinate d x y c * t ≤ op.sourceIndexOf xs ys i := by
  refine List.single_le_sum (fun _ _ => Nat.zero_le _) _ (List.mem_of_getElem? (i := d) ?_)
  rw [List.getElem?_zipWith, getElem?_sourceCoordinates hx hy hc, ht]

theorem Moves.sizes_of_reinterpret {source target : Order}
    (h : (reinterpret source target : Operator α).Moves axes xs ys) : ys = xs := by
  refine List.ext_getElem h.length fun d hd hd' => ?_
  obtain ⟨a, n, m, -, -, ha, hn, hm, -, -⟩ := h.exists_axis 0 hd'
  rw [(List.getElem?_eq_some_iff.1 hm).2, (List.getElem?_eq_some_iff.1 hn).2]
  exact h.sizes d a n m ha hn hm

/-- A reinterpretation leaves every element where it is. -/
theorem Moves.sourceIndexOf_reinterpret {source target : Order} {i : Nat}
    (h : (reinterpret source target : Operator α).Moves axes xs ys) (hi : i < ys.prod) :
    (reinterpret source target : Operator α).sourceIndexOf xs ys i = i := by
  have hys := h.sizes_of_reinterpret
  have hcoordinates : (reinterpret source target : Operator α).sourceCoordinates xs ys i =
      unravel xs i := by
    refine List.ext_getElem? fun d => ?_
    simp only [sourceCoordinates, sourceCoordinate, hys]
    by_cases hd : d < xs.length
    · simp [hd, length_unravel]
    · simp [hd, length_unravel]
  rw [sourceIndexOf, hcoordinates, position_unravel, Nat.mod_eq_of_lt (hys ▸ hi)]

/-- The interpreter reads at the source index. -/
theorem Moves.readIndex?_eq {x y : TensorType} (h : op.Moves x.order.axes xs ys)
    (hop : ∀ f, op ≠ .pointwise f) (hx : x.shape = xs.map known) (hy : y.shape = ys.map known)
    (hfits : op.Fits [x] y) (hposx : ∀ n ∈ xs, 0 < n) (hposy : ∀ n ∈ ys, 0 < n)
    (hsized : xs.prod < wordLimit)
    (hscales : ∀ (d : Nat) (a : Axis) (n m : Nat), x.order.axes[d]? = some a → xs[d]? = some n →
      ys[d]? = some m → op.ScalesAt a n m) {i : Nat} (hi : i < ys.prod) :
    op.readIndex? x y i = some (op.sourceIndexOf xs ys i) := by
  rcases gathers_or_reinterprets hop with ⟨map, hmap⟩ | ⟨source, target, rfl⟩
  · have horder : y.order = x.order := order_of_fits hmap hfits
    have hlt : op.sourceIndexOf xs ys i < wordLimit :=
      (h.sourceIndexOf_lt hposx hposy i).trans hsized
    rw [readIndex?_gather hmap, TensorType.sizes_eq hx, TensorType.sizes_eq hy, horder,
      wordStrides_of_pos hposx hsized, Option.bind_some]
    refine sourceIndex_eq_some_iff.2 ⟨_, h.forall₂_parts ?_ ?_, rfl, hlt⟩
    · rw [walkOf, List.length_zip, List.length_zip, length_unravel, h.rank, h.length, Nat.min_self,
        Nat.min_self]
    · intro d e a n m c t he ha hn hm hc ht
      obtain rfl : e = (a, c, m) := by
        have hzip : (walkOf x.order.axes ys i)[d]? = some (a, c, m) := by
          simp only [walkOf, List.getElem?_zip_eq_some]
          exact ⟨ha, hc, hm⟩
        exact Option.some.inj (he.symm.trans hzip)
      have hpart : op.sourceCoordinate d n m c * t < wordLimit :=
        Nat.lt_of_le_of_lt (part_le_sourceIndexOf hn hm hc ht) hlt
      have hnlt : n < wordLimit :=
        Nat.lt_of_le_of_lt (le_prod_of_mem hposx (List.mem_of_getElem? hn)) hsized
      have hcm : c < m := forall₂_getElem? (unravel_lt hposy i) hc hm
      have hnpos : 0 < n := hposx n (List.mem_of_getElem? hn)
      simp only [sourcePart, find?_sourceAxes x.order.nodup ha hn ht, bind,
        (h.sizes d a n m ha hn hm).coordinateMap_eq hmap hnlt hcm (hscales d a n m ha hn hm) hnpos,
        Option.bind_some, Arith.apply, if_pos hpart]
  · rw [h.sourceIndexOf_reinterpret hi]
    rfl

/-- Evaluation succeeds, and reads every element at its source index. -/
theorem Moves.exists_evaluate [Scalar α] {x y : TensorType} (h : op.Moves x.order.axes xs ys)
    (hop : ∀ f, op ≠ .pointwise f) (hx : x.shape = xs.map known) (hy : y.shape = ys.map known)
    (hfits : op.Fits [x] y) (hposx : ∀ n ∈ xs, 0 < n) (hposy : ∀ n ∈ ys, 0 < n)
    (hsized : xs.prod < wordLimit)
    (hscales : ∀ (d : Nat) (a : Axis) (n m : Nat), x.order.axes[d]? = some a → xs[d]? = some n →
      ys[d]? = some m → op.ScalesAt a n m) {data : Array α} (hdata : data.size = xs.prod) :
    ∃ r, op.evaluate [(x, data)] y = .ok r ∧
      ∀ i < ys.prod, r[i]? = data[op.sourceIndexOf xs ys i]? := by
  have hread := fun i (hi : i < ys.prod) =>
    h.readIndex?_eq hop hx hy hfits hposx hposy hsized hscales hi
  rcases gathers_or_reinterprets hop with ⟨map, hmap⟩ | ⟨source, target, rfl⟩
  · obtain ⟨r, hr, helements⟩ := exists_array (P := fun i v =>
      data[op.sourceIndexOf xs ys i]? = some v) ys.prod fun i _ =>
        ⟨_, Array.getElem?_eq_getElem (hdata ▸ h.sourceIndexOf_lt hposx hposy i)⟩
    refine ⟨r, (evaluate_gather_iff hmap).2 ⟨ys, hy, ?_⟩, fun i hi => ?_⟩
    · refine gather_ok_iff.2 ⟨xs, strideList xs, hx, hdata, wordStrides_of_pos hposx hsized, hr,
        fun i hi => ?_⟩
      obtain ⟨v, hv, hri⟩ := helements i hi
      refine ⟨_, v, ?_, hv, hri⟩
      have := hread i hi
      rwa [readIndex?_gather hmap, TensorType.sizes_eq hx, TensorType.sizes_eq hy,
        wordStrides_of_pos hposx hsized] at this
    · obtain ⟨v, hv, hri⟩ := helements i hi
      rw [hv, hri]
  · refine ⟨data, ?_, fun i hi => by rw [h.sourceIndexOf_reinterpret hi]⟩
    simp only [evaluate, bind_ok_iff, concreteShape_ok_iff, firstInput, Except.ok.injEq,
      pure_ok_iff, exists_eq_left', and_true]
    exact ⟨ys, hy⟩

end Operator

end TensorCompiler
