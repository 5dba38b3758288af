import Mathlib
import TensorCompiler.Proofs.BroadcastInference
import TensorCompiler.Proofs.ComputedValues
import TensorCompiler.Proofs.OperatorValues
/-!
# What a merged loop covers

One loop over the merged axes serves an output and its operands. Along each axis the sizes have to
be the same, except for sizes of one. Then the loop reads every operand along the operand's own
axes, and it reads all of it, unless it is empty. The extent of an axis that the output lacks is the
size of the first operand with the axis, so this operand must have the common size there.

* `coordinates`, `visits`: the coordinates of a loop, and where they lead through strides.
* `IterationOrder.lookup_unifiedDims`: the dimension of each merged axis.
* `CommonSizes`, `Mergeable`: what the sizes have to be.
* `IterationOrder.Covers`: the loop reads one operand as it should.
* `IterationOrder.unify_covers`: the merged loop, with and without padding (`Unifies`).
* `IterationOrder.unify_leaves`: loops that do not cover their operands.
-/

namespace TensorCompiler

open Dim

/-! ## Coordinates of a loop -/

/-- All coordinates below the extents, in the order in which nested loops arrive at them. -/
def coordinates : List Nat → List (List Nat)
  | [] => [[]]
  | n :: extents => (List.range n).flatMap fun c => (coordinates extents).map (c :: ·)

theorem mem_coordinates_iff {extents c : List Nat} :
    c ∈ coordinates extents ↔ List.Forall₂ (· < ·) c extents := by
  induction extents generalizing c with
  | nil => rw [coordinates, List.mem_singleton, List.forall₂_nil_right_iff]
  | cons n extents ih =>
    simp only [coordinates, List.mem_flatMap, List.mem_range, List.mem_map, ih,
      List.forall₂_cons_right_iff]
    constructor
    · rintro ⟨k, hk, c, hc, rfl⟩
      exact ⟨k, c, hk, hc, rfl⟩
    · rintro ⟨k, c, hk, hc, rfl⟩
      exact ⟨k, hk, c, hc, rfl⟩

/-- An empty loop. -/
theorem coordinates_eq_nil {extents : List Nat} (h : 0 ∈ extents) : coordinates extents = [] := by
  refine List.eq_nil_iff_forall_not_mem.2 fun c hc => ?_
  obtain ⟨k, -, hk⟩ := exists_of_forall₂_right (mem_coordinates_iff.1 hc) h
  exact Nat.not_lt_zero k hk

/-- Loops of one round inside the others change nothing. -/
theorem coordinates_pad (extents : List Nat) (m : Nat) :
    coordinates (extents ++ List.replicate m 1) =
      (coordinates extents).map (· ++ List.replicate m 0) := by
  induction extents with
  | nil =>
    induction m with
    | zero => rfl
    | succ m ih => simp_all [List.replicate_succ, coordinates]
  | cons n extents ih =>
    rw [List.cons_append, coordinates, coordinates, List.map_flatMap, ih]
    refine congrArg (List.flatMap · _) (funext fun c => ?_)
    rw [List.map_map, List.map_map]
    rfl

/-- The index that coordinates lead to through known strides. -/
def indexThrough? (strides : List Dim) (c : List Nat) : Option Nat :=
  (strides.mapM known?).map fun ts => (List.zipWith (· * ·) c ts).sum

/-- The indices that a loop over a known shape visits through strides, one for each round. -/
def visits (shape strides : List Dim) : List (Option Nat) :=
  (coordinates (shape.filterMap known?)).map (indexThrough? strides)

theorem indexThrough?_eq {strides : List Dim} {ts : List Nat} (h : ReadAs known? strides ts)
    (c : List Nat) : indexThrough? strides c = some (List.zipWith (· * ·) c ts).sum := by
  rw [indexThrough?, option_mapM_iff.2 h]
  rfl

/-- Strides at the end count only where the coordinates do. -/
theorem indexThrough?_pad {strides : List Dim} {c : List Nat} (hlen : c.length = strides.length)
    (m : Nat) : indexThrough? (strides ++ List.replicate m (known 1)) (c ++ List.replicate m 0) =
      indexThrough? strides c := by
  have hones : (List.replicate m (known 1)).mapM known? = some (List.replicate m 1) :=
    option_mapM_iff.2 (List.map_replicate (f := known) ▸ readAs_known fun _ => rfl)
  rw [indexThrough?, List.mapM_append, hones, indexThrough?]
  cases hts : strides.mapM known? with
  | none => rfl
  | some ts =>
    have hsum : (List.zipWith (· * ·) (c ++ List.replicate m 0) (ts ++ List.replicate m 1)).sum =
        (List.zipWith (· * ·) c ts).sum := by
      rw [List.zipWith_append (hlen.trans (option_mapM_iff.1 hts).length_eq)]
      simp
    exact congrArg some hsum

/-- Padding leaves the walk through a table alone. -/
theorem visits_pad {shape strides : List Dim} (hshape : ∀ d ∈ shape, ∃ n, d = known n)
    (hlen : strides.length = shape.length) (m : Nat) :
    visits (shape ++ List.replicate m (known 1)) (strides ++ List.replicate m (known 1)) =
      visits shape strides := by
  have hread : ReadAs known? shape (shape.filterMap known?) := readAs_filterMap fun d hd => by
    obtain ⟨n, rfl⟩ := hshape d hd
    exact ⟨n, rfl⟩
  have hones : (List.replicate m (known 1)).filterMap known? = List.replicate m 1 :=
    List.filterMap_replicate_of_some rfl
  rw [visits, List.filterMap_append, hones, coordinates_pad, List.map_map]
  refine List.map_congr_left fun c hc => indexThrough?_pad ?_ m
  rw [(mem_coordinates_iff.1 hc).length_eq, ← hread.length_eq, hlen]

/-! ## The merged axes -/

theorem TensorType.dimOf?_eq_none_iff {t : TensorType} {a : Axis} :
    t.dimOf? a = none ↔ a ∉ t.order.axes := by
  rw [dimOf?, List.lookup_eq_none_iff]
  constructor
  · intro h ha
    obtain ⟨d, hd⟩ := Operator.exists_dim_of_axis ha
    simpa using h _ hd
  · intro h e he
    rw [bne_iff_ne]
    rintro rfl
    exact h (Operator.mem_axes_of_dims he)

namespace IterationOrder

/-- One dimension of an operand, added unless its axis is there. -/
def addDim (dims : List (Axis × Dim)) (entry : Axis × Dim) : List (Axis × Dim) :=
  if (dims.lookup entry.1).isSome then dims else dims ++ [entry]

section

variable {entries dims : List (Axis × Dim)} {a : Axis}

theorem prefix_foldl_addDim : dims <+: entries.foldl addDim dims := by
  induction entries generalizing dims with
  | nil => exact List.prefix_refl _
  | cons e entries ih =>
    refine List.IsPrefix.trans ?_ ih
    unfold addDim
    split
    · exact List.prefix_refl _
    · exact List.prefix_append _ _

theorem nodup_foldl_addDim (h : (dims.map (·.1)).Nodup) :
    ((entries.foldl addDim dims).map (·.1)).Nodup := by
  induction entries generalizing dims with
  | nil => exact h
  | cons e entries ih =>
    refine ih ?_
    unfold addDim
    split
    · exact h
    · next hnone =>
      rw [Option.not_isSome_iff_eq_none, List.lookup_eq_none_iff] at hnone
      have hnew : e.1 ∉ dims.map (·.1) := fun hmem => by
        obtain ⟨d, hd⟩ := TensorType.mem_map_fst.1 hmem
        simpa using hnone _ hd
      rw [List.map_append, List.map_singleton, ← List.concat_eq_append]
      exact List.nodup_concat _ _ |>.2 ⟨hnew, h⟩

/-- The first entry for an axis counts. -/
theorem lookup_foldl_addDim :
    (entries.foldl addDim dims).lookup a = (dims.lookup a).or (entries.lookup a) := by
  induction entries generalizing dims with
  | nil => simp
  | cons e entries ih =>
    rw [List.foldl_cons, ih, addDim]
    split
    · next hsome =>
      by_cases ha : a = e.1
      · obtain ⟨d, hd⟩ := Option.isSome_iff_exists.1 hsome
        rw [ha, hd, Option.some_or, Option.some_or]
      · rw [List.lookup_cons, beq_false_of_ne ha]
    · rw [List.lookup_append, Option.or_assoc, List.lookup_cons, List.lookup_cons]
      cases a == e.1 <;> rfl

end

variable {output x : TensorType} {inputs : List TensorType} {n : Axis → Nat} {a : Axis} {d : Dim}

theorem lookup_flatMap_dims (xs : List TensorType) (a : Axis) :
    (xs.flatMap TensorType.dims).lookup a = xs.findSome? (·.dimOf? a) := by
  induction xs with
  | nil => rfl
  | cons x xs ih =>
    rw [List.flatMap_cons, List.lookup_append, ih, List.findSome?_cons, ← TensorType.dimOf?]
    cases x.dimOf? a <;> rfl

/-- The dimension of the output along an axis, or else that of the first operand with the axis. -/
theorem lookup_unifiedDims : (unifiedDims output inputs).lookup a =
    (output.dimOf? a).or ((TensorType.byRank inputs).findSome? (·.dimOf? a)) :=
  lookup_foldl_addDim.trans (congrArg _ (lookup_flatMap_dims _ a))

theorem nodup_unifiedDims : ((unifiedDims output inputs).map (·.1)).Nodup :=
  nodup_foldl_addDim output.nodup_dims

theorem mem_unifiedDims_iff :
    (a, d) ∈ unifiedDims output inputs ↔ (unifiedDims output inputs).lookup a = some d := by
  refine ⟨fun h => ?_, Operator.mem_of_lookup⟩
  cases hlookup : (unifiedDims output inputs).lookup a with
  | none => simpa using List.lookup_eq_none_iff.1 hlookup _ h
  | some d' =>
    rw [TensorType.eq_of_mem_nodup nodup_unifiedDims h (Operator.mem_of_lookup hlookup)]

/-- The type that the loop runs over. -/
def loopType (output : TensorType) (inputs : List TensorType) : TensorType where
  shape := (unifiedDims output inputs).map (·.2)
  order := ⟨(unifiedDims output inputs).map (·.1), nodup_unifiedDims⟩
  rank_eq := by rw [Order.rank, List.length_map, List.length_map]

theorem dims_loopType : (loopType output inputs).dims = unifiedDims output inputs := by
  show List.zip (List.map _ _) (List.map _ _) = _
  rw [List.zip_map', List.map_id'']
  exact fun _ => rfl

theorem mem_axes_loopType_iff :
    a ∈ (loopType output inputs).order.axes ↔ ∃ x ∈ output :: inputs, a ∈ x.order.axes := by
  constructor
  · intro ha
    obtain ⟨d, hd⟩ := TensorType.mem_map_fst.1 ha
    obtain ⟨x, hx, he⟩ := mem_unifiedDims hd
    exact ⟨x, hx, Operator.mem_axes_of_dims he⟩
  · rintro ⟨x, hx, ha⟩
    by_contra hnot
    have hnone : (unifiedDims output inputs).lookup a = none := Option.eq_none_iff_forall_ne_some.2
      fun d hd => hnot (TensorType.mem_map_fst.2 ⟨d, mem_unifiedDims_iff.2 hd⟩)
    rw [lookup_unifiedDims, Option.or_eq_none_iff, List.findSome?_eq_none_iff] at hnone
    rcases List.mem_cons.1 hx with rfl | hx
    · exact TensorType.dimOf?_eq_none_iff.1 hnone.1 ha
    · exact TensorType.dimOf?_eq_none_iff.1 (hnone.2 x (mem_byRank.2 hx)) ha

/-- Along every axis, all sizes are the common one or one, and the output has the common one. -/
structure CommonSizes (y : TensorType) (xs : List TensorType) (n : Axis → Nat) : Prop where
  output : ∀ e ∈ y.dims, e.2 = known (n e.1)
  inputs : ∀ x ∈ xs, ∀ e ∈ x.dims, e.2 = known (n e.1) ∨ e.2 = known 1

/-- Along an axis that the output lacks, the first operand with the axis, in order of decreasing
rank, has the common size as well. -/
structure Mergeable (y : TensorType) (xs : List TensorType) (n : Axis → Nat) : Prop extends
    CommonSizes y xs n where
  first : ∀ a ∉ y.order.axes, ∀ d,
    (TensorType.byRank xs).findSome? (·.dimOf? a) = some d → d = known (n a)

/-- Every merged axis has the common size. -/
theorem Mergeable.size_eq (h : Mergeable output inputs n) {e : Axis × Dim}
    (he : e ∈ unifiedDims output inputs) : e.2 = known (n e.1) := by
  have hlookup := mem_unifiedDims_iff.1 he
  rw [lookup_unifiedDims] at hlookup
  cases hout : output.dimOf? e.1 with
  | some d =>
    rw [hout, Option.some_or, Option.some.injEq] at hlookup
    exact hlookup ▸ h.output _ (Operator.mem_of_lookup hout)
  | none =>
    rw [hout, Option.none_or] at hlookup
    exact h.first e.1 (TensorType.dimOf?_eq_none_iff.1 hout) e.2 hlookup

theorem Mergeable.isConcrete (h : Mergeable output inputs n) :
    (loopType output inputs).isConcrete = true := by
  refine List.all_eq_true.2 (List.forall_mem_map.2 fun e he => ?_)
  rw [h.size_eq he]
  rfl

/-- Every operand is broadcast into the loop. -/
theorem Mergeable.broadcasts (h : Mergeable output inputs n) (hx : x ∈ output :: inputs) :
    x.Broadcasts (loopType output inputs) := by
  intro e he
  obtain ⟨d, hd⟩ := Operator.exists_dim_of_axis
    (mem_axes_loopType_iff.2 ⟨x, hx, Operator.mem_axes_of_dims he⟩)
  refine ⟨d, hd, ?_⟩
  obtain rfl : d = known (n e.1) := h.size_eq (dims_loopType ▸ hd)
  have hsize : e.2 = known (n e.1) ∨ e.2 = known 1 := by
    rcases List.mem_cons.1 hx with rfl | hx
    · exact .inl (h.output e he)
    · exact h.inputs x hx e he
  rcases hsize with hsame | hone
  · exact .inl (hsame ▸ Dim.beq_refl _)
  · exact .inr (Operator.is_iff.2 hone)

/-! ## The walk through one operand -/

/-- The coordinates at which an operand is read in a loop: those along its own axes, and zero where
it has size one. -/
def ownCoordinates (x loop : TensorType) (c : List Nat) : List Nat :=
  (x.order.axes.zip x.sizes).map fun e => if e.2 = 1 then 0 else loop.along c e.1

/-- The loop of a kernel, at the position of coordinates, arrives at their index. -/
theorem axisWalk_along {ns ts c : List Nat} (hc : List.Forall₂ (· < ·) c ns)
    (hlen : ts.length = ns.length) : axisWalk ns (along ts) ns.length (position c ns) 0 =
      some (List.zipWith (· * ·) c ts).sum := by
  refine (axisWalk_iff (pos_of_lt_prod (position_lt hc))).2 ⟨_, ?_, Nat.zero_add _⟩
  rw [unravel_position hc]
  refine List.forall₂_iff_get.2 ⟨?_, fun d hd hd' => ?_⟩
  · rw [List.length_zipIdx, List.length_zipWith, hc.length_eq, hlen, Nat.min_self]
  · rw [List.length_zipWith] at hd'
    have ht : d < ts.length := by omega
    simp [along, List.getElem?_eq_getElem ht]

section

variable {loop : TensorType} {ds : List Dim} {s s' : Supply} {c : List Nat} {i : Nat}

theorem readAs_sizes (hx : x.isConcrete = true) : ReadAs known? x.shape x.sizes :=
  TensorType.shape_eq_of_isConcrete hx ▸ readAs_known fun _ => rfl

/-- Coordinates of the loop lead to the element at the operand's own coordinates. -/
theorem indexThrough?_of_makes (hb : x.Broadcasts loop) (hloop : loop.isConcrete = true)
    (hchecked : Checked x.shape) (hds : Makes (loop.dims.mapM (strideAlong x)) s ds s')
    (hc : List.Forall₂ (· < ·) c loop.sizes) :
    indexThrough? ds c = some (position (ownCoordinates x loop c) x.sizes) := by
  have hpos := position_lt hc
  have hx := hb.isConcrete hloop
  have hknown := TensorType.all_known hx hchecked
    (TensorType.positiveAt_of_concrete hx (hb.pos hloop (Nat.zero_lt_of_lt hpos)))
  have hstrides : ReadAs known? ds (ds.filterMap known?) := readAs_filterMap fun d hd => by
    obtain ⟨n, rfl⟩ := forall_of_makes_mapM (P := fun d => ∃ n, d = known n)
      (fun e _ s d s' hd => hknown.strideAlong ⟨0, rfl⟩ hd) hds d hd
    exact ⟨n, rfl⟩
  have hlen : (ds.filterMap known?).length = loop.sizes.length := by
    rw [← hstrides.length_eq, length_of_makes_mapM hds, TensorType.dims, List.length_zip,
      loop.rank_eq, Order.rank, Nat.min_self, TensorType.length_sizes hloop]
  have hwalk := axisWalk_broadcast Dim.reads_known (readAs_sizes hx) (readAs_sizes hloop)
    hb.at_known hds hstrides (pos_of_lt_prod hpos) (position c loop.sizes)
  rw [indexThrough?_eq hstrides, ← axisWalk_along hc hlen, hwalk]
  exact congrArg some (Operator.sourcePosition_eq (α := Unit) .add hb hloop hc)

/-- Every element of the operand is at its own coordinates for some coordinates of the loop. -/
theorem exists_ownCoordinates (hb : x.Broadcasts loop) (hloop : loop.isConcrete = true)
    (hpos : 0 < loop.sizes.prod) (hi : i < x.sizes.prod) :
    ∃ c, List.Forall₂ (· < ·) c loop.sizes ∧ position (ownCoordinates x loop c) x.sizes = i := by
  -- The coordinates of the element, and zero along the axes that the operand lacks.
  let p := offset loop.order.axes loop.sizes (coordinate x.order.axes x.sizes i)
  have hc := unravel_lt (List.prod_pos_iff_forall_pos_nat.1 hpos) p
  have hp : p < loop.sizes.prod := offset_lt _ hpos
  refine ⟨_, hc, ?_⟩
  calc position (ownCoordinates x loop (unravel loop.sizes p)) x.sizes
      = x.sourcePosition loop (position (unravel loop.sizes p) loop.sizes) :=
        (Operator.sourcePosition_eq (α := Unit) .add hb hloop hc).symm
    _ = x.sourcePosition loop p := by rw [position_unravel, Nat.mod_eq_of_lt hp]
    _ = offset x.order.axes x.sizes (coordinate x.order.axes x.sizes i) :=
        offset_stretched (hb.stretches hloop) loop.order.nodup hpos _
    _ = i := by
        rw [offset_coordinate x.order.nodup (TensorType.length_sizes (hb.isConcrete hloop)),
          Nat.mod_eq_of_lt hi]

end

/-! ## The main result -/

/-- What a loop does for one operand with its table of strides: in every round it reads the operand
at the coordinates along the operand's own axes, and it reads every element, unless the loop is
empty. -/
structure Covers (order : IterationOrder) (loop x : TensorType) (strides : List Dim) : Prop where
  reads : visits order.shape strides = (coordinates loop.sizes).map fun c =>
    some (position (ownCoordinates x loop c) x.sizes)
  complete : 0 ∉ loop.sizes → ∀ i, some i ∈ visits order.shape strides ↔ i < x.sizes.prod
  empty : 0 ∈ loop.sizes → visits order.shape strides = []

theorem covers_of_makes {loop : TensorType} {order : IterationOrder} {ds : List Dim}
    {s s' : Supply} (hshape : order.shape = loop.shape) (hb : x.Broadcasts loop)
    (hloop : loop.isConcrete = true) (hchecked : Checked x.shape)
    (hds : Makes (loop.dims.mapM (strideAlong x)) s ds s') : order.Covers loop x ds := by
  have hreads : visits order.shape ds = (coordinates loop.sizes).map fun c =>
      some (position (ownCoordinates x loop c) x.sizes) := by
    rw [visits, hshape]
    exact List.map_congr_left fun c hc =>
      indexThrough?_of_makes hb hloop hchecked hds (mem_coordinates_iff.1 hc)
  refine ⟨hreads, fun hpos i => ?_, fun hzero => ?_⟩
  · have hpos : 0 < loop.sizes.prod := List.prod_pos_iff_forall_pos_nat.2 fun n hn =>
      Nat.pos_of_ne_zero fun h => hpos (h ▸ hn)
    simp only [hreads, List.mem_map, mem_coordinates_iff, Option.some.injEq]
    constructor
    · rintro ⟨c, hc, rfl⟩
      exact position_lt (Operator.coordinatesRead_pointwise_lt (α := Unit) .add hb hloop hc)
    · exact exists_ownCoordinates hb hloop hpos
  · rw [hreads, coordinates_eq_nil hzero, List.map_nil]

/-- Padding up to a ceiling that the rank does not exceed. -/
theorem pad_eq_ok {order : IterationOrder} {ceiling : Nat} (hrank : order.rank ≤ ceiling)
    (hshape : order.shape.length = order.rank)
    (hstrides : ∀ ds ∈ order.strides, ds.length = order.rank) :
    order.pad ceiling = .ok {
      axes := order.axes ++ List.replicate (ceiling - order.rank) none
      shape := order.shape ++ List.replicate (ceiling - order.rank) (known 1)
      strides := order.strides.map (· ++ List.replicate (ceiling - order.rank) (known 1)) } := by
  simp only [pad, bind_ok_iff, checkRank_ok_iff, padTable_ok_iff, mapM_ok_iff, pure_ok_iff]
  refine ⟨(), hrank, _, ⟨hshape ▸ hrank, hshape ▸ rfl⟩, _, ?_, rfl⟩
  exact List.forall₂_map_right_iff.2 (List.forall₂_same.2 fun ds hds =>
    ⟨hstrides ds hds ▸ hrank, hstrides ds hds ▸ rfl⟩)

/-- The loop over the axes of a type that merges an output with its operands: it runs over the axes
of the output, and behind them over all other axes of the operands, each of them once and with the
common size. It covers all of them, and padding the tables does not change its walk. -/
structure Unifies (order : IterationOrder) (loop y : TensorType) (xs : List TensorType)
    (n : Axis → Nat) : Prop where
  axes : order.axes = loop.order.axes.map some
  shape : order.shape = loop.shape
  nodup : order.axes.Nodup
  starts : y.order.axes <+: loop.order.axes
  contains : ∀ a, a ∈ loop.order.axes ↔ ∃ x ∈ y :: xs, a ∈ x.order.axes
  sizes : ∀ e ∈ loop.dims, e.2 = known (n e.1)
  covers : List.Forall₂ (order.Covers loop) (y :: xs) order.strides
  padded : ∀ ceiling, order.rank ≤ ceiling → ∃ padded, order.pad ceiling = .ok padded ∧
    padded.axes = order.axes ++ List.replicate (ceiling - order.rank) none ∧
    padded.strides.map (visits padded.shape) = order.strides.map (visits order.shape)

/-- Operands whose shapes have passed the check, and whose sizes fit together, are merged into a
loop that covers them. -/
theorem unify_covers {output : TensorType} {inputs : List TensorType} {n : Axis → Nat}
    (hsizes : Mergeable output inputs n) (hchecked : ∀ x ∈ output :: inputs, Checked x.shape)
    (s : Supply) : ∃ order loop s', Makes (unify output inputs) s order s' ∧
      order.Unifies loop output inputs n := by
  obtain ⟨strides, s', hstrides⟩ : ∃ strides s', Makes ((output :: inputs).mapM fun x =>
    (unifiedDims output inputs).mapM (strideAlong x)) s strides s' := ⟨_, _, rfl⟩
  let loop := loopType output inputs
  let order : IterationOrder := ⟨loop.order.axes.map some, loop.shape, strides⟩
  have hmakes : Makes (unify output inputs) s order s' := by
    refine makes_bind_iff.2 ⟨strides, s', hstrides, makes_pure_iff.2 ⟨?_, rfl⟩⟩
    exact congrArg (IterationOrder.mk · _ _) (List.map_map ..).symm
  have htables := forall₂_of_makes_mapM hstrides
  have hloop : loop.isConcrete = true := hsizes.isConcrete
  have hrank : order.shape.length = order.rank := by
    rw [rank, List.length_map]
    exact loop.rank_eq
  have hlen : ∀ ds ∈ order.strides, ds.length = order.rank := by
    intro ds hds
    obtain ⟨x, -, r, r', hmakes⟩ := exists_of_forall₂_right htables hds
    rw [length_of_makes_mapM hmakes, rank, List.length_map]
    exact (List.length_map _).symm
  have hknown : ∀ d ∈ order.shape, ∃ n, d = known n := fun d hd =>
    (Option.isSome_iff_exists.1 (List.all_eq_true.1 hloop d hd)).imp fun _ => known?_eq_some_iff.1
  refine ⟨order, loop, s', hmakes, ?_⟩
  constructor
  case axes => rfl
  case shape => rfl
  case nodup => exact loop.order.nodup.map (Option.some_injective _)
  case starts =>
    have hprefix : output.dims <+: unifiedDims output inputs := prefix_foldl_addDim
    have haxes : output.dims.map (·.1) = output.order.axes :=
      List.map_fst_zip (Nat.le_of_eq output.rank_eq.symm)
    exact haxes ▸ hprefix.map (·.1)
  case contains => exact fun a => mem_axes_loopType_iff
  case sizes => exact fun e he => hsizes.size_eq (dims_loopType ▸ he)
  case covers =>
    refine forall₂_of_zip htables.length_eq fun e he => ?_
    have hx := (List.of_mem_zip he).1
    obtain ⟨r, r', hmakes⟩ := (zip_of_forall₂ htables).2 e he
    exact covers_of_makes rfl (hsizes.broadcasts hx) hloop (hchecked _ hx) (dims_loopType ▸ hmakes)
  case padded =>
    refine fun ceiling hceiling => ⟨_, pad_eq_ok hceiling hrank hlen, rfl, ?_⟩
    rw [List.map_map]
    exact List.map_congr_left fun ds hds => visits_pad hknown ((hlen ds hds).trans hrank.symm) _

theorem rank_strip (a : Axis) (n : Nat) :
    [known n].length = (⟨[a], List.nodup_singleton a⟩ : Order).rank := rfl

/-- A tensor with one axis. -/
def strip (a : Axis) (n : Nat) : TensorType :=
  ⟨[known n], ⟨[a], List.nodup_singleton a⟩, rank_strip a n⟩

theorem nodup_sheet : [Axis.width, Axis.channel].Nodup := by decide

theorem rank_sheet (m n : Nat) :
    [known m, known n].length = (⟨[.width, .channel], nodup_sheet⟩ : Order).rank := rfl

/-- A tensor with two axes. -/
def sheet (m n : Nat) : TensorType :=
  ⟨[known m, known n], ⟨[.width, .channel], nodup_sheet⟩, rank_sheet m n⟩

theorem mergeable_sheet : Mergeable (strip .channel 3) [strip .width 1, sheet 5 3]
    (fun a => if a = .width then 5 else 3) := by
  have hsort : TensorType.byRank [strip .width 1, sheet 5 3] = [sheet 5 3, strip .width 1] := by
    simp [TensorType.byRank, List.mergeSort, strip, sheet, TensorType.rank]
  have hrow : known 3 = known (if Axis.channel = .width then 5 else 3) :=
    congrArg known (if_neg (by decide)).symm
  constructor
  · constructor
    · exact List.forall_mem_singleton.2 hrow
    · refine List.forall_mem_cons.2 ⟨List.forall_mem_singleton.2 (.inr rfl), ?_⟩
      exact List.forall_mem_singleton.2
        (List.forall_mem_cons.2 ⟨.inl rfl, List.forall_mem_singleton.2 (.inl hrow)⟩)
  · intro a ha d hd
    rw [hsort] at hd
    by_cases hwidth : a = .width
    · obtain rfl := hwidth
      cases hd
      rfl
    · obtain ⟨x, hx, hd⟩ := List.exists_of_findSome?_eq_some hd
      have hmem := Operator.mem_axes_of_dims (Operator.mem_of_lookup hd)
      simp only [strip, sheet, List.mem_cons, List.not_mem_nil, or_false] at hx ha
      rcases hx with rfl | rfl <;> simp_all

theorem checked_strip (a : Axis) {n : Nat} (hn : n < wordLimit) : Checked (strip a n).shape where
  dims := List.forall_mem_singleton.2 rfl
  leading ns hns := by
    cases ns with
    | nil => decide
    | cons m ns =>
      obtain ⟨hm, hrest⟩ := List.cons_prefix_cons.1 hns
      obtain rfl := Dim.known.inj hm
      obtain rfl := List.map_eq_nil_iff.1 (List.prefix_nil.1 hrest)
      rwa [List.prod_singleton]

theorem checked_sheet : ∀ x ∈ [strip .channel 3, strip .width 1, sheet 5 3], Checked x.shape := by
  have hsheet : Gives (TensorType.make [known 5, known 3] (sheet 5 3).order) {} (sheet 5 3) {} :=
    rfl
  exact List.forall_mem_cons.2 ⟨checked_strip _ (by decide), List.forall_mem_cons.2
    ⟨checked_strip _ (by decide), List.forall_mem_singleton.2 (checked_of_make hsheet)⟩⟩

/-- A row of channels, a strip that is broadcast along the width, and a sheet that has both axes the
other way round. The sheet has the higher rank. -/
theorem unify_covers_sheet :
    Mergeable (strip .channel 3) [strip .width 1, sheet 5 3]
        (fun a => if a = .width then 5 else 3) ∧
      (∀ x ∈ [strip .channel 3, strip .width 1, sheet 5 3], Checked x.shape) ∧
      ∃ order loop s', Makes (unify (strip .channel 3) [strip .width 1, sheet 5 3]) {} order s' ∧
        order.Unifies loop (strip .channel 3) [strip .width 1, sheet 5 3]
          (fun a => if a = .width then 5 else 3) :=
  ⟨mergeable_sheet, checked_sheet, unify_covers mergeable_sheet checked_sheet {}⟩

/-- A common size does not suffice: a strip of size one can come before a longer one, which is not
read to its end then, and in an empty loop no operand of size one is read. -/
theorem unify_leaves :
    (CommonSizes (strip .channel 1) [strip .width 1, strip .width 2]
        (fun a => if a = .width then 2 else 1) ∧
      (∀ x ∈ [strip .channel 1, strip .width 1, strip .width 2], Checked x.shape) ∧
      ∃ order s' ds, Makes (unify (strip .channel 1) [strip .width 1, strip .width 2]) {} order s' ∧
        order.strides[2]? = some ds ∧ 1 < (strip .width 2).sizes.prod ∧
        some 1 ∉ visits order.shape ds) ∧
    CommonSizes (strip .channel 0) [strip .channel 1] (fun _ => 0) ∧
      (∀ x ∈ [strip .channel 0, strip .channel 1], Checked x.shape) ∧
      ∃ order s' ds, Makes (unify (strip .channel 0) [strip .channel 1]) {} order s' ∧
        order.strides[1]? = some ds ∧ 0 < (strip .channel 1).sizes.prod ∧
        some 0 ∉ visits order.shape ds := by
  have hne : Axis.channel ≠ Axis.width := by decide
  refine ⟨⟨⟨?_, ?_⟩, ?_, ?_⟩, ⟨?_, ?_⟩, ?_, ?_⟩
  · exact List.forall_mem_singleton.2 (congrArg known (if_neg hne).symm)
  · simp [strip, TensorType.dims]
  · exact List.forall_mem_cons.2 ⟨checked_strip _ (by decide), List.forall_mem_cons.2
      ⟨checked_strip _ (by decide), List.forall_mem_singleton.2 (checked_strip _ (by decide))⟩⟩
  · have hsort : TensorType.byRank [strip .width 1, strip .width 2] =
        [strip .width 1, strip .width 2] := by
      simp [TensorType.byRank, List.mergeSort, strip, TensorType.rank]
    have hmakes : Makes (unify (strip .channel 1) [strip .width 1, strip .width 2]) {}
        ⟨[some .channel, some .width], [known 1, known 1],
          [[known 1, known 0], [known 0, known 1], [known 0, known 1]]⟩ {} := by
      rw [unify, unifiedDims, hsort]
      rfl
    exact ⟨_, _, _, hmakes, rfl, by decide, by decide⟩
  · exact List.forall_mem_singleton.2 rfl
  · exact List.forall_mem_singleton.2 (List.forall_mem_singleton.2 (.inr rfl))
  · exact List.forall_mem_cons.2
      ⟨checked_strip _ (by decide), List.forall_mem_singleton.2 (checked_strip _ (by decide))⟩
  · have hsort : TensorType.byRank [strip .channel 1] = [strip .channel 1] :=
      List.mergeSort_singleton _
    have hmakes : Makes (unify (strip .channel 0) [strip .channel 1]) {}
        ⟨[some .channel], [known 0], [[known 1], [known 0]]⟩ {} := by
      rw [unify, unifiedDims, hsort]
      rfl
    exact ⟨_, _, _, hmakes, rfl, by decide, by decide⟩

end IterationOrder

end TensorCompiler
