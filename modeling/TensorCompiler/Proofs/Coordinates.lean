import Mathlib.Algebra.Order.BigOperators.Group.List
import Mathlib.Algebra.Order.Ring.Nat
import TensorCompiler.Proofs.Evaluation
/-!
# Coordinates and offsets

The elements of a tensor lie in row-major order, so a position in the data is a coordinate along
each axis. Reading one tensor at the coordinates of another wraps around along the axes where the
first one is shorter.

* `offset`, `coordinate`: from coordinates to a position and back.
* `coordinate_offset`, `offset_coordinate`: the two undo each other.
* `Stretches`: the axes of one tensor are axes of another, of the same size or of size one.
* `offset_stretched`: reading through a tensor in between reads the same element.
* `sourceIndex_wrap`: the source index of a broadcast read is the offset of its coordinates.
-/

namespace TensorCompiler

/-! ## Positions -/

/-- The row-major position of the element with these coordinates, which wrap around. -/
def offset : List Axis → List Nat → (Axis → Nat) → Nat
  | a :: axes, n :: sizes, c => c a % n * sizes.prod + offset axes sizes c
  | _, _, _ => 0

/-- The coordinate along an axis of the element at a row-major position. -/
def coordinate : List Axis → List Nat → Nat → Axis → Nat
  | a :: axes, n :: sizes, i, b =>
    if b = a then i / sizes.prod % n else coordinate axes sizes i b
  | _, _, _, _ => 0

theorem offset_congr {axes : List Axis} {sizes : List Nat} {c d : Axis → Nat}
    (h : ∀ e ∈ axes.zip sizes, c e.1 % e.2 = d e.1 % e.2) :
    offset axes sizes c = offset axes sizes d := by
  induction axes generalizing sizes with
  | nil => rfl
  | cons a axes ih =>
    cases sizes with
    | nil => rfl
    | cons n sizes =>
      rw [List.zip_cons_cons, List.forall_mem_cons] at h
      rw [offset, offset, h.1, ih h.2]

theorem offset_lt {axes : List Axis} {sizes : List Nat} (c : Axis → Nat) (h : 0 < sizes.prod) :
    offset axes sizes c < sizes.prod := by
  induction axes generalizing sizes with
  | nil => simpa [offset] using h
  | cons a axes ih =>
    cases sizes with
    | nil => simp [offset]
    | cons n sizes =>
      rw [List.prod_cons] at h ⊢
      have hn : 0 < n := Nat.pos_of_mul_pos_right h
      have hrest : offset axes sizes c < sizes.prod := ih (Nat.pos_of_mul_pos_left h)
      have hwrap : c a % n + 1 ≤ n := Nat.mod_lt _ hn
      calc c a % n * sizes.prod + offset axes sizes c
          < c a % n * sizes.prod + sizes.prod := by omega
        _ = (c a % n + 1) * sizes.prod := by rw [Nat.add_mul, Nat.one_mul]
        _ ≤ n * sizes.prod := Nat.mul_le_mul_right _ hwrap

/-- Whole blocks before an element leave its coordinates alone. -/
theorem coordinate_add {axes : List Axis} {sizes : List Nat} (k i : Nat) (a : Axis) :
    coordinate axes sizes (k * sizes.prod + i) a = coordinate axes sizes i a := by
  induction axes generalizing sizes k with
  | nil => rfl
  | cons b axes ih =>
    cases sizes with
    | nil => rfl
    | cons n sizes =>
      have hblock : k * (n :: sizes).prod + i = k * n * sizes.prod + i := by
        rw [List.prod_cons, Nat.mul_assoc]
      rw [hblock, coordinate, coordinate, ih]
      split
      · rcases Nat.eq_zero_or_pos sizes.prod with hz | hpos
        · rw [hz, Nat.mul_zero, Nat.zero_add]
        · have hdiv : (k * n * sizes.prod + i) / sizes.prod = k * n + i / sizes.prod := by
            rw [Nat.mul_comm, Nat.mul_add_div hpos]
          rw [hdiv, Nat.add_comm, Nat.add_mul_mod_self_right]
      · rfl

theorem coordinate_offset {axes : List Axis} {sizes : List Nat} {c : Axis → Nat} {a : Axis}
    {n : Nat} (hnodup : axes.Nodup) (hpos : 0 < sizes.prod) (ha : (a, n) ∈ axes.zip sizes) :
    coordinate axes sizes (offset axes sizes c) a = c a % n := by
  induction axes generalizing sizes with
  | nil => cases ha
  | cons b axes ih =>
    cases sizes with
    | nil => cases ha
    | cons m sizes =>
      obtain ⟨hb, hnodup⟩ := List.nodup_cons.1 hnodup
      have hrest : 0 < sizes.prod := by
        rw [List.prod_cons] at hpos
        exact Nat.pos_of_mul_pos_left hpos
      rw [offset, coordinate]
      rcases List.mem_cons.1 ha with e | ha
      · obtain ⟨rfl, rfl⟩ := Prod.mk.inj e
        have hlt : offset axes sizes c < sizes.prod := offset_lt c hrest
        rw [if_pos rfl, Nat.mul_comm, Nat.mul_add_div hrest, Nat.div_eq_of_lt hlt, Nat.add_zero,
          Nat.mod_mod]
      · have hab : a ≠ b := ne_of_mem_of_not_mem (List.of_mem_zip ha).1 hb
        rw [if_neg hab, coordinate_add, ih hnodup hrest ha]

theorem offset_coordinate {axes : List Axis} {sizes : List Nat} (hnodup : axes.Nodup)
    (hlen : axes.length = sizes.length) (i : Nat) :
    offset axes sizes (coordinate axes sizes i) = i % sizes.prod := by
  induction axes generalizing sizes with
  | nil =>
    rw [List.length_nil, eq_comm, List.length_eq_zero_iff] at hlen
    simp [hlen, offset, Nat.mod_one]
  | cons a axes ih =>
    cases sizes with
    | nil => cases hlen
    | cons n sizes =>
      obtain ⟨ha, hnodup⟩ := List.nodup_cons.1 hnodup
      have hrest : offset axes sizes (coordinate (a :: axes) (n :: sizes) i) =
          offset axes sizes (coordinate axes sizes i) := by
        refine offset_congr fun e he => ?_
        have hne : e.1 ≠ a := ne_of_mem_of_not_mem (List.of_mem_zip he).1 ha
        rw [coordinate, if_neg hne]
      rw [offset, hrest, ih hnodup (Nat.succ.inj hlen), coordinate, if_pos rfl, Nat.mod_mod,
        List.prod_cons, Nat.mul_comm n, Nat.mod_mul, Nat.mul_comm, Nat.add_comm]

/-! ## Strides -/

/-- Row-major strides as numbers of any size. -/
def strideList : List Nat → List Nat
  | [] => []
  | _ :: sizes => sizes.prod :: strideList sizes

theorem length_strideList (sizes : List Nat) : (strideList sizes).length = sizes.length := by
  induction sizes with
  | nil => rfl
  | cons n sizes ih => simp [strideList, ih]

theorem wordStrides_eq {sizes strides : List Nat} (h : wordStrides sizes = some strides) :
    strides = strideList sizes := by
  induction sizes generalizing strides with
  | nil => simpa [wordStrides, strideList, eq_comm] using h
  | cons m sizes ih =>
    cases sizes with
    | nil => simpa [wordStrides, strideList, eq_comm] using h
    | cons n sizes =>
      simp only [wordStrides, bind, pure, Option.bind_eq_some_iff, Option.some.injEq] at h
      obtain ⟨inner, hinner, outer, houter, rfl⟩ := h
      rw [ih hinner, strideList, List.headD_cons] at houter
      simp only [Arith.apply] at houter
      split at houter
      · cases houter
        rw [ih hinner, strideList, strideList, List.prod_cons, Nat.mul_comm]
        rfl
      · cases houter

/-! ## Source indices -/

/-- What one output axis adds to the source index. -/
def sourcePart (map : CoordinateMap) (sources : List SourceAxis) (e : Axis × Nat × Nat) :
    Option Nat :=
  match sources.find? (·.axis = e.1) with
  | none => some 0
  | some s => do Arith.mul.apply (← map s e.2.1 e.2.2) s.stride

theorem sourceStep_eq_some_iff {map : CoordinateMap} {sources : List SourceAxis} {i k : Nat}
    {e : Axis × Nat × Nat} (hi : i < wordLimit) : sourceStep map sources i e = some k ↔
      ∃ p, sourcePart map sources e = some p ∧ i + p = k ∧ k < wordLimit := by
  unfold sourceStep sourcePart
  cases sources.find? (·.axis = e.1) with
  | none =>
    constructor
    · intro h
      cases h
      exact ⟨0, rfl, rfl, hi⟩
    · rintro ⟨p, hp, rfl, -⟩
      cases hp
      rfl
  | some s =>
    simp only [bind, Option.bind_eq_some_iff]
    constructor
    · rintro ⟨c, hc, p, hp, hk⟩
      simp only [Arith.apply] at hk
      split at hk
      · next hlt =>
        cases hk
        exact ⟨p, ⟨c, hc, hp⟩, rfl, hlt⟩
      · cases hk
    · rintro ⟨p, ⟨c, hc, hp⟩, rfl, hk⟩
      exact ⟨c, hc, p, hp, by simp [Arith.apply, hk]⟩

/-- The source index is the sum of what the output axes add. -/
theorem sourceIndex_eq_some_iff {map : CoordinateMap} {sources : List SourceAxis}
    {walk : List (Axis × Nat × Nat)} {k : Nat} : sourceIndex map sources walk = some k ↔
      ∃ parts, List.Forall₂ (fun e p => sourcePart map sources e = some p) walk parts ∧
        parts.sum = k ∧ k < wordLimit := by
  suffices key : ∀ i < wordLimit, walk.foldlM (sourceStep map sources) i = some k ↔
      ∃ parts, List.Forall₂ (fun e p => sourcePart map sources e = some p) walk parts ∧
        i + parts.sum = k ∧ k < wordLimit by
    rw [sourceIndex_eq, key 0 (by decide)]
    simp
  induction walk with
  | nil =>
    intro i hi
    constructor
    · intro h
      cases h
      exact ⟨[], .nil, rfl, hi⟩
    · rintro ⟨parts, hparts, rfl, -⟩
      cases hparts
      rfl
  | cons e walk ih =>
    intro i hi
    simp only [List.foldlM_cons, bind, Option.bind_eq_some_iff]
    constructor
    · rintro ⟨j, hj, hk⟩
      obtain ⟨p, hp, rfl, hlt⟩ := (sourceStep_eq_some_iff hi).1 hj
      obtain ⟨parts, hparts, hsum, hk⟩ := (ih _ hlt).1 hk
      exact ⟨p :: parts, .cons hp hparts, by rw [List.sum_cons, ← Nat.add_assoc, hsum], hk⟩
    · rintro ⟨parts, hparts, hsum, hk⟩
      cases hparts with
      | @cons _ p _ parts hp hparts =>
        rw [List.sum_cons, ← Nat.add_assoc] at hsum
        have hlt : i + p < wordLimit := by omega
        exact ⟨i + p, (sourceStep_eq_some_iff hi).2 ⟨p, hp, rfl, hlt⟩,
          (ih _ hlt).2 ⟨parts, hparts, hsum, hk⟩⟩

/-! ## Reading at the coordinates of a longer tensor -/

theorem walkOf_eq {axes : List Axis} {sizes : List Nat} (hnodup : axes.Nodup) (i : Nat) :
    walkOf axes sizes i =
      (axes.zip sizes).map fun e => (e.1, coordinate axes sizes i e.1, e.2) := by
  induction axes generalizing sizes with
  | nil => rfl
  | cons a axes ih =>
    cases sizes with
    | nil => rfl
    | cons n sizes =>
      obtain ⟨ha, hnodup⟩ := List.nodup_cons.1 hnodup
      have hhead : walkOf (a :: axes) (n :: sizes) i =
          (a, i / sizes.prod % n, n) :: walkOf axes sizes i := by
        simp [walkOf, unravel, foldr_mul_eq_prod]
      rw [hhead, ih hnodup, List.zip_cons_cons, List.map_cons, coordinate, if_pos rfl]
      congr 1
      refine List.map_congr_left fun e he => ?_
      have hne : e.1 ≠ a := ne_of_mem_of_not_mem (List.of_mem_zip he).1 ha
      rw [coordinate, if_neg hne]

/-- The axes of an input, with positions counted from `k`. -/
def sourcesFrom (k : Nat) (axes : List Axis) (sizes strides : List Nat) : List SourceAxis :=
  ((axes.zipIdx k).zip (sizes.zip strides)).map
    fun ((axis, position), size, stride) => SourceAxis.mk axis position size stride

theorem axis_of_mem_sourcesFrom {k : Nat} {axes : List Axis} {sizes strides : List Nat}
    {s : SourceAxis} (hs : s ∈ sourcesFrom k axes sizes strides) : s.axis ∈ axes := by
  obtain ⟨⟨⟨a, j⟩, n, m⟩, he, rfl⟩ := List.mem_map.1 hs
  exact List.fst_mem_of_mem_zipIdx (List.of_mem_zip he).1

/-- What one output axis adds to the source index when coordinates wrap around. -/
def wrapPart (sources : List SourceAxis) (e : Axis × Nat × Nat) : Nat :=
  match sources.find? (·.axis = e.1) with
  | none => 0
  | some s => e.2.1 % s.size * s.stride

theorem sum_map_single {axes : List Axis} {a : Axis} (hnodup : axes.Nodup) (ha : a ∈ axes)
    (x : Nat) : (axes.map fun b => if b = a then x else 0).sum = x := by
  induction axes with
  | nil => cases ha
  | cons b axes ih =>
    obtain ⟨hb, hnodup⟩ := List.nodup_cons.1 hnodup
    rw [List.map_cons, List.sum_cons]
    by_cases hab : b = a
    · have hrest : ∀ c ∈ axes, (if c = a then x else 0) = 0 := fun c hc =>
        if_neg (ne_of_mem_of_not_mem hc (hab ▸ hb))
      rw [if_pos hab, List.map_congr_left hrest]
      simp
    · have ha' : a ∈ axes := (List.mem_cons.1 ha).resolve_left fun h => hab h.symm
      rw [if_neg hab, Nat.zero_add, ih hnodup ha']

theorem sum_wrapPart {k : Nat} {axes : List Axis} {sizes : List Nat}
    {walk : List (Axis × Nat × Nat)} {c : Axis → Nat} (hnodup : axes.Nodup)
    (hwalk : (walk.map (·.1)).Nodup) (hmem : ∀ a ∈ axes, a ∈ walk.map (·.1))
    (hc : ∀ e ∈ walk, e.2.1 = c e.1) :
    (walk.map (wrapPart (sourcesFrom k axes sizes (strideList sizes)))).sum =
      offset axes sizes c := by
  have hnone : (walk.map (wrapPart [])).sum = 0 := by
    have hzero : ∀ e ∈ walk, wrapPart [] e = 0 := fun _ _ => rfl
    rw [List.map_congr_left hzero]
    simp
  induction axes generalizing k sizes with
  | nil => simpa [sourcesFrom, offset] using hnone
  | cons a axes ih =>
    cases sizes with
    | nil => simpa [sourcesFrom, offset] using hnone
    | cons n sizes =>
      obtain ⟨ha, hnodup⟩ := List.nodup_cons.1 hnodup
      obtain ⟨ha', hmem⟩ := List.forall_mem_cons.1 hmem
      have hsplit : ∀ e ∈ walk,
          wrapPart (sourcesFrom k (a :: axes) (n :: sizes) (strideList (n :: sizes))) e =
            (if e.1 = a then c a % n * sizes.prod else 0) +
              wrapPart (sourcesFrom (k + 1) axes sizes (strideList sizes)) e := by
        intro e he
        have hcons : sourcesFrom k (a :: axes) (n :: sizes) (strideList (n :: sizes)) =
            ⟨a, k, n, sizes.prod⟩ :: sourcesFrom (k + 1) axes sizes (strideList sizes) := rfl
        rw [hcons]
        unfold wrapPart
        by_cases hea : e.1 = a
        · have hnone : (sourcesFrom (k + 1) axes sizes (strideList sizes)).find?
              (·.axis = e.1) = none := by
            rw [List.find?_eq_none]
            intro s hs
            simpa [hea] using ne_of_mem_of_not_mem (axis_of_mem_sourcesFrom hs) ha
          rw [List.find?_cons_of_pos (by simp [hea]), hnone, if_pos hea, hc e he, hea]
          rfl
        · have hae : ¬a = e.1 := fun h => hea h.symm
          rw [List.find?_cons_of_neg (by simp [hae]), if_neg hea, Nat.zero_add]
      have hsingle := sum_map_single hwalk ha' (c a % n * sizes.prod)
      rw [List.map_map] at hsingle
      rw [List.map_congr_left hsplit, List.sum_map_add, ih hnodup hmem, offset]
      exact congrArg (· + _) hsingle

/-- The axes of one tensor are among those of another, where they have the same size unless the
first one has size one. -/
def Stretches (axes : List Axis) (sizes : List Nat) (axes' : List Axis) (sizes' : List Nat) :
    Prop :=
  ∀ a n, (a, n) ∈ axes.zip sizes → ∃ m, (a, m) ∈ axes'.zip sizes' ∧ (n = m ∨ n = 1)

section

variable {axes axes' axes'' : List Axis} {sizes sizes' sizes'' : List Nat}

theorem exists_mem_zip_of_axis (hlen : axes.length = sizes.length) {a : Axis} (ha : a ∈ axes) :
    ∃ n, (a, n) ∈ axes.zip sizes := by
  rw [← List.map_fst_zip (Nat.le_of_eq hlen)] at ha
  obtain ⟨⟨b, n⟩, he, rfl⟩ := List.mem_map.1 ha
  exact ⟨n, he⟩

theorem Stretches.pos (h : Stretches axes sizes axes' sizes') (hlen : axes.length = sizes.length)
    (hpos : 0 < sizes'.prod) : 0 < sizes.prod := by
  rw [List.prod_pos_iff_forall_pos_nat] at hpos ⊢
  intro n hn
  rw [← List.map_snd_zip (Nat.le_of_eq hlen.symm)] at hn
  obtain ⟨⟨a, n⟩, he, rfl⟩ := List.mem_map.1 hn
  obtain ⟨m, hm, hnm⟩ := h a n he
  have hmpos : 0 < m := hpos m (List.of_mem_zip hm).2
  show 0 < n
  omega

/-- Reading at coordinates through a tensor in between reads the same element. -/
theorem offset_stretched (h : Stretches axes sizes axes' sizes') (hnodup : axes'.Nodup)
    (hpos : 0 < sizes'.prod) (c : Axis → Nat) :
    offset axes sizes (coordinate axes' sizes' (offset axes' sizes' c)) = offset axes sizes c := by
  refine offset_congr fun e he => ?_
  obtain ⟨m, hm, hnm⟩ := h e.1 e.2 he
  rw [coordinate_offset hnodup hpos hm]
  rcases hnm with rfl | hone
  · exact Nat.mod_mod _ _
  · rw [hone, Nat.mod_one, Nat.mod_one]

/-- What the axes add to the index of a broadcast read. -/
theorem sum_wrapPart_walkOf (h : Stretches axes sizes axes' sizes') (hnodup : axes.Nodup)
    (hnodup' : axes'.Nodup) (hlen : axes.length = sizes.length)
    (hlen' : axes'.length = sizes'.length) (i : Nat) :
    ((walkOf axes' sizes' i).map (wrapPart (sourceAxes axes sizes (strideList sizes)))).sum =
      offset axes sizes (coordinate axes' sizes' i) := by
  have hfst : (walkOf axes' sizes' i).map (·.1) = axes' := by
    rw [walkOf_eq hnodup', List.map_map]
    exact List.map_fst_zip (Nat.le_of_eq hlen')
  refine sum_wrapPart (k := 0) hnodup (by rwa [hfst]) (fun a ha => ?_) fun e he => ?_
  · obtain ⟨n, hn⟩ := exists_mem_zip_of_axis hlen ha
    obtain ⟨m, hm, -⟩ := h a n hn
    rw [hfst]
    exact (List.of_mem_zip hm).1
  · rw [walkOf_eq hnodup'] at he
    obtain ⟨e', -, rfl⟩ := List.mem_map.1 he
    rfl

/-- The source index of a broadcast read. -/
theorem sourceIndex_wrap (h : Stretches axes sizes axes' sizes') (hnodup : axes.Nodup)
    (hnodup' : axes'.Nodup) (hlen : axes.length = sizes.length)
    (hlen' : axes'.length = sizes'.length) (hfits : sizes.prod < wordLimit)
    (hpos : 0 < sizes'.prod) (i : Nat) :
    sourceIndex .wrap (sourceAxes axes sizes (strideList sizes)) (walkOf axes' sizes' i) =
      some (offset axes sizes (coordinate axes' sizes' i)) := by
  have hsizes := h.pos hlen hpos
  have hlt : offset axes sizes (coordinate axes' sizes' i) < sizes.prod := offset_lt _ hsizes
  have hsum := sum_wrapPart_walkOf h hnodup hnodup' hlen hlen' i
  refine sourceIndex_eq_some_iff.2 ⟨_, ?_, hsum, by omega⟩
  rw [List.forall₂_map_right_iff]
  refine List.forall₂_same.2 fun e he => ?_
  have hpart : wrapPart (sourceAxes axes sizes (strideList sizes)) e < wordLimit := by
    have hle : wrapPart (sourceAxes axes sizes (strideList sizes)) e ≤ _ :=
      List.single_le_sum (fun _ _ => Nat.zero_le _) _ (List.mem_map_of_mem he)
    omega
  unfold sourcePart
  unfold wrapPart at hpart ⊢
  split
  · rfl
  · next s hs =>
    obtain ⟨⟨⟨a, k⟩, n, m⟩, hz, rfl⟩ := List.mem_map.1 (List.mem_of_find?_eq_some hs)
    have hn : 0 < n :=
      List.prod_pos_iff_forall_pos_nat.1 hsizes n (List.of_mem_zip (List.of_mem_zip hz).2).1
    have hn' : n ≠ 0 := by omega
    rw [hs] at hpart
    simp only [] at hpart
    simp [CoordinateMap.wrap, Arith.apply, hn', hpart]

variable {α : Type}

/-- A broadcast read of the element at each position. -/
theorem gather_wrap_ok_iff {type : TensorType} {order : Order} {data r : Array α}
    (hshape : type.shape = sizes.map .known) (hsized : sizes.prod < wordLimit)
    (hdata : data.size = sizes.prod) (hlen : order.axes.length = sizes'.length)
    (h : Stretches type.order.axes sizes order.axes sizes') :
    gather .wrap sizes' order (type, data) = .ok r ↔
      (wordStrides sizes).isSome ∧ r.size = sizes'.prod ∧ ∀ i < sizes'.prod,
        r[i]? = data[offset type.order.axes sizes (coordinate order.axes sizes' i)]? := by
  have hrank : type.order.axes.length = sizes.length := by
    have := type.rank_eq
    rw [hshape, List.length_map] at this
    exact this.symm
  have hindex : ∀ i < sizes'.prod,
      sourceIndex .wrap (sourceAxes type.order.axes sizes (strideList sizes))
        (walkOf order.axes sizes' i) =
      some (offset type.order.axes sizes (coordinate order.axes sizes' i)) := fun i hi =>
    sourceIndex_wrap h type.order.nodup order.nodup hrank hlen hsized (by omega) i
  rw [gather_ok_iff]
  constructor
  · rintro ⟨ns, strides, hns, -, hstrides, hr, hread⟩
    obtain rfl := map_known_injective (hshape.symm.trans hns)
    refine ⟨Option.isSome_of_eq_some hstrides, hr, fun i hi => ?_⟩
    obtain ⟨k, y, hk, hy, hri⟩ := hread i hi
    rw [wordStrides_eq hstrides, hindex i hi, Option.some.injEq] at hk
    rw [hri, hk, hy]
  · rintro ⟨hstrides, hr, hread⟩
    obtain ⟨strides, hstrides⟩ := Option.isSome_iff_exists.1 hstrides
    refine ⟨sizes, strides, hshape, hdata, hstrides, hr, fun i hi => ?_⟩
    have hlt : offset type.order.axes sizes (coordinate order.axes sizes' i) < data.size :=
      hdata ▸ offset_lt _ (h.pos hrank (by omega))
    refine ⟨_, data[offset type.order.axes sizes (coordinate order.axes sizes' i)], ?_,
      Array.getElem?_eq_getElem hlt, ?_⟩
    · rw [wordStrides_eq hstrides, hindex i hi]
    · rw [hread i hi, Array.getElem?_eq_getElem hlt]

end

end TensorCompiler
