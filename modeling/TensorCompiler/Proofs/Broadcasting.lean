import TensorCompiler.Proofs.Coordinates
import TensorCompiler.Proofs.Typing
/-!
# Broadcasting

A pointwise operator reads its inputs at the coordinates of its output. On inputs of known shape
that are broadcast into the output, its value is described element by element.

* `TensorType.Broadcasts`: the first type is broadcast into the second.
* `evaluate_broadcast_iff`: the value of a pointwise operator, one element at a time.
* `exists_evaluate_broadcast`: there is a value if the operator can be computed at every element.
-/

namespace TensorCompiler

namespace TensorType

/-- The known dimensions, in order. -/
def sizes (t : TensorType) : List Nat := t.shape.filterMap Dim.known?

theorem sizes_eq {t : TensorType} {ns : List Nat} (h : t.shape = ns.map .known) : t.sizes = ns := by
  rw [sizes, h, List.filterMap_map]
  exact List.filterMap_some

theorem shape_eq_of_isConcrete {t : TensorType} (h : t.isConcrete = true) :
    t.shape = t.sizes.map .known := by
  have hall : ∀ d ∈ t.shape, ∃ n, d = .known n := by
    intro d hd
    have hknown : d.isKnown = true := List.all_eq_true.1 h d hd
    obtain ⟨n, hn⟩ := Option.isSome_iff_exists.1 hknown
    exact ⟨n, Dim.known?_eq_some_iff.1 hn⟩
  unfold sizes
  generalize t.shape = ds at hall
  induction ds with
  | nil => rfl
  | cons d ds ih =>
    obtain ⟨⟨n, rfl⟩, hrest⟩ := List.forall_mem_cons.1 hall
    have hcons : (Dim.known n :: ds).filterMap Dim.known? = n :: ds.filterMap Dim.known? := rfl
    rw [hcons, List.map_cons, ← ih hrest]

theorem isConcrete_of_shape {t : TensorType} {ns : List Nat} (h : t.shape = ns.map .known) :
    t.isConcrete = true := by
  unfold isConcrete
  rw [h]
  simp [Dim.isKnown, Dim.known?]

theorem length_sizes {t : TensorType} (h : t.isConcrete = true) :
    t.order.axes.length = t.sizes.length := by
  have hrank : t.shape.length = t.order.rank := t.rank_eq
  rw [shape_eq_of_isConcrete h, List.length_map] at hrank
  exact hrank.symm

/-- The dimensions of `x` are dimensions of `y`, except for those of size one. -/
def Broadcasts (x y : TensorType) : Prop :=
  ∀ e ∈ x.dims, ∃ d, (e.1, d) ∈ y.dims ∧ ((d == e.2) = true ∨ e.2.is 1 = true)

theorem Broadcasts.trans {x y z : TensorType} (h : x.Broadcasts y) (k : y.Broadcasts z) :
    x.Broadcasts z := by
  intro e he
  obtain ⟨d, hd, hde⟩ := h e he
  obtain ⟨c, hc, hcd⟩ := k (e.1, d) hd
  refine ⟨c, hc, ?_⟩
  rcases hde with hde | hone
  · rcases hcd with hcd | hone
    · exact .inl (Dim.beq_trans hcd hde)
    · exact .inr (Operator.is_congr hde 1 ▸ hone)
  · exact .inr hone

theorem Broadcasts.isConcrete {x y : TensorType} (h : x.Broadcasts y) (hy : y.isConcrete = true) :
    x.isConcrete = true := by
  refine List.all_eq_true.2 fun d hd => ?_
  have hrank : x.order.axes.length = x.shape.length := x.rank_eq.symm
  rw [← List.map_snd_zip (Nat.le_of_eq hrank.symm)] at hd
  obtain ⟨e, he, rfl⟩ := List.mem_map.1 hd
  obtain ⟨c, hc, hce | hone⟩ := h e he
  · have hknown : c.isKnown = true := List.all_eq_true.1 hy c (mem_dims_shape hc)
    unfold Dim.isKnown at hknown ⊢
    rwa [← (Dim.beq_iff.1 hce).1]
  · rw [Operator.is_iff.1 hone]
    rfl

theorem mem_dims_iff {t : TensorType} (h : t.isConcrete = true) {a : Axis} {n : Nat} :
    (a, Dim.known n) ∈ t.dims ↔ (a, n) ∈ t.order.axes.zip t.sizes := by
  have hdims : t.dims = (t.order.axes.zip t.sizes).map fun e => (e.1, Dim.known e.2) := by
    rw [dims, shape_eq_of_isConcrete h, List.zip_map_right]
    rfl
  rw [hdims, List.mem_map]
  constructor
  · rintro ⟨⟨b, m⟩, he, e⟩
    cases e
    exact he
  · intro he
    exact ⟨(a, n), he, rfl⟩

theorem Broadcasts.stretches {x y : TensorType} (h : x.Broadcasts y) (hy : y.isConcrete = true) :
    Stretches x.order.axes x.sizes y.order.axes y.sizes := by
  intro a n hn
  have hx : x.isConcrete = true := h.isConcrete hy
  obtain ⟨d, hd, hdn⟩ := h _ ((mem_dims_iff hx).2 hn)
  have hknown : d.isKnown = true := List.all_eq_true.1 hy d (mem_dims_shape hd)
  obtain ⟨m, hm⟩ := Option.isSome_iff_exists.1 hknown
  obtain rfl := Dim.known?_eq_some_iff.1 hm
  refine ⟨m, (mem_dims_iff hy).1 hd, ?_⟩
  rcases hdn with hdn | hone
  · have hmn := (Dim.beq_iff.1 hdn).1
    simp only [Dim.known?, Option.some.injEq] at hmn
    exact .inl hmn.symm
  · have hn1 := Operator.is_iff.1 hone
    simp only [Dim.known.injEq] at hn1
    exact .inr hn1

end TensorType

/-! ## Pointwise operators -/

section

variable {α : Type}

/-- The interpreter can address every element of an input of known shape. -/
def Addressable (x : TensorType × Array α) : Prop :=
  x.2.size = x.1.sizes.prod ∧ (wordStrides x.1.sizes).isSome

/-- Where an input is read for the element of an output at a position. -/
def TensorType.sourcePosition (x output : TensorType) (i : Nat) : Nat :=
  offset x.order.axes x.sizes (coordinate output.order.axes output.sizes i)

theorem TensorType.Broadcasts.pos {x output : TensorType} (h : x.Broadcasts output)
    (hout : output.isConcrete = true) (hpos : 0 < output.sizes.prod) : 0 < x.sizes.prod :=
  (h.stretches hout).pos (length_sizes (h.isConcrete hout)) hpos

theorem TensorType.Broadcasts.sourcePosition_lt {x output : TensorType} (h : x.Broadcasts output)
    (hout : output.isConcrete = true) {i : Nat} (hi : i < output.sizes.prod) :
    x.sourcePosition output i < x.sizes.prod :=
  offset_lt _ (h.pos hout (by omega))

/-- Reading through a tensor in between reads the same element. -/
theorem TensorType.Broadcasts.sourcePosition_through {x y z : TensorType} (h : x.Broadcasts y)
    (k : y.Broadcasts z) (hz : z.isConcrete = true) {i : Nat} (hi : i < z.sizes.prod) :
    x.sourcePosition y (y.sourcePosition z i) = x.sourcePosition z i :=
  offset_stretched (h.stretches (k.isConcrete hz)) y.order.nodup (k.pos hz (by omega)) _

theorem TensorType.sourcePosition_self {x : TensorType} (hx : x.isConcrete = true) {i : Nat}
    (hi : i < x.sizes.prod) : x.sourcePosition x i = i := by
  rw [sourcePosition, offset_coordinate x.order.nodup (length_sizes hx), Nat.mod_eq_of_lt hi]

/-- The element of an input that belongs to the element of an output at a position. -/
def elementAt? (x : TensorType × Array α) (output : TensorType) (i : Nat) : Option α :=
  x.2[x.1.sourcePosition output i]?

theorem gather_broadcast_ok_iff {x : TensorType × Array α} {output : TensorType} {r : Array α}
    (h : x.1.Broadcasts output) (hout : output.isConcrete = true) (hsized : Sized x.1.shape) :
    gather .wrap output.sizes output.order x = .ok r ↔ Addressable x ∧
      r.size = output.sizes.prod ∧ ∀ i < output.sizes.prod, r[i]? = elementAt? x output i := by
  obtain ⟨type, data⟩ := x
  have hshape := TensorType.shape_eq_of_isConcrete (h.isConcrete hout)
  have hgather : ∀ hdata : data.size = type.sizes.prod,
      gather .wrap output.sizes output.order (type, data) = .ok r ↔
        (wordStrides type.sizes).isSome ∧ r.size = output.sizes.prod ∧
        ∀ i < output.sizes.prod, r[i]? = elementAt? (type, data) output i := fun hdata =>
    gather_wrap_ok_iff hshape (hsized _ hshape) hdata (TensorType.length_sizes hout)
      (h.stretches hout)
  constructor
  · intro hr
    obtain ⟨ns, -, hns, hdata, -⟩ := gather_ok_iff.1 hr
    obtain rfl := map_known_injective (hshape.symm.trans hns)
    obtain ⟨hstrides, hsize, hread⟩ := (hgather hdata).1 hr
    exact ⟨⟨hdata, hstrides⟩, hsize, hread⟩
  · rintro ⟨⟨hdata, hstrides⟩, hsize, hread⟩
    exact (hgather hdata).2 ⟨hstrides, hsize, hread⟩

theorem exists_array {P : Nat → α → Prop} (n : Nat) (h : ∀ i < n, ∃ y, P i y) :
    ∃ r : Array α, r.size = n ∧ ∀ i < n, ∃ y, P i y ∧ r[i]? = some y := by
  induction n with
  | zero => exact ⟨#[], rfl, fun i hi => absurd hi (Nat.not_lt_zero i)⟩
  | succ n ih =>
    obtain ⟨r, hsize, hr⟩ := ih fun i hi => h i (Nat.lt_succ_of_lt hi)
    obtain ⟨y, hy⟩ := h n (Nat.lt_succ_self n)
    refine ⟨r.push y, by rw [Array.size_push, hsize], fun i hi => ?_⟩
    rw [Array.getElem?_push, hsize]
    by_cases hin : i = n
    · exact ⟨y, hin ▸ hy, by rw [if_pos hin]⟩
    · rw [if_neg hin]
      exact hr i (by omega)

theorem exists_elementAt {x : TensorType × Array α} {output : TensorType} {i : Nat}
    (h : x.1.Broadcasts output) (hout : output.isConcrete = true) (haddr : Addressable x)
    (hi : i < output.sizes.prod) : ∃ y, elementAt? x output i = some y := by
  have hlt : x.1.sourcePosition output i < x.2.size := haddr.1 ▸ h.sourcePosition_lt hout hi
  exact ⟨_, Array.getElem?_eq_getElem hlt⟩

theorem exists_gather_broadcast {x : TensorType × Array α} {output : TensorType}
    (h : x.1.Broadcasts output) (hout : output.isConcrete = true) (hsized : Sized x.1.shape)
    (haddr : Addressable x) : ∃ r, gather .wrap output.sizes output.order x = .ok r := by
  obtain ⟨r, hsize, hr⟩ := exists_array (P := fun i y => elementAt? x output i = some y)
    output.sizes.prod fun i hi => exists_elementAt h hout haddr hi
  refine ⟨r, (gather_broadcast_ok_iff h hout hsized).2 ⟨haddr, hsize, fun i hi => ?_⟩⟩
  obtain ⟨y, hy, hri⟩ := hr i hi
  rw [hri, hy]

variable [Scalar α] {f : Pointwise α} {inputs : List (TensorType × Array α)} {output : TensorType}

omit [Scalar α] in
/-- The columns that a pointwise operator combines hold the elements of its inputs. -/
theorem columns_iff {columns : List (Array α)} (hout : output.isConcrete = true)
    (hin : ∀ x ∈ inputs, x.1.Broadcasts output ∧ Sized x.1.shape)
    (hcolumns : List.Forall₂ (fun x c => gather .wrap output.sizes output.order x = .ok c)
      inputs columns) {i : Nat} (hi : i < output.sizes.prod) (xs : List α) :
    List.Forall₂ (fun column y => column[i]? = some y) columns xs ↔
      List.Forall₂ (fun x y => elementAt? x output i = some y) inputs xs := by
  induction hcolumns generalizing xs with
  | nil =>
    constructor
    · intro h
      cases h
      exact .nil
    · intro h
      cases h
      exact .nil
  | @cons x column _ _ hc _ ih =>
    obtain ⟨⟨hx, hsized⟩, hin⟩ := List.forall_mem_cons.1 hin
    have hread : column[i]? = elementAt? x output i :=
      ((gather_broadcast_ok_iff hx hout hsized).1 hc).2.2 i hi
    constructor
    · intro h
      cases h with
      | cons hy hys => exact .cons (hread ▸ hy) ((ih hin _).1 hys)
    · intro h
      cases h with
      | cons hy hys => exact .cons (hread ▸ hy) ((ih hin _).2 hys)

/-- A pointwise operator is evaluated on inputs of known shape only. -/
theorem isConcrete_of_evaluate {r : Array α}
    (h : (Operator.pointwise f).evaluate inputs output = .ok r) :
    ∀ x ∈ inputs, x.1.isConcrete = true := by
  obtain ⟨shape, columns, -, hcolumns, -⟩ := evaluate_pointwise_ok_iff.1 h
  obtain ⟨hlen, hzip⟩ := zip_of_forall₂ hcolumns
  intro x hx
  obtain ⟨c, hc⟩ := exists_mem_zip hlen hx
  obtain ⟨ns, -, hns, -⟩ := gather_ok_iff.1 (hzip _ hc)
  exact TensorType.isConcrete_of_shape hns

/-- The value of a pointwise operator on inputs that are broadcast into its output. -/
theorem evaluate_broadcast_iff {r : Array α} (hout : output.isConcrete = true)
    (hin : ∀ x ∈ inputs, x.1.Broadcasts output ∧ Sized x.1.shape) :
    (Operator.pointwise f).evaluate inputs output = .ok r ↔ (∀ x ∈ inputs, Addressable x) ∧
      r.size = output.sizes.prod ∧ ∀ i < output.sizes.prod, ∃ xs y,
        List.Forall₂ (fun x e => elementAt? x output i = some e) inputs xs ∧
        f.eval? xs = some y ∧ r[i]? = some y := by
  have hshape := TensorType.shape_eq_of_isConcrete hout
  rw [evaluate_pointwise_ok_iff]
  constructor
  · rintro ⟨shape, columns, hs, hcolumns, hr⟩
    obtain rfl := map_known_injective (hshape.symm.trans hs)
    obtain ⟨hsize, hr⟩ := combine_ok_iff.1 hr
    refine ⟨fun x hx => ?_, hsize, fun i hi => ?_⟩
    · obtain ⟨hlen, hzip⟩ := zip_of_forall₂ hcolumns
      obtain ⟨c, hc⟩ := exists_mem_zip hlen hx
      exact ((gather_broadcast_ok_iff (hin x hx).1 hout (hin x hx).2).1 (hzip _ hc)).1
    · obtain ⟨xs, y, hxs, hy, hri⟩ := hr i hi
      exact ⟨xs, y, (columns_iff hout hin hcolumns hi xs).1 hxs, hy, hri⟩
  · rintro ⟨haddr, hsize, hr⟩
    obtain ⟨columns, hcolumns⟩ : ∃ columns, List.Forall₂
        (fun x c => gather .wrap output.sizes output.order x = .ok c) inputs columns := by
      refine exists_forall₂ fun x hx => ?_
      exact exists_gather_broadcast (hin x hx).1 hout (hin x hx).2 (haddr x hx)
    refine ⟨output.sizes, columns, hshape, hcolumns, combine_ok_iff.2 ⟨hsize, fun i hi => ?_⟩⟩
    obtain ⟨xs, y, hxs, hy, hri⟩ := hr i hi
    exact ⟨xs, y, (columns_iff hout hin hcolumns hi xs).2 hxs, hy, hri⟩

/-- A pointwise operator has a value if it can be computed at every element. -/
theorem exists_evaluate_broadcast (hout : output.isConcrete = true)
    (hin : ∀ x ∈ inputs, x.1.Broadcasts output ∧ Sized x.1.shape ∧ Addressable x)
    (hf : ∀ xs : List α, xs.length = inputs.length → ∃ y, f.eval? xs = some y) :
    ∃ r, (Operator.pointwise f).evaluate inputs output = .ok r := by
  have hvalue : ∀ i < output.sizes.prod, ∃ y, ∃ xs,
      List.Forall₂ (fun x e => elementAt? x output i = some e) inputs xs ∧ f.eval? xs = some y := by
    intro i hi
    obtain ⟨xs, hxs⟩ := exists_forall₂ fun x hx =>
      exists_elementAt (hin x hx).1 hout (hin x hx).2.2 hi
    obtain ⟨y, hy⟩ := hf xs hxs.length_eq.symm
    exact ⟨y, xs, hxs, hy⟩
  obtain ⟨r, hsize, hr⟩ := exists_array output.sizes.prod hvalue
  refine ⟨r, (evaluate_broadcast_iff hout fun x hx => ⟨(hin x hx).1, (hin x hx).2.1⟩).2
    ⟨fun x hx => (hin x hx).2.2, hsize, fun i hi => ?_⟩⟩
  obtain ⟨y, ⟨xs, hxs, hy⟩, hri⟩ := hr i hi
  exact ⟨xs, y, hxs, hy, hri⟩

end

end TensorCompiler
