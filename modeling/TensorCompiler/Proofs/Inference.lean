import TensorCompiler.Proofs.Typing
import TensorCompiler.Proofs.ExactScalars
/-!
# Repeating shape inference

The type of an output is inferred once, when its operator is added. Afterwards axes are renamed
and inputs are replaced, and the derived symbols of the output keep the numbers they got then.
Nevertheless inference could be repeated at any time: it would succeed, and the type it gives
differs from that of the output at most in the numbers of derived symbols.

* `Dim.Alike`: dimensions that differ at most in those numbers.
* `infer_renewed`: inference on relabelled inputs, from any supply of symbols.
* `Session.inferred`: inference can be repeated for every live operator of a built graph.
-/

namespace TensorCompiler

open Dim

/-! ## Derived symbols under other numbers -/

/-- The dimensions differ at most in the numbers of their derived symbols. -/
structure Dim.Alike (x y : Dim) : Prop where
  known : x.known? = y.known?
  overflowed : x.overflowed = y.overflowed
  resolve : ∀ env, x.resolve env = y.resolve env

namespace Dim.Alike

variable {x x' y y' z d d' : Dim} {op : Arith} {s s₁ r r₁ : Supply}

theorem refl (x : Dim) : x.Alike x := ⟨rfl, rfl, fun _ => rfl⟩

theorem symm (h : x.Alike y) : y.Alike x :=
  ⟨h.known.symm, h.overflowed.symm, fun env => (h.resolve env).symm⟩

theorem trans (h : x.Alike y) (k : y.Alike z) : x.Alike z :=
  ⟨h.known.trans k.known, h.overflowed.trans k.overflowed,
    fun env => (h.resolve env).trans (k.resolve env)⟩

theorem isKnown (h : x.Alike y) : x.isKnown = y.isKnown := by
  unfold Dim.isKnown
  rw [h.known]

theorem derived (hx : x.Alike x') (hy : y.Alike y') (k k' : Nat) :
    (Dim.derived k op x y).Alike (.derived k' op x' y') where
  known := rfl
  overflowed := by
    simp only [Dim.overflowed, hx.isKnown, hy.isKnown, hx.overflowed, hy.overflowed]
  resolve env := by simp only [Dim.resolve, hx.resolve env, hy.resolve env]

/-- Whether a step needs a symbol does not depend on the numbers of the symbols at hand. -/
theorem simplify (hx : x.Alike x') (hy : y.Alike y') :
    Option.Rel Alike (simplify? op x y) (simplify? op x' y') := by
  unfold simplify?
  rw [← hx.known, ← hy.known]
  split
  · next a b _ _ =>
    cases op.apply a b with
    | none => exact .none
    | some c => exact .some (refl _)
  · cases op
    all_goals first
      | exact .none
      | (dsimp only; split; exacts [.some hx, .none])
  · cases op
    all_goals first
      | exact .none
      | (dsimp only; split; exacts [.some hy, .none])
  · exact .none

theorem combine (hx : x.Alike x') (hy : y.Alike y') (h : Makes (combine op x y) s d s₁)
    (h' : Makes (Dim.combine op x' y') r d' r₁) : d.Alike d' := by
  have hrel : Option.Rel Alike (simplify? op x y) (simplify? op x' y') := simplify hx hy
  rcases combine_makes_iff.1 h with ⟨e, -⟩ | ⟨e, rfl, -⟩
  · rcases combine_makes_iff.1 h' with ⟨e', -⟩ | ⟨e', -, -⟩
    · rw [e, e'] at hrel
      cases hrel with
      | some hd => exact hd
    · rw [e, e'] at hrel
      cases hrel
  · rcases combine_makes_iff.1 h' with ⟨e', -⟩ | ⟨-, rfl, -⟩
    · rw [e, e'] at hrel
      cases hrel
    · exact hx.derived hy _ _

end Dim.Alike

/-- Shapes that differ at most in the numbers of derived symbols. -/
abbrev ShapesAlike : List Dim → List Dim → Prop := List.Forall₂ Dim.Alike

theorem ShapesAlike.refl (ds : List Dim) : ShapesAlike ds ds :=
  List.forall₂_same.2 fun d _ => .refl d

theorem ShapesAlike.symm {ds es : List Dim} (h : ShapesAlike ds es) : ShapesAlike es ds :=
  h.flip.imp fun _ _ h => h.symm

theorem ShapesAlike.trans {ds es fs : List Dim} (h : ShapesAlike ds es) (k : ShapesAlike es fs) :
    ShapesAlike ds fs := by
  induction h generalizing fs with
  | nil => exact k
  | cons hd _ ih =>
    cases k with
    | cons he k => exact .cons (hd.trans he) (ih k)

theorem ShapesAlike.resolve {ds es : List Dim} (h : ShapesAlike ds es) (env : Valuation) :
    ds.map (Dim.resolve env) = es.map (Dim.resolve env) := by
  induction h with
  | nil => rfl
  | cons hd _ ih => rw [List.map_cons, List.map_cons, hd.resolve env, ih]

theorem ShapesAlike.product {ds es : List Dim} {d e : Dim} {s s₁ r r₁ : Supply}
    (h : ShapesAlike ds es) (hd : Makes (Dim.product ds) s d s₁)
    (he : Makes (Dim.product es) r e r₁) : d.Alike e := by
  suffices gen : ∀ a b s r, Dim.Alike a b → Makes (ds.foldlM (combine .mul) a) s d s₁ →
      Makes (es.foldlM (combine .mul) b) r e r₁ → d.Alike e from gen _ _ _ _ (.refl _) hd he
  clear hd he
  induction h with
  | nil =>
    intro a b s r hab hd he
    obtain ⟨rfl, -⟩ := makes_pure_iff.1 hd
    obtain ⟨rfl, -⟩ := makes_pure_iff.1 he
    exact hab
  | cons hxy _ ih =>
    intro a b s r hab hd he
    rw [List.foldlM_cons, makes_bind_iff] at hd he
    obtain ⟨a', s', ha, hd⟩ := hd
    obtain ⟨b', r', hb, he⟩ := he
    exact ih a' b' s' r' (hab.combine hxy ha hb) hd he

/-- Shapes named in one table are told apart by the comparison. -/
theorem eq_of_shape_beq {σ : Names} {n m : Nat} {ds es : List Dim} (hd : ∀ d ∈ ds, d.Named σ n)
    (he : ∀ e ∈ es, e.Named σ m) (h : (ds == es) = true) : ds = es := by
  rw [shape_beq_iff] at h
  induction h with
  | nil => rfl
  | cons hde _ ih =>
    obtain ⟨hd, hds⟩ := List.forall_mem_cons.1 hd
    obtain ⟨he, hes⟩ := List.forall_mem_cons.1 he
    rw [eq_of_same hd he hde, ih hds hes]

/-- A computation that only creates symbols makes something from any supply. -/
theorem exists_makes {β : Type} (x : FreshM β) (s : Supply) : ∃ b s₁, Makes x s b s₁ := ⟨_, _, rfl⟩

/-- The check of a shape can be repeated on one that is alike. -/
theorem make_renewed {ds es : List Dim} {o p : Order} {t : TensorType} {s s₁ : Supply}
    (h : Gives (TensorType.make ds o) s t s₁) (k : ShapesAlike ds es) (hp : p.rank = o.rank)
    (r : Supply) : ∃ u r₁, Gives (TensorType.make es p) r u r₁ ∧ u.order = p ∧ u.shape = es := by
  obtain ⟨hshape, horder, size, hsize, hf⟩ := make_gives_iff.1 h
  have hrank : es.length = p.rank := by
    rw [← k.length_eq, ← hshape, t.rank_eq, horder, hp]
  obtain ⟨size', r₁, hsize'⟩ := exists_makes (Dim.product es) r
  refine ⟨⟨es, p, hrank⟩, r₁, make_gives_iff.2 ⟨rfl, rfl, size', hsize', fun e he => ?_⟩, rfl, rfl⟩
  rcases List.mem_append.1 he with he | he
  · obtain ⟨d, hd, hde⟩ := exists_of_forall₂_right k he
    rw [← hde.overflowed]
    exact hf d (List.mem_append_left _ hd)
  · rw [List.mem_singleton.1 he, ← (k.product hsize hsize').overflowed]
    exact hf size (List.mem_append_right _ (List.mem_singleton_self _))

/-! ## Inference on relabelled inputs -/

/-- The second type has the shape of the first one, under axes renamed by `f`. -/
structure TensorType.Relabels (f : Axis → Axis) (x y : TensorType) : Prop where
  axes : y.order.axes = x.order.axes.map f
  shape : y.shape = x.shape

/-- A dimension under its renamed axis. -/
def relabel (f : Axis → Axis) (e : Axis × Dim) : Axis × Dim := (f e.1, e.2)

namespace TensorType.Relabels

variable {f : Axis → Axis} {x y : TensorType}

theorem refl (x : TensorType) : x.Relabels id x := ⟨(List.map_id _).symm, rfl⟩

theorem rank (h : x.Relabels f y) : y.rank = x.rank := congrArg List.length h.shape

theorem dims (h : x.Relabels f y) : y.dims = x.dims.map (relabel f) := by
  unfold TensorType.dims
  rw [h.axes, h.shape, List.zip_map_left]
  rfl

theorem renamed (h : x.Relabels f y) : x.Renamed f y :=
  ⟨h.axes, h.shape ▸ shape_beq_refl x.shape⟩

/-- A renaming whose result repeats no axis merges none. -/
theorem injective (h : x.Relabels f y) {a b : Axis} (ha : a ∈ x.order.axes)
    (hb : b ∈ x.order.axes) (e : f a = f b) : a = b :=
  List.inj_on_of_nodup_map (h.axes ▸ y.order.nodup) ha hb e

theorem indexOf? (h : x.Relabels f y) {a : Axis} {i : Nat} (hi : x.order.indexOf? a = some i) :
    y.order.indexOf? (f a) = some i := by
  have ha : a ∈ x.order.axes := List.isSome_idxOf?.1 (Option.isSome_of_eq_some hi)
  unfold Order.indexOf? at hi ⊢
  rw [h.axes]
  have hinj : ∀ b ∈ x.order.axes, f b = f a → b = a := fun b hb e => h.injective hb ha e
  clear ha h
  generalize x.order.axes = axes at hi hinj
  induction axes generalizing i with
  | nil => simp at hi
  | cons b axes ih =>
    obtain ⟨hb, hinj⟩ := List.forall_mem_cons.1 hinj
    rw [List.idxOf?_cons] at hi
    rw [List.map_cons, List.idxOf?_cons]
    by_cases hba : b = a
    · subst hba
      simpa using hi
    · have hne : f b ≠ f a := fun e => hba (hb e)
      simp only [beq_iff_eq, hba, hne, if_false] at hi ⊢
      obtain ⟨j, hj, rfl⟩ := Option.map_eq_some_iff.1 hi
      rw [ih hj hinj]
      rfl

end TensorType.Relabels

section Relabelling

variable {f : Axis → Axis} {types types' : List TensorType}

theorem lookup_relabel {dims : List (Axis × Dim)} {a : Axis}
    (hinj : ∀ d ∈ dims, f d.1 = f a → d.1 = a) :
    (dims.map (relabel f)).lookup (f a) = dims.lookup a := by
  induction dims with
  | nil => rfl
  | cons d dims ih =>
    obtain ⟨hd, hinj⟩ := List.forall_mem_cons.1 hinj
    rw [List.map_cons, relabel, List.lookup_cons, List.lookup_cons, ih hinj]
    by_cases hab : a = d.1
    · rw [hab, beq_self_eq_true, beq_self_eq_true]
    · rw [beq_false_of_ne hab, beq_false_of_ne fun e => hab (hd e.symm).symm]

theorem broadcastDim_relabel {clash clash' : Axis → GraphError} {dims dims' : List (Axis × Dim)}
    {e : Axis × Dim} (hinj : ∀ d ∈ dims, f d.1 = f e.1 → d.1 = e.1)
    (h : TensorType.broadcastDim clash dims e = .ok dims') :
    TensorType.broadcastDim clash' (dims.map (relabel f)) (relabel f e) =
      .ok (dims'.map (relabel f)) := by
  obtain ⟨a, size⟩ := e
  rw [show relabel f (a, size) = (f a, size) from rfl]
  simp only [TensorType.broadcastDim] at h ⊢
  rw [lookup_relabel hinj]
  split at h
  · next hnone =>
    cases h
    rw [hnone, List.map_append]
    rfl
  · next present hpresent =>
    rw [hpresent]
    dsimp only
    split at h
    · next hsize =>
      cases h
      rw [if_pos hsize]
    · next hsize =>
      rw [if_neg hsize]
      split at h
      · next hone =>
        cases h
        rw [if_pos hone, List.map_map, List.map_map]
        refine congrArg _ (List.map_congr_left fun d hd => ?_)
        have hda : f d.1 = f a ↔ d.1 = a := ⟨hinj d hd, congrArg f⟩
        simp only [Function.comp_apply, relabel, hda]
        split <;> rfl
      · cases h

theorem byRank_relabel (h : List.Forall₂ (TensorType.Relabels f) types types') :
    List.Forall₂ (TensorType.Relabels f) (TensorType.byRank types) (TensorType.byRank types') := by
  -- Both lists are sorted alike, so sort the pairs of a type and its image.
  obtain ⟨pairs, hpairs, rfl, rfl⟩ : ∃ pairs : List (TensorType × TensorType),
      (∀ p ∈ pairs, p.1.Relabels f p.2) ∧ types = pairs.map (·.1) ∧ types' = pairs.map (·.2) := by
    obtain ⟨hlen, hzip⟩ := zip_of_forall₂ h
    exact ⟨types.zip types', hzip, (List.map_fst_zip (Nat.le_of_eq hlen)).symm,
      (List.map_snd_zip (Nat.le_of_eq hlen.symm)).symm⟩
  let le (p q : TensorType × TensorType) : Bool := decide (q.1.rank ≤ p.1.rank)
  have hfst : (pairs.mergeSort le).map (·.1) = TensorType.byRank (pairs.map (·.1)) :=
    List.map_mergeSort fun p _ q _ => rfl
  have hsnd : (pairs.mergeSort le).map (·.2) = TensorType.byRank (pairs.map (·.2)) := by
    refine List.map_mergeSort fun p hp q hq => ?_
    simp only [le, (hpairs p hp).rank, (hpairs q hq).rank]
  rw [← hfst, ← hsnd, List.forall₂_map_left_iff, List.forall₂_map_right_iff]
  exact List.forall₂_same.2 fun p hp => hpairs p (List.mem_mergeSort.1 hp)

theorem broadcastDims_relabel {clash clash' : Axis → GraphError} {dims : List (Axis × Dim)}
    (htypes : List.Forall₂ (TensorType.Relabels f) types types')
    (hinj : ∀ c ∈ dims.map (·.1), ∀ d ∈ dims.map (·.1), f c = f d → c = d)
    (h : TensorType.broadcastDims clash types = .ok dims) :
    TensorType.broadcastDims clash' types' = .ok (dims.map (relabel f)) := by
  have hentries : (TensorType.byRank types').flatMap TensorType.dims =
      ((TensorType.byRank types).flatMap TensorType.dims).map (relabel f) := by
    have hsorted := byRank_relabel htypes
    generalize TensorType.byRank types = xs at hsorted
    generalize TensorType.byRank types' = ys at hsorted
    induction hsorted with
    | nil => rfl
    | cons hxy _ ih => rw [List.flatMap_cons, List.flatMap_cons, List.map_append, ih, hxy.dims]
  -- Every axis that takes part is an axis of the result.
  have hmem : ∀ e ∈ (TensorType.byRank types).flatMap TensorType.dims, e.1 ∈ dims.map (·.1) := by
    intro e he
    obtain ⟨x, hx, he⟩ := List.mem_flatMap.1 he
    obtain ⟨d, hd, -⟩ := Operator.covered_broadcastDims h x (List.mem_mergeSort.1 hx) e he
    exact List.mem_map.2 ⟨(e.1, d), Operator.mem_of_lookup hd, rfl⟩
  unfold TensorType.broadcastDims at h ⊢
  rw [hentries]
  clear hentries htypes
  generalize (TensorType.byRank types).flatMap TensorType.dims = entries at h hmem
  suffices gen : ∀ acc : List (Axis × Dim), (∀ d ∈ acc, d.1 ∈ dims.map (·.1)) →
      entries.foldlM (TensorType.broadcastDim clash) acc = .ok dims →
      (entries.map (relabel f)).foldlM (TensorType.broadcastDim clash') (acc.map (relabel f)) =
        .ok (dims.map (relabel f)) from gen [] (fun _ hd => by cases hd) h
  clear h
  induction entries with
  | nil =>
    intro acc _ h
    rw [List.foldlM_nil, pure_ok_iff] at h
    rw [h]
    rfl
  | cons e entries ih =>
    intro acc hacc h
    obtain ⟨he, hmem⟩ := List.forall_mem_cons.1 hmem
    rw [List.foldlM_cons, bind_ok_iff] at h
    obtain ⟨acc', hstep, h⟩ := h
    rw [List.map_cons, List.foldlM_cons, bind_ok_iff]
    refine ⟨acc'.map (relabel f),
      broadcastDim_relabel (fun d hd => hinj _ (hacc d hd) _ he) hstep,
      ih hmem acc' (fun d hd => ?_) h⟩
    rcases mem_of_broadcastDim hstep hd with hd | rfl
    · exact hacc d hd
    · exact he

theorem sliceExtents_ok {fault fault' : Mismatch → GraphError} {i : Nat}
    {ranges : List (Dim × Nat × Nat × Nat)} {shape : List Dim}
    (h : Operator.sliceExtents fault i ranges = .ok shape) :
    Operator.sliceExtents fault' i ranges = .ok shape := by
  induction ranges generalizing i shape with
  | nil => exact h
  | cons r ranges ih =>
    obtain ⟨size, start, stop, step⟩ := r
    simp only [Operator.sliceExtents, guard_ok_iff, bind_ok_iff, pure_ok_iff] at h ⊢
    obtain ⟨hrange, hbound, rest, hrest, rfl⟩ := h
    exact ⟨hrange, hbound, rest, ih hrest, rfl⟩

theorem mapM_combine_renewed {op : Arith} {pairs : List (Dim × Nat)} {ds es : List Dim}
    {s s₁ r r₁ : Supply} (h : Makes (pairs.mapM fun p => combine op p.1 (known p.2)) s ds s₁)
    (h' : Makes (pairs.mapM fun p => combine op p.1 (known p.2)) r es r₁) : ShapesAlike ds es := by
  induction pairs generalizing s r ds es with
  | nil =>
    rw [List.mapM_nil, makes_pure_iff] at h h'
    rw [← h.1, ← h'.1]
    exact .nil
  | cons p pairs ih =>
    obtain ⟨d, s', ds', hd, hds, rfl⟩ := makes_mapM_cons_iff.1 h
    obtain ⟨e, r', es', he, hes, rfl⟩ := makes_mapM_cons_iff.1 h'
    exact .cons ((Dim.Alike.refl _).combine (.refl _) hd he) (ih hds hes)

/-- The check of a shape under renamed axes, from any supply of symbols. -/
theorem make_relabelled {ds es : List Dim} {o p : Order} {t : TensorType} {s s₁ : Supply}
    (h : Gives (TensorType.make ds o) s t s₁) (k : ShapesAlike ds es)
    (hp : p.axes = o.axes.map f) (r : Supply) : ∃ u r₁, Gives (TensorType.make es p) r u r₁ ∧
      u.order.axes = t.order.axes.map f ∧ ShapesAlike t.shape u.shape := by
  obtain ⟨hts, hto, -⟩ := make_gives_iff.1 h
  obtain ⟨u, r₁, hu, huo, hus⟩ := make_renewed (p := p) h k (by simp [Order.rank, hp]) r
  exact ⟨u, r₁, hu, by rw [huo, hp, hto], by rw [hts, hus]; exact k⟩

/-- The broadcast of renamed types, unless the renaming merges axes of the result. -/
theorem infer_pointwise_renewed {α : Type} {p : Pointwise α} {t : TensorType} {s s₁ : Supply}
    (h : Gives ((Operator.pointwise p).infer types) s t s₁)
    (htypes : List.Forall₂ (TensorType.Relabels f) types types')
    (hout : (t.order.axes.map f).Nodup) (r : Supply) :
    ∃ u r₁, Gives ((Operator.pointwise p).infer types') r u r₁ ∧
      u.order.axes = t.order.axes.map f ∧ ShapesAlike t.shape u.shape := by
  obtain ⟨hlen, dims, order, hdims, horder, hmake⟩ := infer_pointwise h
  have haxes : t.order.axes = dims.map (·.1) := by rw [(make_gives_iff.1 hmake).2.1, horder]
  have hinj := fun c hc d hd => List.inj_on_of_nodup_map (haxes ▸ hout) (x := c) (y := d) hc hd
  have hmap : (dims.map (relabel f)).map (·.1) = order.axes.map f := by
    rw [horder, List.map_map, List.map_map]
    rfl
  have halike : ShapesAlike (dims.map (·.2)) ((dims.map (relabel f)).map (·.2)) := by
    rw [List.map_map]
    exact .refl _
  have hnodup : ((dims.map (relabel f)).map (·.1)).Nodup := by
    rwa [hmap, horder, ← haxes]
  obtain ⟨u, r₁, hu, hrest⟩ := make_relabelled hmake halike (p := ⟨_, hnodup⟩) hmap r
  refine ⟨u, r₁, ?_, hrest⟩
  simp only [Operator.infer, gives_guard_iff, gives_bind_iff, gives_except_iff]
  exact ⟨Decidable.not_not.2 (htypes.length_eq ▸ hlen), _, r,
    ⟨broadcastDims_relabel htypes hinj hdims, rfl⟩, _, r, ⟨ofList_ok_iff.2 rfl, rfl⟩, hu⟩

/-- Inference succeeds again on inputs with renamed axes, whatever symbols were created in the
meantime, unless the renaming merges axes of the output. -/
theorem infer_renewed {α : Type} {op op' : Operator α} {t : TensorType} {s s₁ : Supply}
    (h : Gives (op.infer types) s t s₁) (hop : op.mapAxes f = .ok op')
    (htypes : List.Forall₂ (TensorType.Relabels f) types types')
    (hout : (t.order.axes.map f).Nodup) (r : Supply) :
    ∃ u r₁, Gives (op'.infer types') r u r₁ ∧ u.order.axes = t.order.axes.map f ∧
      ShapesAlike t.shape u.shape := by
  -- The only input, for the operators that take one.
  have sole : ∀ {x : TensorType}, types = [x] → ∃ y, types' = [y] ∧ x.Relabels f y := by
    rintro x rfl
    cases htypes with
    | cons hxy h =>
      cases h
      exact ⟨_, rfl, hxy⟩
  cases op with
  | pointwise p =>
    cases hop
    exact infer_pointwise_renewed h htypes hout r
  | tile m =>
    cases hop
    obtain ⟨x, hx, hrank, hzero, shape, s₂, hshape, hmake⟩ := infer_tile h
    obtain ⟨y, rfl, hxy⟩ := sole hx
    obtain ⟨shape', r₂, hshape'⟩ :=
      exists_makes ((x.shape.zip m).mapM fun p => combine .mul p.1 (known p.2)) r
    obtain ⟨u, r₁, hu, hrest⟩ :=
      make_relabelled hmake (mapM_combine_renewed hshape hshape') hxy.axes r₂
    refine ⟨u, r₁, ?_, hrest⟩
    simp only [Operator.infer, gives_guard_iff, gives_bind_iff, gives_except_iff,
      soleInput_ok_iff]
    exact ⟨y, r, ⟨rfl, rfl⟩, Decidable.not_not.2 (hxy.rank ▸ hrank), hzero, shape', r₂,
      gives_mapM_fresh_iff.2 (hxy.shape ▸ hshape'), hu⟩
  | slice start stop step =>
    cases hop
    obtain ⟨x, hx, hrank, fault, shape, hshape, hmake⟩ := infer_slice h
    obtain ⟨y, rfl, hxy⟩ := sole hx
    obtain ⟨u, r₁, hu, hrest⟩ := make_relabelled hmake (.refl shape) hxy.axes r
    refine ⟨u, r₁, ?_, hrest⟩
    simp only [Operator.infer, gives_guard_iff, gives_bind_iff, gives_except_iff,
      soleInput_ok_iff]
    refine ⟨y, r, ⟨rfl, rfl⟩, ?_, shape, r, ⟨sliceExtents_ok (hxy.shape ▸ hshape), rfl⟩, hu⟩
    rw [hxy.rank]
    simp [hrank]
  | reinterpret source target =>
    simp only [Operator.mapAxes, bind_ok_iff, pure_ok_iff, Operator.order_map_ok_iff] at hop
    obtain ⟨source', hs, target', hg, rfl⟩ := hop
    obtain ⟨x, hx, hrank, rfl, hmake⟩ := infer_reinterpret h
    obtain ⟨y, rfl, hxy⟩ := sole hx
    obtain ⟨u, r₁, hu, hrest⟩ := make_relabelled hmake (.refl x.shape) hg r
    refine ⟨u, r₁, ?_, hrest⟩
    simp only [Operator.infer, gives_guard_iff, gives_bind_iff, gives_except_iff,
      soleInput_ok_iff]
    refine ⟨y, r, ⟨rfl, rfl⟩, Decidable.not_not.2 ?_, Decidable.not_not.2 ?_, hxy.shape ▸ hu⟩
    · simpa [Order.rank, hs, hg] using hrank
    · exact Operator.order_ext (hxy.axes.trans hs.symm)
  | resize a m b n =>
    cases hop
    obtain ⟨x, i, j, hx, hab, hpos, hi, hj, hmake⟩ := infer_resize h
    obtain ⟨y, rfl, hxy⟩ := sole hx
    obtain ⟨u, r₁, hu, hrest⟩ := make_relabelled hmake (.refl _) hxy.axes r
    refine ⟨u, r₁, ?_, hrest⟩
    have mem : ∀ {c k}, x.order.indexOf? c = some k → c ∈ x.order.axes := fun h =>
      List.isSome_idxOf?.1 (Option.isSome_of_eq_some h)
    simp only [Operator.infer, gives_guard_iff, gives_bind_iff, gives_except_iff,
      soleInput_ok_iff]
    refine ⟨y, r, ⟨rfl, rfl⟩, fun e => hab (hxy.injective (mem hi) (mem hj) e), hpos, ?_⟩
    rw [hxy.indexOf? hi, hxy.indexOf? hj, hxy.shape]
    exact hu

end Relabelling

/-! ## Graphs -/

namespace Graph

variable {α : Type} {f : Axis → Axis} {m : VarId → VarId} {g h : Graph α}

/-- An edit that renames axes by `f`, lets the variable `m v` take the place of `v`, and keeps
all shapes. -/
structure KeepsShapes (f : Axis → Axis) (m : VarId → VarId) (g h : Graph α) : Prop
    extends Matches f m g h where
  /-- A variable and the one in its place have the same shape. -/
  shape : ∀ v t t', g.tensor v = .ok t → h.tensor (m v) = .ok t' → t'.type.shape = t.type.shape
  /-- What is still live was live before. -/
  live : ∀ v t' p, v.index < g.slots.size → h.slot? v = some (.live t' p) →
    ∃ t q, g.slot? v = some (.live t q) ∧ t.type.Relabels f t'.type

theorem KeepsShapes.relabels (k : KeepsShapes f m g h) {vs : List VarId} {ts ts' : List (Tensor α)}
    (hts : g.tensors vs = .ok ts) (hts' : h.tensors (vs.map m) = .ok ts') :
    List.Forall₂ (TensorType.Relabels f) (ts.map (·.type)) (ts'.map (·.type)) := by
  rw [Graph.tensors, mapM_ok_iff] at hts hts'
  rw [List.forall₂_map_left_iff] at hts'
  induction hts generalizing ts' with
  | nil =>
    cases hts'
    exact .nil
  | cons ht _ ih =>
    cases hts' with
    | cons ht' hts' =>
      obtain ⟨u, hu, hr⟩ := k.tensor _ _ ht
      obtain rfl := Except.ok.inj (ht'.symm.trans hu)
      exact .cons ⟨hr.axes, k.shape _ _ _ ht ht'⟩ (ih hts')

/-- Inference on what the operator reads now gives the type of its output, up to the numbers of
derived symbols. -/
def InferredAt (g : Graph α) (o : OpId) : Prop :=
  ∀ node ins ts t p, g.node? o = some node → g.inputsOf o = .ok ins → g.tensors ins = .ok ts →
    g.slot? node.output = some (.live t p) → ∃ s type s', Gives (node.op.infer (ts.map (·.type)))
      s type s' ∧ type.order = t.type.order ∧ ShapesAlike type.shape t.type.shape

/-- Inference can be repeated for every operator with a live output. -/
def Inferred (g : Graph α) : Prop := ∀ o, g.InferredAt o

theorem InferredAt.transfer (hg : g.Wellformed) (k : KeepsShapes f m g h) {o : OpId}
    (hinf : g.InferredAt o)
    (hnode : ∀ n', h.node? o = some n' → ∃ n, g.node? o = some n ∧ n'.inputs = n.inputs ∧
      n'.output = n.output ∧ n.op.mapAxes f = .ok n'.op) : h.InferredAt o := by
  intro n' ins' ts' t' p hn' hins' hts' hs'
  obtain ⟨n, hn, hi, ho, hop⟩ := hnode n' hn'
  obtain ⟨ins, hins⟩ := inputsOf_ok hg hn
  obtain ⟨ts, hts⟩ := tensors_ok_of_inputsOf hins
  obtain rfl := Except.ok.inj ((k.inputsOf hn hn' hi hins).symm.trans hins')
  rw [ho] at hs'
  obtain ⟨t, q, hs, ht⟩ := k.live n.output t' p (hg.output o n hn).1 hs'
  obtain ⟨s, type, s', hgives, horder, hshape⟩ := hinf n ins ts t q hn hins hts hs
  have hout : (type.order.axes.map f).Nodup := by
    rw [horder, ← ht.axes]
    exact t'.type.order.nodup
  obtain ⟨u, r', hu, huo, hus⟩ := infer_renewed hgives hop (k.relabels hts hts') hout s
  refine ⟨s, u, r', hu, Operator.order_ext (by rw [huo, horder, ht.axes]), ?_⟩
  rw [ht.shape]
  exact hus.symm.trans hshape

theorem Inferred.transfer (hg : g.Wellformed) (k : KeepsShapes f m g h) (hinf : g.Inferred)
    (hnode : ∀ o n', h.node? o = some n' → ∃ n, g.node? o = some n ∧ n'.inputs = n.inputs ∧
      n'.output = n.output ∧ n.op.mapAxes f = .ok n'.op) : h.Inferred :=
  fun o => (hinf o).transfer hg k (hnode o)

/-! ### What the edits keep -/

/-- An edit that leaves the types of all live variables as they are. -/
theorem keepsShapes_of_matches (k : Matches id id g h)
    (hs : ∀ v t' p, v.index < g.slots.size → h.slot? v = some (.live t' p) →
      ∃ t q, g.slot? v = some (.live t q) ∧ t'.type = t.type) : KeepsShapes id id g h where
  toMatches := k
  shape v t t' ht ht' := by
    obtain ⟨p, ht⟩ := tensor_ok_iff.1 ht
    obtain ⟨p', ht'⟩ := tensor_ok_iff.1 ht'
    obtain ⟨u, q, hu, e⟩ := hs v t' p' (slot?_lt ht) ht'
    rw [ht] at hu
    cases hu
    rw [e]
  live v t' p hlt hv := by
    obtain ⟨t, q, hv, e⟩ := hs v t' p hlt hv
    exact ⟨t, q, hv, e ▸ .refl t'.type⟩

theorem keepsShapes_push {t : Tensor α} {p : Option OpId} (hh : h.Wellformed)
    (hs : h.slots = g.slots.push (.live t p)) : KeepsShapes id id g h := by
  refine keepsShapes_of_matches (matches_push hh hs) fun v t' q hlt hv => ?_
  rcases slot?_of_push hs hv with hv | ⟨e, -⟩
  · exact ⟨t', q, hv, rfl⟩
  · rw [e] at hlt
    exact absurd hlt (Nat.lt_irrefl _)

theorem Inferred.of_same (hg : g.Wellformed) (hinf : g.Inferred) (k : SameArena g h)
    (hn : h.nodes = g.nodes) (hs : ∀ v t' p, h.slot? v = some (.live t' p) →
      ∃ t, g.slot? v = some (.live t p) ∧ t'.type = t.type) : h.Inferred := by
  refine hinf.transfer hg (keepsShapes_of_matches (matches_sameArena k hs) fun v t' p _ hv => ?_)
    fun o n hn' => ⟨n, ?_, rfl, rfl, Operator.mapAxes_id n.op⟩
  · obtain ⟨t, hv, e⟩ := hs v t' p hv
    exact ⟨t, p, hv, e⟩
  · rw [← hn']
    unfold node?
    rw [hn]

theorem inferred_addVariable (hg : g.Wellformed) (hinf : g.Inferred) (t : Tensor α) :
    (g.addVariable t).1.Inferred :=
  hinf.transfer hg (keepsShapes_push (wellformed_addVariable hg t) rfl)
    fun _ n hn => ⟨n, hn, rfl, rfl, Operator.mapAxes_id n.op⟩

theorem inferred_addInput (hg : g.Wellformed) (hinf : g.Inferred) (t : Tensor α) :
    (g.addInput t).1.Inferred :=
  (inferred_addVariable hg hinf (t.mark .input)).of_same (wellformed_addVariable hg _) ⟨rfl, rfl⟩
    rfl fun _ t _ hv => ⟨t, hv, rfl⟩

theorem inferred_addOp {op : Operator α} {ins : List VarId} {v : VarId} {s s' : Supply}
    (hg : g.Wellformed) (hinf : g.Inferred) (hop : Gives (g.addOp op ins) s (h, v) s') :
    h.Inferred := by
  have hh := wellformed_addOp hg hop
  obtain ⟨ws, ts, t, hw, hts, hi, rfl, -⟩ := addOp_gives_iff.1 hop
  obtain ⟨type, hinfer, rfl⟩ := inferTensor_gives_iff.1 hi
  have k := keepsShapes_push hh (rfl : (g.placeOp op ws _).slots = _)
  intro o
  by_cases ho : o = ⟨g.nodes.size⟩
  · subst ho
    intro n' ins' ts' t' p hn' hins' hts' hs'
    rw [node?_placeOp, if_pos rfl] at hn'
    cases hn'
    rw [slot?_push_new rfl] at hs'
    cases hs'
    have hres := resolve_of_mem_resolveEach hw
    obtain rfl := Except.ok.inj ((inputsOf_placeOp_new hh hres).symm.trans hins')
    obtain rfl := Except.ok.inj ((tensors_push rfl hts).symm.trans hts')
    exact ⟨s, type, s', hinfer, rfl, .refl type.shape⟩
  · refine (hinf o).transfer hg k fun n hn => ?_
    rcases node?_of_placeOp hn with hold | ⟨e, -⟩
    · exact ⟨n, hold, rfl, rfl, Operator.mapAxes_id n.op⟩
    · exact absurd e ho

theorem inferred_removeOperator {o : OpId} {node : Node α} (hg : g.Wellformed) (hinf : g.Inferred)
    (hr : g.removeOperator o = .ok (h, node)) : h.Inferred := by
  obtain ⟨ho, rfl⟩ := removeOperator_ok_iff.1 hr
  refine hinf.transfer hg (keepsShapes_of_matches (matches_detach hg ho) fun v t' q _ hv => ?_)
    fun p n hn => ?_
  · rcases slot?_of_detach hv with ⟨-, hv⟩ | ⟨-, -, r, hv⟩
    · exact ⟨t', q, hv, rfl⟩
    · exact ⟨t', r, hv, rfl⟩
  · rw [node?_detach] at hn
    split at hn
    · cases hn
    · exact ⟨n, hn, rfl, rfl, Operator.mapAxes_id n.op⟩

/-- In a graph whose dimensions have names, a replacement keeps all shapes. -/
theorem inferred_replaceVariable {old new : VarId} {σ : Names} {n : Nat} (hg : g.Wellformed)
    (hinf : g.Inferred) (hσ : g.AllTensors fun shape _ => ∀ d ∈ shape, d.Named σ n)
    (hr : g.replaceVariable old new = .ok h) : h.Inferred := by
  obtain ⟨a, b, -, -, ⟨-, rfl⟩ | ⟨hab, x, y, hx, hy, hs, ho, rfl⟩⟩ := replaceVariable_ok_iff.1 hr
  · exact hinf
  · obtain ⟨p, hx⟩ := tensor_ok_iff.1 hx
    obtain ⟨q, hy⟩ := tensor_ok_iff.1 hy
    have hshape : y.type.shape = x.type.shape :=
      (eq_of_shape_beq (hσ _ _ _ hx) (hσ _ _ _ hy) hs).symm
    refine hinf.transfer hg
      ⟨matches_redirect hg hab hx hy hs ho, fun v t t' ht ht' => ?_, fun v t' r _ hv => ?_⟩
      fun o n hn => ⟨n, hn, rfl, rfl, Operator.mapAxes_id n.op⟩
    · obtain ⟨r, ht⟩ := tensor_ok_iff.1 ht
      obtain ⟨r', ht'⟩ := tensor_ok_iff.1 ht'
      by_cases hva : v = a
      · rw [if_pos hva, slot?_redirect_new hab hy] at ht'
        rw [hva, hx] at ht
        cases ht
        cases ht'
        exact hshape
      · rw [if_neg hva] at ht'
        obtain ⟨u, hu, e, -⟩ := slot?_redirect_live x.marks hab hva ht
        rw [hu] at ht'
        cases ht'
        rw [e]
    · obtain ⟨-, t, hv', e, -⟩ := slot?_of_redirect hab hx hy hv
      exact ⟨t, r, hv', e ▸ .refl t'.type⟩

theorem inferred_markOutput {v : VarId} (hg : g.Wellformed) (hinf : g.Inferred)
    (hm : g.markOutput v = .ok h) : h.Inferred := by
  obtain ⟨w, -, -, hn, -⟩ := markOutput_ok hm
  refine hinf.of_same hg (sameArena_markOutput hm) hn fun u t p hu => ?_
  obtain ⟨t', hu', ht, -⟩ := slot?_of_markOutput hm hu
  exact ⟨t', hu', ht⟩

theorem inferred_induced {ins outs : List VarId} (hg : g.Wellformed) (hinf : g.Inferred)
    (hi : g.induced ins outs = .ok h) : h.Inferred := by
  obtain ⟨ins', outs', -, -, rfl⟩ := induced_ok hi
  exact hinf.of_same hg ⟨rfl, rfl⟩ rfl fun v t p hv => ⟨t, hv, rfl⟩

theorem inferred_renameAxes [Scalar α] {b : Bool} (hg : g.Wellformed) (hinf : g.Inferred)
    (hr : (g.renameAxes f).2 = .ok b) : (g.renameAxes f).1.Inferred := by
  -- A live place and its image: the shape is the same, the order is renamed.
  have image : ∀ v t' p, (g.renameAxes f).1.slot? v = some (.live t' p) →
      ∃ t, g.slot? v = some (.live t p) ∧ t.type.Relabels f t'.type := by
    intro v t' p hv'
    obtain ⟨t, hv, -⟩ := (sameArena_renameAxes g f).symm.live hv'
    obtain ⟨y, c, hy, hren⟩ := (renameAxes_ok hr).1 v _ hv
    rw [hv'] at hy
    cases hy
    obtain ⟨u, e, hu, -⟩ := Slot.renameAxes_live hren
    cases e
    obtain ⟨hshape, haxes⟩ := TensorType.rename?_eq_some hu
    exact ⟨t, hv, haxes, hshape⟩
  refine hinf.transfer hg ⟨matches_renameAxes hr, fun v t t' ht ht' => ?_, fun v t' p _ hv' => ?_⟩
    fun o n' hn' => node_of_renameAxes hr hn'
  · obtain ⟨q, ht⟩ := tensor_ok_iff.1 ht
    obtain ⟨p, ht'⟩ := tensor_ok_iff.1 ht'
    obtain ⟨u, hu, hrel⟩ := image v t' p ht'
    rw [ht] at hu
    cases hu
    exact hrel.shape
  · obtain ⟨t, hv, hrel⟩ := image v t' p hv'
    exact ⟨t, p, hv, hrel⟩

end Graph

/-- Inference can be repeated for every operator of a built graph. -/
theorem Session.inferred {α : Type} [Scalar α] {s : Supply} {ds : List Dim} {g : Graph α}
    (h : Session true s ds g) : g.Inferred := by
  induction h with
  | empty s => exact fun o node ins ts t p hn => by simp [Graph.node?] at hn
  | later _ _ ih => exact ih
  | word _ _ ih => exact ih
  | symbol _ _ ih => exact ih
  | arith _ _ _ _ ih => exact ih
  | dim _ _ _ ih => exact ih
  | addVariable h _ ih => exact Graph.inferred_addVariable h.wellformed ih _
  | addInput h _ ih => exact Graph.inferred_addInput h.wellformed ih _
  | markOutput h hm ih => exact Graph.inferred_markOutput h.wellformed ih hm
  | addOp h hop ih => exact Graph.inferred_addOp h.wellformed ih hop
  | removeOperator h hr ih => exact Graph.inferred_removeOperator h.wellformed ih hr
  | replaceVariable h hr ih =>
    obtain ⟨σ, hσ⟩ := h.named
    exact Graph.inferred_replaceVariable h.wellformed ih hσ.tensors hr
  | renameAxes f h hok ih =>
    obtain ⟨b, hok⟩ := hok rfl
    exact Graph.inferred_renameAxes h.wellformed ih hok
  | induced h hi ih => exact Graph.inferred_induced h.wellformed ih hi

/-! ## The arena of a built graph -/

namespace Graph

/-- What every sequence of successful edits keeps true of an arena. -/
structure Consistent {α : Type} (g : Graph α) : Prop where
  /-- Following the links from any handle of the arena ends at a live variable. -/
  resolves : ∀ v, v.index < g.slots.size →
    ∃ w t p, g.resolve v = .ok w ∧ g.slots[w.index]? = some (.live t p)
  /-- A live variable has a producer exactly if it is the output of a live operator, and then this
  operator is its producer. -/
  producers : ∀ v t p, g.slots[v.index]? = some (.live t p) → g.producer v = p ∧
    ∀ o, p = some o ↔ ∃ node, g.operator o = .ok node ∧ node.output = v
  /-- Inference on the inputs of a live operator, from any supply of symbols, gives the order of its
  output if that is live, and a shape with the same values under every valuation. -/
  infers : ∀ o node t, g.operator o = .ok node → g.tensor node.output = .ok t →
    ∃ ins ts, g.inputsOf o = .ok ins ∧ g.tensors ins = .ok ts ∧
      ∀ s, ∃ type s', Gives (node.op.infer (ts.map (·.type))) s type s' ∧
        type.order = t.type.order ∧
        ∀ env, type.shape.map (Dim.resolve env) = t.type.shape.map (Dim.resolve env)

variable {α : Type}

theorem producer_slot {g : Graph α} {v : VarId} {t : Tensor α} {p : Option OpId}
    (hv : g.slot? v = some (.live t p)) : g.producer v = p := by
  have hv' : g.slots[v.index]? = some (.live t p) := hv
  unfold producer
  rw [resolve_of_live hv]
  simp [Except.toOption, hv']

/-- From any supply, inference gives the type of the output again. -/
theorem Inferred.again {g : Graph α} (hinf : g.Inferred) {o : OpId} {node : Node α} {ins : List VarId}
    {ts : List (Tensor α)} {t : Tensor α} {p : Option OpId} (hn : g.node? o = some node)
    (hins : g.inputsOf o = .ok ins) (hts : g.tensors ins = .ok ts)
    (hs : g.slot? node.output = some (.live t p)) (s : Supply) :
    ∃ type s', Gives (node.op.infer (ts.map (·.type))) s type s' ∧ type.order = t.type.order ∧
      ShapesAlike type.shape t.type.shape := by
  obtain ⟨r, u, r', hu, ho, hshape⟩ := hinf o node ins ts t p hn hins hts hs
  obtain ⟨type, s', h, ho', hshape'⟩ := infer_renewed hu (Operator.mapAxes_id node.op)
    (List.forall₂_same.2 fun x _ => .refl x) (by rw [List.map_id]; exact u.order.nodup) s
  refine ⟨type, s', h, ?_, hshape'.symm.trans hshape⟩
  rw [Operator.order_ext (ho'.trans (List.map_id _)), ho]

theorem consistent_of_built [Scalar α] {s : Supply} {g : Graph α} (h : Built s g) :
    g.Consistent := by
  obtain ⟨ds, h⟩ := h
  have hg := h.wellformed
  refine ⟨fun v hv => ?_, fun v t p hv => ⟨producer_slot hv, fun o => ?_⟩,
    fun o node t ho ht => ?_⟩
  · obtain ⟨w, hw⟩ := resolve_ok_of_lt hg hv
    obtain ⟨t, p, hlive⟩ := live_of_resolve hw
    exact ⟨w, t, p, hw, hlive⟩
  · constructor
    · rintro rfl
      obtain ⟨-, node, hn, rfl⟩ := hg.produced v t o hv
      exact ⟨node, operator_ok_iff.2 hn, rfl⟩
    · rintro ⟨node, ho, rfl⟩
      exact (hg.output o node (operator_ok_iff.1 ho)).2 t p hv
  · have hn := operator_ok_iff.1 ho
    obtain ⟨p, hs⟩ := tensor_ok_iff.1 ht
    obtain ⟨ins, hins⟩ := inputsOf_ok hg hn
    obtain ⟨ts, hts⟩ := tensors_ok_of_inputsOf hins
    refine ⟨ins, ts, hins, hts, fun r => ?_⟩
    obtain ⟨type, r', hgives, horder, hshape⟩ := h.inferred.again hn hins hts hs r
    exact ⟨type, r', hgives, horder, hshape.resolve⟩

/-! ### A replaced input and a renamed axis -/

/-- A vector of symbolic length. -/
def vector (a : Axis) : TensorType := ⟨[.free ⟨0, "B"⟩], ⟨[a], List.nodup_singleton a⟩, rfl⟩

/-- Two copies of an input along the batch axis, after the input was replaced by another variable
and the batch axis became the time axis. -/
def retiled : Graph ℚ where
  slots := #[.replaced ⟨2⟩,
    .live { type := ⟨[.derived 1 .mul (.free ⟨0, "B"⟩) (.known 2)], (vector .time).order, rfl⟩ }
      (some ⟨0⟩),
    .live { type := vector .time, marks := [.input] } none]
  nodes := #[some ⟨.tile [2], [⟨0⟩], ⟨1⟩⟩]
  declaredInputs := [⟨0⟩]

theorem built_retiled : Built ⟨2⟩ retiled := by
  have made : ∀ s, (⟨vector .batch, [], none⟩ : Tensor ℚ).MadeFrom [.free ⟨0, "B"⟩] s s :=
    fun s => ⟨fun _ hd => hd, rfl, fun _ hx => by cases hx⟩
  have named : Makes (Dim.ofLabel "B") ⟨0⟩ (.free ⟨0, "B"⟩) ⟨1⟩ := rfl
  have started : Session true ⟨1⟩ [.free ⟨0, "B"⟩] ({} : Graph ℚ) := .symbol (.empty ⟨0⟩) named
  have computed : Gives ((({} : Graph ℚ).addInput ⟨vector .batch, [], none⟩).1.addOp (.tile [2])
    [⟨0⟩]) ⟨1⟩ (_, ⟨1⟩) ⟨2⟩ := rfl
  have tiled := Session.addVariable (.addOp (.addInput started (made _)) computed) (made _)
  have replaced := Session.replaceVariable tiled
    (rfl : Graph.replaceVariable _ ⟨0⟩ ⟨2⟩ = .ok _)
  exact ⟨_, .renameAxes (fun a => if a = .batch then .time else a) replaced fun _ => ⟨true, rfl⟩⟩

/-- The type inferred for the copies today has a derived symbol of its own, with the same values. -/
theorem infers_retiled : ∃ type s',
    Gives ((Operator.tile [2] : Operator ℚ).infer [vector .time]) ⟨2⟩ type s' ∧
      type.order = (vector .time).order ∧ ∀ env, type.shape.map (Dim.resolve env) =
        [(Dim.derived 1 .mul (.free ⟨0, "B"⟩) (.known 2)).resolve env] := by
  obtain ⟨ins, ts, hins, hts, h⟩ :=
    (consistent_of_built built_retiled).infers ⟨0⟩ ⟨.tile [2], [⟨0⟩], ⟨1⟩⟩ _ rfl rfl
  obtain rfl := Except.ok.inj
    (hins.symm.trans (rfl : retiled.inputsOf ⟨0⟩ = .ok [(⟨2⟩ : VarId)]))
  obtain rfl := Except.ok.inj (hts.symm.trans
    (rfl : retiled.tensors [⟨2⟩] = .ok [{ type := vector .time, marks := [.input] }]))
  exact h ⟨2⟩

end Graph

end TensorCompiler
