import Mathlib.Data.List.Nodup
import TensorCompiler.Proofs.Renaming
import TensorCompiler.Proofs.Session
/-!
# Operators and the types around them

An operator is added only if the types of its inputs fit it, and its output gets the type that
follows from them. Later edits replace variables and rename axes throughout, so what was checked
once stays true: this is why the passes and the kernels may rely on it.

* `Operator.Fits`: how the types of the inputs and the output of an operator are related.
* `fits_infer`: shape inference establishes it.
* `fits_renamed`: it survives a renaming of axes and the replacement of inputs.
* `Session.typed`: it holds of every live operator with a live output in a built graph.
-/

namespace TensorCompiler

namespace Operator

variable {α : Type}

/-- The types of the inputs and the output of an operator agree: a pointwise operator broadcasts
its inputs, the others keep or replace the order of the only input. -/
def Fits (op : Operator α) (inputs : List TensorType) (output : TensorType) : Prop :=
  match op with
  | pointwise f => inputs.length = f.kind.arity ∧ ∀ x ∈ inputs, ∀ e ∈ x.dims,
      ∃ d, (e.1, d) ∈ output.dims ∧ ((d == e.2) = true ∨ e.2.is 1 = true)
  | tile _ => ∃ x, inputs = [x] ∧ output.order = x.order
  | slice start stop step => ∃ x, inputs = [x] ∧ output.order = x.order ∧
      start.length = x.rank ∧ stop.length = x.rank ∧ step.length = x.rank
  | reinterpret source target => ∃ x, inputs = [x] ∧ x.order = source ∧ output.order = target ∧
      (x.shape == output.shape) = true
  | resize a _ b _ => ∃ x, inputs = [x] ∧ output.order = x.order ∧ a ≠ b ∧ a ∈ x.order.axes ∧
      b ∈ x.order.axes

/-! ## Inference -/

/-- The dimensions gathered so far cover an axis of a given size. -/
def Covered (dims : List (Axis × Dim)) (e : Axis × Dim) : Prop :=
  ∃ d, dims.lookup e.1 = some d ∧ ((d == e.2) = true ∨ e.2.is 1 = true)

theorem is_iff {d : Dim} {n : Nat} : d.is n = true ↔ d = .known n := by
  unfold Dim.is
  rw [beq_iff_eq, Dim.known?_eq_some_iff]

theorem lookup_replace {dims : List (Axis × Dim)} {e : Axis × Dim} {a : Axis} (ha : a ≠ e.1) :
    (dims.map fun d => if d.1 = e.1 then e else d).lookup a = dims.lookup a := by
  induction dims with
  | nil => rfl
  | cons d dims ih =>
    rw [List.map_cons, List.lookup_cons, List.lookup_cons, ih]
    by_cases h : d.1 = e.1
    · rw [if_pos h, h, beq_false_of_ne ha]
    · rw [if_neg h]

theorem lookup_replace_self {dims : List (Axis × Dim)} {e : Axis × Dim} {d : Dim}
    (h : dims.lookup e.1 = some d) :
    (dims.map fun d => if d.1 = e.1 then e else d).lookup e.1 = some e.2 := by
  induction dims with
  | nil => cases h
  | cons c dims ih =>
    rw [List.map_cons, List.lookup_cons]
    rw [List.lookup_cons] at h
    by_cases hc : c.1 = e.1
    · rw [if_pos hc]
      simp
    · rw [if_neg hc]
      have hne : (e.1 == c.1) = false := beq_false_of_ne fun h => hc h.symm
      rw [hne] at h ⊢
      exact ih h

/-- A step of the broadcast covers its entry and whatever was covered before. -/
theorem covered_broadcastDim {clash : Axis → GraphError} {dims dims' : List (Axis × Dim)}
    {e : Axis × Dim} (h : TensorType.broadcastDim clash dims e = .ok dims') :
    Covered dims' e ∧ ∀ c, Covered dims c → Covered dims' c := by
  obtain ⟨a, size⟩ := e
  simp only [TensorType.broadcastDim] at h
  split at h
  · next hnone =>
    cases h
    constructor
    · exact ⟨size, by simp [List.lookup_append, hnone], .inl (Dim.beq_refl size)⟩
    · rintro c ⟨d, hd, hc⟩
      exact ⟨d, by simp [List.lookup_append, hd], hc⟩
  · next present hpresent =>
    split at h
    · next hsize =>
      cases h
      rw [Bool.or_eq_true] at hsize
      exact ⟨⟨present, hpresent, hsize⟩, fun c hc => hc⟩
    · split at h
      · next hone =>
        cases h
        have hself := lookup_replace_self (e := (a, size)) hpresent
        refine ⟨⟨size, hself, .inl (Dim.beq_refl size)⟩, ?_⟩
        rintro ⟨c, n⟩ ⟨d, hd, hc⟩
        by_cases hca : c = a
        · subst hca
          refine ⟨size, hself, .inr ?_⟩
          obtain rfl := Option.some.inj (hpresent.symm.trans hd)
          rcases hc with hc | hc
          · rw [is_iff] at hone ⊢
            rw [hone, Dim.beq_iff] at hc
            exact Dim.known?_eq_some_iff.1 hc.1.symm
          · exact hc
        · exact ⟨d, (lookup_replace (e := (a, size)) hca).trans hd, hc⟩
      · cases h

theorem covered_broadcastDims {clash : Axis → GraphError} {inputs : List TensorType}
    {dims : List (Axis × Dim)} (h : TensorType.broadcastDims clash inputs = .ok dims) :
    ∀ x ∈ inputs, ∀ e ∈ x.dims, Covered dims e := by
  suffices hall : ∀ e ∈ (TensorType.byRank inputs).flatMap TensorType.dims, Covered dims e by
    intro x hx e he
    exact hall e (List.mem_flatMap.2 ⟨x, List.mem_mergeSort.2 hx, he⟩)
  refine foldlM_ok_processed (P := fun seen dims => ∀ e ∈ seen, Covered dims e) h
    (fun e he => by cases he) ?_
  intro seen e rest dims dims' _ hseen hstep c hc
  obtain ⟨hnew, hold⟩ := covered_broadcastDim hstep
  rcases List.mem_append.1 hc with hc | hc
  · exact hold c (hseen c hc)
  · rw [List.mem_singleton.1 hc]
    exact hnew

theorem mem_of_lookup {dims : List (Axis × Dim)} {a : Axis} {d : Dim}
    (h : dims.lookup a = some d) : (a, d) ∈ dims := by
  obtain ⟨pre, post, rfl, -⟩ := List.lookup_eq_some_iff.1 h
  exact List.mem_append_right _ (List.mem_cons_self ..)

/-- The inputs of an operator fit the type inferred from them. -/
theorem fits_infer {op : Operator α} {types : List TensorType} {t : TensorType} {s s' : Supply}
    (h : Gives (op.infer types) s t s') : op.Fits types t := by
  cases op with
  | pointwise f =>
    obtain ⟨hlen, dims, order, hdims, horder, h⟩ := infer_pointwise h
    obtain ⟨hshape, ho, -⟩ := make_gives_iff.1 h
    have hd : dims = t.dims := List.zip_of_prod (by rw [ho, horder]) hshape.symm
    refine ⟨hlen, fun x hx e he => ?_⟩
    obtain ⟨d, hd', hc⟩ := covered_broadcastDims hdims x hx e he
    exact ⟨d, hd ▸ mem_of_lookup hd', hc⟩
  | tile m =>
    obtain ⟨x, rfl, -, -, shape, _, -, h⟩ := infer_tile h
    exact ⟨x, rfl, (make_gives_iff.1 h).2.1⟩
  | slice start stop step =>
    obtain ⟨x, rfl, hlen, _, shape, -, h⟩ := infer_slice h
    exact ⟨x, rfl, (make_gives_iff.1 h).2.1, hlen⟩
  | reinterpret source target =>
    obtain ⟨x, rfl, -, hsource, h⟩ := infer_reinterpret h
    obtain ⟨hshape, ho, -⟩ := make_gives_iff.1 h
    exact ⟨x, rfl, hsource, ho, by rw [hshape]; exact shape_beq_refl x.shape⟩
  | resize a m b n =>
    obtain ⟨x, i, j, rfl, hab, -, hi, hj, h⟩ := infer_resize h
    have mem : ∀ {a i}, x.order.indexOf? a = some i → a ∈ x.order.axes := fun h =>
      List.isSome_idxOf?.1 (Option.isSome_of_eq_some h)
    exact ⟨x, rfl, (make_gives_iff.1 h).2.1, hab, mem hi, mem hj⟩

/-! ## Renaming and replacement -/

theorem exists_zip_of_forall₂ {β γ δ : Type} {R : β → γ → Prop} {as : List δ} {bs : List β}
    {cs : List γ} (h : List.Forall₂ R bs cs) {a : δ} {b : β} (hab : (a, b) ∈ as.zip bs) :
    ∃ c, (a, c) ∈ as.zip cs ∧ R b c := by
  induction h generalizing as with
  | nil => simp at hab
  | cons hbc _ ih =>
    cases as with
    | nil => cases hab
    | cons a' as =>
      rcases List.mem_cons.1 hab with e | hab
      · cases e
        exact ⟨_, List.mem_cons_self .., hbc⟩
      · obtain ⟨c, hc, hr⟩ := ih hab
        exact ⟨c, List.mem_cons_of_mem _ hc, hr⟩

/-- A dimension of a type, and what it becomes when the type is renamed. -/
theorem dims_renamed {f : Axis → Axis} {x y : TensorType} (h : x.Renamed f y) {e : Axis × Dim}
    (he : e ∈ x.dims) : ∃ d, (f e.1, d) ∈ y.dims ∧ (e.2 == d) = true := by
  obtain ⟨d, hd, hed⟩ := exists_zip_of_forall₂ (shape_beq_iff.1 h.shape)
    (show (e.1, e.2) ∈ x.order.axes.zip x.shape from he)
  refine ⟨d, ?_, hed⟩
  unfold TensorType.dims
  rw [h.axes, List.zip_map_left]
  exact List.mem_map.2 ⟨(e.1, d), hd, rfl⟩

theorem dims_of_renamed {f : Axis → Axis} {x y : TensorType} (h : x.Renamed f y) {e : Axis × Dim}
    (he : e ∈ y.dims) : ∃ a d, e.1 = f a ∧ (a, d) ∈ x.dims ∧ (d == e.2) = true := by
  have he' : (e.1, e.2) ∈ (x.order.axes.map f).zip y.shape := h.axes ▸ he
  rw [List.zip_map_left, List.mem_map] at he'
  obtain ⟨⟨a, c⟩, hac, hec⟩ := he'
  obtain ⟨ha, hc⟩ := Prod.mk.inj hec
  obtain ⟨d, hd, hcd⟩ := exists_zip_of_forall₂ (shape_beq_iff.1 (shape_beq_symm h.shape)) hac
  exact ⟨a, d, ha.symm, hd, hc ▸ Dim.beq_symm hcd⟩

theorem is_congr {d e : Dim} (h : (d == e) = true) (n : Nat) : d.is n = e.is n := by
  unfold Dim.is
  rw [(Dim.beq_iff.1 h).1]

theorem rank_renamed {f : Axis → Axis} {x y : TensorType} (h : x.Renamed f y) : y.rank = x.rank :=
  (shape_beq_iff.1 h.shape).length_eq.symm

theorem order_map_ok_iff {f : Axis → Axis} {o p : Order} :
    o.map f = .ok p ↔ p.axes = o.axes.map f := ofList_ok_iff

theorem order_ext {o p : Order} (h : o.axes = p.axes) : o = p := by
  cases o
  cases p
  simpa using h

/-- What fits an operator still fits it when all axes are renamed alike, and when inputs are
replaced by others of the same sizes. -/
theorem fits_renamed {f : Axis → Axis} {op op' : Operator α} {types types' : List TensorType}
    {t t' : TensorType} (hop : op.mapAxes f = .ok op')
    (htypes : List.Forall₂ (TensorType.Renamed f) types types') (ht : t.Renamed f t')
    (h : op.Fits types t) : op'.Fits types' t' := by
  -- The only input and its order, for the operators that take one.
  have sole : ∀ {x : TensorType}, types = [x] → ∃ y, types' = [y] ∧ x.Renamed f y := by
    rintro x rfl
    cases htypes with
    | cons hxy h =>
      cases h
      exact ⟨_, rfl, hxy⟩
  have order : ∀ {x y : TensorType}, t.order = x.order → x.Renamed f y → t'.order = y.order :=
    fun e hxy => order_ext (by rw [ht.axes, hxy.axes, e])
  cases op with
  | pointwise p =>
    cases hop
    obtain ⟨hlen, h⟩ := h
    refine ⟨htypes.length_eq ▸ hlen, fun y hy e he => ?_⟩
    obtain ⟨x, hx, hxy⟩ := exists_of_forall₂_right htypes hy
    obtain ⟨a, d, ha, had, hde⟩ := dims_of_renamed hxy he
    obtain ⟨c, hc, hcd⟩ := h x hx (a, d) had
    obtain ⟨c', hc', hcc'⟩ := dims_renamed ht hc
    refine ⟨c', by rw [ha]; exact hc', ?_⟩
    rcases hcd with hcd | hone
    · exact .inl (Dim.beq_trans (Dim.beq_symm hcc') (Dim.beq_trans hcd hde))
    · exact .inr (is_congr hde 1 ▸ hone)
  | tile m =>
    cases hop
    obtain ⟨x, hx, ho⟩ := h
    obtain ⟨y, hy, hxy⟩ := sole hx
    exact ⟨y, hy, order ho hxy⟩
  | slice start stop step =>
    cases hop
    obtain ⟨x, hx, ho, hlen⟩ := h
    obtain ⟨y, hy, hxy⟩ := sole hx
    exact ⟨y, hy, order ho hxy, by rw [rank_renamed hxy]; exact hlen⟩
  | reinterpret source target =>
    simp only [mapAxes, bind_ok_iff, pure_ok_iff, order_map_ok_iff] at hop
    obtain ⟨source', hs, target', hg, rfl⟩ := hop
    obtain ⟨x, hx, rfl, rfl, hshape⟩ := h
    obtain ⟨y, hy, hxy⟩ := sole hx
    exact ⟨y, hy, order_ext (by rw [hxy.axes, hs]), order_ext (by rw [ht.axes, hg]),
      shape_beq_trans (shape_beq_symm hxy.shape) (shape_beq_trans hshape ht.shape)⟩
  | resize a m b n =>
    cases hop
    obtain ⟨x, hx, ho, hab, ha, hb⟩ := h
    obtain ⟨y, hy, hxy⟩ := sole hx
    refine ⟨y, hy, order ho hxy, fun e => hab ?_, ?_, ?_⟩
    · have hnodup := y.order.nodup
      rw [hxy.axes] at hnodup
      exact List.inj_on_of_nodup_map hnodup ha hb e
    · rw [hxy.axes]
      exact List.mem_map_of_mem ha
    · rw [hxy.axes]
      exact List.mem_map_of_mem hb

theorem mem_axes_of_dims {t : TensorType} {e : Axis × Dim} (h : e ∈ t.dims) :
    e.1 ∈ t.order.axes := (List.of_mem_zip (show (e.1, e.2) ∈ _ from h)).1

theorem exists_dim_of_axis {t : TensorType} {a : Axis} (h : a ∈ t.order.axes) :
    ∃ d, (a, d) ∈ t.dims := by
  obtain ⟨i, hi, rfl⟩ := List.getElem_of_mem h
  have hi' : i < t.shape.length := by
    rw [t.rank_eq]
    exact hi
  have hz : i < t.dims.length := by
    rw [TensorType.dims, List.length_zip]
    omega
  have hget : t.dims[i] = (t.order.axes[i], t.shape[i]) := List.getElem_zip
  exact ⟨t.shape[i], hget ▸ List.getElem_mem hz⟩

/-- An operator that fits compares no axes that a renaming of its output merges. -/
theorem keepsApart_of_fits {f : Axis → Axis} {op : Operator α} {types : List TensorType}
    {t t' : TensorType} (h : op.Fits types t) (ht : t.Renamed f t') : op.KeepsApart f types t := by
  have hinj : ∀ c ∈ t.order.axes, ∀ d ∈ t.order.axes, f c = f d → c = d := by
    have hnodup := t'.order.nodup
    rw [ht.axes] at hnodup
    exact fun c hc d hd => List.inj_on_of_nodup_map hnodup hc hd
  have sole : ∀ {x}, types = [x] → t.order = x.order →
      ∀ y ∈ types, ∀ c ∈ y.order.axes, ∀ d ∈ t.order.axes, f c = f d → c = d := by
    rintro x rfl ho y hy c hc
    obtain rfl := List.mem_singleton.1 hy
    exact hinj c (ho ▸ hc)
  cases op with
  | pointwise p =>
    intro x hx c hc
    obtain ⟨d, hd⟩ := exists_dim_of_axis hc
    obtain ⟨e, he, -⟩ := h.2 x hx (c, d) hd
    exact hinj c (mem_axes_of_dims he)
  | tile m =>
    obtain ⟨x, hx, ho⟩ := h
    exact sole hx ho
  | slice start stop step =>
    obtain ⟨x, hx, ho, -⟩ := h
    exact sole hx ho
  | reinterpret source target => trivial
  | resize a m b n =>
    obtain ⟨x, hx, ho, -, ha, hb⟩ := h
    refine ⟨sole hx ho, fun y hy c hc => ?_⟩
    rw [ho] at hinj
    rw [hx] at hy
    obtain rfl := List.mem_singleton.1 hy
    exact ⟨hinj c hc a ha, hinj c hc b hb⟩

end Operator

/-! ## Graphs -/

namespace Graph

variable {α : Type}

/-- How the variables of an edited graph match those of the graph before: handles that stood for a
variable stand for its image, which has the same sizes under axes renamed by `f`. -/
structure Matches (f : Axis → Axis) (m : VarId → VarId) (g h : Graph α) : Prop where
  resolve : ∀ v w, g.resolve v = .ok w → h.resolve v = .ok (m w)
  tensor : ∀ v t, g.tensor v = .ok t → ∃ t', h.tensor (m v) = .ok t' ∧ t.type.Renamed f t'.type

section Matching

variable {f : Axis → Axis} {m : VarId → VarId} {g h : Graph α}

theorem Matches.inputsOf (k : Matches f m g h) {o : OpId} {node node' : Node α}
    {ins : List VarId} (hn : g.node? o = some node) (hn' : h.node? o = some node')
    (e : node'.inputs = node.inputs) (hins : g.inputsOf o = .ok ins) :
    h.inputsOf o = .ok (ins.map m) := by
  obtain ⟨node₁, hn₁, hins⟩ := inputsOf_ok_iff.1 hins
  obtain rfl := Option.some.inj (hn.symm.trans hn₁)
  refine inputsOf_ok_iff.2 ⟨node', hn', ?_⟩
  rw [e, List.forall₂_map_right_iff]
  exact hins.imp fun v w => k.resolve v w

theorem Matches.tensors (k : Matches f m g h) {vs : List VarId} {ts : List (Tensor α)}
    (hts : g.tensors vs = .ok ts) : ∃ ts', h.tensors (vs.map m) = .ok ts' ∧
      List.Forall₂ (TensorType.Renamed f) (ts.map (·.type)) (ts'.map (·.type)) := by
  rw [Graph.tensors, mapM_ok_iff] at hts
  induction hts with
  | nil => exact ⟨[], rfl, .nil⟩
  | cons ht _ ih =>
    obtain ⟨ts', hts', hr⟩ := ih
    obtain ⟨t', ht', hr'⟩ := k.tensor _ _ ht
    rw [Graph.tensors, mapM_ok_iff] at hts'
    refine ⟨t' :: ts', ?_, .cons hr' hr⟩
    rw [Graph.tensors, mapM_ok_iff]
    exact .cons ht' hts'

/-- The types around an operator fit it. -/
def FitsAt (g : Graph α) (o : OpId) : Prop :=
  ∀ node ins ts t p, g.node? o = some node → g.inputsOf o = .ok ins → g.tensors ins = .ok ts →
    g.slot? node.output = some (.live t p) → node.op.Fits (ts.map (·.type)) t.type

/-- The types around every operator with a live output fit it. -/
def Typed (g : Graph α) : Prop := ∀ o, g.FitsAt o

theorem tensors_ok_of_inputsOf {o : OpId} {ins : List VarId} (h : g.inputsOf o = .ok ins) :
    ∃ ts, g.tensors ins = .ok ts := by
  have hlive : ∀ v ∈ ins, ∃ t, g.tensor v = .ok t := fun v hv =>
    tensor_of_resolve (resolve_of_mem_inputsOf h hv)
  clear h
  induction ins with
  | nil => exact ⟨[], rfl⟩
  | cons v vs ih =>
    obtain ⟨⟨t, ht⟩, hlive⟩ := List.forall_mem_cons.1 hlive
    obtain ⟨ts, hts⟩ := ih hlive
    rw [Graph.tensors, mapM_ok_iff] at hts
    exact ⟨t :: ts, by rw [Graph.tensors, mapM_ok_iff]; exact .cons ht hts⟩

theorem FitsAt.transfer (hg : g.Wellformed) (k : Matches f m g h) {o : OpId} (hfit : g.FitsAt o)
    (hnode : ∀ n', h.node? o = some n' → ∃ n, g.node? o = some n ∧ n'.inputs = n.inputs ∧
      n'.output = n.output ∧ n.op.mapAxes f = .ok n'.op)
    (hout : ∀ v t' p, v.index < g.slots.size → h.slot? v = some (.live t' p) →
      ∃ t q, g.slot? v = some (.live t q) ∧ t.type.Renamed f t'.type) : h.FitsAt o := by
  intro n' ins' ts' t' p hn' hins' hts' hs'
  obtain ⟨n, hn, hi, ho, hop⟩ := hnode n' hn'
  obtain ⟨ins, hins⟩ := inputsOf_ok hg hn
  obtain ⟨ts, hts⟩ := tensors_ok_of_inputsOf hins
  obtain rfl := Except.ok.inj ((k.inputsOf hn hn' hi hins).symm.trans hins')
  obtain ⟨ts₁, hts₁, hr⟩ := k.tensors hts
  obtain rfl := Except.ok.inj (hts₁.symm.trans hts')
  rw [ho] at hs'
  obtain ⟨t, q, hs, ht⟩ := hout n.output t' p (hg.output o n hn).1 hs'
  exact Operator.fits_renamed hop hr ht (hfit n ins ts t q hn hins hts hs)

theorem Typed.transfer (hg : g.Wellformed) (k : Matches f m g h) (hfit : g.Typed)
    (hnode : ∀ o n', h.node? o = some n' → ∃ n, g.node? o = some n ∧ n'.inputs = n.inputs ∧
      n'.output = n.output ∧ n.op.mapAxes f = .ok n'.op)
    (hout : ∀ v t' p, v.index < g.slots.size → h.slot? v = some (.live t' p) →
      ∃ t q, g.slot? v = some (.live t q) ∧ t.type.Renamed f t'.type) : h.Typed :=
  fun o => (hfit o).transfer hg k (hnode o) hout

/-- Edits that keep the links and the types of the live variables. -/
theorem matches_sameArena (k : SameArena g h) (hs : ∀ v t' p, h.slot? v = some (.live t' p) →
    ∃ t, g.slot? v = some (.live t p) ∧ t'.type = t.type) : Matches id id g h where
  resolve v w hv := (k.resolve v).trans hv
  tensor v t ht := by
    obtain ⟨p, hv⟩ := tensor_ok_iff.1 ht
    obtain ⟨t', hv', -⟩ := k.live hv
    obtain ⟨t₁, hv₁, e⟩ := hs v t' p hv'
    rw [hv] at hv₁
    cases hv₁
    exact ⟨t', tensor_ok_iff.2 ⟨p, hv'⟩, e ▸ .refl t'.type⟩

/-- Edits that keep the types and the operators. -/
theorem Typed.of_same (hg : g.Wellformed) (hfit : g.Typed) (k : SameArena g h)
    (hn : h.nodes = g.nodes)
    (hs : ∀ v t' p, h.slot? v = some (.live t' p) →
      ∃ t, g.slot? v = some (.live t p) ∧ t'.type = t.type) : h.Typed := by
  refine hfit.transfer hg (matches_sameArena k hs)
    (fun o n' hn' => ⟨n', ?_, rfl, rfl, Operator.mapAxes_id n'.op⟩) fun v t' p _ hv' => ?_
  · rw [← hn']
    unfold node?
    rw [hn]
  · obtain ⟨t, hv, e⟩ := hs v t' p hv'
    exact ⟨t, p, hv, e ▸ .refl t'.type⟩

theorem matches_push {t : Tensor α} {p : Option OpId} (hh : h.Wellformed)
    (hs : h.slots = g.slots.push (.live t p)) : Matches id id g h where
  resolve v w hv := resolve_of_keeps hh (fun _ x hx => ⟨x, slot?_push_old hs hx, rfl⟩) hv
  tensor v u hu := by
    obtain ⟨q, hv⟩ := tensor_ok_iff.1 hu
    exact ⟨u, tensor_ok_iff.2 ⟨q, slot?_push_old hs hv⟩, .refl u.type⟩

theorem tensors_push {t : Tensor α} {p : Option OpId} (hs : h.slots = g.slots.push (.live t p))
    {vs : List VarId} {ts : List (Tensor α)} (hts : g.tensors vs = .ok ts) :
    h.tensors vs = .ok ts := by
  rw [Graph.tensors, mapM_ok_iff] at hts ⊢
  refine hts.imp fun v u hu => ?_
  obtain ⟨q, hv⟩ := tensor_ok_iff.1 hu
  exact tensor_ok_iff.2 ⟨q, slot?_push_old hs hv⟩

theorem live_of_push {t : Tensor α} {p : Option OpId} (hs : h.slots = g.slots.push (.live t p))
    (v : VarId) (t' : Tensor α) (q : Option OpId) (hlt : v.index < g.slots.size)
    (hv : h.slot? v = some (.live t' q)) :
    ∃ u r, g.slot? v = some (.live u r) ∧ u.type.Renamed id t'.type := by
  rcases slot?_of_push hs hv with hv | ⟨e, -⟩
  · exact ⟨t', q, hv, .refl t'.type⟩
  · rw [e] at hlt
    exact absurd hlt (Nat.lt_irrefl _)

theorem typed_addVariable (hg : g.Wellformed) (hfit : g.Typed) (t : Tensor α) :
    (g.addVariable t).1.Typed := by
  have hs : (g.addVariable t).1.slots = g.slots.push (.live t none) := rfl
  exact hfit.transfer hg (matches_push (wellformed_addVariable hg t) hs)
    (fun o n hn => ⟨n, hn, rfl, rfl, Operator.mapAxes_id n.op⟩) (live_of_push hs)

theorem typed_addInput (hg : g.Wellformed) (hfit : g.Typed) (t : Tensor α) :
    (g.addInput t).1.Typed := by
  have k : SameArena (g.addVariable (t.mark .input)).1 (g.addInput t).1 := ⟨rfl, rfl⟩
  exact (typed_addVariable hg hfit _).of_same (wellformed_addVariable hg _) k rfl
    fun v t p hv => ⟨t, hv, rfl⟩

theorem inputsOf_placeOp_new {op : Operator α} {ws : List VarId} {t : Tensor α}
    (hh : (g.placeOp op ws t).Wellformed) (hws : ∀ w ∈ ws, g.resolve w = .ok w) :
    (g.placeOp op ws t).inputsOf ⟨g.nodes.size⟩ = .ok ws := by
  refine inputsOf_ok_iff.2 ⟨_, by rw [node?_placeOp, if_pos rfl], ?_⟩
  have k : Matches id id g (g.placeOp op ws t) := matches_push hh rfl
  exact List.forall₂_same.2 fun w hw => k.resolve w w (hws w hw)

theorem typed_placeOp {op : Operator α} {ws : List VarId} {ts : List (Tensor α)} {t : Tensor α}
    (hg : g.Wellformed) (hfit : g.Typed) (hh : (g.placeOp op ws t).Wellformed)
    (hws : ∀ w ∈ ws, g.resolve w = .ok w) (hts : g.tensors ws = .ok ts)
    (hnew : op.Fits (ts.map (·.type)) t.type) : (g.placeOp op ws t).Typed := by
  have hs : (g.placeOp op ws t).slots = g.slots.push (.live t (some ⟨g.nodes.size⟩)) := rfl
  have k := matches_push hh hs
  intro o
  by_cases ho : o = ⟨g.nodes.size⟩
  · intro n' ins' ts' t' p hn' hins' hts' hs'
    rw [node?_placeOp, if_pos (congrArg OpId.index ho)] at hn'
    cases hn'
    rw [slot?_push_new hs] at hs'
    cases hs'
    obtain rfl := Except.ok.inj ((ho ▸ inputsOf_placeOp_new hh hws).symm.trans hins')
    obtain rfl := Except.ok.inj ((tensors_push hs hts).symm.trans hts')
    exact hnew
  · refine (hfit o).transfer hg k (fun n hn => ?_) (live_of_push hs)
    rcases node?_of_placeOp hn with hold | ⟨e, -⟩
    · exact ⟨n, hold, rfl, rfl, Operator.mapAxes_id n.op⟩
    · exact absurd e ho

theorem resolve_of_mem_resolveEach {vs ws : List VarId} (h : g.resolveEach vs = .ok ws) :
    ∀ w ∈ ws, g.resolve w = .ok w := by
  intro w hw
  rw [resolveEach, mapM_ok_iff] at h
  rw [← resolveAll_of_forall₂ h] at hw
  obtain ⟨v, -, hv⟩ := mem_resolveAll.1 hw
  exact resolve_resolve hv

theorem typed_addOp {op : Operator α} {ins : List VarId} {v : VarId} {s s' : Supply}
    (hg : g.Wellformed) (hfit : g.Typed) (hop : Gives (g.addOp op ins) s (h, v) s') : h.Typed := by
  have hh := wellformed_addOp hg hop
  obtain ⟨ws, ts, t, hw, hts, hi, rfl, -⟩ := addOp_gives_iff.1 hop
  obtain ⟨type, hinf, rfl⟩ := inferTensor_gives_iff.1 hi
  exact typed_placeOp hg hfit hh (resolve_of_mem_resolveEach hw) hts (Operator.fits_infer hinf)

theorem matches_detach {o : OpId} {node : Node α} (hg : g.Wellformed) (ho : g.node? o = some node) :
    Matches id id g (g.detach o node.output) where
  resolve v w hv := resolve_detach hg ho hv
  tensor v t ht := by
    obtain ⟨p, hv⟩ := tensor_ok_iff.1 ht
    refine ⟨t, ?_, .refl t.type⟩
    rw [id, tensor_ok_iff, slot?_detach, hv]
    split
    · exact ⟨none, rfl⟩
    · exact ⟨p, rfl⟩

theorem typed_removeOperator {o : OpId} {node : Node α} (hg : g.Wellformed) (hfit : g.Typed)
    (hr : g.removeOperator o = .ok (h, node)) : h.Typed := by
  obtain ⟨ho, rfl⟩ := removeOperator_ok_iff.1 hr
  refine hfit.transfer hg (matches_detach hg ho) (fun p n hn => ?_) fun v t' q _ hv => ?_
  · rw [node?_detach] at hn
    split at hn
    · cases hn
    · exact ⟨n, hn, rfl, rfl, Operator.mapAxes_id n.op⟩
  · rcases slot?_of_detach hv with ⟨-, hv⟩ | ⟨-, -, r, hv⟩
    · exact ⟨t', q, hv, .refl t'.type⟩
    · exact ⟨t', r, hv, .refl t'.type⟩

theorem matches_redirect {a b : VarId} {x y : Tensor α} {p q : Option OpId} {marks : List Mark}
    (hg : g.Wellformed) (hab : a ≠ b) (ha : g.slot? a = some (.live x p))
    (hb : g.slot? b = some (.live y q)) (hs : (x.type.shape == y.type.shape) = true)
    (ho : x.type.order = y.type.order) :
    Matches id (fun w => if w = a then b else w) g (g.redirect a b marks) where
  resolve v w hv := resolve_redirect hg hab ha hb hv
  tensor v t ht := by
    obtain ⟨r, hv⟩ := tensor_ok_iff.1 ht
    by_cases hva : v = a
    · rw [hva, ha] at hv
      cases hv
      rw [if_pos hva]
      exact ⟨_, tensor_ok_iff.2 ⟨q, slot?_redirect_new hab hb⟩, .of_eq hs ho⟩
    · obtain ⟨t', hv', e, -⟩ := slot?_redirect_live marks hab hva hv
      rw [if_neg hva]
      exact ⟨t', tensor_ok_iff.2 ⟨r, hv'⟩, e ▸ .refl t.type⟩

theorem typed_replaceVariable {old new : VarId} (hg : g.Wellformed) (hfit : g.Typed)
    (hr : g.replaceVariable old new = .ok h) : h.Typed := by
  obtain ⟨a, b, -, -, ⟨-, rfl⟩ | ⟨hab, x, y, hx, hy, hs, ho, rfl⟩⟩ := replaceVariable_ok_iff.1 hr
  · exact hfit
  · obtain ⟨p, hx⟩ := tensor_ok_iff.1 hx
    obtain ⟨q, hy⟩ := tensor_ok_iff.1 hy
    refine hfit.transfer hg (matches_redirect hg hab hx hy hs ho)
      (fun o n hn => ⟨n, hn, rfl, rfl, Operator.mapAxes_id n.op⟩) fun v t' r _ hv => ?_
    obtain ⟨-, t, hv', e, -⟩ := slot?_of_redirect hab hx hy hv
    exact ⟨t, r, hv', e ▸ .refl t'.type⟩

theorem typed_markOutput {v : VarId} (hg : g.Wellformed) (hfit : g.Typed)
    (hm : g.markOutput v = .ok h) : h.Typed := by
  obtain ⟨w, -, -, hn, -⟩ := markOutput_ok hm
  refine hfit.of_same hg (sameArena_markOutput hm) hn fun u t p hu => ?_
  obtain ⟨t', hu', ht, -⟩ := slot?_of_markOutput hm hu
  exact ⟨t', hu', ht⟩

theorem typed_induced {ins outs : List VarId} (hg : g.Wellformed) (hfit : g.Typed)
    (hi : g.induced ins outs = .ok h) : h.Typed := by
  obtain ⟨ins', outs', -, -, rfl⟩ := induced_ok hi
  have k : SameArena g { g with declaredInputs := ins', declaredOutputs := outs' } := ⟨rfl, rfl⟩
  exact hfit.of_same hg k rfl fun v t p hv => ⟨t, hv, rfl⟩

/-- An operator that its own renaming leaves equal is that renaming. -/
theorem eq_of_eqv_mapAxes [Scalar α] {op op' : Operator α} (h : op.mapAxes f = .ok op')
    (he : op'.eqv op = true) : op' = op := by
  cases op with
  | pointwise p => cases h; rfl
  | tile m => cases h; rfl
  | slice a b c => cases h; rfl
  | reinterpret s t =>
    simp only [Operator.mapAxes, bind_ok_iff, pure_ok_iff] at h
    obtain ⟨s', -, t', -, rfl⟩ := h
    simp only [Operator.eqv, Bool.and_eq_true, beq_iff_eq] at he
    rw [he.1, he.2]
  | resize a m b n =>
    cases h
    simp only [Operator.eqv, Bool.and_eq_true, beq_iff_eq] at he
    rw [he.1.1.1, he.1.2]

theorem renameAxes_node [Scalar α] {n n' : Node α} {c : Bool} (h : n.renameAxes f = .ok (n', c)) :
    n'.inputs = n.inputs ∧ n'.output = n.output ∧ n.op.mapAxes f = .ok n'.op := by
  unfold Node.renameAxes at h
  rw [bind_ok_iff] at h
  obtain ⟨op, hop, h⟩ := h
  split at h
  · next he =>
    cases h
    exact ⟨rfl, rfl, eq_of_eqv_mapAxes hop he ▸ hop⟩
  · cases h
    exact ⟨rfl, rfl, hop⟩

theorem renamed_of_rename? {x y : TensorType} (h : x.rename? f = some y) : x.Renamed f y := by
  obtain ⟨hs, ho⟩ := TensorType.rename?_eq_some h
  exact ⟨ho, hs ▸ shape_beq_refl x.shape⟩

/-- The live places after a renaming that succeeds. -/
theorem live_renameAxes [Scalar α] {b : Bool} (h : (g.renameAxes f).2 = .ok b) {v : VarId}
    {t : Tensor α} {p : Option OpId} (hv : g.slot? v = some (.live t p)) :
    ∃ t', (g.renameAxes f).1.slot? v = some (.live t' p) ∧ t.type.Renamed f t'.type ∧
      t'.data = t.data := by
  obtain ⟨y, c, hy, hr⟩ := (renameAxes_ok h).1 v _ hv
  cases y with
  | live t' q =>
    obtain ⟨u, e, hu, hd⟩ := Slot.renameAxes_live hr
    cases e
    exact ⟨t', hy, renamed_of_rename? hu, hd⟩
  | replaced w =>
    have := Slot.bare_renameAxes hr
    cases this

theorem matches_renameAxes [Scalar α] {b : Bool} (h : (g.renameAxes f).2 = .ok b) :
    Matches f id g (g.renameAxes f).1 where
  resolve v w hv := ((sameArena_renameAxes g f).resolve v).trans hv
  tensor v t ht := by
    obtain ⟨p, hv⟩ := tensor_ok_iff.1 ht
    obtain ⟨t', hv', hr, -⟩ := live_renameAxes h hv
    exact ⟨t', tensor_ok_iff.2 ⟨p, hv'⟩, hr⟩

theorem node_of_renameAxes [Scalar α] {b : Bool} (h : (g.renameAxes f).2 = .ok b) {o : OpId}
    {n' : Node α} (hn' : (g.renameAxes f).1.node? o = some n') :
    ∃ n, g.node? o = some n ∧ n'.inputs = n.inputs ∧ n'.output = n.output ∧
      n.op.mapAxes f = .ok n'.op := by
  obtain ⟨n, hn, -⟩ := (sameArena_renameAxes g f).symm.node hn'
  obtain ⟨m, c, hm, hr⟩ := (renameAxes_ok h).2 o n hn
  obtain rfl := Option.some.inj (hn'.symm.trans hm)
  exact ⟨n, hn, renameAxes_node hr⟩

theorem typed_renameAxes [Scalar α] {b : Bool} (hg : g.Wellformed) (hfit : g.Typed)
    (h : (g.renameAxes f).2 = .ok b) : (g.renameAxes f).1.Typed := by
  refine hfit.transfer hg (matches_renameAxes h) (fun o n' hn' => node_of_renameAxes h hn')
    fun v t' p _ hv' => ?_
  obtain ⟨t, hv, -⟩ := (sameArena_renameAxes g f).symm.live hv'
  obtain ⟨t₁, hv₁, hr, -⟩ := live_renameAxes h hv
  rw [hv'] at hv₁
  cases hv₁
  exact ⟨t, p, hv, hr⟩

end Matching

end Graph

/-- In a built graph the types around every operator fit it. -/
theorem Session.typed {α : Type} [Scalar α] {s : Supply} {ds : List Dim} {g : Graph α}
    (h : Session true s ds g) : g.Typed := by
  induction h with
  | empty s => exact fun o node ins ts t p hn => by simp [Graph.node?] at hn
  | later _ _ ih => exact ih
  | word _ _ ih => exact ih
  | symbol _ _ ih => exact ih
  | arith _ _ _ _ ih => exact ih
  | dim _ _ _ ih => exact ih
  | addVariable h _ ih => exact Graph.typed_addVariable h.wellformed ih _
  | addInput h _ ih => exact Graph.typed_addInput h.wellformed ih _
  | markOutput h hm ih => exact Graph.typed_markOutput h.wellformed ih hm
  | addOp h hop ih => exact Graph.typed_addOp h.wellformed ih hop
  | removeOperator h hr ih => exact Graph.typed_removeOperator h.wellformed ih hr
  | replaceVariable h hr ih => exact Graph.typed_replaceVariable h.wellformed ih hr
  | renameAxes f h hok ih =>
    obtain ⟨b, hok⟩ := hok rfl
    exact Graph.typed_renameAxes h.wellformed ih hok
  | induced h hi ih => exact Graph.typed_induced h.wellformed ih hi

end TensorCompiler
