import TensorCompiler.Proofs.Evaluation
/-!
# Renamed axes

Axis unification and replacement leave an operator with inputs of other types: the same sizes
under renamed axes. This module shows that an operator computes the same data then, as long as no
two axes that it compares are merged.

* `TensorType.Renamed`: the same sizes under renamed axes. With the identity, these are the types
  that can take each other's place.
* `gather_renamed`, `evaluate_renamed`: renaming keeps what is read and computed.
-/

namespace TensorCompiler

namespace TensorType

/-- The second type has the sizes of the first one, under axes renamed by `f`. -/
structure Renamed (f : Axis → Axis) (x y : TensorType) : Prop where
  axes : y.order.axes = x.order.axes.map f
  shape : (x.shape == y.shape) = true

end TensorType

theorem shape_beq_iff {ds es : List Dim} :
    (ds == es) = true ↔ List.Forall₂ (fun d e => (d == e) = true) ds es := by
  induction ds generalizing es with
  | nil => cases es <;> simp
  | cons d ds ih =>
    cases es with
    | nil => simp
    | cons e es => simp [ih]

theorem shape_beq_refl (ds : List Dim) : (ds == ds) = true :=
  shape_beq_iff.2 (List.forall₂_same.2 fun d _ => Dim.beq_refl d)

theorem shape_beq_symm {ds es : List Dim} (h : (ds == es) = true) : (es == ds) = true :=
  shape_beq_iff.2 ((shape_beq_iff.1 h).flip.imp fun _ _ h => Dim.beq_symm h)

theorem shape_beq_trans {ds es fs : List Dim} (h : (ds == es) = true) (h' : (es == fs) = true) :
    (ds == fs) = true := by
  rw [shape_beq_iff] at h h' ⊢
  induction h generalizing fs with
  | nil => exact h'
  | cons hd _ ih =>
    cases h' with
    | cons he h' => exact .cons (Dim.beq_trans hd he) (ih h')

/-- Known sizes are seen by the comparison. -/
theorem known_of_shape_beq {ds : List Dim} {ns : List Nat} (h : (ns.map Dim.known == ds) = true) :
    ds = ns.map .known := by
  rw [shape_beq_iff] at h
  induction ns generalizing ds with
  | nil => cases h; rfl
  | cons n ns ih =>
    cases h with
    | cons hd h =>
      have hn := (Dim.beq_iff.1 hd).1
      rw [ih h, List.map_cons, Dim.known?_eq_some_iff.1 hn.symm]

theorem TensorType.Renamed.known {f : Axis → Axis} {x y : TensorType} (h : x.Renamed f y)
    {ns : List Nat} (hx : x.shape = ns.map .known) : y.shape = ns.map .known :=
  known_of_shape_beq (hx ▸ h.shape)

theorem TensorType.Renamed.refl (x : TensorType) : x.Renamed id x :=
  ⟨(List.map_id _).symm, shape_beq_refl _⟩

theorem TensorType.Renamed.of_eq {x y : TensorType} (hs : (x.shape == y.shape) = true)
    (ho : x.order = y.order) : x.Renamed id y :=
  ⟨by rw [List.map_id, ho], hs⟩

/-! ## Reading -/

/-- The same place along a renamed axis. -/
def SourceAxis.rename (f : Axis → Axis) (s : SourceAxis) : SourceAxis := { s with axis := f s.axis }

theorem sourceAxes_map (f : Axis → Axis) (axes : List Axis) (sizes strides : List Nat) :
    sourceAxes (axes.map f) sizes strides =
      (sourceAxes axes sizes strides).map (SourceAxis.rename f) := by
  unfold sourceAxes
  rw [List.zipIdx_map, List.zip_map_left, List.map_map, List.map_map]
  rfl

theorem walkOf_map (f : Axis → Axis) (axes : List Axis) (shape : List Nat) (i : Nat) :
    walkOf (axes.map f) shape i = (walkOf axes shape i).map fun e => (f e.1, e.2) := by
  unfold walkOf
  rw [List.zip_map_left]
  rfl

theorem find?_rename {f : Axis → Axis} {sources : List SourceAxis} {a : Axis}
    (hinj : ∀ s ∈ sources, f s.axis = f a → s.axis = a) :
    (sources.map (SourceAxis.rename f)).find? (·.axis = f a) =
      (sources.find? (·.axis = a)).map (SourceAxis.rename f) := by
  induction sources with
  | nil => rfl
  | cons s sources ih =>
    obtain ⟨hs, hinj⟩ := List.forall_mem_cons.1 hinj
    rw [List.map_cons, List.find?_cons, List.find?_cons, ih hinj]
    have h : f s.axis = f a ↔ s.axis = a := ⟨hs, congrArg f⟩
    simp only [SourceAxis.rename, h]
    split <;> rfl

theorem sourceStep_rename {f : Axis → Axis} {map map' : CoordinateMap} {sources : List SourceAxis}
    {index : Nat} {e : Axis × Nat × Nat}
    (hmap : ∀ s ∈ sources, ∀ c n, map' (s.rename f) c n = map s c n)
    (hinj : ∀ s ∈ sources, f s.axis = f e.1 → s.axis = e.1) :
    sourceStep map' (sources.map (SourceAxis.rename f)) index (f e.1, e.2) =
      sourceStep map sources index e := by
  unfold sourceStep
  rw [find?_rename hinj]
  cases hs : sources.find? (·.axis = e.1) with
  | none => rfl
  | some s =>
    simp only [Option.map_some, hmap s (List.mem_of_find?_eq_some hs)]
    rfl

/-- The source index does not depend on the names of the axes, as long as those of the input are
told apart from those of the output. -/
theorem sourceIndex_rename {f : Axis → Axis} {map map' : CoordinateMap}
    {sources : List SourceAxis} {walk : List (Axis × Nat × Nat)}
    (hmap : ∀ s ∈ sources, ∀ c n, map' (s.rename f) c n = map s c n)
    (hinj : ∀ s ∈ sources, ∀ e ∈ walk, f s.axis = f e.1 → s.axis = e.1) :
    sourceIndex map' (sources.map (SourceAxis.rename f)) (walk.map fun e => (f e.1, e.2)) =
      sourceIndex map sources walk := by
  rw [sourceIndex_eq, sourceIndex_eq]
  generalize 0 = index
  induction walk generalizing index with
  | nil => rfl
  | cons e walk ih =>
    rw [List.map_cons, List.foldlM_cons, List.foldlM_cons,
      sourceStep_rename hmap fun s hs => hinj s hs e (List.mem_cons_self ..)]
    cases sourceStep map sources index e with
    | none => rfl
    | some j => exact ih (fun s hs e he => hinj s hs e (List.mem_cons_of_mem _ he)) j

theorem axis_of_mem_sourceAxes {axes : List Axis} {sizes strides : List Nat} {s : SourceAxis}
    (h : s ∈ sourceAxes axes sizes strides) : s.axis ∈ axes := by
  obtain ⟨⟨⟨a, p⟩, n, k⟩, he, rfl⟩ := List.mem_map.1 h
  have := (List.of_mem_zip he).1
  exact List.fst_mem_of_mem_zipIdx this

theorem axis_of_mem_walkOf {axes : List Axis} {shape : List Nat} {i : Nat}
    {e : Axis × Nat × Nat} (h : e ∈ walkOf axes shape i) : e.1 ∈ axes :=
  (List.of_mem_zip (show (e.1, e.2) ∈ _ from h)).1

theorem gather_renamed {α : Type} {f : Axis → Axis} {map map' : CoordinateMap} {shape : List Nat}
    {order order' : Order} {x y : TensorType} {data r : Array α} (hxy : x.Renamed f y)
    (ho : order'.axes = order.axes.map f)
    (hmap : ∀ s : SourceAxis, s.axis ∈ x.order.axes → ∀ c e, map' (s.rename f) c e = map s c e)
    (hinj : ∀ a ∈ x.order.axes, ∀ b ∈ order.axes, f a = f b → a = b)
    (h : gather map shape order (x, data) = .ok r) : gather map' shape order' (y, data) = .ok r := by
  rw [gather_ok_iff] at h ⊢
  obtain ⟨sizes, strides, hs, hd, hstrides, hr, h⟩ := h
  refine ⟨sizes, strides, hxy.known hs, hd, hstrides, hr, fun i hi => ?_⟩
  obtain ⟨index, v, hindex, hv, hri⟩ := h i hi
  refine ⟨index, v, ?_, hv, hri⟩
  rw [hxy.axes, ho, sourceAxes_map, walkOf_map, sourceIndex_rename, hindex]
  · exact fun s hs => hmap s (axis_of_mem_sourceAxes hs)
  · exact fun s hs e he => hinj _ (axis_of_mem_sourceAxes hs) _ (axis_of_mem_walkOf he)

/-! ## Computing -/

theorem Order.map_id (o : Order) : Order.map id o = .ok o := by
  unfold Order.map
  rw [ofList_ok_iff, List.map_id]

namespace Operator

variable {α : Type}

/-- The renaming merges no two axes that the operator compares. A reinterpretation compares
none. -/
def KeepsApart (f : Axis → Axis) (inputs : List TensorType) (output : TensorType) :
    Operator α → Prop
  | reinterpret .. => True
  | resize a _ b _ =>
    (∀ x ∈ inputs, ∀ c ∈ x.order.axes, ∀ d ∈ output.order.axes, f c = f d → c = d) ∧
      ∀ x ∈ inputs, ∀ c ∈ x.order.axes, (f c = f a → c = a) ∧ (f c = f b → c = b)
  | _ => ∀ x ∈ inputs, ∀ c ∈ x.order.axes, ∀ d ∈ output.order.axes, f c = f d → c = d

theorem keepsApart_id (op : Operator α) (inputs : List TensorType) (output : TensorType) :
    op.KeepsApart id inputs output := by
  cases op with
  | pointwise f => exact fun _ _ _ _ _ _ h => h
  | tile m => exact fun _ _ _ _ _ _ h => h
  | slice a b c => exact fun _ _ _ _ _ _ h => h
  | reinterpret s t => trivial
  | resize a m b n => exact ⟨fun _ _ _ _ _ _ h => h, fun _ _ _ _ => ⟨fun h => h, fun h => h⟩⟩

theorem mapAxes_id (op : Operator α) : op.mapAxes id = .ok op := by
  cases op with
  | reinterpret s t => simp [mapAxes, Order.map_id, bind, Except.bind, pure, Except.pure]
  | pointwise f => rfl
  | tile m => rfl
  | slice a b c => rfl
  | resize a m b n => rfl

theorem firstInput_ok_iff {β : Type} {inputs : List β} {x : β} :
    firstInput inputs = .ok x ↔ ∃ rest, inputs = x :: rest := by
  cases inputs with
  | nil => simp [firstInput, throw_ok_iff]
  | cons y ys => simp [firstInput]

section

variable {f : Axis → Axis} {types types' : List TensorType} {data : List (Array α)}
  {t t' : TensorType}

/-- The first input is the same, by another name. -/
theorem firstInput_renamed (htypes : List.Forall₂ (TensorType.Renamed f) types types')
    {x : TensorType} {d : Array α} (h : firstInput (types.zip data) = .ok (x, d)) :
    ∃ y, firstInput (types'.zip data) = .ok (y, d) ∧ x ∈ types ∧ x.Renamed f y := by
  obtain ⟨rest, hx⟩ := firstInput_ok_iff.1 h
  cases htypes with
  | nil => cases hx
  | cons hxy htypes =>
    cases data with
    | nil => cases hx
    | cons e data =>
      cases hx
      exact ⟨_, firstInput_ok_iff.2 ⟨_, rfl⟩, List.mem_cons_self .., hxy⟩

/-- An operator that moves the elements of its first input moves the same ones. -/
theorem gather_firstInput_renamed {map map' : CoordinateMap} {shape : List Nat} {r : Array α}
    (htypes : List.Forall₂ (TensorType.Renamed f) types types') (ht : t.Renamed f t')
    (hmap : ∀ x ∈ types, ∀ s : SourceAxis, s.axis ∈ x.order.axes → ∀ c e,
      map' (s.rename f) c e = map s c e)
    (hinj : ∀ x ∈ types, ∀ c ∈ x.order.axes, ∀ d ∈ t.order.axes, f c = f d → c = d)
    (h : (do gather map shape t.order (← firstInput (types.zip data))) = Except.ok r) :
    (do gather map' shape t'.order (← firstInput (types'.zip data))) = Except.ok r := by
  obtain ⟨⟨x, d⟩, hx, hread⟩ := bind_ok_iff.1 h
  obtain ⟨y, hy, hmem, hxy⟩ := firstInput_renamed htypes hx
  exact bind_ok_iff.2
    ⟨_, hy, gather_renamed hxy ht.axes (hmap x hmem) (hinj x hmem) hread⟩

/-- An operator that reads all of its inputs along the output reads the same columns. -/
theorem gathers_renamed {shape : List Nat} {columns : List (Array α)}
    (htypes : List.Forall₂ (TensorType.Renamed f) types types') (ht : t.Renamed f t')
    (hinj : ∀ x ∈ types, ∀ c ∈ x.order.axes, ∀ d ∈ t.order.axes, f c = f d → c = d)
    (h : List.Forall₂ (fun x c => gather .wrap shape t.order x = .ok c) (types.zip data) columns) :
    List.Forall₂ (fun x c => gather .wrap shape t'.order x = .ok c) (types'.zip data) columns := by
  induction htypes generalizing data columns with
  | nil =>
    cases h
    exact .nil
  | cons hxy _ ih =>
    cases data with
    | nil =>
      cases h
      exact .nil
    | cons d data =>
      cases h with
      | cons hx hrest =>
        obtain ⟨hfirst, hinj⟩ := List.forall_mem_cons.1 hinj
        exact .cons (gather_renamed hxy ht.axes (fun _ _ _ _ => rfl) hfirst hx) (ih hinj hrest)

/-- An operator computes the same data from inputs whose axes are renamed. -/
theorem evaluate_renamed [Scalar α] {op op' : Operator α} {r : Array α}
    (hop : op.mapAxes f = .ok op') (htypes : List.Forall₂ (TensorType.Renamed f) types types')
    (ht : t.Renamed f t') (hf : op.KeepsApart f types t)
    (h : op.evaluate (types.zip data) t = .ok r) : op'.evaluate (types'.zip data) t' = .ok r := by
  cases op with
  | pointwise p =>
    cases hop
    rw [evaluate_pointwise_ok_iff] at h ⊢
    obtain ⟨shape, columns, hs, hc, h⟩ := h
    exact ⟨shape, columns, ht.known hs, gathers_renamed htypes ht hf hc, h⟩
  | tile m =>
    cases hop
    simp only [evaluate, bind_ok_iff (x := TensorType.concreteShape _), concreteShape_ok_iff] at h ⊢
    obtain ⟨shape, hs, h⟩ := h
    exact ⟨shape, ht.known hs,
      gather_firstInput_renamed htypes ht (fun _ _ _ _ _ _ => rfl) hf h⟩
  | slice start stop step =>
    cases hop
    simp only [evaluate, bind_ok_iff (x := TensorType.concreteShape _), concreteShape_ok_iff] at h ⊢
    obtain ⟨shape, hs, h⟩ := h
    exact ⟨shape, ht.known hs,
      gather_firstInput_renamed htypes ht (fun _ _ _ _ _ _ => rfl) hf h⟩
  | reinterpret source target =>
    simp only [mapAxes, bind_ok_iff, pure_ok_iff] at hop
    obtain ⟨source', -, target', -, rfl⟩ := hop
    simp only [evaluate, bind_ok_iff, concreteShape_ok_iff, pure_ok_iff] at h ⊢
    obtain ⟨shape, hs, ⟨x, d⟩, hx, rfl⟩ := h
    obtain ⟨y, hy, -⟩ := firstInput_renamed htypes hx
    exact ⟨shape, ht.known hs, _, hy, rfl⟩
  | resize a m b n =>
    cases hop
    simp only [evaluate, bind_ok_iff (x := TensorType.concreteShape _), concreteShape_ok_iff] at h ⊢
    obtain ⟨shape, hs, h⟩ := h
    refine ⟨shape, ht.known hs,
      gather_firstInput_renamed htypes ht (fun x hx s hsa c e => ?_) hf.1 h⟩
    obtain ⟨ha, hb⟩ := hf.2 x hx s.axis hsa
    have ha' : f s.axis = f a ↔ s.axis = a := ⟨ha, congrArg f⟩
    have hb' : f s.axis = f b ↔ s.axis = b := ⟨hb, congrArg f⟩
    simp only [CoordinateMap.scale, SourceAxis.rename, ha', hb']

end

end Operator

end TensorCompiler
