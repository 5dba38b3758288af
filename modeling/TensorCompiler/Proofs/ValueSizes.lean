import TensorCompiler.Proofs.Denotation
import TensorCompiler.Proofs.Typing
/-!
# The sizes of values

A value has one element for each coordinate of its variable, whether it was fed, held as a constant
or computed. For a computed value this is what evaluation makes, but for reinterpretations, which
pass their input on: so their output has to keep the shape of the input through all edits, even
those that a failed renaming of axes leaves halfway.

* `Session.shapesKept`: the shapes around reinterpretations agree in every reached graph.
* `Graph.HasValue.concreteSize`: the size of a value is that of its variable.
-/

namespace TensorCompiler

/-- A reinterpretation has one input, whose shape it keeps. -/
def Operator.KeepsShape {α : Type} (op : Operator α) (inputs : List TensorType)
    (output : TensorType) : Prop :=
  op.kind = .reinterpretAxis → ∃ x, inputs = [x] ∧ (x.shape == output.shape) = true

section

variable {α : Type} {op op' : Operator α} {types : List TensorType} {t : TensorType}

theorem Operator.Fits.keepsShape (h : op.Fits types t) : op.KeepsShape types t := by
  intro hkind
  cases op with
  | reinterpret source target =>
    obtain ⟨x, hx, -, -, hshape⟩ := h
    exact ⟨x, hx, hshape⟩
  | pointwise f => cases f <;> cases hkind
  | _ => cases hkind

theorem Operator.kind_mapAxes {f : Axis → Axis} (h : op.mapAxes f = .ok op') :
    op'.kind = op.kind := by
  cases op with
  | reinterpret source target =>
    simp only [mapAxes, bind_ok_iff, pure_ok_iff] at h
    obtain ⟨_, -, _, -, rfl⟩ := h
    rfl
  | _ => cases h; rfl

end

namespace Graph

variable {α : Type}

/-- The shapes around a reinterpretation with a live output agree. -/
def ShapeKeptAt (g : Graph α) (o : OpId) : Prop :=
  ∀ node ins ts t p, g.node? o = some node → g.inputsOf o = .ok ins → g.tensors ins = .ok ts →
    g.slot? node.output = some (.live t p) → node.op.KeepsShape (ts.map (·.type)) t.type

/-- The shapes around every reinterpretation with a live output agree. -/
def ShapesKept (g : Graph α) : Prop := ∀ o, g.ShapeKeptAt o

/-! ## Edits -/

/-- An edit that keeps the shapes of the live variables, where `m` says what stands in the place of
a variable. -/
structure KeepsSizes (m : VarId → VarId) (g h : Graph α) : Prop where
  resolve : ∀ v w, g.resolve v = .ok w → h.resolve v = .ok (m w)
  tensor : ∀ v t, g.tensor v = .ok t →
    ∃ t', h.tensor (m v) = .ok t' ∧ (t.type.shape == t'.type.shape) = true
  live : ∀ v t' p, v.index < g.slots.size → h.slot? v = some (.live t' p) →
    ∃ t q, g.slot? v = some (.live t q) ∧ (t.type.shape == t'.type.shape) = true

/-- An operator of a graph has been one of the same kind before, with the same operands. -/
def KeepsOperator (g h : Graph α) (o : OpId) : Prop :=
  ∀ n', h.node? o = some n' → ∃ n, g.node? o = some n ∧ n'.inputs = n.inputs ∧
    n'.output = n.output ∧ n'.op.kind = n.op.kind

section

variable {g h : Graph α} {m : VarId → VarId} {f : Axis → Axis}

theorem KeepsOperator.of_node {o : OpId} (hn : ∀ n', h.node? o = some n' → g.node? o = some n') :
    KeepsOperator g h o := fun n' hn' => ⟨n', hn n' hn', rfl, rfl, rfl⟩

theorem KeepsSizes.inputsOf (k : KeepsSizes m g h) {o : OpId} {n n' : Node α} {ins : List VarId}
    (hn : g.node? o = some n) (hn' : h.node? o = some n') (e : n'.inputs = n.inputs)
    (hins : g.inputsOf o = .ok ins) : h.inputsOf o = .ok (ins.map m) := by
  obtain ⟨n₁, hn₁, hins⟩ := inputsOf_ok_iff.1 hins
  obtain rfl := Option.some.inj (hn.symm.trans hn₁)
  refine inputsOf_ok_iff.2 ⟨n', hn', ?_⟩
  rw [e, List.forall₂_map_right_iff]
  exact hins.imp fun v w => k.resolve v w

theorem KeepsSizes.tensors (k : KeepsSizes m g h) {vs : List VarId} {ts ts' : List (Tensor α)}
    (hts : g.tensors vs = .ok ts) (hts' : h.tensors (vs.map m) = .ok ts') :
    List.Forall₂ (fun x y => (x.shape == y.shape) = true) (ts.map (·.type)) (ts'.map (·.type)) := by
  rw [Graph.tensors, mapM_ok_iff] at hts hts'
  rw [List.forall₂_map_left_iff] at hts'
  rw [List.forall₂_map_left_iff, List.forall₂_map_right_iff]
  refine (forall₂_comp hts.flip hts').imp ?_
  rintro t t' ⟨v, ht, ht'⟩
  obtain ⟨u, hu, hshape⟩ := k.tensor v t ht
  obtain rfl := Except.ok.inj (hu.symm.trans ht')
  exact hshape

theorem KeepsSizes.shapeKeptAt (k : KeepsSizes m g h) (hg : g.Wellformed) {o : OpId}
    (hkept : g.ShapeKeptAt o) (hop : KeepsOperator g h o) : h.ShapeKeptAt o := by
  intro n' ins' ts' t' p hn' hins' hts' hs' hkind
  obtain ⟨n, hn, hi, ho, hop⟩ := hop n' hn'
  obtain ⟨ins, hins⟩ := inputsOf_ok hg hn
  obtain ⟨ts, hts⟩ := tensors_ok_of_inputsOf hins
  obtain ⟨t, q, hs, hshape⟩ := k.live n.output t' p (hg.output o n hn).1 (ho ▸ hs')
  obtain ⟨x, hx, hkept⟩ := hkept n ins ts t q hn hins hts hs (hop ▸ hkind)
  obtain rfl := Except.ok.inj ((k.inputsOf hn hn' hi hins).symm.trans hins')
  have hall := k.tensors hts hts'
  rw [hx] at hall
  obtain ⟨x', rest, hshape', hrest, hx'⟩ := List.forall₂_cons_left_iff.1 hall
  cases hrest
  exact ⟨x', hx', shape_beq_trans (shape_beq_symm hshape') (shape_beq_trans hkept hshape)⟩

theorem KeepsSizes.shapesKept (k : KeepsSizes m g h) (hg : g.Wellformed) (hkept : g.ShapesKept)
    (hop : ∀ o, KeepsOperator g h o) : h.ShapesKept :=
  fun o => k.shapeKeptAt hg (hkept o) (hop o)

/-- Edits that match variables by their types keep their shapes. -/
theorem Matches.keepsSizes (k : Matches f m g h)
    (hlive : ∀ v t' p, v.index < g.slots.size → h.slot? v = some (.live t' p) →
      ∃ t q, g.slot? v = some (.live t q) ∧ t'.type = t.type) : KeepsSizes m g h where
  resolve := k.resolve
  tensor v t ht := by
    obtain ⟨t', ht', hr⟩ := k.tensor v t ht
    exact ⟨t', ht', hr.shape⟩
  live v t' p hlt hv := by
    obtain ⟨t, q, hv, e⟩ := hlive v t' p hlt hv
    exact ⟨t, q, hv, e ▸ shape_beq_refl _⟩

theorem ShapesKept.of_same (hg : g.Wellformed) (hkept : g.ShapesKept) (k : SameArena g h)
    (hn : h.nodes = g.nodes) (hs : ∀ v t' p, h.slot? v = some (.live t' p) →
      ∃ t, g.slot? v = some (.live t p) ∧ t'.type = t.type) : h.ShapesKept := by
  refine ((matches_sameArena k hs).keepsSizes fun v t' p _ hv => ?_).shapesKept hg hkept fun o =>
    .of_node fun n' hn' => ?_
  · obtain ⟨t, hv, e⟩ := hs v t' p hv
    exact ⟨t, p, hv, e⟩
  · rw [← hn']
    unfold node?
    rw [hn]

theorem keepsSizes_push {t : Tensor α} {p : Option OpId} (hh : h.Wellformed)
    (hs : h.slots = g.slots.push (.live t p)) : KeepsSizes id g h := by
  refine (matches_push hh hs).keepsSizes fun v t' q hlt hv => ?_
  rcases slot?_of_push hs hv with hv | ⟨e, -⟩
  · exact ⟨t', q, hv, rfl⟩
  · rw [e] at hlt
    exact absurd hlt (Nat.lt_irrefl _)

theorem shapesKept_addVariable (hg : g.Wellformed) (hkept : g.ShapesKept) (t : Tensor α) :
    (g.addVariable t).1.ShapesKept :=
  (keepsSizes_push (wellformed_addVariable hg t) rfl).shapesKept hg hkept fun _ =>
    .of_node fun _ hn => hn

theorem shapesKept_addInput (hg : g.Wellformed) (hkept : g.ShapesKept) (t : Tensor α) :
    (g.addInput t).1.ShapesKept := by
  have k : SameArena (g.addVariable (t.mark .input)).1 (g.addInput t).1 := ⟨rfl, rfl⟩
  exact (shapesKept_addVariable hg hkept _).of_same (wellformed_addVariable hg _) k rfl
    fun v t p hv => ⟨t, hv, rfl⟩

theorem shapesKept_addOp {op : Operator α} {ins : List VarId} {v : VarId} {s s' : Supply}
    (hg : g.Wellformed) (hkept : g.ShapesKept) (hop : Gives (g.addOp op ins) s (h, v) s') :
    h.ShapesKept := by
  have hh := wellformed_addOp hg hop
  obtain ⟨ws, ts, t, hw, hts, hi, rfl, -⟩ := addOp_gives_iff.1 hop
  obtain ⟨type, hinf, rfl⟩ := inferTensor_gives_iff.1 hi
  intro o
  by_cases ho : o = ⟨g.nodes.size⟩
  · intro n' ins' ts' t' p hn' hins' hts' hs'
    rw [node?_placeOp, if_pos (congrArg OpId.index ho)] at hn'
    cases hn'
    rw [slot?_push_new rfl] at hs'
    cases hs'
    have hins := ho ▸ inputsOf_placeOp_new hh (resolve_of_mem_resolveEach hw)
    obtain rfl := Except.ok.inj (hins.symm.trans hins')
    obtain rfl := Except.ok.inj ((tensors_push rfl hts).symm.trans hts')
    exact (Operator.fits_infer hinf).keepsShape
  · refine (keepsSizes_push hh rfl).shapeKeptAt hg (hkept o) (.of_node fun n hn => ?_)
    rcases node?_of_placeOp hn with hold | ⟨e, -⟩
    · exact hold
    · exact absurd e ho

theorem shapesKept_removeOperator {o : OpId} {node : Node α} (hg : g.Wellformed)
    (hkept : g.ShapesKept) (hr : g.removeOperator o = .ok (h, node)) : h.ShapesKept := by
  obtain ⟨ho, rfl⟩ := removeOperator_ok_iff.1 hr
  refine ((matches_detach hg ho).keepsSizes fun v t' q _ hv => ?_).shapesKept hg hkept fun p =>
    .of_node fun n hn => ?_
  · rcases slot?_of_detach hv with ⟨-, hv⟩ | ⟨-, -, r, hv⟩
    · exact ⟨t', q, hv, rfl⟩
    · exact ⟨t', r, hv, rfl⟩
  · rw [node?_detach] at hn
    split at hn
    · cases hn
    · exact hn

theorem shapesKept_replaceVariable {old new : VarId} (hg : g.Wellformed) (hkept : g.ShapesKept)
    (hr : g.replaceVariable old new = .ok h) : h.ShapesKept := by
  obtain ⟨a, b, -, -, ⟨-, rfl⟩ | ⟨hab, x, y, hx, hy, hs, ho, rfl⟩⟩ := replaceVariable_ok_iff.1 hr
  · exact hkept
  · obtain ⟨p, hx⟩ := tensor_ok_iff.1 hx
    obtain ⟨q, hy⟩ := tensor_ok_iff.1 hy
    refine ((matches_redirect hg hab hx hy hs ho).keepsSizes fun v t' r _ hv => ?_).shapesKept hg
      hkept fun o => .of_node fun n hn => hn
    obtain ⟨-, t, hv', e, -⟩ := slot?_of_redirect hab hx hy hv
    exact ⟨t, r, hv', e⟩

theorem shapesKept_markOutput {v : VarId} (hg : g.Wellformed) (hkept : g.ShapesKept)
    (hm : g.markOutput v = .ok h) : h.ShapesKept := by
  obtain ⟨w, -, -, hn, -⟩ := markOutput_ok hm
  refine hkept.of_same hg (sameArena_markOutput hm) hn fun u t p hu => ?_
  obtain ⟨t', hu', ht, -⟩ := slot?_of_markOutput hm hu
  exact ⟨t', hu', ht⟩

theorem shapesKept_induced {ins outs : List VarId} (hg : g.Wellformed) (hkept : g.ShapesKept)
    (hi : g.induced ins outs = .ok h) : h.ShapesKept := by
  obtain ⟨ins', outs', -, -, rfl⟩ := induced_ok hi
  have k : SameArena g { g with declaredInputs := ins', declaredOutputs := outs' } := ⟨rfl, rfl⟩
  exact hkept.of_same hg k rfl fun v t p hv => ⟨t, hv, rfl⟩

/-- Renamed tensors keep their shape, whether or not the renaming gets to them. -/
theorem live_of_renameAxes [Scalar α] {v : VarId} {t' : Tensor α} {p : Option OpId}
    (hv : (g.renameAxes f).1.slot? v = some (.live t' p)) :
    ∃ t, g.slot? v = some (.live t p) ∧ t'.type.shape = t.type.shape := by
  obtain ⟨x, hx, rfl | ⟨b, hb⟩⟩ := slot?_of_renameAxes hv
  · exact ⟨t', hx, rfl⟩
  · obtain ⟨u, rfl, hu, -⟩ := Slot.renameAxes_live hb
    exact ⟨u, hx, (TensorType.rename?_eq_some hu).1⟩

theorem keepsSizes_renameAxes [Scalar α] : KeepsSizes id g (g.renameAxes f).1 where
  resolve v w hv := ((sameArena_renameAxes g f).resolve v).trans hv
  tensor v t ht := by
    obtain ⟨p, hv⟩ := tensor_ok_iff.1 ht
    obtain ⟨t', hv', -⟩ := (sameArena_renameAxes g f).live hv
    obtain ⟨u, hu, e⟩ := live_of_renameAxes hv'
    rw [hv] at hu
    cases hu
    exact ⟨t', tensor_ok_iff.2 ⟨p, hv'⟩, e ▸ shape_beq_refl _⟩
  live v t' p _ hv := by
    obtain ⟨t, hv, e⟩ := live_of_renameAxes hv
    exact ⟨t, p, hv, e ▸ shape_beq_refl _⟩

/-- What is fed to a variable has one element for each of its coordinates. -/
theorem concreteSize_of_feeds {fed : Values α} {feeds : List (VarId × Array α)}
    (h : feeds.foldlM g.feed {} = .ok fed) {v : VarId} {d : Array α} (hd : fed.get? v = some d) :
    ∃ t, g.tensor v = .ok t ∧ t.type.concreteSize = .ok d.size := by
  refine foldlM_ok_induction (P := fun values => ∀ v d, values.get? v = some d →
    ∃ t, g.tensor v = .ok t ∧ t.type.concreteSize = .ok d.size) h (fun v d hd => by cases hd) ?_ v d hd
  intro values e values' _ hvalues hfeed v d hd
  obtain ⟨w, t, -, ht, hsize, rfl⟩ := feed_ok_iff.1 hfeed
  rw [Values.get?_set] at hd
  split at hd
  · next e' =>
    cases hd
    exact ⟨t, e' ▸ ht, hsize⟩
  · exact hvalues v d hd

/-- An operator after a renaming of axes, which may have failed before it got there. -/
theorem node?_of_renameAxes [Scalar α] {o : OpId} {n' : Node α}
    (h : (g.renameAxes f).1.node? o = some n') :
    ∃ n, g.node? o = some n ∧ (n' = n ∨ ∃ b, n.renameAxes f = .ok (n', b)) := by
  have entry : ∀ {entries : List (Option (Node α))}, entries = g.nodes.toList →
      (updateEach (renameEntry f) entries).1[o.index]?.join = some n' →
      ∃ n, g.node? o = some n ∧ (n' = n ∨ ∃ b, n.renameAxes f = .ok (n', b)) := by
    rintro _ rfl h
    obtain ⟨x, hx, hy⟩ := updateEach_getElem? (Option.join_eq_some_iff.1 h)
    rcases hy with rfl | ⟨b, hb⟩
    · exact ⟨n', Option.join_eq_some_iff.2 (by simpa using hx), .inl rfl⟩
    · cases x with
      | none => cases hb
      | some n =>
        rcases hn : n.renameAxes f with e | ⟨n₁, c⟩
        · rw [renameEntry, hn] at hb
          cases hb
        · rw [renameEntry, hn] at hb
          cases hb
          exact ⟨n, Option.join_eq_some_iff.2 (by simpa using hx), .inr ⟨_, hn⟩⟩
  rcases hslots : updateEach (Slot.renameAxes f) g.slots.toList with ⟨slots, e | changed⟩
  · unfold renameAxes at h
    simp only [hslots] at h
    exact ⟨n', h, .inl rfl⟩
  · unfold renameAxes at h
    simp only [hslots] at h
    have h : ((updateEach (renameEntry f) g.nodes.toList).1.toArray[o.index]?).join = some n' := h
    exact entry rfl (List.getElem?_toArray ▸ h)

theorem keepsOperator_renameAxes [Scalar α] {o : OpId} :
    KeepsOperator g (g.renameAxes f).1 o := by
  intro n' hn'
  obtain ⟨n, hn, rfl | ⟨b, hb⟩⟩ := node?_of_renameAxes hn'
  · exact ⟨n', hn, rfl, rfl, rfl⟩
  · obtain ⟨hi, ho, hop⟩ := renameAxes_node hb
    exact ⟨n, hn, hi, ho, Operator.kind_mapAxes hop⟩

end

end Graph

section

variable {α : Type} [Scalar α]

/-- The shapes around every reinterpretation agree, even after failed renamings. -/
theorem Session.shapesKept {strict : Bool} {s : Supply} {ds : List Dim} {g : Graph α}
    (h : Session strict s ds g) : g.ShapesKept := by
  induction h with
  | empty s => exact fun o node ins ts t p hn => by simp [Graph.node?] at hn
  | later _ _ ih => exact ih
  | word _ _ ih => exact ih
  | symbol _ _ ih => exact ih
  | arith _ _ _ _ ih => exact ih
  | dim _ _ _ ih => exact ih
  | addVariable h _ ih => exact Graph.shapesKept_addVariable h.wellformed ih _
  | addInput h _ ih => exact Graph.shapesKept_addInput h.wellformed ih _
  | markOutput h hm ih => exact Graph.shapesKept_markOutput h.wellformed ih hm
  | addOp h hop ih => exact Graph.shapesKept_addOp h.wellformed ih hop
  | removeOperator h hr ih => exact Graph.shapesKept_removeOperator h.wellformed ih hr
  | replaceVariable h hr ih => exact Graph.shapesKept_replaceVariable h.wellformed ih hr
  | renameAxes f h _ ih =>
    exact Graph.keepsSizes_renameAxes.shapesKept h.wellformed ih fun _ =>
      Graph.keepsOperator_renameAxes
  | induced h hi ih => exact Graph.shapesKept_induced h.wellformed ih hi

/-! ## Values -/

/-- Evaluation makes one element for each coordinate of the output, and a reinterpretation takes as
many from an input of the same shape. -/
theorem Operator.size_of_evaluate {op : Operator α} {types : List TensorType}
    {ds : List (Array α)} {t : TensorType} {d : Array α}
    (h : op.evaluate (types.zip ds) t = .ok d) (hshape : op.KeepsShape types t)
    (hsizes : ∀ x ∈ types.zip ds, x.1.concreteSize = .ok x.2.size) :
    t.concreteSize = .ok d.size := by
  have gathered : ∀ {map : CoordinateMap} {x : TensorType × Array α} {shape : List Nat},
      t.shape = shape.map .known → gather map shape t.order x = .ok d →
      t.concreteSize = .ok d.size := by
    intro map x shape ht hd
    obtain ⟨_, _, -, -, -, hsize, -⟩ := gather_ok_iff.1 hd
    exact concreteSize_ok_iff.2 ⟨shape, ht, hsize⟩
  cases op with
  | pointwise f =>
    obtain ⟨shape, columns, ht, -, hd⟩ := evaluate_pointwise_ok_iff.1 h
    exact concreteSize_ok_iff.2 ⟨shape, ht, (combine_ok_iff.1 hd).1⟩
  | reinterpret source target =>
    simp only [evaluate, bind_ok_iff, firstInput_ok_iff, pure_ok_iff, concreteShape_ok_iff] at h
    obtain ⟨shape, ht, x, ⟨rest, hx⟩, rfl⟩ := h
    have hmem : x ∈ types.zip ds := hx ▸ List.mem_cons_self ..
    obtain ⟨y, rfl, hkept⟩ := hshape rfl
    obtain rfl := List.mem_singleton.1 (List.of_mem_zip hmem).1
    obtain ⟨ns, hns, hsize⟩ := concreteSize_ok_iff.1 (hsizes x hmem)
    exact concreteSize_ok_iff.2 ⟨ns, known_of_shape_beq (hns ▸ hkept), hsize⟩
  | tile m =>
    simp only [evaluate, bind_ok_iff, concreteShape_ok_iff] at h
    obtain ⟨shape, ht, x, -, hd⟩ := h
    exact gathered ht hd
  | slice start stop step =>
    simp only [evaluate, bind_ok_iff, concreteShape_ok_iff] at h
    obtain ⟨shape, ht, x, -, hd⟩ := h
    exact gathered ht hd
  | resize a m b n =>
    simp only [evaluate, bind_ok_iff, concreteShape_ok_iff] at h
    obtain ⟨shape, ht, x, -, hd⟩ := h
    exact gathered ht hd

namespace Graph

variable {g : Graph α} {fed : Values α}

/-- Every value has one element for each coordinate of its variable. -/
theorem HasValue.concreteSize {s : Supply} (hg : Reached s g) {feeds : List (VarId × Array α)}
    (hfeed : feeds.foldlM g.feed {} = .ok fed) {v : VarId} {d : Array α} (h : g.HasValue fed v d) :
    ∃ t, g.tensor v = .ok t ∧ t.type.concreteSize = .ok d.size := by
  obtain ⟨ds, hsession⟩ := hg
  induction h with
  | leaf _ _ hf =>
    rcases fetch_ok_iff.1 hf with hd | ⟨-, t, ht, hd⟩
    · exact concreteSize_of_feeds hfeed hd
    · obtain ⟨p, hslot⟩ := tensor_ok_iff.1 ht
      exact ⟨t, ht, concreteSize_ok_iff.2 ((hsession.sound _ t p hslot).2 _ hd)⟩
  | @computed v o node ins ts t ds d _ hp hn hins hts ht hlen _ he ih =>
    refine ⟨t, ht, Operator.size_of_evaluate he ?_ ?_⟩
    · obtain ⟨w, u, hw, hslot⟩ := producer_some_iff.1 hp
      obtain rfl := Except.ok.inj ((resolve_of_tensor ht).symm.trans hw)
      obtain ⟨-, node', hn', hout⟩ := hsession.wellformed.produced _ _ _ hslot
      obtain rfl := Option.some.inj (hn.symm.trans hn')
      obtain ⟨p, hslot'⟩ := tensor_ok_iff.1 ht
      exact hsession.shapesKept o node ins ts t p hn hins hts (hout ▸ hslot')
    · rintro ⟨x, d'⟩ hx
      obtain ⟨i, hi⟩ := List.mem_iff_getElem?.1 hx
      obtain ⟨hx, hd⟩ := List.getElem?_zip_eq_some.1 hi
      obtain ⟨t', ht', rfl⟩ := Option.map_eq_some_iff.1 (List.getElem?_map ▸ hx)
      rw [Graph.tensors, mapM_ok_iff] at hts
      have hlt : i < ins.length := hlen ▸ (List.getElem?_eq_some_iff.1 hd).1
      have hu : ins[i]? = some ins[i] := List.getElem?_eq_getElem hlt
      obtain ⟨t'', ht'', hsize⟩ := ih (ins[i], d')
        (List.mem_of_getElem? (List.getElem?_zip_eq_some.2 ⟨hu, hd⟩))
      obtain rfl := Except.ok.inj ((forall₂_getElem? hts hu ht').symm.trans ht'')
      exact hsize

end Graph

end

end TensorCompiler
