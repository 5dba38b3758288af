import TensorCompiler.Proofs.Denotation
import TensorCompiler.Proofs.Typing
/-!
# Rewriting a graph

A pass takes an operator out of a graph, may add others, and lets another variable take the place
of the output. This module says when such a step keeps the meaning of the graph.

* `Preserves`: the outputs of the second graph have the values of those of the first.
* `run_of_preserves`: then a run that succeeded before succeeds with the same data.
* `Rewired`: one operator is gone, and one variable stands in for its output.
* `Rewired.hasValue`, `Rewired.preserves`: all values are kept if the variable that stands in has
  the value of the output.
* `rewired_replaceVariable`: the edits of a pass amount to this.
-/

namespace TensorCompiler.Graph

variable {α : Type}

/-! ## Edits put together -/

theorem producer_of_live {g : Graph α} {v : VarId} {t : Tensor α} {p : Option OpId}
    (h : g.slot? v = some (.live t p)) : g.producer v = p := by
  have hr : g.resolve v = .ok v := resolve_of_live h
  have h' : g.slots[v.index]? = some (.live t p) := h
  simp [producer, hr, Except.toOption, h']

theorem Matches.resolveAll {f : Axis → Axis} {m : VarId → VarId} {g h : Graph α}
    (k : Matches f m g h) (hg : g.Wellformed) {vs : List VarId}
    (hvs : ∀ v ∈ vs, v.index < g.slots.size) : h.resolveAll vs = (g.resolveAll vs).map m := by
  refine resolveAll_of_forall₂ ?_
  rw [List.forall₂_map_right_iff]
  exact (forall₂_resolveAll hg hvs).imp fun v w => k.resolve v w

theorem Matches.trans {f : Axis → Axis} {m n : VarId → VarId} {g h i : Graph α}
    (k : Matches f m g h) (k' : Matches id n h i) : Matches f (n ∘ m) g i where
  resolve v w hv := k'.resolve _ _ (k.resolve v w hv)
  tensor v t ht := by
    obtain ⟨t', ht', hr⟩ := k.tensor v t ht
    obtain ⟨t'', ht'', hr'⟩ := k'.tensor _ t' ht'
    refine ⟨t'', ht'', ?_, shape_beq_trans hr.shape hr'.shape⟩
    rw [hr'.axes, List.map_id, hr.axes]

/-- The second graph has whatever the first one has, in the same places. -/
structure Extends (g h : Graph α) : Prop where
  declaredInputs : h.declaredInputs = g.declaredInputs
  declaredOutputs : h.declaredOutputs = g.declaredOutputs
  slot : ∀ v x, g.slot? v = some x → h.slot? v = some x
  node : ∀ o n, g.node? o = some n → h.node? o = some n

theorem Extends.refl (g : Graph α) : Extends g g := ⟨rfl, rfl, fun _ _ h => h, fun _ _ h => h⟩

theorem Extends.trans {g h i : Graph α} (k : Extends g h) (k' : Extends h i) : Extends g i :=
  ⟨k'.declaredInputs.trans k.declaredInputs, k'.declaredOutputs.trans k.declaredOutputs,
    fun v x hv => k'.slot v x (k.slot v x hv), fun o n ho => k'.node o n (k.node o n ho)⟩

theorem extends_addVariable (g : Graph α) (t : Tensor α) : Extends g (g.addVariable t).1 :=
  ⟨rfl, rfl, fun _ _ hv => slot?_push_old rfl hv, fun _ _ h => h⟩

theorem extends_placeOp (g : Graph α) (op : Operator α) (ins : List VarId) (t : Tensor α) :
    Extends g (g.placeOp op ins t) :=
  ⟨rfl, rfl, fun _ _ hv => slot?_push_old rfl hv, fun _ _ ho => node?_placeOp_old ho⟩

theorem Extends.matches {g h : Graph α} (k : Extends g h) (hh : h.Wellformed) :
    Matches id id g h where
  resolve v w hv := resolve_of_keeps hh (fun _ x hx => ⟨x, k.slot _ x hx, rfl⟩) hv
  tensor v t ht := by
    obtain ⟨p, hv⟩ := tensor_ok_iff.1 ht
    exact ⟨t, tensor_ok_iff.2 ⟨p, k.slot v _ hv⟩, .refl t.type⟩

theorem Extends.tensor {g h : Graph α} (k : Extends g h) {v : VarId} {t : Tensor α}
    (ht : g.tensor v = .ok t) : h.tensor v = .ok t := by
  obtain ⟨p, hv⟩ := tensor_ok_iff.1 ht
  exact tensor_ok_iff.2 ⟨p, k.slot v _ hv⟩

/-- Handles of `a` stand for `b` instead, if the two differ; all else is as before. -/
structure Diverts (g h : Graph α) (a b : VarId) : Prop where
  declaredInputs : h.declaredInputs = g.declaredInputs
  declaredOutputs : h.declaredOutputs = g.declaredOutputs
  links : Matches id (fun w => if w = a then b else w) g h
  live : ∀ v t p, v ≠ a → g.slot? v = some (.live t p) →
    ∃ t', h.slot? v = some (.live t' p) ∧ t'.type = t.type ∧ t'.data = t.data
  nodes : h.nodes = g.nodes

theorem diverts_replaceVariable {g h : Graph α} {a new : VarId} (hg : g.Wellformed)
    (ha : g.resolve a = .ok a) (hr : g.replaceVariable a new = .ok h) :
    ∃ b, g.resolve new = .ok b ∧ Diverts g h a b := by
  obtain ⟨a', b, ha', hb, ⟨rfl, rfl⟩ | ⟨hab, x, y, hx, hy, hs, ho, rfl⟩⟩ :=
    replaceVariable_ok_iff.1 hr
  · obtain rfl := Except.ok.inj (ha.symm.trans ha')
    have same : ∀ w : VarId, (if w = a then a else w) = w := by
      intro w
      split
      · next e => exact e.symm
      · rfl
    refine ⟨a, hb, rfl, rfl, ⟨fun v w hv => ?_, fun v t ht => ?_⟩, fun v t p _ hv =>
      ⟨t, hv, rfl, rfl⟩, rfl⟩
    · rw [same, hv]
    · rw [same]
      exact ⟨t, ht, .refl t.type⟩
  · obtain rfl := Except.ok.inj (ha.symm.trans ha')
    obtain ⟨p, hx⟩ := tensor_ok_iff.1 hx
    obtain ⟨q, hy⟩ := tensor_ok_iff.1 hy
    exact ⟨b, hb, rfl, rfl, matches_redirect hg hab hx hy hs ho,
      fun v t r hva hv => slot?_redirect_live _ hab hva hv, rfl⟩

/-- An operator is gone, and `b` stands in for its output `a`; all else is as before. -/
structure Rewired (g h : Graph α) (o : OpId) (a b : VarId) : Prop where
  declaredInputs : h.declaredInputs = g.declaredInputs
  declaredOutputs : h.declaredOutputs = g.declaredOutputs
  links : Matches id (fun w => if w = a then b else w) g h
  produced : ∃ x, g.slot? a = some (.live x (some o))
  noInput : a ∉ g.inputs
  live : ∀ v t p, v ≠ a → g.slot? v = some (.live t p) →
    ∃ t', h.slot? v = some (.live t' p) ∧ t'.data = t.data
  node : ∀ o' n, o' ≠ o → g.node? o' = some n → h.node? o' = some n

/-- Only the replaced variable was computed by the operator that is gone. -/
theorem Rewired.producer_ne {g h : Graph α} {o q : OpId} {a b v : VarId} {t : Tensor α}
    (hg : g.Wellformed) (r : Rewired g h o a b) (hv : g.slot? v = some (.live t (some q)))
    (hva : v ≠ a) : q ≠ o := by
  rintro rfl
  obtain ⟨x, hx⟩ := r.produced
  obtain ⟨-, node, hn, hout⟩ := hg.produced v t q hv
  obtain ⟨-, node', hn', hout'⟩ := hg.produced a x q hx
  obtain rfl := Option.some.inj (hn.symm.trans hn')
  exact hva (hout.symm.trans hout')

theorem Rewired.inputs {g h : Graph α} {o : OpId} {a b : VarId} (hg : g.Wellformed)
    (r : Rewired g h o a b) : h.inputs = g.inputs := by
  unfold Graph.inputs
  rw [r.declaredInputs, r.links.resolveAll hg hg.declaredInputs]
  refine (List.map_congr_left fun v hv => ?_).trans (List.map_id _)
  rw [if_neg (ne_of_mem_of_not_mem (show v ∈ g.inputs from hv) r.noInput), id]

theorem Rewired.computes {g h : Graph α} {o o' : OpId} {a b : VarId} (hg : g.Wellformed)
    (r : Rewired g h o a b) (ho : o' ≠ o) (hc : g.Computes o') : h.Computes o' := by
  obtain ⟨node, t, hn, hs, hi⟩ := hc
  obtain ⟨x, hx⟩ := r.produced
  have hva : node.output ≠ a := by
    intro e
    rw [e, hx] at hs
    cases hs
    exact ho rfl
  obtain ⟨t', hs', -⟩ := r.live _ t _ hva hs
  exact ⟨node, t', r.node o' node ho hn, hs', r.inputs hg ▸ hi⟩

/-- Taking out an operator, adding to the graph, and replacing its output rewires the graph. -/
theorem rewired_replaceVariable {g g₁ h : Graph α} {o : OpId} {node : Node α} {x : Tensor α}
    {b : VarId} (hg : g.Wellformed) (hn : g.node? o = some node)
    (hs : g.slot? node.output = some (.live x (some o))) (hi : node.output ∉ g.inputs)
    (hg₁ : g₁.Wellformed) (k : Extends (g.detach o node.output) g₁)
    (r : Diverts g₁ h node.output b) : Rewired g h o node.output b where
  declaredInputs := r.declaredInputs.trans k.declaredInputs
  declaredOutputs := r.declaredOutputs.trans k.declaredOutputs
  links := ((matches_detach hg hn).trans (k.matches hg₁)).trans r.links
  produced := ⟨x, hs⟩
  noInput := hi
  live v t p hv hvs := by
    have hd : (g.detach o node.output).slot? v = some (.live t p) := by
      rw [slot?_detach, if_neg hv, hvs]
    obtain ⟨t', ht', -, e⟩ := r.live v t p hv (k.slot v _ hd)
    exact ⟨t', ht', e⟩
  node o' n ho hn' := by
    have hd : (g.detach o node.output).node? o' = some n := by
      rw [node?_detach, if_neg ho, hn']
    have := k.node o' n hd
    unfold node? at this ⊢
    rw [r.nodes, this]

variable [Scalar α] {fed : Values α} {g h : Graph α}

/-! ## Keeping the outputs -/

/-- The second graph takes the same feeds, and its outputs have the values of those of the
first. -/
structure Preserves (fed : Values α) (g h : Graph α) : Prop where
  inputs : h.inputs = g.inputs
  handles : ∀ e v, g.resolve e = .ok v → v ∈ g.inputs → h.resolve e = .ok v
  tensors : ∀ v ∈ g.inputs, ∀ t, g.tensor v = .ok t → ∃ t', h.tensor v = .ok t' ∧
    (t.type.shape == t'.type.shape) = true ∧ t'.data = t.data
  outputs : List.Forall₂ (fun v w => ∀ d, g.HasValue fed v d → h.HasValue fed w d)
    g.outputs h.outputs

theorem Preserves.refl (fed : Values α) (g : Graph α) : Preserves fed g g where
  inputs := rfl
  handles _ _ he _ := he
  tensors _ _ t ht := ⟨t, ht, shape_beq_refl _, rfl⟩
  outputs := List.forall₂_same.2 fun _ _ _ h => h

theorem Preserves.trans {i : Graph α} (k : Preserves fed g h) (k' : Preserves fed h i) :
    Preserves fed g i where
  inputs := k'.inputs.trans k.inputs
  handles e v he hv := k'.handles e v (k.handles e v he hv) (k.inputs ▸ hv)
  tensors v hv t ht := by
    obtain ⟨t', ht', hs, hd⟩ := k.tensors v hv t ht
    obtain ⟨t'', ht'', hs', hd'⟩ := k'.tensors v (k.inputs ▸ hv) t' ht'
    exact ⟨t'', ht'', shape_beq_trans hs hs', hd'.trans hd⟩
  outputs := by
    have trans : ∀ {us vs ws : List VarId},
        List.Forall₂ (fun v w => ∀ d, g.HasValue fed v d → h.HasValue fed w d) us vs →
        List.Forall₂ (fun v w => ∀ d, h.HasValue fed v d → i.HasValue fed w d) vs ws →
        List.Forall₂ (fun v w => ∀ d, g.HasValue fed v d → i.HasValue fed w d) us ws := by
      intro us vs ws huv hvw
      induction huv generalizing ws with
      | nil => cases hvw; exact .nil
      | cons huv _ ih =>
        cases hvw with
        | cons hvw hvws => exact .cons (fun d hd => hvw d (huv d hd)) (ih hvws)
    exact trans k.outputs k'.outputs

/-- A graph that preserves the values of the outputs returns the same data. -/
theorem run_of_preserves (hg : g.Wellformed) (hh : h.Wellformed)
    {feeds out : List (VarId × Array α)} (hf : g.FeedsInputs feeds)
    (k : ∀ fed, feeds.foldlM g.feed {} = .ok fed → Preserves fed g h)
    (hrun : g.run feeds = .ok out) :
    ∃ out', h.run feeds = .ok out' ∧ out'.map (·.2) = out.map (·.2) := by
  obtain ⟨fed, hfed, hout⟩ := (run_ok_iff hg hf).1 hrun
  have k := k fed hfed
  have hf' : h.FeedsInputs feeds := by
    intro e he
    obtain ⟨v, hv, hr⟩ := hf e he
    exact ⟨v, k.inputs ▸ hv, k.handles _ v hr hv⟩
  have hfed' : feeds.foldlM h.feed {} = .ok fed := by
    refine foldlM_ok_mono hfed fun values e values' he hfeed => ?_
    obtain ⟨v, t, hr, ht, hsize, rfl⟩ := feed_ok_iff.1 hfeed
    obtain ⟨u, hu, hru⟩ := hf e he
    obtain rfl := Except.ok.inj (hr.symm.trans hru)
    obtain ⟨t', ht', hs, -⟩ := k.tensors v hu t ht
    refine feed_ok_iff.2 ⟨v, t', k.handles _ v hr hu, ht', ?_, rfl⟩
    rw [concreteSize_ok_iff] at hsize ⊢
    obtain ⟨ns, hns, hd⟩ := hsize
    exact ⟨ns, known_of_shape_beq (hns ▸ hs), hd⟩
  obtain ⟨out', hout', hdata⟩ : ∃ out' : List (VarId × Array α),
      List.Forall₂ (fun v e => e.1 = v ∧ h.HasValue fed v e.2) h.outputs out' ∧
        out'.map (·.2) = out.map (·.2) := by
    have hk := k.outputs
    generalize h.outputs = ws at hk
    generalize g.outputs = vs at hk hout
    clear hrun
    induction hk generalizing out with
    | nil =>
      cases hout
      exact ⟨[], .nil, rfl⟩
    | cons hvw _ ih =>
      cases hout with
      | cons he hout =>
        obtain ⟨out', hout', hdata⟩ := ih hout
        exact ⟨(_, _) :: out', .cons ⟨rfl, hvw _ he.2⟩ hout', congrArg (_ :: ·) hdata⟩
  exact ⟨out', (run_ok_iff hh hf').2 ⟨fed, hfed', hout'⟩, hdata⟩

/-! ## One operator replaced -/

section

variable {o : OpId} {a b : VarId}

/-- If the variable that stands in has the value of the output, all values are kept. -/
theorem Rewired.hasValue (hg : g.Wellformed) (r : Rewired g h o a b)
    (hnew : ∀ node ins ts t ds d, g.node? o = some node → node.output = a →
      g.inputsOf o = .ok ins → g.tensors ins = .ok ts → g.tensor a = .ok t →
      List.Forall₂ (g.HasValue fed) ins ds →
      List.Forall₂ (fun v => h.HasValue fed (if v = a then b else v)) ins ds →
      node.op.evaluate ((ts.map (·.type)).zip ds) t.type = .ok d → h.HasValue fed b d)
    {v : VarId} {d : Array α} (hv : g.HasValue fed v d) :
    h.HasValue fed (if v = a then b else v) d := by
  obtain ⟨x, hx⟩ := r.produced
  have hinputs := r.inputs hg
  induction hv with
  | @leaf v d hres hl hf =>
    have hva : v ≠ a := by
      rintro rfl
      rcases hl with hl | hl
      · exact r.noInput hl
      · rw [producer_of_live hx] at hl
        cases hl
    obtain ⟨t, p, hs⟩ := live_of_resolve hres
    obtain ⟨t', hs', hd⟩ := r.live v t p hva hs
    rw [if_neg hva]
    refine .leaf (resolve_of_live hs') ?_ ?_
    · rcases hl with hl | hl
      · exact .inl (hinputs ▸ hl)
      · rw [producer_of_live hs] at hl
        exact .inr ((producer_of_live hs').trans hl)
    · rcases fetch_ok_iff.1 hf with hf | ⟨hnone, t₁, ht₁, hd₁⟩
      · exact fetch_ok_iff.2 (.inl hf)
      · obtain rfl := Except.ok.inj (ht₁.symm.trans (tensor_ok_iff.2 ⟨p, hs⟩))
        exact fetch_ok_iff.2 (.inr ⟨hnone, t', tensor_ok_iff.2 ⟨p, hs'⟩, hd.trans hd₁⟩)
  | @computed v o' node ins ts t ds d hvi hp hn hi hts ht hlen hds he ih =>
    by_cases hva : v = a
    · subst hva
      rw [if_pos rfl]
      rw [producer_of_live hx] at hp
      cases hp
      obtain ⟨-, node₁, hn₁, hout⟩ := hg.produced v x o hx
      obtain rfl := Option.some.inj (hn.symm.trans hn₁)
      exact hnew node ins ts t ds d hn hout hi hts ht (forall₂_of_zip hlen hds)
        (forall₂_of_zip hlen ih) he
    · obtain ⟨p, hs⟩ := tensor_ok_iff.1 ht
      rw [producer_of_live hs] at hp
      subst hp
      have hn' := r.node o' node (r.producer_ne hg hs hva) hn
      obtain ⟨t', hs', -⟩ := r.live v t _ hva hs
      obtain ⟨ts', hts', hrename⟩ := r.links.tensors hts
      obtain ⟨t₁, ht₁, htype⟩ := r.links.tensor v t ht
      have hs₁ := tensor_ok_iff.2 ⟨_, hs'⟩
      rw [if_neg hva, hs₁] at ht₁
      cases ht₁
      rw [if_neg hva]
      refine .computed (hinputs ▸ hvi) (producer_of_live hs') hn'
        (r.links.inputsOf hn hn' rfl hi) hts' hs₁ (by rw [List.length_map, hlen]) ?_
        (Operator.evaluate_renamed (Operator.mapAxes_id node.op) hrename htype
          (Operator.keepsApart_id _ _ _) he)
      rw [List.zip_map_left]
      intro q hq
      obtain ⟨⟨u, e⟩, hue, rfl⟩ := List.mem_map.1 hq
      exact ih _ hue

theorem Rewired.preserves (hg : g.Wellformed) (r : Rewired g h o a b)
    (hnew : ∀ node ins ts t ds d, g.node? o = some node → node.output = a →
      g.inputsOf o = .ok ins → g.tensors ins = .ok ts → g.tensor a = .ok t →
      List.Forall₂ (g.HasValue fed) ins ds →
      List.Forall₂ (fun v => h.HasValue fed (if v = a then b else v)) ins ds →
      node.op.evaluate ((ts.map (·.type)).zip ds) t.type = .ok d → h.HasValue fed b d) :
    Preserves fed g h where
  inputs := r.inputs hg
  handles e v he hv := by
    have := r.links.resolve e v he
    rwa [if_neg (ne_of_mem_of_not_mem hv r.noInput)] at this
  tensors v hv t ht := by
    have hva := ne_of_mem_of_not_mem hv r.noInput
    obtain ⟨p, hs⟩ := tensor_ok_iff.1 ht
    obtain ⟨t', hs', hd⟩ := r.live v t p hva hs
    obtain ⟨t₁, ht₁, hr⟩ := r.links.tensor v t ht
    have hs₁ := tensor_ok_iff.2 ⟨p, hs'⟩
    rw [if_neg hva, hs₁] at ht₁
    cases ht₁
    exact ⟨t', hs₁, hr.shape, hd⟩
  outputs := by
    have e : h.outputs = g.outputs.map fun w => if w = a then b else w := by
      unfold Graph.outputs
      rw [r.declaredOutputs, r.links.resolveAll hg hg.declaredOutputs]
    rw [e, List.forall₂_map_right_iff]
    exact List.forall₂_same.2 fun v _ d hd => r.hasValue hg hnew hd

/-- An added operator computes its output, wherever its inputs are redirected to. -/
theorem HasValue.of_placed {g₀ g₁ : Graph α} {op : Operator α} {ins : List VarId} {t : Tensor α}
    {ts : List (Tensor α)} {ds : List (Array α)} {d : Array α} {v : VarId}
    (k : Extends (g₀.placeOp op ins t) g₁) (r : Diverts g₁ h a b)
    (hv : v = ⟨g₀.slots.size⟩) (hts : g₁.tensors ins = .ok ts) (hne : v ≠ a) (hi : v ∉ h.inputs)
    (hds : List.Forall₂ (fun v => h.HasValue fed (if v = a then b else v)) ins ds)
    (he : op.evaluate ((ts.map (·.type)).zip ds) t.type = .ok d) :
    h.HasValue fed v d := by
  subst hv
  have hslot : g₁.slot? ⟨g₀.slots.size⟩ = some (.live t (some ⟨g₀.nodes.size⟩)) :=
    k.slot _ _ (slot?_push_new rfl)
  have hnode : g₁.node? ⟨g₀.nodes.size⟩ = some ⟨op, ins, ⟨g₀.slots.size⟩⟩ :=
    k.node _ _ (by rw [node?_placeOp, if_pos rfl])
  have hins : g₁.inputsOf ⟨g₀.nodes.size⟩ = .ok ins := by
    refine inputsOf_ok_iff.2 ⟨_, hnode, List.forall₂_same.2 fun v hv => ?_⟩
    obtain ⟨hlen, hzip⟩ := zip_of_forall₂ (mapM_ok_iff.1 hts)
    obtain ⟨u, hu⟩ := exists_mem_zip hlen hv
    exact resolve_of_tensor (hzip _ hu)
  have hnode' : h.node? ⟨g₀.nodes.size⟩ = some ⟨op, ins, ⟨g₀.slots.size⟩⟩ := by
    unfold node? at hnode ⊢
    rw [r.nodes, hnode]
  obtain ⟨t', hslot', htype, -⟩ := r.live _ _ _ hne hslot
  obtain ⟨ts', hts', hrenamed⟩ := r.links.tensors hts
  have hlen : (ins.map fun v => if v = a then b else v).length = ds.length := by
    rw [List.length_map, hds.length_eq]
  rw [← List.forall₂_map_left_iff] at hds
  refine .computed hi (producer_of_live hslot') hnode' (r.links.inputsOf hnode hnode' rfl hins)
    hts' (tensor_ok_iff.2 ⟨_, hslot'⟩) hlen (zip_of_forall₂ hds).2 ?_
  rw [htype]
  exact Operator.evaluate_renamed (Operator.mapAxes_id op) hrenamed (.refl t.type)
    (Operator.keepsApart_id _ _ _) he

end

end TensorCompiler.Graph
