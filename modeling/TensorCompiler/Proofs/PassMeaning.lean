import TensorCompiler.Pass.Simplify
import TensorCompiler.Proofs.ExactScalars
import TensorCompiler.Proofs.Rewriting
/-!
# What the passes keep

Axis unification, the removal of redundant reinterpretations and constant folding leave the
meaning of a graph alone: whatever ran before a pass runs after it, with the same data at every
position of the list of outputs. Nothing is assumed of the arithmetic on scalars.

* `sweep_keeps`, `sweep_preserves`: a sweep keeps what its visits keep, and the outputs.
* `preserves_renameAxes`, `preserves_dropReinterprets`, `preserves_foldConstants`: the three passes.
* `run_after_pass`: the runs before and after a pass agree.
-/

namespace TensorCompiler

namespace Graph

variable {α : Type} [Scalar α] {fed : Values α} {g h : Graph α}

/-- Only inputs without constant data are fed. -/
def ProperFeeds (fed : Values α) (g : Graph α) : Prop :=
  ∀ v d, fed.get? v = some d → v ∈ g.inputs ∧ ∀ t, g.tensor v = .ok t → t.data = none

theorem Preserves.properFeeds (k : Preserves fed g h) (hf : ProperFeeds fed g) :
    ProperFeeds fed h := by
  intro v d hv
  obtain ⟨hvi, hdata⟩ := hf v d hv
  refine ⟨k.inputs ▸ hvi, fun t ht => ?_⟩
  obtain ⟨u, hu⟩ := tensor_of_resolve (resolve_of_mem_inputs hvi)
  obtain ⟨t', ht', -, e⟩ := k.tensors v hvi u hu
  obtain rfl := Except.ok.inj (ht.symm.trans ht')
  exact e.trans (hdata u hu)

omit [Scalar α] in
/-- A sweep keeps what each of its visits keeps. -/
theorem sweep_keeps {Q : Graph α → Prop} {step : OpId → PassM α Bool} {s s' : Supply} {c : Bool}
    (hg : g.Wellformed) (hQ : Q g) (hsweep : (PassM.sweep step).Edits g s c h s')
    (hstep : ∀ o g s c h s', g.Wellformed → Q g → g.Computes o → (step o).Edits g s c h s' →
      h = g ∨ h.Wellformed ∧ Q h ∧ ∃ a b, Rewired g h o a b) : h.Wellformed ∧ Q h := by
  have key := PassM.sweep_induction
    (P := fun rest i _ => i.Wellformed ∧ Q i ∧ rest.Nodup ∧ ∀ o ∈ rest, i.Computes o) hsweep ?_ ?_
  · exact ⟨key.1, key.2.1⟩
  · intro ops hops
    exact ⟨hg, hQ, (ordered_topologicalOrder hops).nodup,
      fun o ho => output_of_mem_topologicalOrder hg hops ho⟩
  · rintro o rest i s c j s' ⟨hi, hQi, hnodup, hcomp⟩ hedit
    obtain ⟨hfresh, hnodup⟩ := List.nodup_cons.1 hnodup
    obtain ⟨ho, hrest⟩ := List.forall_mem_cons.1 hcomp
    rcases hstep o i s c j s' hi hQi ho hedit with rfl | ⟨hj, hQj, a, b, r⟩
    · exact ⟨hi, hQi, hnodup, hrest⟩
    · refine ⟨hj, hQj, hnodup, fun p hp => r.computes hi ?_ (hrest p hp)⟩
      exact ne_of_mem_of_not_mem hp hfresh

/-- A sweep keeps the outputs if each of its visits does, and keeps what the visits rely on. -/
theorem sweep_preserves {Q : Graph α → Prop} {step : OpId → PassM α Bool} {s s' : Supply} {c : Bool}
    (hg : g.Wellformed) (hQ : Q g) (hsweep : (PassM.sweep step).Edits g s c h s')
    (hstep : ∀ o g s c h s', g.Wellformed → Q g → g.Computes o → (step o).Edits g s c h s' →
      h = g ∨ h.Wellformed ∧ Q h ∧ Preserves fed g h ∧ ∃ a b, Rewired g h o a b) :
    h.Wellformed ∧ Preserves fed g h := by
  obtain ⟨hh, -, k⟩ := sweep_keeps (Q := fun i => Q i ∧ Preserves fed g i) hg ⟨hQ, .refl fed g⟩
    hsweep fun o i s c j s' hi ⟨hQi, k⟩ ho hedit =>
      (hstep o i s c j s' hi hQi ho hedit).imp_right fun ⟨hj, hQj, k', r⟩ =>
        ⟨hj, ⟨hQj, k.trans k'⟩, r⟩
  exact ⟨hh, k⟩

/-! ## Axis unification -/

theorem inputs_renameAxes (f : Axis → Axis) : (g.renameAxes f).1.inputs = g.inputs := by
  unfold Graph.inputs
  rw [renameAxes_declaredInputs, (sameArena_renameAxes g f).resolveAll]

theorem outputs_renameAxes (f : Axis → Axis) : (g.renameAxes f).1.outputs = g.outputs := by
  unfold Graph.outputs
  rw [renameAxes_declaredOutputs, (sameArena_renameAxes g f).resolveAll]

/-- A renaming that succeeds keeps every value, because it merges no two axes of one tensor and
every operator compares axes of its output only. -/
theorem hasValue_renameAxes {f : Axis → Axis} {c : Bool} (hg : g.Wellformed) (hfit : g.Typed)
    (hok : (g.renameAxes f).2 = .ok c) {v : VarId} {d : Array α} (hv : g.HasValue fed v d) :
    (g.renameAxes f).1.HasValue fed v d := by
  have k := sameArena_renameAxes g f
  have links := matches_renameAxes hok
  have hinputs : (g.renameAxes f).1.inputs = g.inputs := inputs_renameAxes f
  induction hv with
  | leaf hres hl hf =>
    refine .leaf ((k.resolve _).trans hres) ?_ ?_
    · rcases hl with hl | hl
      · exact .inl (hinputs ▸ hl)
      · exact .inr ((k.producer _).trans hl)
    · rcases fetch_ok_iff.1 hf with hf | ⟨hnone, t, ht, hd⟩
      · exact fetch_ok_iff.2 (.inl hf)
      · obtain ⟨p, hs⟩ := tensor_ok_iff.1 ht
        obtain ⟨t', hs', -, e⟩ := live_renameAxes hok hs
        exact fetch_ok_iff.2 (.inr ⟨hnone, t', tensor_ok_iff.2 ⟨p, hs'⟩, e.trans hd⟩)
  | @computed v o node ins ts t ds d hvi hp hn hi hts ht hlen hds he ih =>
    obtain ⟨n', _, hn', hr⟩ := (renameAxes_ok hok).2 o node hn
    obtain ⟨hinputsOf, -, hop⟩ := renameAxes_node hr
    obtain ⟨ts', hts', hrenamed⟩ := links.tensors hts
    obtain ⟨t', ht', htype⟩ := links.tensor v t ht
    obtain ⟨n₁, hn₁, hout⟩ := output_of_producer hg hp
    obtain rfl := Option.some.inj (hn.symm.trans hn₁)
    obtain rfl := Except.ok.inj ((resolve_of_tensor ht).symm.trans hout)
    obtain ⟨p, hs⟩ := tensor_ok_iff.1 ht
    have hapart := Operator.keepsApart_of_fits (hfit o node ins ts t p hn hi hts hs) htype
    refine .computed (hinputs ▸ hvi) ((k.producer _).trans hp) hn' ?_ hts' ht'
      (by rw [List.length_map, hlen]) ?_ ?_
    · exact links.inputsOf hn hn' hinputsOf hi
    · rw [List.map_id]
      exact ih
    · exact Operator.evaluate_renamed hop hrenamed htype hapart he

theorem preserves_renameAxes {f : Axis → Axis} {c : Bool} (hg : g.Wellformed) (hfit : g.Typed)
    (hok : (g.renameAxes f).2 = .ok c) : Preserves fed g (g.renameAxes f).1 where
  inputs := inputs_renameAxes f
  handles e v he _ := ((sameArena_renameAxes g f).resolve e).trans he
  tensors v _ t ht := by
    obtain ⟨p, hs⟩ := tensor_ok_iff.1 ht
    obtain ⟨t', hs', hr, e⟩ := live_renameAxes hok hs
    exact ⟨t', tensor_ok_iff.2 ⟨p, hs'⟩, hr.shape, e⟩
  outputs := by
    rw [outputs_renameAxes]
    exact List.forall₂_same.2 fun v _ d hd => hasValue_renameAxes hg hfit hok hd

theorem preserves_unifyAxes {hints : List (Axis × Axis)} {batchFirst : Bool} {s s' : Supply}
    {c : Bool} (hg : g.Wellformed) (hfit : g.Typed)
    (hedit : (unifyAxes hints batchFirst : Pass (PassM α)).run.Edits g s c h s') :
    h.Wellformed ∧ Preserves fed g h := by
  -- What follows the choice of constraints only renames.
  have unify : ∀ {constraints : List (Axis × Axis)} {s : Supply},
      (PassM.unify constraints : PassM α Bool).Edits g s c h s' →
      h.Wellformed ∧ Preserves fed g h := by
    intro constraints s hedit
    simp only [PassM.unify, PassM.edits_except_bind_iff] at hedit
    obtain ⟨forest, -, hedit⟩ := hedit
    split at hedit
    · obtain ⟨-, rfl, -⟩ := PassM.edits_pure_iff.1 hedit
      exact ⟨hg, .refl fed g⟩
    · obtain ⟨e, rfl⟩ := PassM.edits_renameAxes_iff.1 hedit
      have hh : (g.renameAxes _).1 = h := congrArg Prod.fst e
      rw [← hh]
      exact ⟨wellformed_renameAxes hg _, preserves_renameAxes hg hfit (congrArg Prod.snd e)⟩
  simp only [unifyAxes] at hedit
  split at hedit
  · simp only [PassM.edits_graph_bind_iff, PassM.edits_except_bind_iff] at hedit
    obtain ⟨_, -, hedit⟩ := hedit
    exact unify hedit
  · simp only [PassM.edits_bind_iff, PassM.edits_pure_iff] at hedit
    obtain ⟨_, _, _, ⟨-, rfl, rfl⟩, hedit⟩ := hedit
    exact unify hedit

omit [Scalar α] in
/-- A step that takes an operator out leaves the rest of a computation on the graph without it. -/
theorem edits_removeOperator_bind_iff {β : Type} {o : OpId} {f : Unit → PassM α β} {b : β}
    {s s' : Supply} :
    (PassM.removeOperator o >>= f).Edits g s b h s' ↔
      ∃ node, g.node? o = some node ∧ (f ⟨⟩).Edits (g.detach o node.output) s b h s' := by
  simp only [PassM.edits_bind_iff, PassM.edits_removeOperator_iff, removeOperator_ok_iff]
  constructor
  · rintro ⟨u, _, _, ⟨⟨node, hn, rfl⟩, rfl⟩, hf⟩
    exact ⟨node, hn, hf⟩
  · rintro ⟨node, hn, hf⟩
    exact ⟨⟨⟩, _, s, ⟨⟨node, hn, rfl⟩, rfl⟩, hf⟩

/-! ## Redundant reinterpretations -/

/-- An operator reinterprets an order as itself. -/
def Redundant (g : Graph α) (o : OpId) : Prop :=
  ∃ node order input, g.node? o = some node ∧ node.op = .reinterpret order order ∧
    g.inputsOf o = .ok [input]

omit [Scalar α] in
/-- One visit drops a redundant reinterpretation, and changes nothing otherwise. -/
theorem edits_dropReinterpret {o : OpId} {s s' : Supply} {c : Bool}
    (hedit : (PassM.dropReinterpret o : PassM α Bool).Edits g s c h s') :
    (c = false ∧ h = g ∧ ¬g.Redundant o) ∨ c = true ∧ ∃ node order input,
      g.node? o = some node ∧ node.op = .reinterpret order order ∧ g.inputsOf o = .ok [input] ∧
      (g.detach o node.output).replaceVariable node.output input = .ok h := by
  simp only [PassM.dropReinterpret, PassM.edits_graph_bind_iff, PassM.edits_except_bind_iff,
    operator_ok_iff] at hedit
  obtain ⟨node, hn, hedit⟩ := hedit
  -- A visit that returns early has seen why the operator is not redundant.
  have early : ¬g.Redundant o → (return false : PassM α Bool).Edits g s c h s' →
      c = false ∧ h = g ∧ ¬g.Redundant o := by
    intro hnot hedit
    obtain ⟨rfl, rfl, -⟩ := PassM.edits_pure_iff.1 hedit
    exact ⟨rfl, rfl, hnot⟩
  split at hedit
  · next source target hop =>
    split at hedit
    · next hst =>
      refine .inl (early ?_ hedit)
      rintro ⟨node', order, _, hn', hop', -⟩
      obtain rfl := Option.some.inj (hn.symm.trans hn')
      rw [hop] at hop'
      cases hop'
      exact hst rfl
    · next hst =>
      rw [Decidable.not_not] at hst
      obtain ⟨ins, hins, hedit⟩ := PassM.edits_except_bind_iff.1 hedit
      split at hedit
      · next input =>
        obtain ⟨node₁, hn₁, hedit⟩ := edits_removeOperator_bind_iff.1 hedit
        obtain rfl := Option.some.inj (hn.symm.trans hn₁)
        simp only [PassM.edits_bind_iff, PassM.edits_replaceVariable_iff,
          PassM.edits_pure_iff] at hedit
        obtain ⟨_, _, _, ⟨hv, rfl⟩, rfl, rfl, -⟩ := hedit
        exact .inr ⟨rfl, node, target, input, hn, hst ▸ hop, hins, hv⟩
      · next hlen =>
        refine .inl (early ?_ hedit)
        rintro ⟨_, _, input, -, -, hins'⟩
        exact hlen input (Except.ok.inj (hins.symm.trans hins'))
  · next hop =>
    refine .inl (early ?_ hedit)
    rintro ⟨node', order, _, hn', hop', -⟩
    obtain rfl := Option.some.inj (hn.symm.trans hn')
    exact hop order order hop'

omit [Scalar α] in
/-- One visit puts the input of a redundant reinterpretation in place of its output, or changes
nothing. -/
theorem rewired_dropReinterpret {o : OpId} {s s' : Supply} {c : Bool} (hg : g.Wellformed)
    (ho : g.Computes o) (hedit : (PassM.dropReinterpret o : PassM α Bool).Edits g s c h s') :
    h = g ∨ h.Wellformed ∧ ∃ node order input, g.node? o = some node ∧
      node.op = .reinterpret order order ∧ g.inputsOf o = .ok [input] ∧
      Rewired g h o node.output input := by
  refine (edits_dropReinterpret hedit).imp (·.2.1) ?_
  rintro ⟨-, node, order, input, hn, hop, hins, hreplace⟩
  obtain ⟨node₁, x, hn₁, hs, hi⟩ := ho
  obtain rfl := Option.some.inj (hn.symm.trans hn₁)
  have hg₁ := wellformed_detach hg hn
  have hlive : (g.detach o node.output).resolve node.output = .ok node.output :=
    resolve_detach hg hn (resolve_of_live hs)
  obtain ⟨b, hb, hd⟩ := diverts_replaceVariable hg₁ hlive hreplace
  have hinput : g.resolve input = .ok input :=
    resolve_of_mem_inputsOf hins (List.mem_singleton_self input)
  obtain rfl : input = b := Except.ok.inj ((resolve_detach hg hn hinput).symm.trans hb)
  exact ⟨wellformed_replaceVariable hg₁ hreplace, node, order, input, hn, hop, hins,
    rewired_replaceVariable hg hn hs hi hg₁ (.refl _) hd⟩

theorem preserves_dropReinterpret {o : OpId} {s s' : Supply} {c : Bool} (hg : g.Wellformed)
    (ho : g.Computes o) (hedit : (PassM.dropReinterpret o : PassM α Bool).Edits g s c h s') :
    h = g ∨ h.Wellformed ∧ Preserves fed g h ∧ ∃ a b, Rewired g h o a b := by
  refine (rewired_dropReinterpret hg ho hedit).imp_right ?_
  rintro ⟨hh, node, order, input, hn, hop, hins, r⟩
  refine ⟨hh, r.preserves hg ?_, _, _, r⟩
  intro node₂ ins ts t ds d hn₂ _ hins₂ _ _ _ hvals he
  obtain rfl := Option.some.inj (hn.symm.trans hn₂)
  obtain rfl := Except.ok.inj (hins.symm.trans hins₂)
  cases hvals with
  | @cons _ e _ _ hval hrest =>
    cases hrest
    -- The reinterpretation computes the value of its input.
    have hde : e = d := by
      rw [hop] at he
      simp only [Operator.evaluate, bind_ok_iff, Operator.firstInput_ok_iff, pure_ok_iff] at he
      obtain ⟨_, -, ⟨y, e'⟩, ⟨rest, hzip⟩, rfl⟩ := he
      cases hts : ts.map (·.type) with
      | nil => rw [hts] at hzip; cases hzip
      | cons z zs => rw [hts] at hzip; cases hzip; rfl
    rw [← hde]
    split at hval
    · exact hval
    · exact hval

theorem preserves_dropReinterprets {s s' : Supply} {c : Bool} (hg : g.Wellformed)
    (hedit : (dropReinterprets : Pass (PassM α)).run.Edits g s c h s') :
    h.Wellformed ∧ Preserves fed g h :=
  sweep_preserves (Q := fun _ => True) hg trivial hedit fun _ _ _ _ _ _ hg _ ho hstep =>
    (preserves_dropReinterpret hg ho hstep).imp_right fun ⟨hh, k, r⟩ => ⟨hh, trivial, k, r⟩

/-! ## Constant folding -/

/-- An operator on constants, with an output of known shape. -/
def Foldable (g : Graph α) (o : OpId) : Prop :=
  ∃ node ins ts arguments t, g.node? o = some node ∧ g.inputsOf o = .ok ins ∧
    g.tensors ins = .ok ts ∧ constantArguments? ts = some arguments ∧
    g.tensor node.output = .ok t ∧ node.op.canFold t.type = true

/-- One visit folds a foldable operator, and changes nothing otherwise. -/
theorem edits_foldConstant {o : OpId} {s s' : Supply} {c : Bool}
    (hedit : (PassM.foldConstant o : PassM α Bool).Edits g s c h s') :
    (c = false ∧ h = g ∧ ¬g.Foldable o) ∨ c = true ∧ ∃ node ins ts arguments t data folded,
      g.node? o = some node ∧ g.inputsOf o = .ok ins ∧ g.tensors ins = .ok ts ∧
      constantArguments? ts = some arguments ∧ g.tensor node.output = .ok t ∧
      node.op.canFold t.type = true ∧
      node.op.evaluate arguments t.type = .ok data ∧ t.fold data = .ok folded ∧
      ((g.detach o node.output).addVariable folded).1.replaceVariable node.output
        ⟨(g.detach o node.output).slots.size⟩ = .ok h := by
  simp only [PassM.foldConstant, PassM.edits_graph_bind_iff, PassM.edits_except_bind_iff,
    operator_ok_iff] at hedit
  obtain ⟨node, hn, ins, hins, ts, hts, hedit⟩ := hedit
  -- A visit that returns early has seen why the operator is not foldable.
  have early : ¬g.Foldable o → (return false : PassM α Bool).Edits g s c h s' →
      c = false ∧ h = g ∧ ¬g.Foldable o := by
    intro hnot hedit
    obtain ⟨rfl, rfl, -⟩ := PassM.edits_pure_iff.1 hedit
    exact ⟨rfl, rfl, hnot⟩
  split at hedit
  · next arguments harg =>
    obtain ⟨t, ht, hedit⟩ := PassM.edits_except_bind_iff.1 hedit
    split at hedit
    · next hfold =>
      refine .inl (early ?_ hedit)
      rintro ⟨node', _, _, _, t', hn', -, -, -, ht', hfold'⟩
      obtain rfl := Option.some.inj (hn.symm.trans hn')
      obtain rfl := Except.ok.inj (ht.symm.trans ht')
      rw [hfold'] at hfold
      cases hfold
    · next hcan =>
      simp only [PassM.edits_except_bind_iff, edits_removeOperator_bind_iff] at hedit
      obtain ⟨data, hdata, folded, hfold, node₁, hn₁, hedit⟩ := hedit
      obtain rfl := Option.some.inj (hn.symm.trans hn₁)
      simp only [PassM.edits_bind_iff, PassM.edits_addVariable_iff,
        PassM.edits_replaceVariable_iff, PassM.edits_pure_iff] at hedit
      obtain ⟨v, _, _, ⟨hadd, rfl⟩, _, _, _, ⟨hv, rfl⟩, rfl, rfl, -⟩ := hedit
      cases hadd
      exact .inr ⟨rfl, node, ins, ts, arguments, t, data, folded, hn, hins, hts, harg, ht,
        by simpa using hcan, hdata, hfold, hv⟩
  · next harg =>
    refine .inl (early ?_ hedit)
    rintro ⟨_, ins', ts', arguments, _, -, hins', hts', harg', -⟩
    obtain rfl := Except.ok.inj (hins.symm.trans hins')
    obtain rfl := Except.ok.inj (hts.symm.trans hts')
    exact harg arguments harg'

omit [Scalar α] in
theorem data_of_fold {t folded : Tensor α} {data : Array α} (h : t.fold data = .ok folded) :
    folded.data = some data := by
  simp only [Tensor.fold, Tensor.withData, bind_ok_iff] at h
  obtain ⟨n, -, h⟩ := h
  split at h
  · cases h
    rfl
  · cases h

/-- The value of a constant is its data. -/
theorem HasValue.of_constant (hg : g.Wellformed) (hf : ProperFeeds fed g) {v : VarId}
    {t : Tensor α} {data d : Array α} (ht : g.tensor v = .ok t) (hdata : t.data = some data)
    (hv : g.HasValue fed v d) : d = data := by
  cases hv with
  | leaf _ _ hfetch =>
    rcases fetch_ok_iff.1 hfetch with hfed | ⟨-, t', ht', hd⟩
    · have := (hf v d hfed).2 t ht
      rw [hdata] at this
      cases this
    · obtain rfl := Except.ok.inj (ht.symm.trans ht')
      exact Option.some.inj (hd.symm.trans hdata)
  | computed _ hp =>
    obtain ⟨p, hs⟩ := tensor_ok_iff.1 ht
    rw [producer_of_live hs] at hp
    subst hp
    rw [(hg.produced v t _ hs).1] at hdata
    cases hdata

/-- The values of constants are the arguments they are folded from. -/
theorem constantArguments?_eq (hg : g.Wellformed) (hf : ProperFeeds fed g) {ins : List VarId}
    {ts : List (Tensor α)} {arguments : List (TensorType × Array α)} {ds : List (Array α)}
    (hts : g.tensors ins = .ok ts) (harg : constantArguments? ts = some arguments)
    (hds : List.Forall₂ (g.HasValue fed) ins ds) : arguments = (ts.map (·.type)).zip ds := by
  unfold constantArguments? at harg
  rw [option_mapM_iff] at harg
  rw [Graph.tensors, mapM_ok_iff] at hts
  induction hts generalizing arguments ds with
  | nil => cases harg; cases hds; rfl
  | @cons v t vs ts ht _ ih =>
    cases harg with
    | cons harg hargs =>
      cases hds with
      | cons hd hds =>
        rw [Option.map_eq_some_iff] at harg
        obtain ⟨data, hdata, rfl⟩ := harg
        rw [hd.of_constant hg hf ht hdata, ih hargs hds]
        rfl

/-- One visit puts a new constant in place of the output of a foldable operator, or changes
nothing. -/
theorem rewired_foldConstant {o : OpId} {s s' : Supply} {c : Bool} (hg : g.Wellformed)
    (ho : g.Computes o) (hedit : (PassM.foldConstant o : PassM α Bool).Edits g s c h s') :
    h = g ∨ h.Wellformed ∧ ∃ node ins ts arguments t data folded, g.node? o = some node ∧
      g.inputsOf o = .ok ins ∧ g.tensors ins = .ok ts ∧ constantArguments? ts = some arguments ∧
      g.tensor node.output = .ok t ∧ node.op.evaluate arguments t.type = .ok data ∧
      h.slot? ⟨g.slots.size⟩ = some (.live folded none) ∧ folded.data = some data ∧
      Rewired g h o node.output ⟨g.slots.size⟩ := by
  refine (edits_foldConstant hedit).imp (·.2.1) ?_
  rintro ⟨-, node, ins, ts, arguments, t, data, folded, hn, hins, hts, harg, ht, -, hdata, hfold,
    hreplace⟩
  obtain ⟨node₁, x, hn₁, hs, hi⟩ := ho
  obtain rfl := Option.some.inj (hn.symm.trans hn₁)
  have hg₁ := wellformed_detach hg hn
  have hg₂ := wellformed_addVariable hg₁ folded
  have hext := extends_addVariable (g.detach o node.output) folded
  have hlive := (hext.matches hg₂).resolve _ _ (resolve_detach hg hn (resolve_of_live hs))
  obtain ⟨b, hb, hd⟩ := diverts_replaceVariable hg₂ hlive hreplace
  have hslot : ((g.detach o node.output).addVariable folded).1.slot?
      ⟨(g.detach o node.output).slots.size⟩ = some (.live folded none) := slot?_push_new rfl
  obtain rfl := Except.ok.inj ((resolve_of_live hslot).symm.trans hb)
  have r := rewired_replaceVariable hg hn hs hi hg₂ hext hd
  have hlt : node.output.index < (g.detach o node.output).slots.size :=
    size_detach g o _ ▸ slot?_lt hs
  have hne : (⟨(g.detach o node.output).slots.size⟩ : VarId) ≠ node.output := by
    intro e
    have : (g.detach o node.output).slots.size = node.output.index := congrArg VarId.index e
    omega
  obtain ⟨t', ht', -, hd'⟩ := hd.live _ _ _ hne hslot
  rw [size_detach] at ht' r
  exact ⟨wellformed_replaceVariable hg₂ hreplace, node, ins, ts, arguments, t, data, t', hn, hins,
    hts, harg, ht, hdata, ht', hd'.trans (data_of_fold hfold), r⟩

theorem preserves_foldConstant {o : OpId} {s s' : Supply} {c : Bool} (hg : g.Wellformed)
    (hf : ProperFeeds fed g) (ho : g.Computes o)
    (hedit : (PassM.foldConstant o : PassM α Bool).Edits g s c h s') :
    h = g ∨ h.Wellformed ∧ Preserves fed g h ∧ ∃ a b, Rewired g h o a b := by
  refine (rewired_foldConstant hg ho hedit).imp_right ?_
  rintro ⟨hh, node, ins, ts, arguments, t, data, folded, hn, hins, hts, harg, ht, hdata, hslot,
    hfolded, r⟩
  refine ⟨hh, r.preserves hg ?_, _, _, r⟩
  intro node₂ ins₂ ts₂ t₂ ds d hn₂ _ hins₂ hts₂ ht₂ hvals _ he
  obtain rfl := Option.some.inj (hn.symm.trans hn₂)
  obtain rfl := Except.ok.inj (hins.symm.trans hins₂)
  obtain rfl := Except.ok.inj (hts.symm.trans hts₂)
  obtain rfl := Except.ok.inj (ht.symm.trans ht₂)
  rw [← constantArguments?_eq hg hf hts harg hvals] at he
  obtain rfl := Except.ok.inj (hdata.symm.trans he)
  -- The new variable is no input, so it is not fed and has the value of its data.
  refine .leaf (resolve_of_live hslot) (.inr (producer_of_live hslot)) (fetch_ok_iff.2 (.inr
    ⟨?_, folded, tensor_ok_iff.2 ⟨_, hslot⟩, hfolded⟩))
  by_contra hfed
  obtain ⟨e, he⟩ := Option.ne_none_iff_exists'.1 hfed
  exact Nat.lt_irrefl _ (lt_of_resolve (resolve_of_mem_inputs (hf _ e he).1))

theorem preserves_foldConstants {s s' : Supply} {c : Bool} (hg : g.Wellformed)
    (hf : ProperFeeds fed g) (hedit : (foldConstants : Pass (PassM α)).run.Edits g s c h s') :
    h.Wellformed ∧ Preserves fed g h :=
  sweep_preserves (Q := ProperFeeds fed) hg hf hedit fun _ _ _ _ _ _ hg hf ho hstep =>
    (preserves_foldConstant hg hf ho hstep).imp_right fun ⟨hh, k, r⟩ =>
      ⟨hh, k.properFeeds hf, k, r⟩

/-! ## The runs -/

omit [Scalar α] in
theorem properFeeds_of_feeds {feeds : List (VarId × Array α)}
    (hf : ∀ e ∈ feeds, ∃ v ∈ g.inputs, g.resolve e.1 = .ok v ∧
      ∀ t, g.tensor v = .ok t → t.data = none)
    (h : feeds.foldlM g.feed {} = .ok fed) : ProperFeeds fed g := by
  refine foldlM_ok_induction (P := fun values => ProperFeeds values g) h
    (fun v d hv => by cases hv) ?_
  intro values e values' he hprop hfeed v d hv
  obtain ⟨w, t, hw, -, -, rfl⟩ := feed_ok_iff.1 hfeed
  obtain ⟨u, hu, hr, hdata⟩ := hf e he
  obtain rfl := Except.ok.inj (hw.symm.trans hr)
  rw [Values.get?_set] at hv
  split at hv
  · next hvw => exact hvw ▸ ⟨hu, hdata⟩
  · exact hprop v d hv

/-- Axis unification, the removal of redundant reinterpretations and constant folding keep the
meaning of every built graph: a run that succeeds before the pass succeeds after it, with the same
data at every position of the outputs. -/
theorem run_after_pass {s s₁ s' : Supply} {c : Bool} {hints : List (Axis × Axis)}
    {batchFirst : Bool} {pass : Pass (PassM α)} {feeds out : List (VarId × Array α)}
    (hb : Built s g) (hpass : pass ∈ [unifyAxes hints batchFirst, dropReinterprets, foldConstants])
    (hedit : pass.run.Edits g s₁ c h s')
    (hf : ∀ e ∈ feeds, ∃ v ∈ g.inputs, g.resolve e.1 = .ok v ∧
      ∀ t, g.tensor v = .ok t → t.data = none)
    (hrun : g.run feeds = .ok out) :
    ∃ out', h.run feeds = .ok out' ∧ out'.map (·.2) = out.map (·.2) := by
  obtain ⟨ds, hsession⟩ := hb
  have hg := hsession.wellformed
  have hfeeds : g.FeedsInputs feeds := fun e he =>
    let ⟨v, hv, hr, _⟩ := hf e he
    ⟨v, hv, hr⟩
  have key : ∀ fed, feeds.foldlM g.feed {} = .ok fed → h.Wellformed ∧ Preserves fed g h := by
    intro fed hfed
    have hproper := properFeeds_of_feeds hf hfed
    rcases List.mem_cons.1 hpass with rfl | hpass
    · exact preserves_unifyAxes hg hsession.typed hedit
    rcases List.mem_cons.1 hpass with rfl | hpass
    · exact preserves_dropReinterprets hg hedit
    · obtain rfl := List.mem_singleton.1 hpass
      exact preserves_foldConstants hg hproper hedit
  obtain ⟨fed, hfed, -⟩ := (run_ok_iff hg hfeeds).1 hrun
  exact run_of_preserves hg (key fed hfed).1 hfeeds (fun fed hfed => (key fed hfed).2) hrun

/-- The type of a tensor without axes. -/
def scalarType : TensorType := ⟨[], ⟨[], List.nodup_nil⟩, List.length_nil⟩

/-- One input, passed on by a reinterpretation that leaves its shape alone. -/
def passedOn : Graph ℚ where
  slots := #[.live { type := scalarType, marks := [.input] } none,
    .live { type := scalarType } (some ⟨0⟩)]
  nodes := #[some ⟨.reinterpret scalarType.order scalarType.order, [⟨0⟩], ⟨1⟩⟩]
  declaredInputs := [⟨0⟩]

/-- The same graph, with the passed on variable as its output. -/
def passThrough : Graph ℚ :=
  { passedOn with
    slots := #[.live { type := scalarType, marks := [.input] } none,
      .live { type := scalarType, marks := [.output] } (some ⟨0⟩)]
    declaredOutputs := [⟨1⟩] }

theorem built_passThrough : Built {} passThrough := by
  have made : (⟨scalarType, [], none⟩ : Tensor ℚ).MadeFrom [] {} {} :=
    ⟨(fun _ hd => by cases hd), rfl, (fun _ hx => by cases hx)⟩
  have step : Gives (((({} : Graph ℚ).addInput ⟨scalarType, [], none⟩).1).addOp
      (.reinterpret scalarType.order scalarType.order) [⟨0⟩]) {} (passedOn, ⟨1⟩) {} := rfl
  have added : Session true {} [] passedOn := .addOp (.addInput (.empty {}) made) step
  exact ⟨[], .markOutput (v := ⟨1⟩) added rfl⟩

theorem run_passThrough_after_pass :
    ∃ h, dropReinterprets.run.Edits passThrough {} true h {} ∧
      ∃ out, h.run [(⟨0⟩, #[5])] = .ok out ∧ out.map (·.2) = [#[5]] := by
  have member : dropReinterprets ∈
      ([unifyAxes [] false, dropReinterprets, foldConstants] : List (Pass (PassM ℚ))) :=
    .tail _ (.head _)
  have hrun : passThrough.run [(⟨0⟩, #[5])] = .ok [(⟨1⟩, #[5])] := rfl
  refine ⟨_, rfl, run_after_pass built_passThrough member rfl ?_ hrun⟩
  intro e he
  obtain rfl := List.mem_singleton.1 he
  refine ⟨⟨0⟩, List.mem_singleton.2 rfl, rfl, fun t ht => ?_⟩
  obtain rfl := Except.ok.inj ht
  rfl

end Graph

end TensorCompiler
