import TensorCompiler.Graph.Run
import TensorCompiler.Proofs.Traversal
/-!
# The meaning of a graph

What a graph computes from its feeds does not depend on the order of evaluation: a variable has
the value that is fed to it, that it holds as a constant, or that its producer computes from the
values of what it reads. The interpreter computes exactly these values.

* `HasValue`: the value of a variable on given feeds.
* `HasValue.unique`: a variable has at most one value.
* `run_ok_iff`: a run succeeds exactly if every output has a value, and returns these values.
-/

namespace TensorCompiler

theorem Values.get?_set {α : Type} (values : Values α) (v w : VarId) (d : Array α) :
    (values.set v d).get? w = if w = v then some d else values.get? w := by
  unfold Values.set Values.get?
  rw [List.lookup_cons]
  by_cases e : w = v
  · rw [if_pos e, e, beq_self_eq_true]
  · rw [if_neg e, beq_false_of_ne e]

namespace Graph

variable {α : Type}

/-- The interpreter takes the variable as it is, whether or not some operator computes it. -/
def IsLeaf (g : Graph α) (v : VarId) : Prop := v ∈ g.inputs ∨ g.producer v = none

/-- The value of a variable on given feeds. -/
inductive HasValue [Scalar α] (g : Graph α) (fed : Values α) : VarId → Array α → Prop
  | leaf {v d} : g.resolve v = .ok v → g.IsLeaf v → g.fetch fed v = .ok d → HasValue g fed v d
  | computed {v o node ins ts t ds d} : v ∉ g.inputs → g.producer v = some o →
      g.node? o = some node → g.inputsOf o = .ok ins → g.tensors ins = .ok ts →
      g.tensor v = .ok t → ins.length = ds.length → (∀ p ∈ ins.zip ds, HasValue g fed p.1 p.2) →
      node.op.evaluate ((ts.map (·.type)).zip ds) t.type = .ok d → HasValue g fed v d

/-- All feeds go to declared inputs. -/
def FeedsInputs (g : Graph α) (feeds : List (VarId × Array α)) : Prop :=
  ∀ e ∈ feeds, ∃ v ∈ g.inputs, g.resolve e.1 = .ok v

variable {g : Graph α} {fed : Values α}

/-! ## Feeding -/

theorem feed_ok_iff {values values' : Values α} {e : VarId × Array α} :
    g.feed values e = .ok values' ↔ ∃ v t, g.resolve e.1 = .ok v ∧ g.tensor v = .ok t ∧
      t.type.concreteSize = .ok e.2.size ∧ values' = values.set v e.2 := by
  simp only [feed, bind_ok_iff, guard_ok_iff, pure_ok_iff, Decidable.not_not, ne_eq]
  constructor
  · rintro ⟨v, hv, t, ht, n, hn, e, rfl⟩
    exact ⟨v, t, hv, ht, e ▸ hn, rfl⟩
  · rintro ⟨v, t, hv, ht, hn, rfl⟩
    exact ⟨v, hv, t, ht, _, hn, rfl, rfl⟩

/-- Only declared inputs are fed. -/
theorem get?_of_feeds {feeds : List (VarId × Array α)} (hf : g.FeedsInputs feeds)
    (h : feeds.foldlM g.feed {} = .ok fed) {v : VarId} (hv : v ∉ g.inputs) :
    fed.get? v = none := by
  refine foldlM_ok_induction (P := fun values => values.get? v = none) h rfl ?_
  intro values e values' he hnone hfeed
  obtain ⟨w, t, hw, -, -, rfl⟩ := feed_ok_iff.1 hfeed
  obtain ⟨u, hu, hru⟩ := hf e he
  obtain rfl := Except.ok.inj (hw.symm.trans hru)
  rw [Values.get?_set, if_neg (ne_of_mem_of_not_mem hu hv).symm, hnone]

theorem fetch_ok_iff {values : Values α} {v : VarId} {d : Array α} :
    g.fetch values v = .ok d ↔ values.get? v = some d ∨
      values.get? v = none ∧ ∃ t, g.tensor v = .ok t ∧ t.data = some d := by
  unfold fetch
  cases values.get? v with
  | some x => simp
  | none =>
    simp only [bind_ok_iff, reduceCtorEq, false_or, true_and]
    constructor
    · rintro ⟨t, ht, h⟩
      refine ⟨t, ht, ?_⟩
      split at h
      · next x hx =>
        rw [pure_ok_iff] at h
        rw [hx, h]
      · cases h
    · rintro ⟨t, ht, hd⟩
      exact ⟨t, ht, by rw [hd]; rfl⟩

theorem fetch_congr {values values' : Values α} {v : VarId}
    (h : values.get? v = values'.get? v) : g.fetch values v = g.fetch values' v := by
  unfold fetch
  rw [h]

/-! ## Values -/

section

variable [Scalar α]

/-- Only variables that no link leads away from have values. -/
theorem HasValue.resolve {v : VarId} {d : Array α} (h : g.HasValue fed v d) :
    g.resolve v = .ok v := by
  cases h with
  | leaf hr => exact hr
  | computed _ _ _ _ _ ht => exact resolve_of_tensor ht

theorem HasValue.unique {v : VarId} {d d' : Array α} (h : g.HasValue fed v d)
    (h' : g.HasValue fed v d') : d = d' := by
  induction h generalizing d' with
  | leaf _ hl hf =>
    cases h' with
    | leaf _ _ hf' => exact Except.ok.inj (hf.symm.trans hf')
    | computed hv hp =>
      rcases hl with hl | hl
      · exact absurd hl hv
      · rw [hl] at hp
        cases hp
  | computed hv hp hn hi ht hT hlen hds he ih =>
    cases h' with
    | leaf _ hl _ =>
      rcases hl with hl | hl
      · exact absurd hl hv
      · rw [hl] at hp
        cases hp
    | computed hv' hp' hn' hi' ht' hT' hlen' hds' he' =>
      obtain rfl := Option.some.inj (hp.symm.trans hp')
      obtain rfl := Option.some.inj (hn.symm.trans hn')
      obtain rfl := Except.ok.inj (hi.symm.trans hi')
      obtain rfl := Except.ok.inj (ht.symm.trans ht')
      obtain rfl := Except.ok.inj (hT.symm.trans hT')
      have hds := eq_of_forall₂ (forall₂_of_zip hlen fun p hp z hz => ih p hp hz)
        (forall₂_of_zip hlen' hds')
      rw [← hds, he] at he'
      exact Except.ok.inj he'

/-- An operator whose output has a value does not depend on itself. -/
theorem HasValue.acc {v : VarId} {d : Array α} (h : g.HasValue fed v d) {o : OpId}
    (hv : v ∉ g.inputs) (ho : g.producer v = some o) : Acc (g.Below g.inputs) o := by
  induction h generalizing o with
  | leaf _ hl _ =>
    rcases hl with hl | hl
    · exact absurd hl hv
    · rw [hl] at ho
      cases ho
  | computed _ hp _ hi _ _ hlen hds _ ih =>
    obtain rfl := Option.some.inj (ho.symm.trans hp)
    refine ⟨_, ?_⟩
    rintro c ⟨ins, hins, u, hu, hui, hc⟩
    obtain rfl := Except.ok.inj (hi.symm.trans hins)
    obtain ⟨y, hy⟩ := exists_mem_zip hlen hu
    exact ih _ hy hui hc

/-- Whatever an operator with a value reads has a value. -/
theorem HasValue.of_dependsOn {v : VarId} {d : Array α} (h : g.HasValue fed v d) {o c : OpId}
    (hv : v ∉ g.inputs) (ho : g.producer v = some o) (hc : g.DependsOn g.inputs o c) :
    ∃ u d', g.resolve u = .ok u ∧ u ∉ g.inputs ∧ g.producer u = some c ∧
      g.HasValue fed u d' := by
  cases h with
  | leaf _ hl _ =>
    rcases hl with hl | hl
    · exact absurd hl hv
    · rw [hl] at ho
      cases ho
  | computed _ hp _ hi _ _ hlen hds _ =>
    obtain rfl := Option.some.inj (ho.symm.trans hp)
    obtain ⟨ins, hins, u, hu, hui, hc⟩ := hc
    obtain rfl := Except.ok.inj (hi.symm.trans hins)
    obtain ⟨y, hy⟩ := exists_mem_zip hlen hu
    exact ⟨u, y, resolve_of_mem_inputsOf hins hu, hui, hc, hds _ hy⟩

/-! ## The evaluation in the order of the traversal -/

/-- The values after the evaluation of some operators: the feeds, and the values of their
outputs. -/
structure Computed (g : Graph α) (fed : Values α) (done : List OpId) (values : Values α) :
    Prop where
  inputs : ∀ v ∈ g.inputs, values.get? v = fed.get? v
  outputs : ∀ o ∈ done, ∀ node, g.node? o = some node →
    ∃ d, values.get? node.output = some d ∧ g.HasValue fed node.output d
  others : ∀ v, v ∉ g.inputs → (∀ o ∈ done, ∀ node, g.node? o = some node → node.output ≠ v) →
    values.get? v = none

/-- The operators of a traversal compute live variables that are no inputs. -/
def Computes (g : Graph α) (o : OpId) : Prop :=
  ∃ node t, g.node? o = some node ∧ g.slot? node.output = some (.live t (some o)) ∧
    node.output ∉ g.inputs

theorem Computed.set {done : List OpId} {values : Values α} (hc : g.Computed fed done values)
    (hdone : ∀ o ∈ done, g.Computes o) {o : OpId} (ho : o ∉ done) {node : Node α} {t : Tensor α}
    (hn : g.node? o = some node) (hs : g.slot? node.output = some (.live t (some o)))
    (hout : node.output ∉ g.inputs) {d : Array α} (hd : g.HasValue fed node.output d) :
    g.Computed fed (done ++ [o]) (values.set node.output d) where
  inputs v hv := by
    rw [Values.get?_set, if_neg (ne_of_mem_of_not_mem hv hout), hc.inputs v hv]
  outputs p hp n hn' := by
    rcases List.mem_append.1 hp with hp | hp
    · have hne : n.output ≠ node.output := by
        intro e
        obtain ⟨n', t', hn'', hs', -⟩ := hdone p hp
        obtain rfl := Option.some.inj (hn'.symm.trans hn'')
        rw [e, hs] at hs'
        cases hs'
        exact ho hp
      rw [Values.get?_set, if_neg hne]
      exact hc.outputs p hp n hn'
    · rw [List.mem_singleton.1 hp, hn] at hn'
      cases hn'
      exact ⟨d, by rw [Values.get?_set, if_pos rfl], hd⟩
  others v hv hne := by
    have h := hne o (List.mem_append_right _ (List.mem_singleton_self o)) node hn
    rw [Values.get?_set, if_neg h.symm]
    exact hc.others v hv fun p hp => hne p (List.mem_append_left _ hp)

section Evaluating

variable (hg : g.Wellformed) (hfed : ∀ v, v ∉ g.inputs → fed.get? v = none)
include hg hfed

/-- What can be fetched after the evaluation of some operators are the values of their outputs and
of the leaves. -/
theorem fetch_iff_hasValue {done : List OpId} {values : Values α} (hc : g.Computed fed done values)
    (hdone : ∀ o ∈ done, g.Computes o) {v : VarId} (hv : g.resolve v = .ok v)
    (hready : v ∉ g.inputs → ∀ o, g.producer v = some o → o ∈ done) {d : Array α} :
    g.fetch values v = .ok d ↔ g.HasValue fed v d := by
  by_cases hvi : v ∈ g.inputs
  · rw [fetch_congr (hc.inputs v hvi)]
    constructor
    · exact .leaf hv (.inl hvi)
    · intro h
      cases h with
      | leaf _ _ h => exact h
      | computed h => exact absurd hvi h
  · cases hp : g.producer v with
    | none =>
      have hnone : values.get? v = none := by
        refine hc.others v hvi fun o ho node hn e => ?_
        obtain ⟨node', t, hn', hs, -⟩ := hdone o ho
        obtain rfl := Option.some.inj (hn.symm.trans hn')
        have := producer_some_iff.2 ⟨_, t, resolve_of_live hs, hs⟩
        rw [e, hp] at this
        cases this
      rw [fetch_congr (hnone.trans (hfed v hvi).symm)]
      constructor
      · exact .leaf hv (.inr hp)
      · intro h
        cases h with
        | leaf _ _ h => exact h
        | computed _ h =>
          rw [hp] at h
          cases h
    | some o =>
      obtain ⟨node, hn, hr⟩ := output_of_producer hg hp
      obtain rfl := Except.ok.inj (hv.symm.trans hr)
      obtain ⟨d', hd', hval⟩ := hc.outputs o (hready hvi o hp) node hn
      constructor
      · intro h
        rcases fetch_ok_iff.1 h with h | ⟨h, -⟩
        · rw [hd'] at h
          cases h
          exact hval
        · rw [hd'] at h
          cases h
      · intro h
        rw [h.unique hval]
        exact fetch_ok_iff.2 (.inl hd')

theorem mapM_fetch_iff {done : List OpId} {values : Values α} (hc : g.Computed fed done values)
    (hdone : ∀ o ∈ done, g.Computes o) {vs : List VarId}
    (hvs : ∀ v ∈ vs, g.resolve v = .ok v ∧
      (v ∉ g.inputs → ∀ o, g.producer v = some o → o ∈ done)) {ds : List (Array α)} :
    vs.mapM (g.fetch values) = .ok ds ↔ List.Forall₂ (g.HasValue fed) vs ds := by
  rw [mapM_ok_iff]
  induction vs generalizing ds with
  | nil => simp
  | cons v vs ih =>
    obtain ⟨⟨hv, hready⟩, hvs⟩ := List.forall_mem_cons.1 hvs
    simp only [List.forall₂_cons_left_iff, ih hvs,
      fetch_iff_hasValue hg hfed hc hdone hv hready]

/-- An operator whose reads are ready is evaluated to the value of its output. -/
theorem runOp_ok_iff {done : List OpId} {values values' : Values α}
    (hc : g.Computed fed done values) (hdone : ∀ o ∈ done, g.Computes o) {o : OpId} {node : Node α}
    {t : Tensor α} (hn : g.node? o = some node)
    (hs : g.slot? node.output = some (.live t (some o))) (hout : node.output ∉ g.inputs)
    (hready : ∀ c, g.DependsOn g.inputs o c → c ∈ done) :
    g.runOp values o = .ok values' ↔
      ∃ d, g.HasValue fed node.output d ∧ values' = values.set node.output d := by
  have hp : g.producer node.output = some o :=
    producer_some_iff.2 ⟨_, t, resolve_of_live hs, hs⟩
  have ht : g.tensor node.output = .ok t := tensor_ok_iff.2 ⟨_, hs⟩
  obtain ⟨ins, hins⟩ := inputsOf_ok hg hn
  have hfetch : ∀ {ds : List (Array α)}, ins.mapM (g.fetch values) = .ok ds ↔
      List.Forall₂ (g.HasValue fed) ins ds :=
    mapM_fetch_iff hg hfed hc hdone fun v hv => ⟨resolve_of_mem_inputsOf hins hv,
      fun hvi c hc => hready c ⟨ins, hins, v, hv, hvi, hc⟩⟩
  simp only [runOp, bind_ok_iff, operator_ok_iff, pure_ok_iff]
  constructor
  · rintro ⟨node', hn', ins', hins', ds, hds, ts, hts, t', ht', d, hd, rfl⟩
    obtain rfl := Option.some.inj (hn.symm.trans hn')
    obtain rfl := Except.ok.inj (hins.symm.trans hins')
    obtain rfl := Except.ok.inj (ht.symm.trans ht')
    obtain ⟨hlen, hval⟩ := zip_of_forall₂ (hfetch.1 hds)
    exact ⟨d, .computed hout hp hn hins hts ht hlen hval hd, rfl⟩
  · rintro ⟨d, hval, rfl⟩
    cases hval with
    | leaf _ hl _ =>
      rcases hl with hl | hl
      · exact absurd hl hout
      · rw [hp] at hl
        cases hl
    | computed _ hp' hn' hins' hts ht' hlen hds he =>
      obtain rfl := Option.some.inj (hp.symm.trans hp')
      obtain rfl := Option.some.inj (hn.symm.trans hn')
      obtain rfl := Except.ok.inj (hins.symm.trans hins')
      exact ⟨_, hn, _, hins, _, hfetch.2 (forall₂_of_zip hlen hds), _, hts, _, ht', _, he, rfl⟩

theorem computed_of_foldlM {ops : List OpId} (hops : g.Ordered g.inputs ops)
    (hcomp : ∀ o ∈ ops, g.Computes o) {values : Values α}
    (h : ops.foldlM g.runOp fed = .ok values) : g.Computed fed ops values := by
  refine foldlM_ok_processed (P := g.Computed fed) h
    ⟨fun _ _ => rfl, fun o ho => (by cases ho), fun v hv _ => hfed v hv⟩ ?_
  intro done o rest values values' e hc hstep
  have hdone : ∀ p ∈ done, g.Computes p := fun p hp =>
    hcomp p (e ▸ List.mem_append_left _ hp)
  obtain ⟨node, t, hn, hs, hout⟩ := hcomp o (e ▸ List.mem_append_right _ (List.mem_cons_self ..))
  obtain ⟨d, hd, rfl⟩ :=
    (runOp_ok_iff hg hfed hc hdone hn hs hout (hops.behind done o rest e)).1 hstep
  have hnodup := hops.nodup
  rw [e, List.nodup_append] at hnodup
  have hfresh : o ∉ done := fun h => hnodup.2.2 o h o (List.mem_cons_self ..) rfl
  exact hc.set hdone hfresh hn hs hout hd

/-- If all outputs of operators in a traversal have values, their evaluation succeeds. -/
theorem foldlM_runOp_ok {ops : List OpId} (hops : g.Ordered g.inputs ops)
    (hcomp : ∀ o ∈ ops, g.Computes o)
    (hval : ∀ o ∈ ops, ∀ node, g.node? o = some node → ∃ d, g.HasValue fed node.output d) :
    ∃ values, ops.foldlM g.runOp fed = .ok values := by
  suffices h : ∀ rest done values, ops = done ++ rest → g.Computed fed done values →
      ∃ values', rest.foldlM g.runOp values = .ok values' from
    h ops [] fed rfl ⟨fun _ _ => rfl, fun o ho => (by cases ho), fun v hv _ => hfed v hv⟩
  intro rest
  induction rest with
  | nil => exact fun done values _ _ => ⟨values, rfl⟩
  | cons o rest ih =>
    intro done values e hc
    have ho : o ∈ ops := e ▸ List.mem_append_right _ (List.mem_cons_self ..)
    have hdone : ∀ p ∈ done, g.Computes p := fun p hp => hcomp p (e ▸ List.mem_append_left _ hp)
    obtain ⟨node, t, hn, hs, hout⟩ := hcomp o ho
    obtain ⟨d, hd⟩ := hval o ho node hn
    have hstep := (runOp_ok_iff hg hfed hc hdone hn hs hout (hops.behind done o rest e)).2
      ⟨d, hd, rfl⟩
    have hnodup := hops.nodup
    rw [e, List.nodup_append] at hnodup
    have hfresh : o ∉ done := fun h => hnodup.2.2 o h o (List.mem_cons_self ..) rfl
    obtain ⟨values', h⟩ := ih (done ++ [o]) (values.set node.output d) (by simp [e])
      (hc.set hdone hfresh hn hs hout hd)
    exact ⟨values', by rw [List.foldlM_cons, bind_ok_iff]; exact ⟨_, hstep, h⟩⟩

/-- After the evaluation of a traversal, the outputs can be fetched with their values. -/
theorem mapM_outputs_iff {ops : List OpId} {values : Values α} {out : List (VarId × Array α)}
    (hops : g.topologicalOrder = .ok ops) (hc : g.Computed fed ops values) :
    (g.outputs.mapM fun v => return (v, ← g.fetch values v)) = .ok out ↔
      List.Forall₂ (fun v e => e.1 = v ∧ g.HasValue fed v e.2) g.outputs out := by
  have hfetch : ∀ v ∈ g.outputs, ∀ d, g.fetch values v = .ok d ↔ g.HasValue fed v d :=
    fun v hv d => fetch_iff_hasValue hg hfed hc
      (fun o ho => output_of_mem_topologicalOrder hg hops ho) (resolve_of_mem_outputs hv)
      fun hvi o ho => mem_topologicalOrder_of_root hops (mem_rootOps.2 ⟨v, hv, hvi, ho⟩)
  rw [mapM_ok_iff]
  constructor
  · intro h
    refine ((List.forall₂_and_left _ _).2 ⟨fun v hv => hv, h⟩).imp ?_
    rintro v e ⟨hv, he⟩
    obtain ⟨d, hd, he⟩ := bind_ok_iff.1 he
    cases he
    exact ⟨rfl, (hfetch v hv d).1 hd⟩
  · intro h
    refine ((List.forall₂_and_left _ _).2 ⟨fun v hv => hv, h⟩).imp ?_
    rintro v ⟨w, d⟩ ⟨hv, rfl, hd⟩
    exact bind_ok_iff.2 ⟨d, (hfetch w hv d).2 hd, rfl⟩

omit hfed in
/-- If all outputs have values, then so have the outputs of the operators in a traversal. -/
theorem hasValue_of_mem_topologicalOrder {ops : List OpId}
    (hops : g.topologicalOrder = .ok ops) (hval : ∀ v ∈ g.outputs, ∃ d, g.HasValue fed v d)
    {o : OpId} (ho : o ∈ ops) {node : Node α} (hn : g.node? o = some node) :
    ∃ d, g.HasValue fed node.output d := by
  obtain ⟨v, d, hv, -, hp, hd⟩ : ∃ v d, g.resolve v = .ok v ∧ v ∉ g.inputs ∧
      g.producer v = some o ∧ g.HasValue fed v d := by
    refine topologicalOrder_induction (P := fun o => ∃ v d, g.resolve v = .ok v ∧ v ∉ g.inputs ∧
      g.producer v = some o ∧ g.HasValue fed v d) hops ?_ ?_ o ho
    · intro o ho
      obtain ⟨v, hv, hvi, hp⟩ := mem_rootOps.1 ho
      obtain ⟨d, hd⟩ := hval v hv
      exact ⟨v, d, resolve_of_mem_outputs hv, hvi, hp, hd⟩
    · rintro o c ⟨v, d, -, hvi, hp, hd⟩ hc
      exact hd.of_dependsOn hvi hp hc
  obtain ⟨node', hn', hr⟩ := output_of_producer hg hp
  obtain rfl := Option.some.inj (hn.symm.trans hn')
  obtain rfl := Except.ok.inj (hv.symm.trans hr)
  exact ⟨d, hd⟩

end Evaluating

/-- A run succeeds exactly if every output has a value, and returns these values. -/
theorem run_ok_iff (hg : g.Wellformed) {feeds out : List (VarId × Array α)}
    (hf : g.FeedsInputs feeds) : g.run feeds = .ok out ↔ ∃ fed, feeds.foldlM g.feed {} = .ok fed ∧
      List.Forall₂ (fun v e => e.1 = v ∧ g.HasValue fed v e.2) g.outputs out := by
  simp only [run, bind_ok_iff]
  constructor
  · rintro ⟨fed, hfeed, ops, hops, values, hvalues, hout⟩
    have hfed := fun v => get?_of_feeds hf hfeed (v := v)
    have hc := computed_of_foldlM hg hfed (ordered_topologicalOrder hops)
      (fun o ho => output_of_mem_topologicalOrder hg hops ho) hvalues
    exact ⟨fed, hfeed, (mapM_outputs_iff hg hfed hops hc).1 hout⟩
  · rintro ⟨fed, hfeed, hout⟩
    have hfed := fun v => get?_of_feeds hf hfeed (v := v)
    have hval : ∀ v ∈ g.outputs, ∃ d, g.HasValue fed v d := by
      intro v hv
      obtain ⟨e, -, -, hd⟩ := exists_of_forall₂_left hout hv
      exact ⟨_, hd⟩
    obtain ⟨ops, hops⟩ := topologicalOrder_ok hg fun o ho => by
      obtain ⟨v, hv, hvi, hp⟩ := mem_rootOps.1 ho
      obtain ⟨d, hd⟩ := hval v hv
      exact hd.acc hvi hp
    have hordered := ordered_topologicalOrder hops
    have hcomp : ∀ o ∈ ops, g.Computes o := fun o ho => output_of_mem_topologicalOrder hg hops ho
    obtain ⟨values, hvalues⟩ := foldlM_runOp_ok hg hfed hordered hcomp fun o ho node hn =>
      hasValue_of_mem_topologicalOrder hg hops hval ho hn
    have hc := computed_of_foldlM hg hfed hordered hcomp hvalues
    exact ⟨fed, hfeed, ops, hops, values, hvalues, (mapM_outputs_iff hg hfed hops hc).2 hout⟩

end

end Graph

end TensorCompiler
