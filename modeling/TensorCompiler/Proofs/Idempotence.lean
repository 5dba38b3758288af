import TensorCompiler.Proofs.Acyclicity
/-!
# Passes that run twice

A pass that has run finds nothing to do when it runs again at once. A sweep leaves no operator that
its pass would take out, and the second sweep visits what is left and lets it be. Axis unification
has renamed every axis to one that stands for itself, and the outputs add no constraint to what the
hints say.

The graph stays the same in the second run of every pass. What the run reports is another matter for
axis unification: it compares operators to tell whether it changed them, and a scalar parameter that
does not equal itself counts as a change.

* `Pending`: a selection that a visit does not refuse to expand.
* `edits_expandSelect_of_selects`: when a visit refuses a selection.
* `sweep_repeats`: the second run of a sweep.
* `selfEqual_unifyAxes_iff`: renaming makes no operator equal to itself.
* `passes_repeat`: the theorem about the passes.
-/

namespace TensorCompiler

namespace Graph

variable {α : Type} [Scalar α] {g h i j : Graph α} {o q : OpId} {a b : VarId} {s s' : Supply}
  {c : Bool} {n : Node α}

/-! ## Visits that change nothing -/

omit [Scalar α] in
/-- A visit leaves an operator alone that does not reinterpret an order as itself. -/
theorem dropReinterpret_again (hg : g.Wellformed) (hn : g.node? o = some n)
    (hR : ¬g.Redundant o) (r : Supply) :
    (PassM.dropReinterpret o : PassM α Bool).Edits g r false g r := by
  obtain ⟨ins, hins⟩ := inputsOf_ok hg hn
  simp only [PassM.dropReinterpret, PassM.edits_graph_bind_iff, PassM.edits_except_bind_iff,
    operator_ok_iff]
  refine ⟨n, hn, ?_⟩
  split
  · next source target hop =>
    split
    · exact PassM.edits_pure_iff.2 ⟨rfl, rfl, rfl⟩
    · next hsame =>
      refine PassM.edits_except_bind_iff.2 ⟨ins, hins, ?_⟩
      split
      · next input =>
        obtain rfl : source = target := Decidable.not_not.1 hsame
        exact absurd ⟨n, source, input, hn, hop, hins⟩ hR
      · exact PassM.edits_pure_iff.2 ⟨rfl, rfl, rfl⟩
  · exact PassM.edits_pure_iff.2 ⟨rfl, rfl, rfl⟩

/-- A visit leaves an operator alone that it cannot fold. -/
theorem foldConstant_again (hg : g.Wellformed) (ho : g.Computes o) (hR : ¬g.Foldable o)
    (r : Supply) : (PassM.foldConstant o : PassM α Bool).Edits g r false g r := by
  obtain ⟨n, t, hn, hslot, -⟩ := ho
  obtain ⟨ins, hins⟩ := inputsOf_ok hg hn
  obtain ⟨ts, hts⟩ := tensors_ok_of_inputsOf hins
  have ht : g.tensor n.output = .ok t := tensor_ok_iff.2 ⟨_, hslot⟩
  simp only [PassM.foldConstant, PassM.edits_graph_bind_iff, PassM.edits_except_bind_iff,
    operator_ok_iff]
  refine ⟨n, hn, ins, hins, ts, hts, ?_⟩
  split
  · next arguments harguments =>
    refine PassM.edits_except_bind_iff.2 ⟨t, ht, ?_⟩
    split
    · exact PassM.edits_pure_iff.2 ⟨rfl, rfl, rfl⟩
    · next hcan =>
      have hcan : n.op.canFold t.type = true := by simpa using hcan
      exact absurd ⟨n, ins, ts, arguments, t, hn, hins, hts, harguments, ht, hcan⟩ hR
  · exact PassM.edits_pure_iff.2 ⟨rfl, rfl, rfl⟩

/-! ## Selections -/

/-- A selection by the outcome of a comparison that a visit does not refuse to expand: its
arithmetic form has no other type than the selection. -/
def Pending (g : Graph α) (o : OpId) : Prop :=
  ∃ node cond x y tc tx ty t, g.node? o = some node ∧ g.Selects o cond x y ∧
    g.tensors [cond, x, y] = .ok [tc, tx, ty] ∧ g.tensor node.output = .ok t ∧
    ∀ s form s', Gives (Operator.inferSelectArithmetic (α := α) tc.type tx.type ty.type) s form s' →
      form.Renamed id t.type

theorem pending_of_expandable (h : g.Expandable o) : g.Pending o := by
  obtain ⟨n, cond, x, y, tc, tx, ty, t, _, _, _, sum, hn, k, hts, ht, form, halike⟩ := h
  refine ⟨n, cond, x, y, tc, tx, ty, t, hn, k, hts, ht, fun s u s' hu => ?_⟩
  rw [infer_selectForm hu form]
  exact halike

/-- A visit changes nothing about a selection by a comparison exactly if the arithmetic form has
another type. -/
theorem edits_expandSelect_of_selects {x y cond : VarId} {tc tx ty t : Tensor α}
    (k : g.Selects o cond x y) (hn : g.node? o = some n)
    (hts : g.tensors [cond, x, y] = .ok [tc, tx, ty]) (ht : g.tensor n.output = .ok t) :
    (PassM.expandSelect o : PassM α Bool).Edits g s false h s' ↔ h = g ∧ ∃ form,
      Gives (Operator.inferSelectArithmetic (α := α) tc.type tx.type ty.type) s form s' ∧
        ¬form.Renamed id t.type := by
  rw [edits_expandSelect_iff k hn hts]
  constructor
  · rintro ⟨form, s₁, t', hform, ht', ⟨hdiffer, -, rfl, rfl⟩ | ⟨-, hexchange⟩⟩
    · obtain rfl := Except.ok.inj (ht.symm.trans ht')
      exact ⟨rfl, form, hform, hdiffer⟩
    · -- An exchange reports a change.
      obtain ⟨⟨⟩, -⟩ := edits_exchange hn hts hexchange
  · rintro ⟨rfl, form, hform, hdiffer⟩
    exact ⟨form, s', t, hform, ht, .inl ⟨hdiffer, rfl, rfl, rfl⟩⟩

/-- A visit leaves an operator alone that is no selection by a comparison. -/
theorem expandSelect_of_not_selects (hg : g.Wellformed) (hn : g.node? o = some n)
    (hno : ∀ cond x y, ¬g.Selects o cond x y) (r : Supply) :
    (PassM.expandSelect o : PassM α Bool).Edits g r false g r := by
  obtain ⟨ins, hins⟩ := inputsOf_ok hg hn
  have early : (return false : PassM α Bool).Edits g r false g r :=
    PassM.edits_pure_iff.2 ⟨rfl, rfl, rfl⟩
  simp only [PassM.expandSelect, PassM.edits_graph_bind_iff, PassM.edits_except_bind_iff,
    operator_ok_iff]
  refine ⟨n, hn, ?_⟩
  split
  · next hop =>
    refine PassM.edits_except_bind_iff.2 ⟨ins, hins, ?_⟩
    split
    · next cond x y =>
      split
      · next p hp =>
        obtain ⟨compared, hcompared⟩ := live_of_producer hg hp
        simp only [PassM.edits_except_bind_iff, operator_ok_iff]
        refine ⟨compared, hcompared, ?_⟩
        split
        · exact early
        · next hcmp =>
          have hcmp : compared.op.isComparison = true := by simpa using hcmp
          exact absurd ⟨⟨n, hn, hop⟩, hins, p, compared, hp, hcompared, hcmp⟩ (hno cond x y)
      · exact early
    · exact early
  · exact early

/-- A visit that changes nothing has refused the selection. -/
theorem not_pending_of_idle
    (hedit : (PassM.expandSelect o : PassM α Bool).Edits g s false h s') : ¬g.Pending o := by
  intro hpending
  obtain ⟨n, cond, x, y, tc, tx, ty, t, hn, k, hts, ht, hall⟩ := hpending
  obtain ⟨-, form, hform, hdiffer⟩ := (edits_expandSelect_of_selects k hn hts ht).1 hedit
  exact hdiffer (hall _ _ _ hform)

/-- A visit leaves a selection alone that it refuses, and all other operators. -/
theorem expandSelect_again (hg : g.Wellformed) (ho : g.Computes o) (hR : ¬g.Pending o)
    (r : Supply) : ∃ r', (PassM.expandSelect o : PassM α Bool).Edits g r false g r' := by
  obtain ⟨n, t, hn, hslot, -⟩ := ho
  by_cases hselects : ∃ cond x y, g.Selects o cond x y
  · obtain ⟨cond, x, y, k⟩ := hselects
    obtain ⟨tc, tx, ty, hts⟩ := tensors_of_selects k
    have ht : g.tensor n.output = .ok t := tensor_ok_iff.2 ⟨_, hslot⟩
    -- It was refused because its arithmetic form has another type.
    obtain ⟨_, form, _, hform, hdiffer⟩ : ∃ s form s',
        Gives (Operator.inferSelectArithmetic (α := α) tc.type tx.type ty.type) s form s' ∧
          ¬form.Renamed id t.type := by
      by_contra hnone
      push Not at hnone
      exact hR ⟨n, cond, x, y, tc, tx, ty, t, hn, k, hts, ht, hnone⟩
    obtain ⟨r', hform⟩ := inferSelectArithmetic_again hform r
    exact ⟨r', (edits_expandSelect_of_selects k hn hts ht).2 ⟨rfl, form, hform, hdiffer⟩⟩
  · push Not at hselects
    exact ⟨r, expandSelect_of_not_selects hg hn hselects r⟩

theorem not_pending_of_arithmetic (hn : i.node? q = some n) (hop : n.op.Arithmetic) :
    ¬i.Pending q := by
  intro hpending
  obtain ⟨_, _, _, _, _, _, _, _, -, k, -⟩ := hpending
  obtain ⟨m, hm, hselect⟩ := k.select
  obtain rfl := Option.some.inj (hn.symm.trans hm)
  rw [hselect] at hop
  rcases hop with hop | hop | hop <;> cases hop

theorem Replaced.pending (hi : i.Wellformed) (r : Replaced i j o a b) (hn : i.node? q = some n)
    (hq : ¬i.Reads q o) (hpending : j.Pending q) : i.Pending q := by
  obtain ⟨m, cond, x, y, tc, tx, ty, t, hm, k, hts, ht, hall⟩ := hpending
  obtain ⟨rfl, k', tc', tx', ty', t', hts', ht', hc, hx, hy, htype⟩ :=
    r.selects hi hn hq k hm hts ht
  rw [hc, hx, hy, htype] at hall
  exact ⟨m, cond, x, y, tc', tx', ty', t', hn, k', hts', ht', hall⟩

theorem visit_expandSelect_pending (hg : g.Wellformed) (ho : g.Computes o)
    (hedit : (PassM.expandSelect o : PassM α Bool).Edits g s c h s') :
    Visit Pending (fun _ _ => True) g o c h := by
  cases visit_expandSelect hg ho hedit with
  | idle => exact .idle (not_pending_of_idle hedit)
  | replaced hR r hh => exact .replaced (pending_of_expandable hR) r hh trivial

/-! ## Sweeps -/

omit [Scalar α] in
/-- A sweep over operators that every visit leaves alone. -/
theorem edits_sweep_idle {step : OpId → PassM α Bool} {ops : List OpId}
    (hops : g.topologicalOrder = .ok ops)
    (hstep : ∀ o ∈ ops, ∀ r, ∃ r', (step o).Edits g r false g r') (r : Supply) :
    ∃ r', (PassM.sweep step).Edits g r false g r' := by
  have visits : ∀ rest : List OpId, (∀ o ∈ rest, o ∈ ops) → ∀ r, ∃ r',
      (rest.foldlM (fun changed o => return (← step o) || changed) false).Edits g r false g r' := by
    intro rest
    induction rest with
    | nil => exact fun _ r => ⟨r, PassM.edits_pure_iff.2 ⟨rfl, rfl, rfl⟩⟩
    | cons o rest ih =>
      intro hall r
      obtain ⟨ho, hrest⟩ := List.forall_mem_cons.1 hall
      obtain ⟨r₁, h₁⟩ := hstep o ho r
      obtain ⟨r₂, h₂⟩ := ih hrest r₁
      exact ⟨r₂, PassM.edits_steps_cons_iff.2 ⟨false, g, r₁, h₁, h₂⟩⟩
  obtain ⟨r', h⟩ := visits ops (fun _ ho => ho) r
  exact ⟨r', PassM.edits_sweep_iff.2 ⟨ops, hops, h⟩⟩

/-- A sweep that has taken out what it can do without lets everything be when it runs again. -/
theorem sweep_repeats {R : Graph α → OpId → Prop} {S : Graph α → VarId → Prop}
    {step : OpId → PassM α Bool} (hg : g.Wellformed) (hsweep : (PassM.sweep step).Edits g s c h s')
    (hvisit : ∀ o i s c j s', i.Wellformed → i.Computes o → (step o).Edits i s c j s' →
      Visit R S i o c j)
    (hadded : ∀ i q n, i.Wellformed → i.node? q = some n → n.op.Arithmetic →
      (∀ ins, i.inputsOf q = .ok ins → ∃ v ∈ ins, (i.producer v).isSome) → ¬R i q)
    (hold : ∀ i j o a b q n, i.Wellformed → Replaced i j o a b → i.node? q = some n →
      ¬i.Reads q o → R j q → R i q)
    (hquiet : ∀ i q, i.Wellformed → i.Computes q → ¬R i q → ∀ r, ∃ r',
      (step q).Edits i r false i r') (r : Supply) :
    ∃ r', (PassM.sweep step).Edits h r false h r' := by
  obtain ⟨hh, -, hsettled⟩ := sweep_settles hg (Q := fun _ => True) trivial hsweep hvisit
    (fun _ _ _ _ _ _ _ _ _ _ => trivial) hadded hold
  obtain ⟨ops, hops⟩ := sweep_acyclic hg hsweep hvisit
  refine edits_sweep_idle hops (fun o ho => ?_) r
  have hneeded := (mem_topologicalOrder_iff hops).1 ho
  exact hquiet h o hh (output_of_mem_topologicalOrder hh hops ho) (hsettled o hneeded).2

/-- The sweeps that drop reinterpretations, fold constants and expand selections. -/
theorem sweeps_repeat {pass : Pass (PassM α)} (hg : g.Wellformed)
    (hpass : pass ∈ [dropReinterprets, foldConstants, expandSelects])
    (hedit : pass.run.Edits g s c h s') (r : Supply) : ∃ r', pass.run.Edits h r false h r' := by
  simp only [List.mem_cons, List.not_mem_nil, or_false] at hpass
  rcases hpass with rfl | rfl | rfl
  · refine sweep_repeats hg hedit (fun o i s c j s' => visit_dropReinterpret)
      (fun i q n _ hn hop _ => not_redundant_of_arithmetic hn hop)
      (fun i j o a b q n hi r hn _ => r.redundant hi hn) (fun i q hi hq hR r => ?_) r
    obtain ⟨n, -, hn, -⟩ := hq
    exact ⟨r, dropReinterpret_again hi hn hR r⟩
  · exact sweep_repeats hg hedit (fun o i s c j s' => visit_foldConstant)
      (fun i q n hi hn _ hreads => not_foldable_of_arithmetic hi hn hreads)
      (fun i j o a b q n hi r hn hq => r.foldable hi hn hq)
      (fun i q hi hq hR r => ⟨r, foldConstant_again hi hq hR r⟩) r
  · exact sweep_repeats hg hedit (fun o i s c j s' => visit_expandSelect_pending)
      (fun i q n _ hn hop _ => not_pending_of_arithmetic hn hop)
      (fun i j o a b q n hi r hn hq => r.pending hi hn hq)
      (fun i q hi hq hR r => expandSelect_again hi hq hR r) r

/-! ## Axis unification -/

theorem selfEqual_unifyAxes_iff {hints : List (Axis × Axis)} {batchFirst : Bool}
    (hedit : (TensorCompiler.unifyAxes hints batchFirst : Pass (PassM α)).run.Edits g s c h s') :
    h.SelfEqual ↔ g.SelfEqual := by
  obtain ⟨batch, -, hunify⟩ := edits_unifyAxes_iff.1 hedit
  obtain ⟨classes, -, -, hrename⟩ := edits_unifyWith_iff.1 hunify
  split at hrename
  · obtain rfl : (g.renameAxes classes).1 = h := congrArg Prod.fst hrename
    have hok : (g.renameAxes classes).2 = .ok c := congrArg Prod.snd hrename
    refine ⟨fun k o n hn => ?_, fun k => k.unifyAxes hedit⟩
    obtain ⟨m, _, hm, hmap⟩ := (renameAxes_ok hok).2 o n hn
    obtain ⟨n', hn', -, -, hop⟩ := node_of_renameAxes hok hm
    obtain rfl := Option.some.inj (hn'.symm.trans hn)
    rw [← eqv_mapAxes hop]
    exact k o m hm
  · rw [hrename.2]

end Graph

/-! ## All passes -/

/-- Every pass finds nothing to do in a graph that it has just left: it succeeds when it runs again,
and leaves the graph as it is. All passes report no change then, except that axis unification
reports one if its hints merge different axes and some operator does not equal itself. -/
theorem passes_repeat {α : Type} [Scalar α] {s : Supply} {g : Graph α} (hb : Built s g) :
    (∀ pass ∈ ([dropReinterprets, foldConstants, expandSelects] : List (Pass (PassM α))),
      ∀ r c h r', pass.run.Edits g r c h r' → ∀ q, ∃ q', pass.run.Edits h q false h q') ∧
    ∀ hints batchFirst r c h r',
      (unifyAxes hints batchFirst : Pass (PassM α)).run.Edits g r c h r' → ∀ q, ∃ d,
        (unifyAxes hints batchFirst : Pass (PassM α)).run.Edits h q d h q ∧
        (d = false ↔ g.SelfEqual ∨ ∀ p ∈ hints, p.1 = p.2) := by
  obtain ⟨ds, hsession⟩ := hb
  refine ⟨fun pass hpass r c h r' hedit q => ?_, fun hints batchFirst r c h r' hedit q => ?_⟩
  · exact Graph.sweeps_repeat hsession.wellformed hpass hedit q
  · obtain ⟨classes, hclasses, hsettled⟩ := Graph.settledFor_of_unifyAxes hedit
    obtain ⟨d, hagain, hd⟩ := hsettled.unifyAxes_again hclasses q
    have hself := Graph.selfEqual_unifyAxes_iff hedit
    exact ⟨d, hagain, hd.trans (or_congr_left hself)⟩

/-- A pass that drops the only operator, and then finds nothing to do; and hints that merge
nothing. -/
theorem passes_repeat_passThrough :
    (∃ h, dropReinterprets.run.Edits Graph.passThrough {} true h {} ∧
      ∃ q', dropReinterprets.run.Edits h {} false h q') ∧
    ∃ h, (unifyAxes [(.batch, .batch)] true).run.Edits Graph.passThrough {} false h {} ∧
      ∃ d, (unifyAxes [(.batch, .batch)] true).run.Edits h {} d h {} ∧
        (d = false ↔ Graph.passThrough.SelfEqual ∨
          ∀ p ∈ ([(.batch, .batch)] : List (Axis × Axis)), p.1 = p.2) := by
  obtain ⟨hsweeps, hunify⟩ := @passes_repeat ℚ _ {} Graph.passThrough Graph.built_passThrough
  exact ⟨⟨_, rfl, hsweeps dropReinterprets (List.mem_cons_self ..) {} true _ {} rfl {}⟩,
    _, rfl, hunify [(.batch, .batch)] true {} false _ {} rfl {}⟩

/-- The value that is no number makes axis unification report a change in its second run. -/
theorem unifyAxes_scaledByNothing :
    Built {} (scaledByNothing [⟨1⟩] [.output]) ∧ ∃ h,
      (unifyAxes [(.free 16, .batch)] false).run.Edits (scaledByNothing [⟨1⟩] [.output]) {} true
        h {} ∧
      (unifyAxes [(.free 16, .batch)] false).run.Edits h {} true h {} :=
  ⟨built_scaledByNothing, _, rfl, rfl⟩

end TensorCompiler
