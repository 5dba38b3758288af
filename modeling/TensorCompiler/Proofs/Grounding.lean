import TensorCompiler.Proofs.FixedPoint
import TensorCompiler.Proofs.Liveness
/-!
# Where the values of a graph come from

A variable is grounded if it is fed, constant, or computed from grounded variables. If every leaf
that the outputs depend on is an input or a constant, the outputs are grounded, and simplification
keeps them so: what a pass puts in place of an output is computed from what the operator read, or
constant.

* `Grounded`, `Supplied`: the property, and that the outputs have it.
* `OutputOf`, `Rewired.outputOf`: what a variable is computed from, before and after a step.
* `Bound.supplied`: bound leaves ground the outputs.
* `Rewired.supplied`: a step of a pass keeps the outputs grounded.
* `Supplied.source`: what an operator reads then comes from an input, a constant, or an operator
  in front of it.
* `Sane.simplify`: the whole pipeline keeps them so.
-/

namespace TensorCompiler

namespace Graph

section

variable {α : Type}

/-- A variable whose value comes from inputs and constants only. -/
inductive Grounded (g : Graph α) : VarId → Prop
  | input {v} : v ∈ g.inputs → Grounded g v
  | constant {v t d} : g.tensor v = .ok t → t.data = some d → Grounded g v
  | computed {v o ins} : g.resolve v = .ok v → g.producer v = some o → g.inputsOf o = .ok ins →
      (∀ u ∈ ins, Grounded g u) → Grounded g v

/-- The outputs come from inputs and constants only. -/
def Supplied (g : Graph α) : Prop := ∀ v ∈ g.outputs, g.Grounded v

/-- A variable is computed by an operator from these inputs. -/
structure OutputOf (g : Graph α) (v : VarId) (ins : List VarId) : Prop where
  stands : g.resolve v = .ok v
  computed : ∃ o, g.producer v = some o ∧ g.inputsOf o = .ok ins

end

variable {α : Type} {g h : Graph α} {o : OpId} {a b v : VarId} {ins : List VarId}

theorem Grounded.of_outputOf (hv : g.OutputOf v ins) (hreads : ∀ u ∈ ins, g.Grounded u) :
    g.Grounded v :=
  let ⟨_, hp, hins⟩ := hv.computed
  .computed hv.stands hp hins hreads

/-- What an operator reads is grounded if its output is. -/
theorem Grounded.reads (hg : g.Wellformed) (hv : g.Grounded v) (hvi : v ∉ g.inputs)
    (hp : g.producer v = some o) : ∃ ins, g.inputsOf o = .ok ins ∧ ∀ u ∈ ins, g.Grounded u := by
  cases hv with
  | input h => exact absurd h hvi
  | constant ht hdata =>
    -- A produced variable holds no constant data.
    obtain ⟨q, hslot⟩ := tensor_ok_iff.1 ht
    obtain rfl : q = some o := (producer_of_live hslot).symm.trans hp
    rw [(hg.produced v _ o hslot).1] at hdata
    cases hdata
  | computed _ hp' hins hreads =>
    obtain rfl := Option.some.inj (hp.symm.trans hp')
    exact ⟨_, hins, hreads⟩

/-! ## Bound leaves -/

/-- If all leaves are inputs or constants, the outputs are grounded. -/
theorem Bound.supplied (hb : g.Bound) (hg : g.Wellformed) {ops : List OpId}
    (hops : g.topologicalOrder = .ok ops) : g.Supplied := by
  obtain ⟨vars, hvars⟩ := reachable_ok hg hops
  have grounded : ∀ v, v ∈ vars → (∀ o, v ∉ g.inputs → g.producer v = some o →
      ∃ ins, g.inputsOf o = .ok ins ∧ ∀ u ∈ ins, g.Grounded u) → g.resolve v = .ok v →
      g.Grounded v := by
    intro v hv hreads hr
    by_cases hvi : v ∈ g.inputs
    · exact .input hvi
    · cases hp : g.producer v with
      | none =>
        rcases hb vars hvars v hv hp with h | ⟨t, d, ht, hd⟩
        · exact absurd h hvi
        · exact .constant ht hd
      | some o =>
        obtain ⟨ins, hins, hall⟩ := hreads o hvi hp
        exact .computed hr hp hins hall
  have hord := ordered_topologicalOrder hops
  have hall : ∀ o ∈ ops, ∃ ins, g.inputsOf o = .ok ins ∧ ∀ u ∈ ins, g.Grounded u := by
    refine hord.induction fun o ho hdeps => ?_
    obtain ⟨ins, hins⟩ := hord.readable o ho
    obtain ⟨node, -, hn, -⟩ := output_of_mem_topologicalOrder hg hops ho
    refine ⟨ins, hins, fun u hu => grounded u ?_ ?_ (resolve_of_mem_inputsOf hins hu)⟩
    · exact (mem_reachable_iff hops hvars).2 (.inr (.inr ⟨o, ho, ins, node, hins, hn, .inl hu⟩))
    · exact fun c hui hc => hdeps c ⟨ins, hins, u, hu, hui, hc⟩
  intro v hv
  refine grounded v ((mem_reachable_iff hops hvars).2 (.inr (.inl hv))) (fun o hvi hp => ?_)
    (resolve_of_mem_outputs hv)
  exact hall o (mem_topologicalOrder_of_root hops (mem_rootOps.2 ⟨v, hv, hvi, hp⟩))

/-- What a needed operator reads is grounded. -/
theorem Supplied.reads (hs : g.Supplied) (hg : g.Wellformed) (ho : g.Needed o) :
    ∃ ins, g.inputsOf o = .ok ins ∧ ∀ u ∈ ins, g.Grounded u := by
  induction ho with
  | output hv hvi hp => exact (hs _ hv).reads hg hvi hp
  | read _ hread ih =>
    obtain ⟨ins, hins, v, hv, hvi, hp⟩ := hread
    obtain ⟨reads, hreads, hall⟩ := ih
    obtain rfl := Except.ok.inj (hins.symm.trans hreads)
    exact (hall v hv).reads hg hvi hp

/-- What an operator reads is an input, a constant, or the output of an operator in front of it. -/
theorem Supplied.source (hs : g.Supplied) (hg : g.Wellformed) {pre post : List OpId}
    (hops : g.topologicalOrder = .ok (pre ++ o :: post)) (hins : g.inputsOf o = .ok ins)
    (hv : v ∈ ins) : v ∈ g.inputs ∨ (∃ t d, g.tensor v = .ok t ∧ t.data = some d) ∨
      ∃ c ∈ pre, ∃ node, g.node? c = some node ∧ node.output = v := by
  obtain ⟨reads, hreads, hall⟩ :=
    hs.reads hg ((mem_topologicalOrder_iff hops).1 (List.mem_append_right pre (.head post)))
  obtain rfl := Except.ok.inj (hins.symm.trans hreads)
  by_cases hvi : v ∈ g.inputs
  · exact .inl hvi
  cases hall v hv with
  | input h => exact .inl h
  | constant ht hd => exact .inr (.inl ⟨_, _, ht, hd⟩)
  | computed hr hp =>
    obtain ⟨node, hn, hout⟩ := output_of_producer hg hp
    refine .inr (.inr ⟨_, (ordered_topologicalOrder hops).behind pre o post rfl _
      ⟨ins, hins, v, hv, hvi, hp⟩, node, hn, ?_⟩)
    exact Except.ok.inj (hout.symm.trans hr)

/-! ## Steps of passes -/

/-- The operator that is gone has computed the variable that is replaced. -/
theorem Rewired.inputsOf_gone (r : Rewired g h o a b) (hv : g.OutputOf a ins) :
    g.inputsOf o = .ok ins := by
  obtain ⟨x, hx⟩ := r.produced
  obtain ⟨q, hp, hins⟩ := hv.computed
  obtain rfl := Option.some.inj ((producer_of_live hx).symm.trans hp)
  exact hins

/-- All others are computed as before, from what stands in for the replaced one. -/
theorem Rewired.outputOf (hg : g.Wellformed) (r : Rewired g h o a b) (hv : g.OutputOf v ins)
    (hva : v ≠ a) : h.OutputOf v (ins.map fun u => if u = a then b else u) := by
  obtain ⟨q, hp, hins⟩ := hv.computed
  obtain ⟨t, p, hslot⟩ := live_of_resolve hv.stands
  obtain rfl : p = some q := (producer_of_live hslot).symm.trans hp
  obtain ⟨-, node, hn, -⟩ := hg.produced v t q hslot
  obtain ⟨t', hslot', -⟩ := r.live v t (some q) hva hslot
  exact ⟨resolve_of_live hslot', q, producer_of_live hslot',
    r.links.inputsOf hn (r.node q node (r.producer_ne hg hslot hva) hn) rfl hins⟩

/-- If what stands in for an output is grounded, all that was grounded is. -/
theorem Rewired.grounded (hg : g.Wellformed) (r : Rewired g h o a b)
    (hnew : ∀ ins, g.inputsOf o = .ok ins →
      (∀ u ∈ ins, h.Grounded (if u = a then b else u)) → h.Grounded b)
    (hv : g.Grounded v) : h.Grounded (if v = a then b else v) := by
  obtain ⟨x, hx⟩ := r.produced
  induction hv with
  | input hvi =>
    rw [if_neg (ne_of_mem_of_not_mem hvi r.noInput)]
    exact .input (r.inputs hg ▸ hvi)
  | @constant v t d ht hd =>
    obtain ⟨p, hslot⟩ := tensor_ok_iff.1 ht
    have hva : v ≠ a := by
      rintro rfl
      obtain ⟨rfl, -⟩ : x = t ∧ some o = p := by simpa using hx.symm.trans hslot
      rw [(hg.produced v x o hx).1] at hd
      cases hd
    obtain ⟨t', hslot', hdata⟩ := r.live v t p hva hslot
    rw [if_neg hva]
    exact .constant (tensor_ok_iff.2 ⟨p, hslot'⟩) (hdata.trans hd)
  | @computed v q ins hr hp hins _ ih =>
    have hv : g.OutputOf v ins := ⟨hr, q, hp, hins⟩
    by_cases hva : v = a
    · subst hva
      rw [if_pos rfl]
      exact hnew ins (r.inputsOf_gone hv) ih
    · rw [if_neg hva]
      refine .of_outputOf (r.outputOf hg hv hva) fun u hu => ?_
      obtain ⟨w, hw, rfl⟩ := List.mem_map.1 hu
      exact ih w hw

theorem Rewired.supplied (hg : g.Wellformed) (r : Rewired g h o a b)
    (hnew : ∀ ins, g.inputsOf o = .ok ins →
      (∀ u ∈ ins, h.Grounded (if u = a then b else u)) → h.Grounded b)
    (hs : g.Supplied) : h.Supplied := by
  intro v hv
  unfold Graph.outputs at hv
  rw [r.declaredOutputs, r.links.resolveAll hg hg.declaredOutputs] at hv
  obtain ⟨u, hu, rfl⟩ := List.mem_map.1 hv
  exact r.grounded hg hnew (hs u hu)

/-- An added operator computes its output, wherever its inputs are redirected to. -/
theorem outputOf_placed {g₀ g₁ : Graph α} {op : Operator α} {t : Tensor α}
    (k : Extends (g₀.placeOp op ins t) g₁) (r : Diverts g₁ h a b) (hv : v = ⟨g₀.slots.size⟩)
    (hins : ∀ u ∈ ins, g₁.resolve u = .ok u) (hne : v ≠ a) :
    h.OutputOf v (ins.map fun u => if u = a then b else u) := by
  subst hv
  have hslot : g₁.slot? ⟨g₀.slots.size⟩ = some (.live t (some ⟨g₀.nodes.size⟩)) :=
    k.slot _ _ (slot?_push_new rfl)
  have hnode : g₁.node? ⟨g₀.nodes.size⟩ = some ⟨op, ins, ⟨g₀.slots.size⟩⟩ :=
    k.node _ _ (by rw [node?_placeOp, if_pos rfl])
  have hnode' : h.node? ⟨g₀.nodes.size⟩ = some ⟨op, ins, ⟨g₀.slots.size⟩⟩ := by
    unfold node? at hnode ⊢
    rw [r.nodes, hnode]
  obtain ⟨t', hslot', -⟩ := r.live _ _ _ hne hslot
  exact ⟨resolve_of_live hslot', _, producer_of_live hslot',
    r.links.inputsOf hnode hnode' rfl (inputsOf_ok_iff.2 ⟨_, hnode, List.forall₂_same.2 hins⟩)⟩

section

variable [Scalar α] {s s' : Supply} {c : Bool}

/-- The operators of the arithmetic form of a selection, and what they read. -/
theorem outputOf_expanded {output cond x y : VarId} {chosen inverse other sum : TensorType}
    (r : Diverts (g.expanded o output cond x y chosen inverse other sum) h output
      ⟨g.slots.size + 3⟩)
    (hlt : output.index < g.slots.size)
    (hins : ∀ u ∈ [cond, x, y], (g.detach o output).resolve u = .ok u) :
    h.OutputOf ⟨g.slots.size⟩
        ([cond, x].map fun u => if u = output then ⟨g.slots.size + 3⟩ else u) ∧
      h.OutputOf ⟨g.slots.size + 1⟩
        ([cond].map fun u => if u = output then ⟨g.slots.size + 3⟩ else u) ∧
      h.OutputOf ⟨g.slots.size + 2⟩
        [⟨g.slots.size + 1⟩, if y = output then ⟨g.slots.size + 3⟩ else y] ∧
      h.OutputOf ⟨g.slots.size + 3⟩ [⟨g.slots.size⟩, ⟨g.slots.size + 2⟩] := by
  have fresh : ∀ n, (⟨g.slots.size + n⟩ : VarId) ≠ output := by
    rintro n rfl
    exact Nat.not_le.2 hlt (Nat.le_add_right _ n)
  have first : (⟨g.slots.size⟩ : VarId) ≠ output := fresh 0
  -- The four operators one after the other, and what each of them extends to.
  have e₃ := extends_place ((((g.detach o output).place (.pointwise .mul) [cond, x] chosen).place
    .invert [cond] inverse).place (.pointwise .mul) [⟨g.slots.size + 1⟩, y] other)
    (.pointwise .add) [⟨g.slots.size⟩, ⟨g.slots.size + 2⟩] sum
  have e₂ := (extends_place (((g.detach o output).place (.pointwise .mul) [cond, x] chosen).place
    .invert [cond] inverse) (.pointwise .mul) [⟨g.slots.size + 1⟩, y] other).trans e₃
  have e₁ := (extends_place ((g.detach o output).place (.pointwise .mul) [cond, x] chosen)
    .invert [cond] inverse).trans e₂
  have e₀ := (extends_place (g.detach o output) (.pointwise .mul) [cond, x] chosen).trans e₁
  have old : ∀ u ∈ [cond, x, y],
      (g.expanded o output cond x y chosen inverse other sum).resolve u = .ok u := by
    intro u hu
    obtain ⟨t, p, hslot⟩ := live_of_resolve (hins u hu)
    exact resolve_of_live (e₀.slot _ _ hslot)
  have t₁ := resolve_of_tensor (e₁.tensor (tensor_place ..))
  have t₂ := resolve_of_tensor (e₂.tensor (tensor_place ..))
  have t₃ := resolve_of_tensor (e₃.tensor (tensor_place ..))
  simp only [size_place, size_detach] at t₁ t₂ t₃
  simp only [List.forall_mem_cons, List.not_mem_nil, false_imp_iff, implies_true, and_true] at old
  have pair : ∀ {P : VarId → Prop} {u w : VarId}, P u → P w → ∀ v ∈ [u, w], P v :=
    fun hu hw => List.forall_mem_cons.2 ⟨hu, List.forall_mem_singleton.2 hw⟩
  have hother := outputOf_placed (v := ⟨g.slots.size + 2⟩) e₃ r
    (by rw [size_place, size_place, size_detach]) (pair t₂ old.2.2) (fresh 2)
  have hsum := outputOf_placed (v := ⟨g.slots.size + 3⟩) (.refl _) r
    (by rw [size_place, size_place, size_place, size_detach]) (pair t₁ t₃) (fresh 3)
  simp only [List.map_cons, List.map_nil, if_neg (fresh 1)] at hother
  simp only [List.map_cons, List.map_nil, if_neg first, if_neg (fresh 2)] at hsum
  exact ⟨outputOf_placed e₁ r (by rw [size_detach]) (pair old.1 old.2.1) first,
    outputOf_placed e₂ r (by rw [size_place, size_detach]) (List.forall_mem_singleton.2 old.1)
      (fresh 1), hother, hsum⟩

/-- The arithmetic form of a selection is grounded if the operands are. -/
theorem grounded_expanded {output cond x y : VarId} {chosen inverse other sum : TensorType}
    (r : Diverts (g.expanded o output cond x y chosen inverse other sum) h output
      ⟨g.slots.size + 3⟩)
    (hlt : output.index < g.slots.size)
    (hins : ∀ u ∈ [cond, x, y], (g.detach o output).resolve u = .ok u)
    (hreads : ∀ u ∈ [cond, x, y], h.Grounded (if u = output then ⟨g.slots.size + 3⟩ else u)) :
    h.Grounded ⟨g.slots.size + 3⟩ := by
  obtain ⟨hchosen, hinverse, hother, hsum⟩ := outputOf_expanded r hlt hins
  simp only [List.forall_mem_cons, List.not_mem_nil, false_imp_iff, implies_true,
    and_true] at hreads
  have pair : ∀ {P : VarId → Prop} {u w : VarId}, P u → P w → ∀ v ∈ [u, w], P v :=
    fun hu hw => List.forall_mem_cons.2 ⟨hu, List.forall_mem_singleton.2 hw⟩
  have v₁ : h.Grounded ⟨g.slots.size⟩ := .of_outputOf hchosen (pair hreads.1 hreads.2.1)
  have v₂ : h.Grounded ⟨g.slots.size + 1⟩ :=
    .of_outputOf hinverse (List.forall_mem_singleton.2 hreads.1)
  have v₃ : h.Grounded ⟨g.slots.size + 2⟩ := .of_outputOf hother (pair v₂ hreads.2.2)
  exact .of_outputOf hsum (pair v₁ v₃)

omit [Scalar α] in
theorem Supplied.dropReinterpret (hg : g.Wellformed) (hs : g.Supplied) (ho : g.Computes o)
    (hedit : (PassM.dropReinterpret o : PassM α Bool).Edits g s c h s') :
    h = g ∨ h.Wellformed ∧ h.Supplied ∧ ∃ a b, Rewired g h o a b := by
  refine (rewired_dropReinterpret hg ho hedit).imp_right ?_
  rintro ⟨hh, node, order, input, -, -, hins, r⟩
  refine ⟨hh, r.supplied hg (fun ins hins' hreads => ?_) hs, _, _, r⟩
  obtain rfl := Except.ok.inj (hins.symm.trans hins')
  have := hreads input (List.mem_singleton_self input)
  split at this <;> exact this

theorem Supplied.foldConstant (hg : g.Wellformed) (hs : g.Supplied) (ho : g.Computes o)
    (hedit : (PassM.foldConstant o : PassM α Bool).Edits g s c h s') :
    h = g ∨ h.Wellformed ∧ h.Supplied ∧ ∃ a b, Rewired g h o a b := by
  refine (rewired_foldConstant hg ho hedit).imp_right ?_
  rintro ⟨hh, node, ins, ts, arguments, t, data, folded, -, -, -, -, -, -, hslot, hdata, r⟩
  exact ⟨hh, r.supplied hg (fun _ _ _ => .constant (tensor_ok_iff.2 ⟨none, hslot⟩) hdata) hs,
    _, _, r⟩

theorem Supplied.expandSelect (hg : g.Wellformed) (hs : g.Supplied) (ho : g.Computes o)
    (hedit : (PassM.expandSelect o : PassM α Bool).Edits g s c h s') :
    h = g ∨ h.Wellformed ∧ h.Supplied ∧ ∃ a b, Rewired g h o a b := by
  refine (rewired_expandSelect hg ho hedit).imp_right ?_
  rintro ⟨hh, node, cond, x, y, tc, tx, ty, t, chosen, inverse, other, sum, hn, hselects,
    -, -, -, -, r, -, w⟩
  refine ⟨hh, w.supplied hg (fun ins hins hreads => ?_) hs, _, _, w⟩
  obtain rfl := Except.ok.inj (hselects.inputs.symm.trans hins)
  exact grounded_expanded r (hg.output o node hn).1 (fun u hu => resolve_detach hg hn
    (resolve_of_mem_inputsOf hins hu)) hreads

theorem Supplied.renameAxes {f : Axis → Axis} (hs : g.Supplied)
    (hok : (g.renameAxes f).2 = .ok c) : (g.renameAxes f).1.Supplied := by
  have k := sameArena_renameAxes g f
  have grounded : ∀ v, g.Grounded v → (g.renameAxes f).1.Grounded v := by
    intro v hv
    induction hv with
    | input hvi => exact .input (by rwa [inputs_renameAxes])
    | constant ht hd =>
      obtain ⟨p, hslot⟩ := tensor_ok_iff.1 ht
      obtain ⟨t', hslot', -, hdata⟩ := live_renameAxes hok hslot
      exact .constant (tensor_ok_iff.2 ⟨p, hslot'⟩) (hdata.trans hd)
    | computed hr hp hins _ ih =>
      obtain ⟨node, hn, -⟩ := inputsOf_ok_iff.1 hins
      obtain ⟨node', _, hn', hnode⟩ := (renameAxes_ok hok).2 _ node hn
      have hins' := (matches_renameAxes hok).inputsOf hn hn' (renameAxes_node hnode).1 hins
      rw [List.map_id] at hins'
      exact .computed ((k.resolve _).trans hr) ((k.producer _).trans hp) hins' ih
  intro v hv
  rw [outputs_renameAxes] at hv
  exact grounded v (hs v hv)

/-! ## The pipeline -/

variable {config : Config}

/-- A graph as a pass finds it. -/
def Sane (g : Graph α) : Prop := g.Wellformed ∧ g.Supplied

theorem Sane.unifyAxes {hints : List (Axis × Axis)} {batchFirst : Bool} (k : g.Sane)
    (hedit : (TensorCompiler.unifyAxes hints batchFirst : Pass (PassM α)).run.Edits g s c h s') :
    h.Sane := by
  obtain ⟨batch, -, hunify⟩ := edits_unifyAxes_iff.1 hedit
  obtain ⟨classes, -, -, hrename⟩ := edits_unifyWith_iff.1 hunify
  split at hrename
  · obtain rfl : (g.renameAxes classes).1 = h := congrArg Prod.fst hrename
    exact ⟨wellformed_renameAxes k.1 classes, k.2.renameAxes (congrArg Prod.snd hrename)⟩
  · exact hrename.2 ▸ k

theorem Sane.round (k : g.Sane)
    (hedit : (Pass.sequence (simplifyPasses config) : PassM α Bool).Edits g s c h s') : h.Sane := by
  obtain ⟨c₁, g₁, s₁, c₂, g₂, s₂, c₃, g₃, s₃, c₄, h₁, h₂, h₃, h₄, -⟩ := edits_round hedit
  have k₁ := k.unifyAxes h₁
  have k₂ : g₂.Sane := sweep_keeps k₁.1 k₁.2 h₂ fun o i s c j s' hi hs => hs.dropReinterpret hi
  have k₃ : g₃.Sane := sweep_keeps k₂.1 k₂.2 h₃ fun o i s c j s' hi hs => hs.foldConstant hi
  exact sweep_keeps k₃.1 k₃.2 h₄ fun o i s c j s' hi hs => hs.expandSelect hi

/-- Simplification keeps the outputs grounded. -/
theorem Sane.simplify (k : g.Sane)
    (hedit : (TensorCompiler.simplify config : Pass (PassM α)).run.Edits g s c h s') : h.Sane :=
  Pass.group_keeps (fun _ _ _ _ _ => Sane.round) k hedit

end

end Graph

end TensorCompiler
