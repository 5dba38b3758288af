import TensorCompiler.Proofs.Rewriting
import TensorCompiler.Proofs.Traversal
/-!
# A graph inside a larger arena

A graph that has been added to holds the smaller graph in front of what was added. When both are
edited further in the same way, the new places of the larger arena come behind the added ones, so
that the smaller graph lies around a gap. Handles of the smaller graph are then handles of the
larger one, with those behind the gap moved up.

Nothing that follows the links and the producers of the smaller graph ever arrives in the gap, so
whatever looks only at what the outputs depend on finds the same in both graphs.

* `Gap`: the added places; `Gap.var`, `Gap.op`: where a handle of the smaller graph moves.
* `Agree`: two computations both fail, or both succeed with related results.
* `Embeds`: the larger graph is the smaller one around a gap.
* `Embeds.resolve`, `Embeds.inputsOf`, `Embeds.producer`: links and producers stay outside the gap.
* `Embeds.topologicalOrder`: the same operators are visited, in the same order.
* `Embeds.validate`: the one graph is valid if the other one is.
-/

namespace TensorCompiler

/-! ## Agreement of computations -/

/-- Both computations fail, or both succeed with related results. -/
inductive Agree {ε δ β γ : Type} (R : β → γ → Prop) : Except ε β → Except δ γ → Prop
  | ok {b : β} {c : γ} : R b c → Agree R (.ok b) (.ok c)
  | error {e : ε} {d : δ} : Agree R (.error e) (.error d)

section

variable {ε δ β β' γ γ' : Type} {R : β → γ → Prop} {S : β' → γ' → Prop} {x : Except ε β}
  {y : Except δ γ}

theorem Agree.of_ok (h : Agree R x y) {b : β} (hx : x = .ok b) : ∃ c, y = .ok c ∧ R b c := by
  subst hx
  cases h with
  | ok h => exact ⟨_, rfl, h⟩

theorem Agree.ok_of (h : Agree R x y) {c : γ} (hy : y = .ok c) : ∃ b, x = .ok b ∧ R b c := by
  subst hy
  cases h with
  | ok h => exact ⟨_, rfl, h⟩

theorem Agree.refl (x : Except ε β) : Agree Eq x x := by
  cases x with
  | ok b => exact .ok rfl
  | error e => exact .error

theorem Agree.mono {T : β → γ → Prop} (h : Agree R x y) (hRT : ∀ b c, R b c → T b c) :
    Agree T x y := by
  cases h with
  | ok h => exact .ok (hRT _ _ h)
  | error => exact .error

theorem Agree.toOption {m : β → γ} (h : Agree (fun b c => c = m b) x y) :
    y.toOption = x.toOption.map m := by
  cases h with
  | ok h => exact congrArg some h
  | error => rfl

theorem Agree.bind (h : Agree R x y) {f : β → Except ε β'} {f' : γ → Except δ γ'}
    (hf : ∀ b c, R b c → Agree S (f b) (f' c)) : Agree S (x >>= f) (y >>= f') := by
  cases h with
  | ok h => exact hf _ _ h
  | error => exact .error

/-- A loop over a list agrees with the loop over its image, if the rounds agree. -/
theorem Agree.foldlM {m : β' → γ'} {f : β → β' → Except ε β} {f' : γ → γ' → Except δ γ}
    {xs : List β'} (hf : ∀ b c, R b c → ∀ x ∈ xs, Agree R (f b x) (f' c (m x))) {b : β} {c : γ}
    (h : R b c) : Agree R (xs.foldlM f b) ((xs.map m).foldlM f' c) := by
  induction xs generalizing b c with
  | nil => exact .ok h
  | cons x xs ih =>
    rw [List.foldlM_cons, List.map_cons, List.foldlM_cons]
    exact (hf b c h x (List.mem_cons_self ..)).bind fun b c h =>
      ih (fun b c h y hy => hf b c h y (List.mem_cons_of_mem x hy)) h

theorem Agree.mapM {m : β → γ} {n : β' → γ'} {f : β → Except ε β'} {f' : γ → Except δ γ'}
    {xs : List β} (hf : ∀ x ∈ xs, Agree (fun b c => c = n b) (f x) (f' (m x))) :
    Agree (fun bs cs => cs = bs.map n) (xs.mapM f) ((xs.map m).mapM f') := by
  induction xs with
  | nil => exact .ok rfl
  | cons x xs ih =>
    rw [List.mapM_cons, List.map_cons, List.mapM_cons]
    refine (hf x (List.mem_cons_self ..)).bind ?_
    rintro b _ rfl
    refine (ih fun y hy => hf y (List.mem_cons_of_mem x hy)).bind ?_
    rintro bs _ rfl
    exact .ok rfl

/-- Two loops that only check agree if they check the same, in any order. -/
theorem Agree.forM {m : β → γ} {f : β → Except ε Unit} {f' : γ → Except δ Unit} {xs : List β}
    {ys : List γ} (hmem : ∀ c, c ∈ ys ↔ ∃ b ∈ xs, m b = c)
    (hf : ∀ b ∈ xs, Agree (fun _ _ => True) (f b) (f' (m b))) :
    Agree (fun _ _ => True) (xs.forM f) (ys.forM f') := by
  cases hx : xs.forM f with
  | ok =>
    have hy : ys.forM f' = .ok () := by
      refine forM_ok_iff.2 fun c hc => ?_
      obtain ⟨b, hb, rfl⟩ := (hmem c).1 hc
      obtain ⟨_, h, -⟩ := (hf b hb).of_ok (forM_ok_iff.1 hx b hb)
      exact h
    rw [hy]
    exact .ok trivial
  | error e =>
    cases hy : ys.forM f' with
    | error d => exact .error
    | ok =>
      obtain ⟨b, hb, h⟩ := exists_of_forM_error hx
      obtain ⟨_, h', -⟩ := (hf b hb).ok_of (forM_ok_iff.1 hy (m b) ((hmem _).2 ⟨b, hb, rfl⟩))
      rw [h] at h'
      cases h'

end

/-! ## Gaps -/

/-- Places that one arena has and another one lacks: `vars` variables from `firstVar` on and `ops`
operators from `firstOp` on. -/
structure Gap where
  firstVar : Nat
  vars : Nat
  firstOp : Nat
  ops : Nat

namespace Gap

variable {α : Type} (e : Gap)

/-- Where a variable of the smaller arena lies in the larger one. -/
def var (v : VarId) : VarId := if v.index < e.firstVar then v else ⟨v.index + e.vars⟩

/-- Where an operator of the smaller arena lies in the larger one. -/
def op (o : OpId) : OpId := if o.index < e.firstOp then o else ⟨o.index + e.ops⟩

def slot : Slot α → Slot α
  | .live t p => .live t (p.map e.op)
  | .replaced v => .replaced (e.var v)

def node (n : Node α) : Node α := { n with inputs := n.inputs.map e.var, output := e.var n.output }

/-- A variable of the larger arena that the smaller one lacks. -/
def HasVar (v : VarId) : Prop := e.firstVar ≤ v.index ∧ v.index < e.firstVar + e.vars

/-- An operator of the larger arena that the smaller one lacks. -/
def HasOp (o : OpId) : Prop := e.firstOp ≤ o.index ∧ o.index < e.firstOp + e.ops

variable {e} {v w : VarId} {o p : OpId}

theorem index_var (e : Gap) (v : VarId) : (e.var v).index = v.index ∧ v.index < e.firstVar ∨
    (e.var v).index = v.index + e.vars ∧ e.firstVar ≤ v.index := by
  unfold var
  split
  · next h => exact .inl ⟨rfl, h⟩
  · next h => exact .inr ⟨rfl, Nat.le_of_not_lt h⟩

theorem index_op (e : Gap) (o : OpId) : (e.op o).index = o.index ∧ o.index < e.firstOp ∨
    (e.op o).index = o.index + e.ops ∧ e.firstOp ≤ o.index := by
  unfold op
  split
  · next h => exact .inl ⟨rfl, h⟩
  · next h => exact .inr ⟨rfl, Nat.le_of_not_lt h⟩

theorem var_injective : Function.Injective e.var := by
  intro v w h
  have h := congrArg VarId.index h
  have hv := e.index_var v
  have hw := e.index_var w
  exact VarId.eq_of_index (by omega)

theorem op_injective : Function.Injective e.op := by
  intro o p h
  have h := congrArg OpId.index h
  have ho := e.index_op o
  have hp := e.index_op p
  exact OpId.eq_of_index (by omega)

@[simp] theorem var_inj : e.var v = e.var w ↔ v = w := var_injective.eq_iff

@[simp] theorem op_inj : e.op o = e.op p ↔ o = p := op_injective.eq_iff

@[simp] theorem var_mem_map {vs : List VarId} : e.var v ∈ vs.map e.var ↔ v ∈ vs :=
  List.mem_map_of_injective var_injective

@[simp] theorem op_mem_map {os : List OpId} : e.op o ∈ os.map e.op ↔ o ∈ os :=
  List.mem_map_of_injective op_injective

theorem not_hasVar (e : Gap) (v : VarId) : ¬e.HasVar (e.var v) := by
  have hv := e.index_var v
  rintro ⟨h, h'⟩
  omega

theorem not_hasOp (e : Gap) (o : OpId) : ¬e.HasOp (e.op o) := by
  have ho := e.index_op o
  rintro ⟨h, h'⟩
  omega

theorem HasVar.ne (h : e.HasVar v) (w : VarId) : v ≠ e.var w := by
  rintro rfl
  exact e.not_hasVar w h

theorem HasOp.ne (h : e.HasOp o) (p : OpId) : o ≠ e.op p := by
  rintro rfl
  exact e.not_hasOp p h

/-- Every handle of the larger arena is in the gap or belongs to the smaller arena. -/
theorem hasVar_or (e : Gap) (v : VarId) : e.HasVar v ∨ ∃ w, v = e.var w := by
  rcases Nat.lt_or_ge v.index e.firstVar with h | h
  · exact .inr ⟨v, (if_pos h).symm⟩
  rcases Nat.lt_or_ge v.index (e.firstVar + e.vars) with h' | h'
  · exact .inl ⟨h, h'⟩
  · refine .inr ⟨⟨v.index - e.vars⟩, VarId.eq_of_index ?_⟩
    have := e.index_var ⟨v.index - e.vars⟩
    simp only at this
    omega

theorem hasOp_or (e : Gap) (o : OpId) : e.HasOp o ∨ ∃ p, o = e.op p := by
  rcases Nat.lt_or_ge o.index e.firstOp with h | h
  · exact .inr ⟨o, (if_pos h).symm⟩
  rcases Nat.lt_or_ge o.index (e.firstOp + e.ops) with h' | h'
  · exact .inl ⟨h, h'⟩
  · refine .inr ⟨⟨o.index - e.ops⟩, OpId.eq_of_index ?_⟩
    have := e.index_op ⟨o.index - e.ops⟩
    simp only at this
    omega

end Gap

/-! ## Graphs around a gap -/

namespace Graph

variable {α : Type}

/-- The second graph is the first one around a gap. -/
structure Embeds (e : Gap) (g h : Graph α) : Prop where
  wellformed : g.Wellformed
  wellformed' : h.Wellformed
  firstVar : e.firstVar ≤ g.slots.size
  firstOp : e.firstOp ≤ g.nodes.size
  vars : h.slots.size = g.slots.size + e.vars
  ops : h.nodes.size = g.nodes.size + e.ops
  slot : ∀ v, h.slot? (e.var v) = (g.slot? v).map e.slot
  node : ∀ o, h.node? (e.op o) = (g.node? o).map e.node
  declaredInputs : h.declaredInputs = g.declaredInputs.map e.var
  declaredOutputs : h.declaredOutputs = g.declaredOutputs.map e.var

namespace Embeds

variable {e : Gap} {g h : Graph α}

theorem follow (k : Embeds e g h) {n : Nat} {v w : VarId} (hw : g.follow n v = some w) :
    h.follow n (e.var v) = some (e.var w) := by
  induction n generalizing v with
  | zero => cases hw
  | succ n ih =>
    rw [follow_succ] at hw ⊢
    rw [k.slot]
    cases hv : g.slot? v with
    | none =>
      rw [hv] at hw
      cases hw
    | some x =>
      rw [hv] at hw
      cases x with
      | live t p =>
        cases hw
        rfl
      | replaced u => exact ih hw

theorem resolve (k : Embeds e g h) (v : VarId) :
    Agree (fun w w' => w' = e.var w) (g.resolve v) (h.resolve (e.var v)) := by
  cases hv : g.resolve v with
  | ok w =>
    rw [(resolve_ok_iff k.wellformed').2 ⟨_, k.follow (resolve_ok_follow hv)⟩]
    exact .ok rfl
  | error d =>
    cases hv' : h.resolve (e.var v) with
    | error d' => exact .error
    | ok w =>
      -- A handle of the arena stands for something.
      obtain ⟨x, hx⟩ := slot?_of_lt (lt_of_resolve hv')
      rw [k.slot, Option.map_eq_some_iff] at hx
      obtain ⟨y, hy, -⟩ := hx
      obtain ⟨u, hu⟩ := resolve_ok_of_lt k.wellformed (slot?_lt hy)
      rw [hv] at hu
      cases hu

theorem resolveEach (k : Embeds e g h) (vs : List VarId) :
    Agree (fun ws ws' => ws' = ws.map e.var) (g.resolveEach vs)
      (h.resolveEach (vs.map e.var)) :=
  .mapM fun v _ => k.resolve v

theorem resolveAll (k : Embeds e g h) (vs : List VarId) :
    h.resolveAll (vs.map e.var) = (g.resolveAll vs).map e.var := by
  unfold Graph.resolveAll
  induction vs with
  | nil => rfl
  | cons v vs ih =>
    rw [List.map_cons, List.filterMap_cons, List.filterMap_cons, ih, (k.resolve v).toOption]
    cases (g.resolve v).toOption <;> rfl

theorem inputs (k : Embeds e g h) : h.inputs = g.inputs.map e.var := by
  unfold Graph.inputs
  rw [k.declaredInputs, k.resolveAll]

theorem outputs (k : Embeds e g h) : h.outputs = g.outputs.map e.var := by
  unfold Graph.outputs
  rw [k.declaredOutputs, k.resolveAll]

theorem tensor (k : Embeds e g h) (v : VarId) :
    Agree (fun t t' => t' = t) (g.tensor v) (h.tensor (e.var v)) := by
  have hslot : h.slots[(e.var v).index]? = (g.slots[v.index]?).map e.slot := k.slot v
  unfold Graph.tensor
  rw [hslot]
  cases g.slots[v.index]? with
  | none => exact .error
  | some x =>
    cases x with
    | live t p => exact .ok rfl
    | replaced w => exact .error

theorem tensors (k : Embeds e g h) (vs : List VarId) :
    Agree (fun ts ts' => ts' = ts) (g.tensors vs) (h.tensors (vs.map e.var)) :=
  (Agree.mapM (n := id) fun v _ => k.tensor v).mono fun ts _ e => e.trans (List.map_id ts)

theorem operator (k : Embeds e g h) (o : OpId) :
    Agree (fun n n' => n' = e.node n) (g.operator o) (h.operator (e.op o)) := by
  cases hn : g.node? o with
  | some n =>
    rw [operator_ok_iff.2 hn, operator_ok_iff.2 (by rw [k.node, hn]; rfl)]
    exact .ok rfl
  | none =>
    have hn' : h.node? (e.op o) = none := by rw [k.node, hn]; rfl
    cases hg : g.operator o with
    | ok n =>
      rw [operator_ok_iff.1 hg] at hn
      cases hn
    | error d =>
      cases hh : h.operator (e.op o) with
      | ok n =>
        rw [operator_ok_iff.1 hh] at hn'
        cases hn'
      | error d' => exact .error

theorem inputsOf (k : Embeds e g h) (o : OpId) :
    Agree (fun ins ins' => ins' = ins.map e.var) (g.inputsOf o) (h.inputsOf (e.op o)) := by
  refine (k.operator o).bind ?_
  rintro n _ rfl
  exact k.resolveEach n.inputs

theorem producer (k : Embeds e g h) (v : VarId) :
    h.producer (e.var v) = (g.producer v).map e.op := by
  unfold Graph.producer
  rw [(k.resolve v).toOption]
  cases (g.resolve v).toOption with
  | none => rfl
  | some w =>
    have hslot : h.slots[(e.var w).index]? = (g.slots[w.index]?).map e.slot := k.slot w
    simp only [Option.map_some, bind, Option.bind_some, hslot]
    cases g.slots[w.index]? with
    | none => rfl
    | some x => cases x <;> rfl

end Embeds

/-! ## The traversal -/

theorem visitRead_congr {g : Graph α} {inputs : List VarId} {fuel fuel' : Nat}
    {path done : List OpId} {v : VarId} (h : ∀ child, g.producer v = some child → child ∉ path →
      g.visit inputs fuel path done child = g.visit inputs fuel' path done child) :
    g.visitRead inputs fuel path done v = g.visitRead inputs fuel' path done v := by
  unfold visitRead
  cases hc : g.producer v with
  | none => rfl
  | some child =>
    dsimp only
    split
    · rfl
    · split
      · rfl
      · next hfresh => rw [h child hc hfresh]

/-- More fuel than there are operators left to meet changes nothing. -/
theorem visit_fuel {g : Graph α} (hg : g.Wellformed) {inputs : List VarId} {fuel : Nat}
    {path done : List OpId} {op : OpId} (hn : (op :: path).Nodup)
    (hlive : ∀ o ∈ op :: path, ∃ node, g.node? o = some node)
    (hfuel : g.nodes.size + 1 ≤ fuel + path.length) (more : Nat) :
    g.visit inputs (fuel + more) path done op = g.visit inputs fuel path done op := by
  induction fuel generalizing path done op with
  | zero =>
    have hlen := length_le_of_live hn hlive
    rw [List.length_cons] at hlen
    omega
  | succ fuel ih =>
    rw [Nat.add_right_comm, visit_succ, visit_succ]
    refine bind_congr fun reads => ?_
    congr 1
    refine congrArg (fun f => reads.foldlM f done) (funext fun now => funext fun v => ?_)
    exact visitRead_congr fun child hc hfresh => ih (List.nodup_cons.2 ⟨hfresh, hn⟩)
      (List.forall_mem_cons.2 ⟨live_of_producer hg hc, hlive⟩) (by rw [List.length_cons]; omega)

namespace Embeds

variable {e : Gap} {g h : Graph α}

theorem visit (k : Embeds e g h) (inputs : List VarId) {fuel : Nat} {path done : List OpId}
    (o : OpId) : Agree (fun ops ops' => ops' = ops.map e.op) (g.visit inputs fuel path done o)
      (h.visit (inputs.map e.var) fuel (path.map e.op) (done.map e.op) (e.op o)) := by
  induction fuel generalizing path done o with
  | zero => exact .error
  | succ fuel ih =>
    rw [visit_succ, visit_succ]
    refine (k.inputsOf o).bind ?_
    rintro reads _ rfl
    refine Agree.bind (R := fun ops ops' => ops' = ops.map e.op) ?_ ?_
    · refine Agree.foldlM ?_ rfl
      rintro now _ rfl v -
      unfold visitRead
      simp only [Gap.var_mem_map, k.producer]
      split
      · exact .ok rfl
      · cases g.producer v with
        | none => exact .ok rfl
        | some child =>
          simp only [Option.map_some, ← List.map_cons, Gap.op_mem_map]
          split
          · exact .error
          · split
            · exact .ok rfl
            · exact ih child
    · rintro ops _ rfl
      exact .ok (by simp)

theorem rootOps (k : Embeds e g h) : h.rootOps = g.rootOps.map e.op := by
  have hfilter : h.outputs.filter (· ∉ h.inputs) = (g.outputs.filter (· ∉ g.inputs)).map e.var := by
    rw [k.outputs, k.inputs, List.filter_map]
    refine congrArg (List.map e.var) (List.filter_congr fun v _ => ?_)
    simp only [Function.comp_apply, Gap.var_mem_map]
  unfold Graph.rootOps
  simp only [hfilter, List.filterMap_map]
  rw [List.map_filterMap]
  exact List.filterMap_congr fun v _ => k.producer v

/-- The same operators are visited, in the same order. -/
theorem topologicalOrder (k : Embeds e g h) :
    Agree (fun ops ops' => ops' = ops.map e.op) g.topologicalOrder h.topologicalOrder := by
  unfold Graph.topologicalOrder
  simp only [k.rootOps, k.inputs]
  refine Agree.foldlM ?_ rfl
  rintro done _ rfl o ho
  simp only [Gap.op_mem_map]
  split
  · exact .ok rfl
  · obtain ⟨v, -, -, hp⟩ := mem_rootOps.1 ho
    have hfuel : g.visit g.inputs (g.nodes.size + 1 + e.ops) [] done o =
        g.visit g.inputs (g.nodes.size + 1) [] done o :=
      visit_fuel k.wellformed (List.nodup_singleton o)
        (List.forall_mem_singleton.2 (live_of_producer k.wellformed hp)) (Nat.le_refl _) e.ops
    rw [← hfuel, k.ops, Nat.add_right_comm]
    exact k.visit g.inputs o

/-- The same variables are reachable. -/
theorem reachable (k : Embeds e g h) :
    Agree (fun vs vs' => ∀ v, v ∈ vs' ↔ ∃ w ∈ vs, e.var w = v) g.reachable h.reachable := by
  unfold Graph.reachable
  refine k.topologicalOrder.bind ?_
  rintro ops _ rfl
  refine (Agree.mapM (n := List.map e.var) fun o _ => ?_).bind ?_
  · refine (k.inputsOf o).bind ?_
    rintro ins _ rfl
    refine (k.operator o).bind ?_
    rintro n _ rfl
    exact .ok (by simp [Gap.node])
  · rintro touched _ rfl
    refine .ok fun v => ?_
    rw [k.inputs, k.outputs, ← List.map_flatten, ← List.map_append, ← List.map_append,
      List.mem_eraseDups, List.mem_map]
    simp only [List.mem_eraseDups]

/-- The one graph is valid if the other one is. -/
theorem validate (k : Embeds e g h) : Agree (fun _ _ => True) g.validate h.validate := by
  unfold Graph.validate
  refine k.reachable.bind fun vs vs' hvs => ?_
  refine .forM hvs fun v _ => (k.tensor v).bind ?_
  rintro t _ rfl
  split
  · exact .error
  · exact .ok trivial

end Embeds

end Graph

end TensorCompiler
