import Mathlib
import TensorCompiler.Proofs.EmbeddedRounds
import TensorCompiler.Proofs.Initialization
/-!
# Additions that nothing depends on

A client that only adds variables and operators makes no output depend on them. Visiting, folding,
rewriting and validation follow the outputs, so the additions lie in a gap that none of them enters.
Axis unification alone walks the whole arena. It fails if it merges two axes of an added variable,
and it takes a round of its own to rename what was added.

* `Enlarged`: a graph after calls that add variables and operators.
* `Enlarged.embeds`: the graph from before lies around the additions.
* `Enlarged.parameters`: the axes that an added operator names are those of live variables.
* `Spares`: axis unification does no harm to the additions.
* `compile_fails_with_additions`: what does not compile does not compile with additions, and the
  other way round if they are spared.
* `compile_depends_on_additions`: where they are not, a graph compiles and its enlargement does not.
-/

namespace TensorCompiler

namespace Graph

variable {α : Type} {g h : Graph α}

/-- A graph after calls that add variables and operators, with whatever dimensions were made in
between. -/
inductive Enlarged (g : Graph α) : Graph α → Prop
  | start : Enlarged g g
  | addVariable {h : Graph α} (t : Tensor α) : Enlarged g h → Enlarged g (h.addVariable t).1
  | addOp {h h' : Graph α} {op : Operator α} {ins : List VarId} {v : VarId} {s s' : Supply} :
      Enlarged g h → Gives (h.addOp op ins) s (h', v) s' → Enlarged g h'

/-! ## The gap -/

/-- What the second graph has behind the places of the first one. -/
def gap (g h : Graph α) : Gap :=
  ⟨g.slots.size, h.slots.size - g.slots.size, g.nodes.size, h.nodes.size - g.nodes.size⟩

/-- The second graph has the arena of the first one in front of its own. -/
structure Front (g h : Graph α) : Prop where
  vars : g.slots.size ≤ h.slots.size
  ops : g.nodes.size ≤ h.nodes.size
  slot : ∀ v, v.index < g.slots.size → h.slot? v = g.slot? v
  node : ∀ o, o.index < g.nodes.size → h.node? o = g.node? o
  declaredInputs : h.declaredInputs = g.declaredInputs
  declaredOutputs : h.declaredOutputs = g.declaredOutputs

theorem Enlarged.front (k : Enlarged g h) : Front g h := by
  induction k with
  | start => exact ⟨Nat.le_refl _, Nat.le_refl _, fun _ _ => rfl, fun _ _ => rfl, rfl, rfl⟩
  | @addVariable h t k ih =>
    have hvars := ih.vars
    refine ⟨?_, ih.ops, fun v hv => ?_, ih.node, ih.declaredInputs, ih.declaredOutputs⟩
    · simp only [Graph.addVariable, push, Array.size_push]
      omega
    · rw [slot?_push (h := (h.addVariable t).1) rfl, if_neg (by omega), ih.slot v hv]
  | @addOp h _ op _ _ _ _ k hop ih =>
    obtain ⟨ws, ts, t, -, -, -, rfl, -⟩ := addOp_gives_iff.1 hop
    have hvars := ih.vars
    have hops := ih.ops
    refine ⟨?_, ?_, fun v hv => ?_, fun o ho => ?_, ih.declaredInputs, ih.declaredOutputs⟩
    · simp only [Graph.placeOp, Array.size_push]
      omega
    · simp only [Graph.placeOp, Array.size_push]
      omega
    · rw [slot?_push (h := h.placeOp op ws t) rfl, if_neg (by omega), ih.slot v hv]
    · rw [node?_placeOp, if_neg (by omega), ih.node o ho]

theorem Enlarged.wellformed (k : Enlarged g h) (hg : g.Wellformed) : h.Wellformed := by
  induction k with
  | start => exact hg
  | addVariable t k ih => exact wellformed_addVariable ih t
  | addOp k hop ih =>
    obtain ⟨ws, ts, t, hws, -, ht, rfl, -⟩ := addOp_gives_iff.1 hop
    obtain ⟨type, -, rfl⟩ := inferTensor_gives_iff.1 ht
    exact wellformed_placeOp ih _ (fun w hw => lt_of_resolveEach hws w hw) rfl

/-- What a replaced place leads to lies in the arena. -/
theorem Wellformed.lt_of_replaced (hg : g.Wellformed) {v w : VarId}
    (hv : g.slot? v = some (.replaced w)) : w.index < g.slots.size := by
  obtain ⟨u, hu⟩ := hg.leads v (slot?_lt hv)
  rw [follow_succ, hv] at hu
  replace hu : g.follow g.links w = some u := hu
  cases hn : g.links with
  | zero =>
    rw [hn] at hu
    cases hu
  | succ n =>
    rw [hn, follow_succ] at hu
    cases hw : g.slot? w with
    | none =>
      rw [hw] at hu
      cases hu
    | some x => exact slot?_lt hw

/-- The graph from before lies around the additions. -/
theorem Enlarged.embeds (k : Enlarged g h) (hg : g.Wellformed) : Embeds (gap g h) g h := by
  obtain ⟨hvars, hops, hslot, hnode, hins, houts⟩ := k.front
  have hvar : ∀ v : VarId, v.index < g.slots.size → (gap g h).var v = v := fun v hv => if_pos hv
  have hop : ∀ o : OpId, o.index < g.nodes.size → (gap g h).op o = o := fun o ho => if_pos ho
  have hmap : ∀ vs : List VarId, (∀ v ∈ vs, v.index < g.slots.size) → vs.map (gap g h).var = vs :=
    fun vs hvs => (List.map_congr_left fun v hv => hvar v (hvs v hv)).trans (List.map_id vs)
  refine ⟨hg, k.wellformed hg, Nat.le_refl _, Nat.le_refl _, ?_, ?_, fun v => ?_, fun o => ?_,
    by rw [hins, hmap _ hg.declaredInputs], by rw [houts, hmap _ hg.declaredOutputs]⟩
  · simp only [gap]
    omega
  · simp only [gap]
    omega
  · rcases Nat.lt_or_ge v.index g.slots.size with hlt | hge
    · rw [hvar v hlt, hslot v hlt]
      rcases hv : g.slot? v with _ | ⟨t, _ | o⟩ | w
      · rfl
      · rfl
      · obtain ⟨-, n, hn, -⟩ := hg.produced v t o hv
        rw [Option.map_some, Gap.slot, Option.map_some, hop o (node?_lt hn)]
      · rw [Option.map_some, Gap.slot, hvar w (hg.lt_of_replaced hv)]
    · have hindex := (gap g h).index_var v
      simp only [gap] at hindex
      rw [slot?, slot?, Array.getElem?_eq_none (by simp only [gap]; omega),
        Array.getElem?_eq_none hge]
      rfl
  · rcases Nat.lt_or_ge o.index g.nodes.size with hlt | hge
    · rw [hop o hlt, hnode o hlt]
      cases hn : g.node? o with
      | none => rfl
      | some n =>
        rw [Option.map_some, Gap.node, hmap n.inputs (hg.inputs o n hn),
          hvar n.output (hg.output o n hn).1]
    · have hindex := (gap g h).index_op o
      simp only [gap] at hindex
      rw [node?, node?, Array.getElem?_eq_none (by simp only [gap]; omega),
        Array.getElem?_eq_none hge]
      rfl

/-! ## Axes of the additions -/

/-- A tensor of this order lies in the arena from a place on. -/
def HasOrder (h : Graph α) (first : Nat) (o : Order) : Prop :=
  ∃ v t p, first ≤ v.index ∧ h.slot? v = some (.live t p) ∧ t.type.order = o

/-- The axes among the parameters of an operator are those of tensors: those that it introduces
belong to a tensor from a place on. -/
structure NamesOrders (h : Graph α) (first : Nat) (op : Operator α) : Prop where
  reinterpret : ∀ source target, op = .reinterpret source target →
    h.HasOrder 0 source ∧ h.HasOrder first target
  resize : ∀ a m b n, op = .resize a m b n → ∃ o, h.HasOrder first o ∧ a ∈ o.axes ∧ b ∈ o.axes

theorem HasOrder.front {h' : Graph α} {first : Nat} {o : Order} (k : h.HasOrder first o)
    (hfront : Front h h') : h'.HasOrder first o := by
  obtain ⟨v, t, p, hv, hs, ho⟩ := k
  exact ⟨v, t, p, hv, (hfront.slot v (slot?_lt hs)).trans hs, ho⟩

theorem NamesOrders.front {h' : Graph α} {first : Nat} {op : Operator α}
    (k : h.NamesOrders first op) (hfront : Front h h') : h'.NamesOrders first op where
  reinterpret source target hop :=
    let ⟨hs, ht⟩ := k.reinterpret source target hop
    ⟨hs.front hfront, ht.front hfront⟩
  resize a m b n hop :=
    let ⟨o, ho, ha, hb⟩ := k.resize a m b n hop
    ⟨o, ho.front hfront, ha, hb⟩

/-- Inference makes sure of the axes that an operator names. -/
theorem namesOrders_of_infer {op : Operator α} {ws : List VarId} {ts : List (Tensor α)}
    {type : TensorType} {s s' : Supply} {first : Nat} (hfirst : first ≤ h.slots.size)
    (hts : h.tensors ws = .ok ts) (hinfer : Gives (op.infer (ts.map (·.type))) s type s') :
    (h.placeOp op ws { type, marks := (op.tensorwiseAxes type).map .tensorwise }).NamesOrders
      first op := by
  have hnew : ∀ o, type.order = o → (h.placeOp op ws
      { type, marks := (op.tensorwiseAxes type).map .tensorwise }).HasOrder first o := fun o ho =>
    ⟨⟨h.slots.size⟩, _, _, hfirst, slot?_push_new rfl, ho⟩
  constructor
  · rintro source target rfl
    obtain ⟨x, htypes, -, rfl, hmake⟩ := infer_reinterpret hinfer
    refine ⟨?_, hnew _ (make_gives_iff.1 hmake).2.1⟩
    obtain ⟨t, ht, rfl⟩ : ∃ t ∈ ts, t.type = x := by
      rw [← List.mem_map, htypes]
      exact List.mem_singleton_self x
    obtain ⟨w, -, hw⟩ := exists_of_forall₂_right (tensors_ok_iff.1 hts) ht
    obtain ⟨p, hs⟩ := tensor_ok_iff.1 hw
    exact ⟨w, t, p, Nat.zero_le _, slot?_push_old rfl hs, rfl⟩
  · rintro a m b n rfl
    obtain ⟨x, i, j, -, -, -, hi, hj, hmake⟩ := infer_resize hinfer
    refine ⟨x.order, hnew _ (make_gives_iff.1 hmake).2.1, ?_, ?_⟩
    · exact List.isSome_idxOf?.1 (by rw [show x.order.axes.idxOf? a = some i from hi]; rfl)
    · exact List.isSome_idxOf?.1 (by rw [show x.order.axes.idxOf? b = some j from hj]; rfl)

/-- The axes that an added operator names are those of live variables. -/
theorem Enlarged.parameters (k : Enlarged g h) {o : OpId} {n : Node α}
    (ho : g.nodes.size ≤ o.index) (hn : h.node? o = some n) :
    h.NamesOrders g.slots.size n.op := by
  induction k generalizing o n with
  | start => exact absurd (node?_lt hn) (Nat.not_lt.2 ho)
  | @addVariable h t k ih =>
    exact (ih ho hn).front (Enlarged.start.addVariable t).front
  | @addOp h _ op _ _ _ _ k hop ih =>
    have hfront := (Enlarged.start.addOp hop).front
    obtain ⟨ws, ts, t, -, hts, ht, rfl, -⟩ := addOp_gives_iff.1 hop
    obtain ⟨type, hinfer, rfl⟩ := inferTensor_gives_iff.1 ht
    rw [node?_placeOp] at hn
    split at hn
    · cases hn
      exact namesOrders_of_infer k.front.vars hts hinfer
    · exact (ih ho hn).front hfront

/-! ## Renaming the additions -/

section

variable [Scalar α] {config : Config}

/-- Axis unification does no harm to what the second graph has in addition. No two axes of an added
variable are merged, and there is a second round or these axes stand for themselves. The added
operators equal themselves, which a scalar parameter need not. -/
structure Spares (config : Config) (g h : Graph α) : Prop where
  apart : ∀ classes, g.unifiedClasses config = .ok classes → ∀ o, h.HasOrder g.slots.size o →
    (o.axes.map classes).Nodup
  rounds : 2 ≤ config.maxIterations ∨ ∀ classes, g.unifiedClasses config = .ok classes →
    ∀ o, h.HasOrder g.slots.size o → ∀ a ∈ o.axes, classes a = a
  selfEqual : SelfEqualIn (gap g h) h

omit [Scalar α] in
theorem Enlarged.hasVar (k : Enlarged g h) {v : VarId} {x : Slot α} (hv : h.slot? v = some x) :
    (gap g h).HasVar v ↔ g.slots.size ≤ v.index := by
  have hlt := slot?_lt hv
  have hvars := k.front.vars
  simp only [Gap.HasVar, gap]
  omega

omit [Scalar α] in
theorem Enlarged.hasOp (k : Enlarged g h) {o : OpId} {n : Node α} (hn : h.node? o = some n) :
    (gap g h).HasOp o ↔ g.nodes.size ≤ o.index := by
  have hlt := node?_lt hn
  have hops := k.front.ops
  simp only [Gap.HasOp, gap]
  omega

omit [Scalar α] in
/-- A variable can be renamed if no two of its axes become one, and changes with its axes. -/
theorem renameAxes_live_iff {t : Tensor α} {p : Option OpId} {f : Axis → Axis} {c : Bool} :
    (∃ y, (Slot.live t p).renameAxes f = .ok (y, c)) ↔ (t.type.order.axes.map f).Nodup ∧
      (c = true ↔ t.type.order.axes.map f ≠ t.type.order.axes) := by
  cases htype : t.type.rename? f with
  | none =>
    have hnone : t.type.order.map? f = none := by
      unfold TensorType.rename? at htype
      split at htype
      · cases htype
      · assumption
    have hdup := Order.ofList?_eq_none_iff.1 hnone
    simp only [Slot.renameAxes, htype]
    constructor
    · rintro ⟨y, hy⟩
      cases hy
    · exact fun h => absurd h.1 hdup
  | some type =>
    have haxes := (TensorType.rename?_eq_some htype).2
    have hsame : type.order ≠ t.type.order ↔ t.type.order.axes.map f ≠ t.type.order.axes := by
      rw [← haxes]
      exact not_congr ⟨congrArg Order.axes, Operator.order_ext⟩
    rw [← hsame, ← haxes]
    simp only [Slot.renameAxes, htype, Except.ok.injEq, Prod.mk.injEq]
    constructor
    · rintro ⟨y, -, rfl⟩
      exact ⟨type.order.nodup, decide_eq_true_iff⟩
    · rintro ⟨-, hc⟩
      exact ⟨_, rfl, by rw [Bool.eq_iff_iff, decide_eq_true_iff, hc]⟩

/-- Every order in the larger graph can be renamed, and if one of them changes while those of the
additions stay, the smaller graph changes. -/
theorem Enlarged.order_of_unifies (k : Enlarged g h) {classes : AxisClasses}
    (hunifies : g.Unifies config classes)
    (hapart : ∀ o, h.HasOrder g.slots.size o → (o.axes.map classes).Nodup) {o : Order}
    (ho : h.HasOrder 0 o) : (o.axes.map classes).Nodup ∧
      ((∀ o, h.HasOrder g.slots.size o → o.axes.map classes = o.axes) →
        o.axes.map classes ≠ o.axes → g.ChangedBy classes) := by
  obtain ⟨v, t, p, -, hv, rfl⟩ := ho
  rcases Nat.lt_or_ge v.index g.slots.size with hlt | hge
  · rw [k.front.slot v hlt] at hv
    obtain ⟨b, hb⟩ := hunifies.2
    obtain ⟨y, c, hy⟩ := (renameAxes_ok_iff.1 hb).1.1 v _ hv
    obtain ⟨hnodup, hc⟩ := renameAxes_live_iff.1 ⟨y, hy⟩
    refine ⟨hnodup, fun _ hmoved => .inl ⟨v, _, y, hv, ?_⟩⟩
    rw [hy, hc.2 hmoved]
  · have horder : h.HasOrder g.slots.size t.type.order := ⟨v, t, p, hge, hv, rfl⟩
    exact ⟨hapart _ horder, fun hfixed hmoved => absurd (hfixed _ horder) hmoved⟩

/-- The additions can be renamed as axis unification renames the graph from before. -/
theorem Enlarged.admits (k : Enlarged g h) {classes : AxisClasses}
    (hunifies : g.Unifies config classes)
    (hapart : ∀ o, h.HasOrder g.slots.size o → (o.axes.map classes).Nodup) :
    Admits (gap g h) classes h where
  slot v x hgap hv := by
    cases x with
    | replaced w => exact ⟨_, _, rfl⟩
    | live t p =>
      obtain ⟨c, hc⟩ := exists_bool_iff (t.type.order.axes.map classes ≠ t.type.order.axes)
      obtain ⟨y, hy⟩ := renameAxes_live_iff.2
        ⟨hapart _ ⟨v, t, p, (k.hasVar hv).1 hgap, hv, rfl⟩, hc⟩
      exact ⟨y, c, hy⟩
  node o n hgap hn := by
    have hnames := k.parameters ((k.hasOp hn).1 hgap) hn
    obtain ⟨op, hop⟩ : ∃ op, n.op.mapAxes classes = .ok op := by
      cases hop : n.op with
      | reinterpret source target =>
        obtain ⟨hsource, htarget⟩ := hnames.reinterpret source target hop
        exact ⟨.reinterpret ⟨_, (k.order_of_unifies hunifies hapart hsource).1⟩
          ⟨_, hapart target htarget⟩, by
            simp only [Operator.mapAxes, bind_ok_iff, pure_ok_iff, Operator.order_map_ok_iff]
            exact ⟨_, rfl, _, rfl, rfl⟩⟩
      | _ => exact ⟨_, rfl⟩
    simp only [Node.renameAxes, hop, bind, Except.bind]
    split <;> exact ⟨_, _, rfl⟩

/-- If the axes of the additions stand for themselves, axis unification changes nothing in the
additions alone. -/
theorem Enlarged.changedBy (k : Enlarged g h) (hg : g.Wellformed) {classes : AxisClasses}
    (hunifies : g.Unifies config classes) (hself : SelfEqualIn (gap g h) h)
    (hfixed : ∀ o, h.HasOrder g.slots.size o → ∀ a ∈ o.axes, classes a = a)
    (hchanged : h.ChangedBy classes) : g.ChangedBy classes := by
  have hmap : ∀ o, h.HasOrder g.slots.size o → o.axes.map classes = o.axes := fun o ho =>
    (List.map_congr_left (hfixed o ho)).trans (List.map_id _)
  have hapart : ∀ o, h.HasOrder g.slots.size o → (o.axes.map classes).Nodup := fun o ho => by
    rw [hmap o ho]
    exact o.nodup
  rcases (k.embeds hg).of_changedBy hchanged with
    hchanged | ⟨v, x, y, hgap, hv, hy⟩ | ⟨o, n, m, hgap, hn, hm⟩
  · exact hchanged
  · cases x with
    | replaced w => cases hy
    | live t p =>
      have hmoved := (renameAxes_live_iff.1 ⟨y, hy⟩).2.1 rfl
      exact absurd (hmap _ ⟨v, t, p, (k.hasVar hv).1 hgap, hv, rfl⟩) hmoved
  · have hnames := k.parameters ((k.hasOp hn).1 hgap) hn
    obtain ⟨op, hop, hm⟩ := bind_ok_iff.1 hm
    have hne : n.op.mapAxes classes ≠ .ok n.op := by
      intro hsame
      obtain rfl := Except.ok.inj (hsame.symm.trans hop)
      rw [if_pos (hself o n hgap hn)] at hm
      cases hm
    cases hop : n.op with
    | reinterpret source target =>
      obtain ⟨hsource, htarget⟩ := hnames.reinterpret source target hop
      refine (k.order_of_unifies hunifies hapart hsource).2 hmap fun hfix => hne ?_
      rw [hop]
      simp only [Operator.mapAxes, bind_ok_iff, pure_ok_iff, Operator.order_map_ok_iff]
      exact ⟨source, hfix.symm, target, (hmap _ htarget).symm, rfl⟩
    | resize a m b n =>
      obtain ⟨order, horder, ha, hb⟩ := hnames.resize a m b n hop
      refine absurd ?_ hne
      rw [hop, Operator.mapAxes, hfixed order horder a ha, hfixed order horder b hb]
    | _ => exact absurd (by rw [hop]; rfl) hne

/-- What is prepared with additions is prepared without them. -/
theorem Embeds.reflects_prepare {e : Gap} {g' : Graph α} {r r' : Supply} (k : Embeds e g h)
    (hprepare : Gives (h.prepare config) r g' r') (s : Supply) :
    ∃ g₁ s', Gives (g.prepare config) s g₁ s' := by
  obtain ⟨⟨ops', hops'⟩, ⟨c, hedit⟩, hvalid⟩ := prepare_gives hprepare
  obtain ⟨ops, hops, -⟩ := k.topologicalOrder.ok_of hops'
  obtain ⟨b, g₁, s', hedit', k₁⟩ := k.reflects_simplify hedit s
  obtain ⟨_, hvalid', -⟩ := k₁.validate.ok_of hvalid
  exact ⟨g₁, s', gives_prepare hops hedit' hvalid'⟩

/-- What is prepared without additions is prepared with them, if they are spared. -/
theorem Enlarged.lifts_prepare (k : Enlarged g h) (hg : g.Wellformed) (hspares : Spares config g h)
    {g₁ : Graph α} {s s' : Supply} (hprepare : Gives (g.prepare config) s g₁ s') (r : Supply) :
    ∃ h₁ r', Gives (h.prepare config) r h₁ r' := by
  obtain ⟨⟨ops, hops⟩, ⟨b, hedit⟩, hvalid⟩ := prepare_gives hprepare
  have kembeds := k.embeds hg
  obtain ⟨ops', hops', -⟩ := kembeds.topologicalOrder.of_ok hops
  obtain ⟨c, h₁, r', hedit', k₁⟩ := kembeds.lifts_simplify hspares.selfEqual
    (fun classes hunifies => k.admits hunifies (hspares.apart classes hunifies.1))
    (hspares.rounds.imp_right fun hfixed classes hunifies =>
      k.changedBy hg hunifies hspares.selfEqual (hfixed classes hunifies.1)) hedit r
  obtain ⟨_, hvalid', -⟩ := k₁.validate.of_ok hvalid
  exact ⟨h₁, r', gives_prepare hops' hedit' hvalid'⟩

/-- Additions that nothing depends on make no graph compile that does not compile without them. Nor
do they keep a graph from compiling, if axis unification spares them. -/
theorem compile_fails_with_additions [ScalarText α] {s₀ : Supply} (hg : Reached s₀ g)
    (hadded : Enlarged g h) (backends : List BackendKind) (config : Config) (s r : Supply) :
    ((∃ e, Raises (g.compile backends config) s e) →
      ∃ e, Raises (h.compile backends config) r e) ∧
    (Spares config g h → (∃ e, Raises (h.compile backends config) r e) →
      ∃ e, Raises (g.compile backends config) s e) := by
  simp only [exists_raises_compile_iff]
  refine ⟨fun hfails hprepared => ?_, fun hspares hfails hprepared => ?_⟩
  · obtain ⟨g', r', hprepared⟩ := hprepared
    exact hfails ((hadded.embeds hg.wellformed).reflects_prepare hprepared s)
  · obtain ⟨g₁, s', hprepared⟩ := hprepared
    exact hfails (hadded.lifts_prepare hg.wellformed hspares hprepared r)

end

/-! ## One input beside which variables are added -/

/-- One input, which is the output. -/
def forwarded : Graph ℚ :=
  let type : TensorType := ⟨[.known 1], ⟨[.channel], List.nodup_singleton _⟩, channelType.rank_eq⟩
  { slots := #[.live { type, marks := [.input, .output] } none]
    declaredInputs := [⟨0⟩]
    declaredOutputs := [⟨0⟩] }

theorem reached_forwarded : Reached {} forwarded := by
  have made : (⟨⟨[.known 1], ⟨[.channel], List.nodup_singleton _⟩, rfl⟩, [], none⟩ :
      Tensor ℚ).MadeFrom [.known 1] {} {} :=
    ⟨fun _ hd => hd, rfl, (fun _ hx => by cases hx)⟩
  have input : Session false {} [.known 1] _ := .addInput (.word (.empty {}) (by decide)) made
  exact ⟨_, .markOutput (v := ⟨0⟩) input rfl⟩

/-- The input beside a variable of this order. -/
def besides (order : Order) : Graph ℚ :=
  (forwarded.addVariable
    { type := ⟨order.axes.map fun _ => .known 1, order, List.length_map _⟩ }).1

theorem nodup_open : [Axis.free 16].Nodup :=
  List.nodup_singleton _

/-- The input beside an open axis that an operator gives a name. -/
def besidesNaming : Graph ℚ :=
  let order : Order := ⟨[.height], List.nodup_singleton _⟩
  (besides ⟨[.free 16], nodup_open⟩).placeOp (.reinterpret ⟨[.free 16], nodup_open⟩ order) [⟨1⟩]
    { type := ⟨[.known 1], order, by decide⟩ }

theorem enlarged_besidesNaming : Enlarged forwarded besidesNaming := by
  have hop : Gives ((besides ⟨[.free 16], List.nodup_singleton _⟩).addOp
      (.reinterpret ⟨[.free 16], List.nodup_singleton _⟩ ⟨[.height], List.nodup_singleton _⟩) [⟨1⟩])
      {} (besidesNaming, ⟨2⟩) {} := by
    unfold Gives
    cbv
  exact .addOp (.addVariable _ .start) hop

theorem spares_besidesNaming :
    Spares { axisHints := [(.free 16, .batch)] } forwarded besidesNaming := by
  let classes : AxisClasses := fun a => if a = .free 16 then .batch else a
  have hfound : ∀ f, forwarded.unifiedClasses { axisHints := [(.free 16, .batch)] } = .ok f →
      f = classes := fun f hf => (Except.ok.inj hf).symm
  have horders : ∀ o, besidesNaming.HasOrder 1 o → o.axes = [.free 16] ∨ o.axes = [.height] := by
    rintro o ⟨⟨v⟩, t, p, hv, hs, rfl⟩
    match v, hv with
    | 1, _ =>
      cases hs
      exact .inl rfl
    | 2, _ =>
      cases hs
      exact .inr rfl
    | n + 3, _ => cases hs
  refine ⟨fun f hf o ho => ?_, .inl (by decide), fun o n ho hn => ?_⟩
  · rw [hfound f hf]
    rcases horders o ho with ho | ho <;> rw [ho] <;> exact List.nodup_singleton _
  · match o with
    | ⟨0⟩ =>
      cases hn
      decide
    | ⟨i + 1⟩ => cases hn

theorem compile_fails_besides_naming :
    Reached {} forwarded ∧ Enlarged forwarded besidesNaming ∧
    Spares { axisHints := [(.free 16, .batch)] } forwarded besidesNaming ∧
    ((∃ e, Raises (besidesNaming.compile [.webAssembly] { axisHints := [(.free 16, .batch)] }) {} e) ↔
      ∃ e, Raises (forwarded.compile [.webAssembly] { axisHints := [(.free 16, .batch)] }) {} e) := by
  obtain ⟨hto, hfrom⟩ := compile_fails_with_additions reached_forwarded enlarged_besidesNaming
    [.webAssembly] { axisHints := [(.free 16, .batch)] } {} {}
  exact ⟨reached_forwarded, enlarged_besidesNaming, spares_besidesNaming,
    hfrom spares_besidesNaming, hto⟩

/-- An added variable whose two axes are hinted to be the same, and one that is left for a second
round to look at: both keep a graph from compiling whose output is its input. -/
theorem compile_depends_on_additions :
    Reached {} forwarded ∧
    (Enlarged forwarded (besides ⟨[.free 16, .free 17], by decide⟩) ∧
      (¬∃ e, Raises (forwarded.compile [.webAssembly]
        { axisHints := [(.free 16, .free 17)] }) {} e) ∧
      Raises ((besides ⟨[.free 16, .free 17], by decide⟩).compile [.webAssembly]
        { axisHints := [(.free 16, .free 17)] }) {}
        (.pass (.graph (.duplicateAxis [.free 16, .free 16])))) ∧
    Enlarged forwarded (besides ⟨[.free 17], List.nodup_singleton _⟩) ∧
      (¬∃ e, Raises (forwarded.compile [.webAssembly]
        { axisHints := [(.free 16, .free 17)], maxIterations := 1 }) {} e) ∧
      Raises ((besides ⟨[.free 17], List.nodup_singleton _⟩).compile [.webAssembly]
        { axisHints := [(.free 16, .free 17)], maxIterations := 1 }) {}
        (.pass (.fixedPointNotReached "simplify" 1)) := by
  refine ⟨reached_forwarded, ⟨.addVariable _ .start, ?_, ?_⟩, .addVariable _ .start, ?_, ?_⟩
  · exact fun h => exists_raises_compile_iff.1 h ⟨_, _, rfl⟩
  · refine raises_bind_iff.2 (.inl ?_)
    unfold Raises
    cbv
  · exact fun h => exists_raises_compile_iff.1 h ⟨_, _, rfl⟩
  · refine raises_bind_iff.2 (.inl ?_)
    unfold Raises
    cbv

end Graph

end TensorCompiler
