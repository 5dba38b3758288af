import TensorCompiler.Proofs.FixedPoint
import TensorCompiler.Proofs.Relocation
/-!
# Edits of a graph inside a larger arena

Editing a graph and editing the same graph around a gap go the same way, step by step: both fail, or
both succeed and the results are one graph around the same gap again. The places in the gap are left
alone. So the passes that visit what the outputs depend on make the same changes in both graphs.

* `SameGap`: the places in the gap are the same.
* `Mirrors`: a computation and its image on the larger graph go the same way.
* `mirrors_addVariable`, `mirrors_addOp`, `mirrors_removeOperator`, `mirrors_replaceVariable`: the
  edits of a pass.
* `mirrors_dropReinterpret`, `mirrors_foldConstant`, `mirrors_expandSelect`: the visits.
* `Mirrors.sweep`: a sweep over the larger graph visits the images of the same operators.
-/

namespace TensorCompiler

namespace Graph

variable {α : Type}

/-! ## Edits -/

/-- The places in the gap are the same. -/
structure SameGap (e : Gap) (g h : Graph α) : Prop where
  slot : ∀ v, e.HasVar v → h.slot? v = g.slot? v
  node : ∀ o, e.HasOp o → h.node? o = g.node? o

section

variable {e : Gap} {g h i : Graph α}

theorem SameGap.refl (e : Gap) (g : Graph α) : SameGap e g g := ⟨fun _ _ => rfl, fun _ _ => rfl⟩

theorem SameGap.trans (k : SameGap e g h) (k' : SameGap e h i) : SameGap e g i :=
  ⟨fun v hv => (k'.slot v hv).trans (k.slot v hv), fun o ho => (k'.node o ho).trans (k.node o ho)⟩

/-- The next place of the smaller arena is the next place of the larger one. -/
theorem Embeds.next (k : Embeds e g h) : e.var ⟨g.slots.size⟩ = ⟨h.slots.size⟩ ∧
    e.op ⟨g.nodes.size⟩ = ⟨h.nodes.size⟩ := by
  have hv := e.index_var ⟨g.slots.size⟩
  have ho := e.index_op ⟨g.nodes.size⟩
  have := k.firstVar
  have := k.firstOp
  have := k.vars
  have := k.ops
  simp only at hv ho
  exact ⟨VarId.eq_of_index (by dsimp only; omega), OpId.eq_of_index (by dsimp only; omega)⟩

theorem Embeds.slot_push (k : Embeds e g h) (g₁ h₁ : Graph α) {t : Tensor α} {p : Option OpId}
    (hg : g₁.slots = g.slots.push (.live t p)) (hh : h₁.slots = h.slots.push (.live t (p.map e.op))) :
    (∀ v, h₁.slot? (e.var v) = (g₁.slot? v).map e.slot) ∧
      ∀ v, e.HasVar v → h₁.slot? v = h.slot? v := by
  have hnew : ∀ v, (e.var v).index = h.slots.size ↔ v.index = g.slots.size := by
    intro v
    rw [show h.slots.size = (e.var ⟨g.slots.size⟩).index by rw [k.next.1]]
    exact ⟨fun e => congrArg VarId.index (Gap.var_injective (VarId.eq_of_index e)),
      fun hv => by rw [VarId.eq_of_index (w := ⟨g.slots.size⟩) hv]⟩
  refine ⟨fun v => ?_, fun v hv => ?_⟩
  · rw [slot?_push hg, slot?_push hh]
    simp only [hnew]
    split
    · rfl
    · exact k.slot v
  · have hne : v.index ≠ h.slots.size := by
      have := hv.2
      have := k.firstVar
      have := k.vars
      omega
    rw [slot?_push hh, if_neg hne]

theorem Embeds.addVariable (k : Embeds e g h) (t : Tensor α) :
    Embeds e (g.addVariable t).1 (h.addVariable t).1 ∧ SameGap e h (h.addVariable t).1 := by
  obtain ⟨hslot, hgap⟩ := k.slot_push (g.addVariable t).1 (h.addVariable t).1
    (t := t) (p := none) rfl rfl
  refine ⟨⟨wellformed_addVariable k.wellformed t, wellformed_addVariable k.wellformed' t, ?_,
    k.firstOp, ?_, k.ops, hslot, k.node, k.declaredInputs, k.declaredOutputs⟩, hgap, fun _ _ => rfl⟩
  · have := k.firstVar
    simp only [Graph.addVariable, push, Array.size_push]
    omega
  · have := k.vars
    simp only [Graph.addVariable, push, Array.size_push]
    omega

theorem Embeds.placeOp (k : Embeds e g h) (op : Operator α) {ins : List VarId}
    (hins : ∀ v ∈ ins, v.index < g.slots.size) {t : Tensor α} (ht : t.data = none) :
    Embeds e (g.placeOp op ins t) (h.placeOp op (ins.map e.var) t) ∧
      SameGap e h (h.placeOp op (ins.map e.var) t) := by
  obtain ⟨hvar, hop⟩ := k.next
  obtain ⟨hslot, hgap⟩ := k.slot_push (g.placeOp op ins t)
    (h.placeOp op (ins.map e.var) t) (t := t) (p := some ⟨g.nodes.size⟩) rfl
    (by rw [Option.map_some, hop]; rfl)
  have hins' : ∀ v ∈ ins.map e.var, v.index < h.slots.size := by
    intro v hv
    obtain ⟨w, hw, rfl⟩ := List.mem_map.1 hv
    have := hins w hw
    have := e.index_var w
    have := k.vars
    omega
  have hnew : ∀ o, (e.op o).index = h.nodes.size ↔ o.index = g.nodes.size := by
    intro o
    rw [show h.nodes.size = (e.op ⟨g.nodes.size⟩).index by rw [hop]]
    exact ⟨fun e => congrArg OpId.index (Gap.op_injective (OpId.eq_of_index e)),
      fun ho => by rw [OpId.eq_of_index (p := ⟨g.nodes.size⟩) ho]⟩
  refine ⟨⟨wellformed_placeOp k.wellformed op hins ht, wellformed_placeOp k.wellformed' op hins' ht,
    ?_, ?_, ?_, ?_, hslot, fun o => ?_, k.declaredInputs, k.declaredOutputs⟩, hgap, fun o ho => ?_⟩
  · have := k.firstVar
    simp only [Graph.placeOp, Array.size_push]
    omega
  · have := k.firstOp
    simp only [Graph.placeOp, Array.size_push]
    omega
  · have := k.vars
    simp only [Graph.placeOp, Array.size_push]
    omega
  · have := k.ops
    simp only [Graph.placeOp, Array.size_push]
    omega
  · rw [node?_placeOp, node?_placeOp]
    simp only [hnew]
    split
    · rw [← hvar]
      rfl
    · exact k.node o
  · have hne : o.index ≠ h.nodes.size := by
      have := ho.2
      have := k.firstOp
      have := k.ops
      omega
    rw [node?_placeOp, if_neg hne]

theorem Embeds.detach (k : Embeds e g h) {o : OpId} {n : Node α} (hn : g.node? o = some n) :
    Embeds e (g.detach o n.output) (h.detach (e.op o) (e.var n.output)) ∧
      SameGap e h (h.detach (e.op o) (e.var n.output)) := by
  have hn' : h.node? (e.op o) = some (e.node n) := by rw [k.node, hn]; rfl
  refine ⟨⟨wellformed_detach k.wellformed hn, wellformed_detach k.wellformed' hn', ?_, ?_, ?_, ?_,
    fun v => ?_, fun p => ?_, k.declaredInputs, k.declaredOutputs⟩, fun v hv => ?_, fun p hp => ?_⟩
  · rw [size_detach]
    exact k.firstVar
  · simpa [Graph.detach] using k.firstOp
  · rw [size_detach, size_detach]
    exact k.vars
  · simpa [Graph.detach] using k.ops
  · rw [slot?_detach, slot?_detach, k.slot]
    simp only [Gap.var_inj]
    split
    · cases g.slot? v with
      | none => rfl
      | some x => cases x <;> rfl
    · rfl
  · rw [node?_detach, node?_detach, k.node]
    simp only [Gap.op_inj]
    split <;> rfl
  · rw [slot?_detach, if_neg (hv.ne _)]
  · rw [node?_detach, if_neg (hp.ne _)]

theorem Embeds.redirect (k : Embeds e g h) {a b : VarId} {x y : Tensor α} {p q : Option OpId}
    (hab : a ≠ b) (ha : g.slot? a = some (.live x p)) (hb : g.slot? b = some (.live y q))
    (marks : List Mark) :
    Embeds e (g.redirect a b marks) (h.redirect (e.var a) (e.var b) marks) ∧
      SameGap e h (h.redirect (e.var a) (e.var b) marks) := by
  have ha' : h.slot? (e.var a) = some (.live x (p.map e.op)) := by rw [k.slot, ha]; rfl
  have hb' : h.slot? (e.var b) = some (.live y (q.map e.op)) := by rw [k.slot, hb]; rfl
  have hab' : e.var a ≠ e.var b := fun h => hab (Gap.var_injective h)
  refine ⟨⟨wellformed_redirect k.wellformed hab ha hb, wellformed_redirect k.wellformed' hab' ha' hb',
    ?_, k.firstOp, ?_, k.ops, fun v => ?_, k.node, k.declaredInputs, k.declaredOutputs⟩,
    fun v hv => slot?_redirect_other (hv.ne _) (hv.ne _), fun _ _ => rfl⟩
  · rw [size_redirect]
    exact k.firstVar
  · rw [size_redirect, size_redirect]
    exact k.vars
  · by_cases hva : v = a
    · subst hva
      rw [slot?_redirect_old ha, slot?_redirect_old ha']
      rfl
    by_cases hvb : v = b
    · subst hvb
      rw [slot?_redirect_new hab hb, slot?_redirect_new hab' hb']
      rfl
    · rw [slot?_redirect_other hva hvb, slot?_redirect_other (by simpa using hva) (by simpa using hvb),
        k.slot]

/-- Replacing a variable goes the same way. -/
theorem Embeds.replaceVariable (k : Embeds e g h) (old new : VarId) :
    Agree (fun g₁ h₁ => Embeds e g₁ h₁ ∧ SameGap e h h₁) (g.replaceVariable old new)
      (h.replaceVariable (e.var old) (e.var new)) := by
  cases hg : g.replaceVariable old new with
  | ok g₁ =>
    obtain ⟨a, b, ha, hb, hcase⟩ := replaceVariable_ok_iff.1 hg
    obtain ⟨_, ha', rfl⟩ := (k.resolve old).of_ok ha
    obtain ⟨_, hb', rfl⟩ := (k.resolve new).of_ok hb
    rcases hcase with ⟨rfl, rfl⟩ | ⟨hab, x, y, hx, hy, hshape, horder, rfl⟩
    · rw [replaceVariable_ok_iff.2 ⟨_, _, ha', hb', .inl ⟨rfl, rfl⟩⟩]
      exact .ok ⟨k, .refl e h⟩
    · obtain ⟨_, hx', rfl⟩ := (k.tensor a).of_ok hx
      obtain ⟨_, hy', rfl⟩ := (k.tensor b).of_ok hy
      obtain ⟨p, hp⟩ := tensor_ok_iff.1 hx
      obtain ⟨q, hq⟩ := tensor_ok_iff.1 hy
      rw [replaceVariable_ok_iff.2 ⟨_, _, ha', hb', .inr ⟨by simpa using hab, _, _, hx', hy', hshape,
        horder, rfl⟩⟩]
      exact .ok (k.redirect hab hp hq _)
  | error d =>
    cases hh : h.replaceVariable (e.var old) (e.var new) with
    | error d' => exact .error
    | ok h₁ =>
      obtain ⟨_, _, ha', hb', hcase⟩ := replaceVariable_ok_iff.1 hh
      obtain ⟨a, ha, rfl⟩ := (k.resolve old).ok_of ha'
      obtain ⟨b, hb, rfl⟩ := (k.resolve new).ok_of hb'
      rcases hcase with ⟨hab, -⟩ | ⟨hab, x, y, hx', hy', hshape, horder, -⟩
      · rw [replaceVariable_ok_iff.2 ⟨a, b, ha, hb, .inl ⟨Gap.var_injective hab, rfl⟩⟩] at hg
        cases hg
      · obtain ⟨_, hx, rfl⟩ := (k.tensor a).ok_of hx'
        obtain ⟨_, hy, rfl⟩ := (k.tensor b).ok_of hy'
        rw [replaceVariable_ok_iff.2 ⟨a, b, ha, hb, .inr ⟨by simpa using hab, _, _, hx, hy, hshape,
          horder, rfl⟩⟩] at hg
        cases hg

end

end Graph

/-! ## Mirrored computations -/

namespace PassM

open TensorCompiler.Graph

variable {α β β' γ γ' : Type} {e : Gap}

/-- A computation on a graph and one on the graph around a gap go the same way, whatever the supply
of symbols, and leave the gap alone. -/
structure Mirrors (e : Gap) (R : β → γ → Prop) (x : PassM α β) (y : PassM α γ) : Prop where
  lifts : ∀ {g h s b g₁ s₁}, Embeds e g h → x.Edits g s b g₁ s₁ → ∀ r, ∃ c h₁ r₁,
    y.Edits h r c h₁ r₁ ∧ R b c ∧ Embeds e g₁ h₁ ∧ SameGap e h h₁
  reflects : ∀ {g h r c h₁ r₁}, Embeds e g h → y.Edits h r c h₁ r₁ → ∀ s, ∃ b g₁ s₁,
    x.Edits g s b g₁ s₁ ∧ R b c ∧ Embeds e g₁ h₁ ∧ SameGap e h h₁

theorem Mirrors.bind {R : β → γ → Prop} {S : β' → γ' → Prop} {x : PassM α β} {y : PassM α γ}
    {f : β → PassM α β'} {f' : γ → PassM α γ'} (hx : Mirrors e R x y)
    (hf : ∀ b c, R b c → Mirrors e S (f b) (f' c)) : Mirrors e S (x >>= f) (y >>= f') where
  lifts k hedit r := by
    obtain ⟨b, g₁, s₁, h₁, h₂⟩ := edits_bind_iff.1 hedit
    obtain ⟨c, i, r₁, hc, hR, k₁, hgap⟩ := hx.lifts k h₁ r
    obtain ⟨d, j, r₂, hd, hS, k₂, hgap'⟩ := (hf b c hR).lifts k₁ h₂ r₁
    exact ⟨d, j, r₂, edits_bind_iff.2 ⟨c, i, r₁, hc, hd⟩, hS, k₂, hgap.trans hgap'⟩
  reflects k hedit s := by
    obtain ⟨c, h₁, r₁, h₁', h₂⟩ := edits_bind_iff.1 hedit
    obtain ⟨b, i, s₁, hb, hR, k₁, hgap⟩ := hx.reflects k h₁' s
    obtain ⟨d, j, s₂, hd, hS, k₂, hgap'⟩ := (hf b c hR).reflects k₁ h₂ s₁
    exact ⟨d, j, s₂, edits_bind_iff.2 ⟨b, i, s₁, hb, hd⟩, hS, k₂, hgap.trans hgap'⟩

theorem mirrors_pure {R : β → γ → Prop} {b : β} {c : γ} (h : R b c) :
    Mirrors e R (pure b : PassM α β) (pure c) where
  lifts {g i s b' g₁ s₁} k hedit r := by
    obtain ⟨rfl, rfl, -⟩ := edits_pure_iff.1 hedit
    exact ⟨c, i, r, edits_pure_iff.2 ⟨rfl, rfl, rfl⟩, h, k, .refl e i⟩
  reflects {g i r c' h₁ r₁} k hedit s := by
    obtain ⟨rfl, rfl, -⟩ := edits_pure_iff.1 hedit
    exact ⟨b, g, s, edits_pure_iff.2 ⟨rfl, rfl, rfl⟩, h, k, .refl e _⟩

theorem Mirrors.ite {R : β → γ → Prop} {c : Prop} [Decidable c] {x x' : PassM α β}
    {y y' : PassM α γ} (hx : Mirrors e R x y) (hx' : Mirrors e R x' y') :
    Mirrors e R (if c then x else x') (if c then y else y') := by
  split
  · exact hx
  · exact hx'

theorem mirrors_graph : Mirrors e (Embeds e) (graph : PassM α (Graph α)) graph where
  lifts {g h s b g₁ s₁} k hedit r := by
    obtain ⟨rfl, rfl, -⟩ := edits_graph_iff.1 hedit
    exact ⟨h, h, r, edits_graph_iff.2 ⟨rfl, rfl, rfl⟩, k, k, .refl e h⟩
  reflects {g h r c h₁ r₁} k hedit s := by
    obtain ⟨rfl, rfl, -⟩ := edits_graph_iff.1 hedit
    exact ⟨g, g, s, edits_graph_iff.2 ⟨rfl, rfl, rfl⟩, k, k, .refl e h⟩

theorem mirrors_except {R : β → γ → Prop} {x : Except GraphError β} {y : Except GraphError γ}
    (h : Agree R x y) : Mirrors e R (liftM x : PassM α β) (liftM y : PassM α γ) where
  lifts {g i s b g₁ s₁} k hedit r := by
    obtain ⟨hx, rfl, -⟩ := edits_except_iff.1 hedit
    obtain ⟨c, hy, hR⟩ := h.of_ok hx
    exact ⟨c, i, r, edits_except_iff.2 ⟨hy, rfl, rfl⟩, hR, k, .refl e i⟩
  reflects {g i r c h₁ r₁} k hedit s := by
    obtain ⟨hy, rfl, -⟩ := edits_except_iff.1 hedit
    obtain ⟨b, hx, hR⟩ := h.ok_of hy
    exact ⟨b, g, s, edits_except_iff.2 ⟨hx, rfl, rfl⟩, hR, k, .refl e _⟩

/-- The same computation on types, if it does not depend on the supply of symbols. -/
theorem mirrors_graphM {x : GraphM β}
    (hx : ∀ s b s', Gives x s b s' → ∀ r, ∃ r', Gives x r b r') :
    Mirrors e Eq (liftM x : PassM α β) (liftM x) where
  lifts {g i s b g₁ s₁} k hedit r := by
    obtain ⟨hgives, rfl⟩ := edits_graphM_iff.1 hedit
    obtain ⟨r', hr⟩ := hx _ _ _ hgives r
    exact ⟨b, i, r', edits_graphM_iff.2 ⟨hr, rfl⟩, rfl, k, .refl e i⟩
  reflects {g i r c h₁ r₁} k hedit s := by
    obtain ⟨hgives, rfl⟩ := edits_graphM_iff.1 hedit
    obtain ⟨s', hs⟩ := hx _ _ _ hgives s
    exact ⟨c, g, s', edits_graphM_iff.2 ⟨hs, rfl⟩, rfl, k, .refl e _⟩

theorem mirrors_addVariable (t : Tensor α) :
    Mirrors e (fun v w => w = e.var v) (addVariable t) (addVariable t) where
  lifts {g h s v g₁ s₁} k hedit r := by
    obtain ⟨hadd, -⟩ := edits_addVariable_iff.1 hedit
    cases hadd
    exact ⟨_, _, r, edits_addVariable_iff.2 ⟨rfl, rfl⟩, k.next.1.symm, k.addVariable t⟩
  reflects {g h r v h₁ r₁} k hedit s := by
    obtain ⟨hadd, -⟩ := edits_addVariable_iff.1 hedit
    cases hadd
    exact ⟨_, _, s, edits_addVariable_iff.2 ⟨rfl, rfl⟩, k.next.1.symm, k.addVariable t⟩

theorem mirrors_removeOperator (o : OpId) :
    Mirrors e (fun _ _ => True) (removeOperator o : PassM α Unit) (removeOperator (e.op o)) where
  lifts {g h s _ g₁ s₁} k hedit r := by
    obtain ⟨⟨n, hremove⟩, -⟩ := edits_removeOperator_iff.1 hedit
    obtain ⟨hn, rfl⟩ := removeOperator_ok_iff.1 hremove
    have hn' : h.node? (e.op o) = some (e.node n) := by rw [k.node, hn]; rfl
    exact ⟨⟨⟩, _, r, edits_removeOperator_iff.2 ⟨⟨_, removeOperator_ok_iff.2 ⟨hn', rfl⟩⟩, rfl⟩, trivial,
      k.detach hn⟩
  reflects {g h r _ h₁ r₁} k hedit s := by
    obtain ⟨⟨n', hremove⟩, -⟩ := edits_removeOperator_iff.1 hedit
    obtain ⟨hn', rfl⟩ := removeOperator_ok_iff.1 hremove
    rw [k.node, Option.map_eq_some_iff] at hn'
    obtain ⟨n, hn, rfl⟩ := hn'
    exact ⟨⟨⟩, _, s, edits_removeOperator_iff.2 ⟨⟨_, removeOperator_ok_iff.2 ⟨hn, rfl⟩⟩, rfl⟩, trivial,
      k.detach hn⟩

theorem mirrors_replaceVariable (old new : VarId) :
    Mirrors e (fun _ _ => True) (replaceVariable old new : PassM α Unit)
      (replaceVariable (e.var old) (e.var new)) where
  lifts k hedit r := by
    obtain ⟨hreplace, -⟩ := edits_replaceVariable_iff.1 hedit
    obtain ⟨h₁, hreplace', k'⟩ := (k.replaceVariable old new).of_ok hreplace
    exact ⟨⟨⟩, h₁, r, edits_replaceVariable_iff.2 ⟨hreplace', rfl⟩, trivial, k'⟩
  reflects k hedit s := by
    obtain ⟨hreplace, -⟩ := edits_replaceVariable_iff.1 hedit
    obtain ⟨g₁, hreplace', k'⟩ := (k.replaceVariable old new).ok_of hreplace
    exact ⟨⟨⟩, g₁, s, edits_replaceVariable_iff.2 ⟨hreplace', rfl⟩, trivial, k'⟩

theorem mirrors_addPointwise (f : Pointwise α) (ins : List VarId) :
    Mirrors e (fun v w => w = e.var v) (addOp (.pointwise f) ins)
      (addOp (.pointwise f) (ins.map e.var)) where
  lifts {g h s v g₁ s₁} k hedit r := by
    obtain ⟨ws, ts, t, hws, hts, ht, rfl, rfl⟩ := addOp_gives_iff.1 (edits_addOp_iff.1 hedit)
    obtain ⟨type, hinfer, rfl⟩ := inferTensor_gives_iff.1 ht
    obtain ⟨_, hws', rfl⟩ := (k.resolveEach ins).of_ok hws
    obtain ⟨_, hts', rfl⟩ := (k.tensors ws).of_ok hts
    obtain ⟨r', hinfer'⟩ := infer_pointwise_again hinfer r
    exact ⟨_, _, r', edits_addOp_iff.2 (addOp_gives_iff.2 ⟨_, _, _, hws', hts',
      inferTensor_gives_iff.2 ⟨type, hinfer', rfl⟩, rfl, rfl⟩), k.next.1.symm,
      k.placeOp _ (fun w hw => lt_of_resolveEach hws w hw) rfl⟩
  reflects {g h r v h₁ r₁} k hedit s := by
    obtain ⟨_, _, t, hws', hts', ht, rfl, rfl⟩ := addOp_gives_iff.1 (edits_addOp_iff.1 hedit)
    obtain ⟨type, hinfer, rfl⟩ := inferTensor_gives_iff.1 ht
    obtain ⟨ws, hws, rfl⟩ := (k.resolveEach ins).ok_of hws'
    obtain ⟨ts, hts, rfl⟩ := (k.tensors ws).ok_of hts'
    obtain ⟨s', hinfer'⟩ := infer_pointwise_again hinfer s
    exact ⟨_, _, s', edits_addOp_iff.2 (addOp_gives_iff.2 ⟨_, _, _, hws, hts,
      inferTensor_gives_iff.2 ⟨type, hinfer', rfl⟩, rfl, rfl⟩), k.next.1.symm,
      k.placeOp _ (fun w hw => lt_of_resolveEach hws w hw) rfl⟩

/-! ## Visits -/

theorem mirrors_dropReinterpret (o : OpId) :
    Mirrors e Eq (dropReinterpret o : PassM α Bool) (dropReinterpret (e.op o)) := by
  refine mirrors_graph.bind fun g h k => (mirrors_except (k.operator o)).bind ?_
  rintro ⟨op, ins, out⟩ _ rfl
  cases op with
  | reinterpret source target =>
    refine .ite (mirrors_pure rfl) ((mirrors_except (k.inputsOf o)).bind ?_)
    rintro reads _ rfl
    match reads with
    | [] => exact mirrors_pure rfl
    | [input] =>
      exact (mirrors_removeOperator o).bind fun _ _ _ =>
        (mirrors_replaceVariable out input).bind fun _ _ _ => mirrors_pure rfl
    | _ :: _ :: _ => exact mirrors_pure rfl
  | _ => exact mirrors_pure rfl

variable [Scalar α]

theorem mirrors_foldConstant (o : OpId) :
    Mirrors e Eq (foldConstant o : PassM α Bool) (foldConstant (e.op o)) := by
  refine mirrors_graph.bind fun g h k => (mirrors_except (k.operator o)).bind ?_
  rintro n _ rfl
  refine (mirrors_except (k.inputsOf o)).bind ?_
  rintro reads _ rfl
  refine (mirrors_except (k.tensors reads)).bind ?_
  rintro _ ts rfl
  dsimp only [Gap.node]
  split
  · refine (mirrors_except (k.tensor n.output)).bind ?_
    rintro _ t rfl
    refine .ite (mirrors_pure rfl) ((mirrors_except (.refl _)).bind ?_)
    rintro data _ rfl
    refine (mirrors_except (.refl _)).bind ?_
    rintro folded _ rfl
    refine (mirrors_removeOperator o).bind fun _ _ _ => (mirrors_addVariable folded).bind ?_
    rintro v _ rfl
    exact (mirrors_replaceVariable n.output v).bind fun _ _ _ => mirrors_pure rfl
  · exact mirrors_pure rfl

theorem mirrors_expandSelect (o : OpId) :
    Mirrors e Eq (expandSelect o : PassM α Bool) (expandSelect (e.op o)) := by
  refine mirrors_graph.bind fun g h k => (mirrors_except (k.operator o)).bind ?_
  rintro ⟨op, ins, out⟩ _ rfl
  cases op with
  | pointwise f =>
    cases f with
    | select =>
      refine (mirrors_except (k.inputsOf o)).bind ?_
      rintro reads _ rfl
      match reads with
      | [cond, a, b] =>
        simp only [Gap.node, List.map_cons, List.map_nil, k.producer]
        cases g.producer cond with
        | none => exact mirrors_pure rfl
        | some p =>
          refine (mirrors_except (k.operator p)).bind ?_
          rintro compared _ rfl
          refine .ite (mirrors_pure rfl) ((mirrors_except (k.tensor cond)).bind ?_)
          rintro _ tc rfl
          refine (mirrors_except (k.tensor a)).bind ?_
          rintro _ ta rfl
          refine (mirrors_except (k.tensor b)).bind ?_
          rintro _ tb rfl
          refine (mirrors_graphM fun _ _ _ => inferSelectArithmetic_again).bind ?_
          rintro form _ rfl
          refine (mirrors_except (k.tensor out)).bind ?_
          rintro _ t rfl
          refine .ite (mirrors_pure rfl) ((mirrors_removeOperator o).bind fun _ _ _ =>
            (mirrors_addPointwise .mul [cond, a]).bind ?_)
          rintro chosen _ rfl
          refine (mirrors_addPointwise _ [cond]).bind ?_
          rintro inverse _ rfl
          refine (mirrors_addPointwise .mul [inverse, b]).bind ?_
          rintro other _ rfl
          refine (mirrors_addPointwise .add [chosen, other]).bind ?_
          rintro sum _ rfl
          exact (mirrors_replaceVariable out sum).bind fun _ _ _ => mirrors_pure rfl
      | [] => exact mirrors_pure rfl
      | [_] => exact mirrors_pure rfl
      | [_, _] => exact mirrors_pure rfl
      | _ :: _ :: _ :: _ :: _ => exact mirrors_pure rfl
    | _ => exact mirrors_pure rfl
  | _ => exact mirrors_pure rfl

/-! ## Sweeps -/

omit [Scalar α] in
/-- Steps one after the other, which tell whether one of them changed the graph. -/
theorem Mirrors.foldlM {R : Bool → Bool → Prop} (hor : ∀ a b c, R b c → R (a || b) (a || c))
    {m : β → γ} {f : β → PassM α Bool} {f' : γ → PassM α Bool} {xs : List β}
    (hf : ∀ x ∈ xs, Mirrors e Eq (f x) (f' (m x))) {b c : Bool} (h : R b c) :
    Mirrors e R (xs.foldlM (fun changed x => return (← f x) || changed) b)
      ((xs.map m).foldlM (fun changed x => return (← f' x) || changed) c) := by
  induction xs generalizing b c with
  | nil => exact mirrors_pure h
  | cons x xs ih =>
    obtain ⟨hx, hxs⟩ := List.forall_mem_cons.1 hf
    rw [List.foldlM_cons, List.map_cons, List.foldlM_cons]
    have hfirst : Mirrors e R (do return (← f x) || b) (do return (← f' (m x)) || c) :=
      hx.bind fun a _ same => mirrors_pure (same ▸ hor a b c h)
    exact hfirst.bind fun b c h => ih hxs h

omit [Scalar α] in
/-- A sweep over the larger graph visits the images of the same operators. -/
theorem Mirrors.sweep {step : OpId → PassM α Bool}
    (hstep : ∀ o, Mirrors e Eq (step o) (step (e.op o))) :
    Mirrors e Eq (sweep step) (sweep step) := by
  refine mirrors_graph.bind fun g h k => (mirrors_except k.topologicalOrder).bind ?_
  rintro ops _ rfl
  exact .foldlM (fun a _ _ h => congrArg (a || ·) h) (fun o _ => hstep o) rfl

end PassM

end TensorCompiler
