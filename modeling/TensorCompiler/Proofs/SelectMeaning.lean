import Mathlib
import TensorCompiler.Proofs.PassMeaning
import TensorCompiler.Proofs.SelectForm
/-!
# Expanding selections

The expansion of selections takes it from the arena that a condition is the outcome of a
comparison. An induced graph may declare such a condition as an input, and then it holds whatever
is fed to it. With exact arithmetic the expansion keeps the meaning of a graph where the fed
conditions are truth values and the products it introduces can be addressed; without the first of
these it does not.

* `Selects`: the selections that the pass expands.
* `edits_expandSelect`: what one visit of the pass does.
* `preserves_expandSelect`: one visit keeps the outputs.
* `run_after_expandSelects`: the runs before and after the pass agree.
* `run_differs_after_expandSelects`: they differ on a condition that is fed.
-/

namespace TensorCompiler

namespace Graph

section

variable {α : Type} {g h : Graph α}

/-- An operator selects between `a` and `b`, by the outcome of a comparison. -/
structure Selects (g : Graph α) (o : OpId) (cond a b : VarId) : Prop where
  select : ∃ node, g.node? o = some node ∧ node.op = .pointwise .select
  inputs : g.inputsOf o = .ok [cond, a, b]
  compared : ∃ p node, g.producer cond = some p ∧ g.node? p = some node ∧
    node.op.isComparison = true

/-- Adds an operator whose output has a given type. -/
def place (g : Graph α) (op : Operator α) (ins : List VarId) (type : TensorType) : Graph α :=
  g.placeOp op ins { type, marks := (op.tensorwiseAxes type).map .tensorwise }

theorem size_place (g : Graph α) (op : Operator α) (ins : List VarId) (type : TensorType) :
    (g.place op ins type).slots.size = g.slots.size + 1 := Array.size_push _

theorem extends_place (g : Graph α) (op : Operator α) (ins : List VarId) (type : TensorType) :
    Extends g (g.place op ins type) := extends_placeOp g op ins _

theorem tensor_detach {o : OpId} {w v : VarId} {t : Tensor α} (ht : g.tensor v = .ok t) :
    (g.detach o w).tensor v = .ok t := by
  obtain ⟨p, hv⟩ := tensor_ok_iff.1 ht
  rw [tensor_ok_iff, slot?_detach]
  split
  · exact ⟨none, by rw [hv]; rfl⟩
  · exact ⟨p, hv⟩

theorem tensors_ok_iff {vs : List VarId} {ts : List (Tensor α)} :
    g.tensors vs = .ok ts ↔ List.Forall₂ (fun v t => g.tensor v = .ok t) vs ts := mapM_ok_iff

/-- What a selection selects between can be read off. -/
theorem tensors_of_selects {o : OpId} {cond a b : VarId} (k : g.Selects o cond a b) :
    ∃ tc ta tb, g.tensors [cond, a, b] = .ok [tc, ta, tb] := by
  obtain ⟨ts, hts⟩ := tensors_ok_of_inputsOf k.inputs
  obtain ⟨tc, ta, tb, rfl⟩ : ∃ tc ta tb, ts = [tc, ta, tb] :=
    List.length_eq_three.1 (tensors_ok_iff.1 hts).length_eq.symm
  exact ⟨tc, ta, tb, hts⟩

theorem Selects.unique {o : OpId} {cond a b cond' a' b' : VarId} (k : g.Selects o cond a b)
    (k' : g.Selects o cond' a' b') : cond = cond' ∧ a = a' ∧ b = b' := by
  simpa using Except.ok.inj (k.inputs.symm.trans k'.inputs)

/-- Adding an operator on variables that stand for themselves. -/
theorem addOp_place [Scalar α] {op : Operator α} {ins : List VarId} {ts : List (Tensor α)}
    {v : VarId} {s s' : Supply} (hop : Gives (g.addOp op ins) s (h, v) s')
    (hins : List.Forall₂ (fun v t => g.tensor v = .ok t) ins ts) :
    ∃ type, Gives (op.infer (ts.map (·.type))) s type s' ∧ h = g.place op ins type ∧
      v = ⟨g.slots.size⟩ := by
  obtain ⟨ws, us, t, hws, hus, hi, rfl, rfl⟩ := addOp_gives_iff.1 hop
  have hself : List.Forall₂ (fun v w => g.resolve v = .ok w) ins ins :=
    List.forall₂_same.2 fun v hv => by
      obtain ⟨hlen, hzip⟩ := zip_of_forall₂ hins
      obtain ⟨t, ht⟩ := exists_mem_zip hlen hv
      exact resolve_of_tensor (hzip _ ht)
  obtain rfl := eq_of_forall₂ (hself.imp fun v w hw u hu => Except.ok.inj (hw.symm.trans hu))
    (mapM_ok_iff.1 hws)
  obtain rfl := eq_of_forall₂ (hins.imp fun v t ht u hu => Except.ok.inj (ht.symm.trans hu))
    (tensors_ok_iff.1 hus)
  obtain ⟨type, hinfer, rfl⟩ := inferTensor_gives_iff.1 hi
  exact ⟨type, hinfer, rfl, rfl⟩

theorem tensor_place (g : Graph α) (op : Operator α) (ins : List VarId) (type : TensorType) :
    (g.place op ins type).tensor ⟨g.slots.size⟩ =
      .ok { type, marks := (op.tensorwiseAxes type).map .tensorwise } :=
  tensor_ok_iff.2 ⟨some ⟨g.nodes.size⟩, slot?_push_new rfl⟩

theorem produced_place (g : Graph α) (op : Operator α) (ins : List VarId) (type : TensorType) :
    ∃ t p node, (g.place op ins type).slot? ⟨g.slots.size⟩ = some (.live t (some p)) ∧
      (g.place op ins type).node? p = some node ∧ node.op = op :=
  ⟨_, ⟨g.nodes.size⟩, ⟨op, ins, ⟨g.slots.size⟩⟩, slot?_push_new rfl,
    (node?_placeOp ..).trans (if_pos rfl), rfl⟩

/-- The arithmetic form of a selection instead of the selection. -/
def expanded [Scalar α] (g : Graph α) (o : OpId) (output cond a b : VarId)
    (chosen inverse other sum : TensorType) : Graph α :=
  ((((g.detach o output).place (.pointwise .mul) [cond, a] chosen).place
    .invert [cond] inverse).place (.pointwise .mul) [⟨g.slots.size + 1⟩, b] other).place
    (.pointwise .add) [⟨g.slots.size⟩, ⟨g.slots.size + 2⟩] sum

end

section

variable {α : Type} [Scalar α] {g h : Graph α} {o : OpId} {output cond a b : VarId}
  {tc ta tb : Tensor α} {chosen inverse other sum : TensorType}

/-- The operators that a visit adds make up the arithmetic form. -/
theorem selectForm_of_added {node : Node α} {v₁ v₂ v₃ v₄ : VarId}
    {g₁ g₂ g₃ g₄ : Graph α} {s₀ s₁ s₂ s₃ s₄ : Supply} (htc : g.tensor cond = .ok tc)
    (hta : g.tensor a = .ok ta) (htb : g.tensor b = .ok tb)
    (h₁ : Gives ((g.detach o node.output).addOp (.pointwise .mul) [cond, a]) s₀ (g₁, v₁) s₁)
    (h₂ : Gives (g₁.addOp .invert [cond]) s₁ (g₂, v₂) s₂)
    (h₃ : Gives (g₂.addOp (.pointwise .mul) [v₂, b]) s₂ (g₃, v₃) s₃)
    (h₄ : Gives (g₃.addOp (.pointwise .add) [v₁, v₃]) s₃ (g₄, v₄) s₄) :
    ∃ chosen inverse other sum, SelectForm α tc.type ta.type tb.type chosen inverse other sum ∧
      g₄ = g.expanded o node.output cond a b chosen inverse other sum ∧
      v₄ = ⟨g.slots.size + 3⟩ := by
  have hc₀ : (g.detach o node.output).tensor cond = .ok tc := tensor_detach htc
  have hb₀ : (g.detach o node.output).tensor b = .ok tb := tensor_detach htb
  obtain ⟨chosen, hchosen, rfl, rfl⟩ := addOp_place h₁ (.cons hc₀ (.cons (tensor_detach hta) .nil))
  have k₁ := extends_place (g.detach o node.output) (.pointwise .mul) [cond, a] chosen
  obtain ⟨inverse, hinverse, rfl, rfl⟩ := addOp_place h₂ (.cons (k₁.tensor hc₀) .nil)
  obtain ⟨other, hother, rfl, rfl⟩ := addOp_place h₃
    (.cons (tensor_place ..) (.cons ((extends_place ..).tensor (k₁.tensor hb₀)) .nil))
  obtain ⟨sum, hsum, rfl, rfl⟩ := addOp_place h₄
    (.cons ((extends_place ..).tensor ((extends_place ..).tensor (tensor_place ..)))
      (.cons (tensor_place ..) .nil))
  refine ⟨chosen, inverse, other, sum, ⟨⟨_, _, hchosen⟩, ⟨_, _, hinverse⟩, ⟨_, _, hother⟩,
    ⟨_, _, hsum⟩⟩, ?_, ?_⟩
  · simp only [expanded, size_place, size_detach]
  · simp only [size_place, size_detach]

/-- The type that a visit compares is that of the arithmetic form. -/
theorem infer_selectForm {c a b form : TensorType} {s s' : Supply}
    (h : Gives (Operator.inferSelectArithmetic (α := α) c a b) s form s')
    (k : SelectForm α c a b chosen inverse other sum) : form = sum := by
  simp only [Operator.inferSelectArithmetic, gives_bind_iff] at h
  obtain ⟨x, _, hx, y, _, hy, z, _, hz, hform⟩ := h
  obtain ⟨_, _, hchosen⟩ := k.inferChosen
  obtain ⟨_, _, hinverse⟩ := k.inferInverse
  obtain ⟨_, _, hother⟩ := k.inferOther
  obtain ⟨_, _, hsum⟩ := k.inferSum
  obtain rfl := infer_pointwise_unique hx hchosen
  obtain rfl := infer_pointwise_unique hy hinverse
  obtain rfl := infer_pointwise_unique hz hother
  exact infer_pointwise_unique hform hsum

/-- A selection by the outcome of a comparison whose arithmetic form has its type. -/
def Expandable (g : Graph α) (o : OpId) : Prop :=
  ∃ node cond a b tc ta tb t chosen inverse other sum, g.node? o = some node ∧
    g.Selects o cond a b ∧ g.tensors [cond, a, b] = .ok [tc, ta, tb] ∧
    g.tensor node.output = .ok t ∧
    SelectForm α tc.type ta.type tb.type chosen inverse other sum ∧ sum.Renamed id t.type

/-- A visit finds nothing to do about an operator that is no selection by a comparison. -/
theorem edits_expandSelect_of_not_selects {s s' : Supply} {c : Bool}
    (hno : ∀ cond a b, ¬g.Selects o cond a b)
    (hedit : (PassM.expandSelect o : PassM α Bool).Edits g s c h s') : c = false ∧ h = g := by
  have early : (return false : PassM α Bool).Edits g s c h s' → c = false ∧ h = g := by
    intro hedit
    obtain ⟨rfl, rfl, -⟩ := PassM.edits_pure_iff.1 hedit
    exact ⟨rfl, rfl⟩
  simp only [PassM.expandSelect, PassM.edits_graph_bind_iff, PassM.edits_except_bind_iff,
    operator_ok_iff] at hedit
  obtain ⟨node, hn, hedit⟩ := hedit
  split at hedit
  · next hop =>
    obtain ⟨ins, hins, hedit⟩ := PassM.edits_except_bind_iff.1 hedit
    split at hedit
    · next cond a b =>
      split at hedit
      · next p hp =>
        simp only [PassM.edits_except_bind_iff, operator_ok_iff] at hedit
        obtain ⟨compared, hcompared, hedit⟩ := hedit
        split at hedit
        · exact early hedit
        · next hcmp =>
          exact absurd ⟨⟨node, hn, hop⟩, hins, p, compared, hp, hcompared, by simpa using hcmp⟩
            (hno cond a b)
      · exact early hedit
    · exact early hedit
  · exact early hedit

/-- Puts the arithmetic form of a selection in its place. -/
def exchange (o : OpId) (output cond a b : VarId) : PassM α Bool := do
  PassM.removeOperator o
  let chosen ← PassM.addOp (.pointwise .mul) [cond, a]
  let inverse ← PassM.addOp .invert [cond]
  let other ← PassM.addOp (.pointwise .mul) [inverse, b]
  let sum ← PassM.addOp (.pointwise .add) [chosen, other]
  PassM.replaceVariable output sum
  return true

theorem edits_exchange {node : Node α} {s s' : Supply} {c : Bool} (hn : g.node? o = some node)
    (hts : g.tensors [cond, a, b] = .ok [tc, ta, tb])
    (hedit : (exchange o node.output cond a b : PassM α Bool).Edits g s c h s') :
    c = true ∧ ∃ chosen inverse other sum,
      SelectForm α tc.type ta.type tb.type chosen inverse other sum ∧
      (g.expanded o node.output cond a b chosen inverse other sum).replaceVariable node.output
        ⟨g.slots.size + 3⟩ = .ok h := by
  obtain ⟨htc, hta, htb⟩ : g.tensor cond = .ok tc ∧ g.tensor a = .ok ta ∧ g.tensor b = .ok tb := by
    simpa using tensors_ok_iff.1 hts
  obtain ⟨node₁, hn₁, hedit⟩ := edits_removeOperator_bind_iff.1 hedit
  obtain rfl := Option.some.inj (hn.symm.trans hn₁)
  simp only [PassM.edits_bind_iff, PassM.edits_addOp_iff, PassM.edits_replaceVariable_iff,
    PassM.edits_pure_iff] at hedit
  obtain ⟨v₁, g₁, _, h₁, v₂, g₂, _, h₂, v₃, g₃, _, h₃, v₄, g₄, _, h₄, _, _, _, ⟨hreplace, rfl⟩,
    rfl, rfl, -⟩ := hedit
  obtain ⟨chosen, inverse, other, sum, k, rfl, rfl⟩ := selectForm_of_added htc hta htb h₁ h₂ h₃ h₄
  exact ⟨rfl, chosen, inverse, other, sum, k, hreplace⟩

omit [Scalar α] in
/-- The test of a visit is whether the arithmetic form has the type of the selection. -/
theorem differs_iff {form current : TensorType} :
    (decide (form.order ≠ current.order) || form.shape != current.shape) = true ↔
      ¬form.Renamed id current := by
  rw [Bool.or_eq_true, decide_eq_true_iff, bne, Bool.not_eq_true', ← Bool.not_eq_true,
    ← not_and_or, not_iff_not]
  constructor
  · rintro ⟨horder, hshape⟩
    exact ⟨by rw [List.map_id, horder], hshape⟩
  · intro k
    exact ⟨Operator.order_ext (by rw [k.axes, List.map_id]), k.shape⟩

/-- A visit of a selection by a comparison looks at the type of the arithmetic form. It exchanges
the selection if it has that type, and refuses otherwise. -/
theorem edits_expandSelect_iff {node : Node α} {s s' : Supply} {c : Bool}
    (k : g.Selects o cond a b) (hn : g.node? o = some node)
    (hts : g.tensors [cond, a, b] = .ok [tc, ta, tb]) :
    (PassM.expandSelect o : PassM α Bool).Edits g s c h s' ↔ ∃ form s₁ t,
      Gives (Operator.inferSelectArithmetic (α := α) tc.type ta.type tb.type) s form s₁ ∧
      g.tensor node.output = .ok t ∧
      (¬form.Renamed id t.type ∧ c = false ∧ h = g ∧ s' = s₁ ∨
        form.Renamed id t.type ∧
          (exchange o node.output cond a b : PassM α Bool).Edits g s₁ c h s') := by
  obtain ⟨node', hn', hop⟩ := k.select
  obtain rfl := Option.some.inj (hn.symm.trans hn')
  obtain ⟨p, compared, hp, hcompared, hcmp⟩ := k.compared
  obtain ⟨htc, hta, htb⟩ : g.tensor cond = .ok tc ∧ g.tensor a = .ok ta ∧ g.tensor b = .ok tb := by
    simpa using tensors_ok_iff.1 hts
  simp only [PassM.expandSelect, PassM.edits_graph_bind_iff, PassM.edits_except_bind_iff,
    PassM.edits_graphM_bind_iff, operator_ok_iff, hn, hop, k.inputs, hp, hcompared, hcmp, htc, hta,
    htb, Except.ok.injEq, Option.some.injEq, exists_eq_left', Bool.not_true, Bool.false_eq_true,
    if_false, exists_and_left]
  refine exists_congr fun form => exists_congr fun s₁ => and_congr_right fun _ =>
    exists_congr fun t => and_congr_right fun _ => ?_
  by_cases hsame : form.Renamed id t.type
  · rw [if_neg (differs_iff.not.2 (not_not.2 hsame))]
    simp only [hsame, not_true_eq_false, false_and, false_or, true_and]
    rfl
  · rw [if_pos (differs_iff.2 hsame), PassM.edits_pure_iff]
    simp only [hsame, not_false_eq_true, false_and, or_false, true_and, eq_comm]

/-- One visit exchanges an expandable selection for its arithmetic form, and changes nothing
otherwise. -/
theorem edits_expandSelect {s s' : Supply} {c : Bool}
    (hedit : (PassM.expandSelect o : PassM α Bool).Edits g s c h s') :
    (c = false ∧ h = g ∧ ¬g.Expandable o) ∨
    c = true ∧ ∃ node cond a b tc ta tb t chosen inverse other sum, g.node? o = some node ∧
      g.Selects o cond a b ∧ g.tensors [cond, a, b] = .ok [tc, ta, tb] ∧
      g.tensor node.output = .ok t ∧
      SelectForm α tc.type ta.type tb.type chosen inverse other sum ∧ sum.Renamed id t.type ∧
      (g.expanded o node.output cond a b chosen inverse other sum).replaceVariable node.output
        ⟨g.slots.size + 3⟩ = .ok h := by
  by_cases hselects : ∃ cond a b, g.Selects o cond a b
  · obtain ⟨cond, a, b, k⟩ := hselects
    obtain ⟨node, hn, -⟩ := k.select
    obtain ⟨tc, ta, tb, hts⟩ := tensors_of_selects k
    obtain ⟨form, s₁, t, hform, ht, ⟨hdiffer, rfl, rfl, -⟩ | ⟨halike, hexchange⟩⟩ :=
      (edits_expandSelect_iff k hn hts).1 hedit
    · refine .inl ⟨rfl, rfl, ?_⟩
      rintro ⟨node', _, _, _, tc', ta', tb', t', _, _, _, sum, hn', k', hts', ht', form', halike⟩
      obtain ⟨rfl, rfl, rfl⟩ := k.unique k'
      obtain rfl := Option.some.inj (hn.symm.trans hn')
      obtain rfl := Except.ok.inj (ht.symm.trans ht')
      obtain ⟨rfl, rfl, rfl⟩ : tc = tc' ∧ ta = ta' ∧ tb = tb' := by
        simpa using Except.ok.inj (hts.symm.trans hts')
      exact hdiffer (infer_selectForm hform form' ▸ halike)
    · obtain ⟨rfl, chosen, inverse, other, sum, form', hreplace⟩ := edits_exchange hn hts hexchange
      obtain rfl := infer_selectForm hform form'
      exact .inr ⟨rfl, node, cond, a, b, tc, ta, tb, t, chosen, inverse, other, form, hn, k, hts,
        ht, form', halike, hreplace⟩
  · push Not at hselects
    obtain ⟨rfl, rfl⟩ := edits_expandSelect_of_not_selects hselects hedit
    refine .inl ⟨rfl, rfl, ?_⟩
    rintro ⟨_, cond, a, b, _, _, _, _, _, _, _, _, _, k, -⟩
    exact hselects cond a b k

theorem extends_expanded : Extends (g.detach o output)
    (g.expanded o output cond a b chosen inverse other sum) :=
  (((extends_place ..).trans (extends_place ..)).trans (extends_place ..)).trans (extends_place ..)

theorem wellformed_expanded {node : Node α} (hg : g.Wellformed) (hn : g.node? o = some node)
    (hc : g.tensor cond = .ok tc) (ha : g.tensor a = .ok ta) (hb : g.tensor b = .ok tb) :
    (g.expanded o node.output cond a b chosen inverse other sum).Wellformed := by
  have lt : ∀ {v : VarId} {t : Tensor α}, g.tensor v = .ok t → v.index < g.slots.size :=
    fun hv => lt_of_resolve (resolve_of_tensor hv)
  have hc' := lt hc
  have ha' := lt ha
  have hb' := lt hb
  have placed : ∀ {g : Graph α} {op : Operator α} {ins : List VarId} {type : TensorType},
      g.Wellformed → (∀ v ∈ ins, v.index < g.slots.size) → (g.place op ins type).Wellformed :=
    fun hg hins => wellformed_placeOp hg _ hins rfl
  refine placed (placed (placed (placed (wellformed_detach hg hn) ?_) ?_) ?_) ?_ <;>
    simp only [size_place, size_detach, List.forall_mem_cons, List.not_mem_nil, false_imp_iff,
      implies_true, and_true] <;> omega

/-- After a visit there are the operators that were there, and those of the arithmetic form. -/
theorem node?_of_expanded {o' : OpId} {node : Node α}
    (hn : (g.expanded o output cond a b chosen inverse other sum).node? o' = some node) :
    g.node? o' = some node ∨ node.op = .pointwise .mul ∨ node.op = .invert ∨
      node.op = .pointwise .add := by
  rcases node?_of_placeOp hn with hn | ⟨-, rfl⟩
  · rcases node?_of_placeOp hn with hn | ⟨-, rfl⟩
    · rcases node?_of_placeOp hn with hn | ⟨-, rfl⟩
      · rcases node?_of_placeOp hn with hn | ⟨-, rfl⟩
        · rw [node?_detach] at hn
          split at hn
          · cases hn
          · exact .inl hn
        · exact .inr (.inl rfl)
      · exact .inr (.inr (.inl rfl))
    · exact .inr (.inl rfl)
  · exact .inr (.inr (.inr rfl))

/-- The variable that stands in for a selection is a sum. -/
theorem sum_of_expanded : ∃ t q node,
    (g.expanded o output cond a b chosen inverse other sum).slot? ⟨g.slots.size + 3⟩ =
      some (.live t (some q)) ∧
    (g.expanded o output cond a b chosen inverse other sum).node? q = some node ∧
    node.op = .pointwise .add := by
  have := produced_place ((((g.detach o output).place (.pointwise .mul) [cond, a] chosen).place
    .invert [cond] inverse).place (.pointwise .mul) [⟨g.slots.size + 1⟩, b] other)
    (.pointwise .add) [⟨g.slots.size⟩, ⟨g.slots.size + 2⟩] sum
  rwa [size_place, size_place, size_place, size_detach] at this

/-- One visit puts the sum of the arithmetic form in place of the output of an expandable
selection, or changes nothing. -/
theorem rewired_expandSelect {s s' : Supply} {c : Bool} (hg : g.Wellformed) (ho : g.Computes o)
    (hedit : (PassM.expandSelect o : PassM α Bool).Edits g s c h s') :
    h = g ∨ h.Wellformed ∧ ∃ node cond a b tc ta tb t chosen inverse other sum,
      g.node? o = some node ∧ g.Selects o cond a b ∧
      g.tensors [cond, a, b] = .ok [tc, ta, tb] ∧ g.tensor node.output = .ok t ∧
      SelectForm α tc.type ta.type tb.type chosen inverse other sum ∧ sum.Renamed id t.type ∧
      Diverts (g.expanded o node.output cond a b chosen inverse other sum) h node.output
        ⟨g.slots.size + 3⟩ ∧
      (g.expanded o node.output cond a b chosen inverse other sum).replaceVariable node.output
        ⟨g.slots.size + 3⟩ = .ok h ∧
      Rewired g h o node.output ⟨g.slots.size + 3⟩ := by
  refine (edits_expandSelect hedit).imp (·.2.1) ?_
  rintro ⟨-, node, cond, a, b, tc, ta, tb, t, chosen, inverse, other, sum, hn, hselects, hts, ht, k,
    halike, hreplace⟩
  obtain ⟨node₁, x, hn₁, hslot, hi⟩ := ho
  obtain rfl := Option.some.inj (hn.symm.trans hn₁)
  obtain ⟨hc, ha, hb⟩ : g.tensor cond = .ok tc ∧ g.tensor a = .ok ta ∧ g.tensor b = .ok tb := by
    simpa using tensors_ok_iff.1 hts
  have hg₁ : (g.expanded o node.output cond a b chosen inverse other sum).Wellformed :=
    wellformed_expanded hg hn hc ha hb
  have hlive : (g.expanded o node.output cond a b chosen inverse other sum).resolve node.output =
      .ok node.output := resolve_of_tensor (extends_expanded.tensor (tensor_detach ht))
  obtain ⟨v, hv, r⟩ := diverts_replaceVariable hg₁ hlive hreplace
  obtain ⟨_, _, _, hadded, -⟩ := sum_of_expanded (g := g)
  obtain rfl := Except.ok.inj ((resolve_of_live hadded).symm.trans hv)
  exact ⟨wellformed_replaceVariable hg₁ hreplace, node, cond, a, b, tc, ta, tb, t, chosen, inverse,
    other, sum, hn, hselects, hts, ht, k, halike, r, hreplace,
    rewired_replaceVariable hg hn hslot hi hg₁ extends_expanded r⟩

end

/-! ## The values of the arithmetic form -/

section

variable {g h : Graph ℚ} {o : OpId} {fed : Values ℚ} {output cond a b : VarId} {tc ta tb : Tensor ℚ}
  {chosen inverse other sum : TensorType} {dc da db d : Array ℚ}

/-- The variable that stands in for a selection has its value. -/
theorem hasValue_expanded
    (r : Diverts (g.expanded o output cond a b chosen inverse other sum) h output
      ⟨g.slots.size + 3⟩)
    (hlt : output.index < g.slots.size) (hi : ∀ v ∈ h.inputs, v.index < g.slots.size)
    (hc : g.tensor cond = .ok tc) (ha : g.tensor a = .ok ta) (hb : g.tensor b = .ok tb)
    (hdc : h.HasValue fed (if cond = output then ⟨g.slots.size + 3⟩ else cond) dc)
    (hda : h.HasValue fed (if a = output then ⟨g.slots.size + 3⟩ else a) da)
    (hdb : h.HasValue fed (if b = output then ⟨g.slots.size + 3⟩ else b) db)
    (k : SelectForm ℚ tc.type ta.type tb.type chosen inverse other sum)
    (hsized : Sized tc.type.shape ∧ Sized ta.type.shape ∧ Sized tb.type.shape)
    (htruth : ∀ x ∈ dc, IsTruth x) (hchosen : (wordStrides chosen.sizes).isSome)
    (hother : (wordStrides other.sizes).isSome)
    (he : (Operator.pointwise .select).evaluate
      [(tc.type, dc), (ta.type, da), (tb.type, db)] sum = .ok d) :
    h.HasValue fed ⟨g.slots.size + 3⟩ d := by
  obtain ⟨d₁, d₂, d₃, he₁, he₂, he₃, he₄⟩ :=
    evaluate_selectForm k hsized htruth hchosen hother he
  have old : ∀ {v : VarId} {t : Tensor ℚ}, g.tensor v = .ok t →
      (g.expanded o output cond a b chosen inverse other sum).tensor v = .ok t :=
    fun hv => extends_expanded.tensor (tensor_detach hv)
  have fresh : ∀ {v : VarId}, g.slots.size ≤ v.index → v ≠ output := by
    rintro v hv rfl
    omega
  have noInput : ∀ {v : VarId}, g.slots.size ≤ v.index → v ∉ h.inputs := fun hv hvi =>
    absurd (hi _ hvi) (Nat.not_lt.2 hv)
  have kept : ∀ (v : VarId) (e : Array ℚ), g.slots.size ≤ v.index → h.HasValue fed v e →
      h.HasValue fed (if v = output then ⟨g.slots.size + 3⟩ else v) e := by
    intro v e hv he
    rwa [if_neg (fresh hv)]
  have n₀ : g.slots.size ≤ g.slots.size := Nat.le_refl _
  have n₁ : g.slots.size ≤ g.slots.size + 1 := Nat.le_add_right _ _
  have n₂ : g.slots.size ≤ g.slots.size + 2 := Nat.le_add_right _ _
  have n₃ : g.slots.size ≤ g.slots.size + 3 := Nat.le_add_right _ _
  have e₁ : Extends ((g.detach o output).place (.pointwise .mul) [cond, a] chosen)
      (g.expanded o output cond a b chosen inverse other sum) :=
    ((extends_place ..).trans (extends_place ..)).trans (extends_place ..)
  have e₂ : Extends (((g.detach o output).place (.pointwise .mul) [cond, a] chosen).place
      .invert [cond] inverse) (g.expanded o output cond a b chosen inverse other sum) :=
    (extends_place ..).trans (extends_place ..)
  have e₃ : Extends ((((g.detach o output).place (.pointwise .mul) [cond, a] chosen).place
      .invert [cond] inverse).place (.pointwise .mul) [⟨g.slots.size + 1⟩, b] other)
      (g.expanded o output cond a b chosen inverse other sum) := extends_place ..
  have v₁ : h.HasValue fed ⟨g.slots.size⟩ d₁ :=
    .of_placed e₁ r (by rw [size_detach]) (tensors_ok_iff.2 (.cons (old hc) (.cons (old ha) .nil)))
      (fresh n₀) (noInput n₀) (.cons hdc (.cons hda .nil)) he₁
  have v₂ : h.HasValue fed ⟨g.slots.size + 1⟩ d₂ :=
    .of_placed e₂ r (by rw [size_place, size_detach]) (tensors_ok_iff.2 (.cons (old hc) .nil))
      (fresh n₁) (noInput n₁) (.cons hdc .nil) he₂
  have t₁ := e₁.tensor (tensor_place ..)
  have t₂ := e₂.tensor (tensor_place ..)
  have t₃ := e₃.tensor (tensor_place ..)
  simp only [size_place, size_detach] at t₁ t₂ t₃
  have v₃ : h.HasValue fed ⟨g.slots.size + 2⟩ d₃ :=
    .of_placed e₃ r (by rw [size_place, size_place, size_detach])
      (tensors_ok_iff.2 (.cons t₂ (.cons (old hb) .nil))) (fresh n₂) (noInput n₂)
      (.cons (kept _ _ n₁ v₂) (.cons hdb .nil)) he₃
  exact .of_placed (.refl _) r (by rw [size_place, size_place, size_place, size_detach])
    (tensors_ok_iff.2 (.cons t₁ (.cons t₃ .nil))) (fresh n₃) (noInput n₃)
    (.cons (kept _ _ n₀ v₁) (.cons (kept _ _ n₂ v₃) .nil)) he₄

/-! ## Safe selections -/

/-- Conditions that are fed hold truth values, and the products of a condition with the operands
it selects between can be addressed. -/
structure SafeSelections (fed : Values ℚ) (g : Graph ℚ) : Prop where
  truth : ∀ o cond a b, g.Selects o cond a b → ∀ d, fed.get? cond = some d → ∀ x ∈ d, IsTruth x
  fits : ∀ o cond a b tc ta tb, g.Selects o cond a b → g.tensors [cond, a, b] = .ok [tc, ta, tb] →
    tc.type.ProductFits ta.type ∧ tc.type.ProductFits tb.type

/-- The condition of a safe selection has truth values for its elements. -/
theorem Selects.isTruth (hg : g.Wellformed) (k : g.Selects o cond a b)
    (hfed : ∀ d, fed.get? cond = some d → ∀ x ∈ d, IsTruth x) (hv : g.HasValue fed cond d) :
    ∀ x ∈ d, IsTruth x := by
  obtain ⟨p, compared, hp, hn, hcmp⟩ := k.compared
  cases hv with
  | leaf _ _ hfetch =>
    rcases fetch_ok_iff.1 hfetch with hd | ⟨-, t, ht, hdata⟩
    · exact hfed d hd
    · -- A produced variable holds no constant data.
      obtain ⟨q, hslot⟩ := tensor_ok_iff.1 ht
      obtain rfl : q = some p := (producer_of_live hslot).symm.trans hp
      rw [(hg.produced cond t p hslot).1] at hdata
      cases hdata
  | computed _ hp' hn' _ _ _ _ _ he =>
    obtain rfl := Option.some.inj (hp.symm.trans hp')
    obtain rfl := Option.some.inj (hn.symm.trans hn')
    exact isTruth_of_comparison hcmp he

theorem sound_expanded {node : Node ℚ} (hs : g.Sound) (hc : g.tensor cond = .ok tc)
    (k : SelectForm ℚ tc.type ta.type tb.type chosen inverse other sum) :
    (g.expanded o node.output cond a b chosen inverse other sum).Sound := by
  obtain ⟨rfl, -, -, -, hchosen, hother⟩ := k.broadcasts
  obtain ⟨_, _, hsum⟩ := k.inferSum
  obtain ⟨p, hslot⟩ := tensor_ok_iff.1 hc
  have placed : ∀ {g : Graph ℚ} {op : Operator ℚ} {ins : List VarId} {type : TensorType},
      g.Sound → Sized type.shape → (g.place op ins type).Sound :=
    fun hs hsized => allTensors_push hs rfl ⟨hsized, fun x hx => by cases hx⟩
  exact placed (placed (placed (placed (allTensors_detach hs) hchosen) (hs _ _ _ hslot).1) hother)
    (checked_infer hsum).sized

/-- The selections that a visit leaves have their conditions where they had them, and operands of
the same types. -/
theorem selects_of_expanded {node : Node ℚ} {o' : OpId} {cond' a' b' : VarId} (hg : g.Wellformed)
    (w : Rewired g h o node.output ⟨g.slots.size + 3⟩)
    (r : Diverts (g.expanded o node.output cond a b chosen inverse other sum) h node.output
      ⟨g.slots.size + 3⟩)
    (k : h.Selects o' cond' a' b') : ∃ a₀ b₀, g.Selects o' cond' a₀ b₀ ∧
      [cond', a', b'] = [cond', a₀, b₀].map fun v =>
        if v = node.output then ⟨g.slots.size + 3⟩ else v := by
  have old : ∀ {p : OpId} {n : Node ℚ}, h.node? p = some n →
      (n.op = .pointwise .select ∨ n.op.isComparison = true) → g.node? p = some n := by
    intro p n hn hop
    have hn₄ : (g.expanded o node.output cond a b chosen inverse other sum).node? p = some n := by
      unfold node? at hn ⊢
      rwa [← r.nodes]
    rcases node?_of_expanded hn₄ with hn | hn | hn | hn
    · exact hn
    all_goals
      rw [hn] at hop
      rcases hop with hop | hop
      · cases hop
      · cases hop
  obtain ⟨n, hn', hop⟩ := k.select
  have hn := old hn' (.inl hop)
  obtain ⟨ins, hins⟩ : ∃ ins, g.inputsOf o' = .ok ins := inputsOf_ok hg hn
  have hmap := w.links.inputsOf hn hn' rfl hins
  rw [k.inputs, Except.ok.injEq] at hmap
  obtain ⟨c₀, a₀, b₀, rfl⟩ : ∃ c₀ a₀ b₀, ins = [c₀, a₀, b₀] :=
    List.length_eq_three.1 (by rw [← List.length_map (f := _), ← hmap]; rfl)
  obtain ⟨p, compared, hp, hcompared, hcmp⟩ := k.compared
  have hc₀ : c₀ ≠ node.output := by
    intro e
    rw [List.map_cons, if_pos e] at hmap
    obtain ⟨x, hx⟩ := w.produced
    have hne : (⟨g.slots.size + 3⟩ : VarId) ≠ node.output := by
      intro e
      have hlt := slot?_lt hx
      rw [← e] at hlt
      exact absurd hlt (Nat.not_lt.2 (Nat.le_add_right _ _))
    obtain ⟨t, q, added, hslot, hadded, hop⟩ := sum_of_expanded (g := g)
    obtain ⟨t', hslot', -⟩ := r.live _ t _ hne hslot
    rw [(List.cons.inj hmap).1, producer_of_live hslot'] at hp
    obtain rfl := Option.some.inj hp
    unfold node? at hadded hcompared
    rw [r.nodes, hadded] at hcompared
    obtain rfl := Option.some.inj hcompared
    rw [hop] at hcmp
    cases hcmp
  have hcond : cond' = c₀ := by
    rw [List.map_cons, if_neg hc₀] at hmap
    exact (List.cons.inj hmap).1
  subst hcond
  obtain ⟨t, q, hslot⟩ := live_of_resolve (resolve_of_mem_inputsOf hins (List.mem_cons_self ..))
  obtain ⟨t', hslot', -⟩ := w.live _ t q hc₀ hslot
  obtain rfl : q = some p := (producer_of_live hslot').symm.trans hp
  exact ⟨a₀, b₀, ⟨⟨n, hn, hop⟩, hins, p, compared, producer_of_live hslot,
    old hcompared (.inr hcmp), hcmp⟩, hmap⟩

/-- Selections that were safe are safe after a visit. -/
theorem SafeSelections.expanded {node : Node ℚ} (hg : g.Wellformed) (hsafe : SafeSelections fed g)
    (w : Rewired g h o node.output ⟨g.slots.size + 3⟩)
    (r : Diverts (g.expanded o node.output cond a b chosen inverse other sum) h node.output
      ⟨g.slots.size + 3⟩) : SafeSelections fed h where
  truth o' cond' a' b' k := by
    obtain ⟨a₀, b₀, k₀, -⟩ := selects_of_expanded hg w r k
    exact hsafe.truth o' cond' a₀ b₀ k₀
  fits o' cond' a' b' tc' ta' tb' k hts' := by
    obtain ⟨a₀, b₀, k₀, hmap⟩ := selects_of_expanded hg w r k
    obtain ⟨tc₀, ta₀, tb₀, hts⟩ := tensors_of_selects k₀
    obtain ⟨us, hus, hrenamed⟩ := w.links.tensors hts
    rw [← hmap, hts'] at hus
    obtain rfl := Except.ok.inj hus
    obtain ⟨hc, ha, hb⟩ : tc₀.type.Renamed id tc'.type ∧ ta₀.type.Renamed id ta'.type ∧
        tb₀.type.Renamed id tb'.type := by simpa using hrenamed
    obtain ⟨hfa, hfb⟩ := hsafe.fits o' cond' a₀ b₀ tc₀ ta₀ tb₀ k₀ hts
    exact ⟨hfa.renamed hc ha, hfb.renamed hc hb⟩

theorem preserves_expandSelect {s s' : Supply} {c : Bool} (hg : g.Wellformed) (hs : g.Sound)
    (hsafe : SafeSelections fed g) (ho : g.Computes o)
    (hedit : (PassM.expandSelect o : PassM ℚ Bool).Edits g s c h s') :
    h = g ∨ h.Wellformed ∧ (h.Sound ∧ SafeSelections fed h) ∧ Preserves fed g h ∧
      ∃ a b, Rewired g h o a b := by
  refine (rewired_expandSelect hg ho hedit).imp_right ?_
  rintro ⟨hh, node, cond, a, b, tc, ta, tb, t, chosen, inverse, other, sum, hn, hselects, hts, ht,
    k, halike, r, hreplace, w⟩
  obtain ⟨hc, ha, hb⟩ : g.tensor cond = .ok tc ∧ g.tensor a = .ok ta ∧ g.tensor b = .ok tb := by
    simpa using tensors_ok_iff.1 hts
  have hinputs : ∀ v ∈ h.inputs, v.index < g.slots.size := by
    rw [w.inputs hg]
    exact fun v hv => lt_of_resolve (resolve_of_mem_inputs hv)
  have sized : ∀ {v : VarId} {t : Tensor ℚ}, g.tensor v = .ok t → Sized t.type.shape := by
    intro v t ht
    obtain ⟨p, hslot⟩ := tensor_ok_iff.1 ht
    exact (hs v t p hslot).1
  refine ⟨hh, ⟨allTensors_replaceVariable (sound_expanded hs hc k) hreplace, hsafe.expanded hg w r⟩,
    w.preserves hg ?_, _, _, w⟩
  intro node₂ ins us t₂ ds d hn₂ _ hins hus ht₂ hvals hvals' he
  obtain rfl := Option.some.inj (hn.symm.trans hn₂)
  obtain rfl := Except.ok.inj (hselects.inputs.symm.trans hins)
  obtain rfl := Except.ok.inj (hts.symm.trans hus)
  obtain rfl := Except.ok.inj (ht.symm.trans ht₂)
  obtain ⟨dc, da, db, rfl⟩ : ∃ dc da db, ds = [dc, da, db] :=
    List.length_eq_three.1 hvals.length_eq.symm
  simp only [List.forall₂_cons, List.forall₂_nil_left_iff, and_true] at hvals hvals'
  obtain ⟨select, hselect, hop⟩ := hselects.select
  obtain rfl := Option.some.inj (hn.symm.trans hselect)
  rw [hop] at he
  have heval : (Operator.pointwise .select).evaluate
      [(tc.type, dc), (ta.type, da), (tb.type, db)] sum = .ok d :=
    Operator.evaluate_renamed (Operator.mapAxes_id _)
      (.cons (.refl tc.type) (.cons (.refl ta.type) (.cons (.refl tb.type) .nil)))
      ⟨by rw [halike.axes, List.map_id, List.map_id], shape_beq_symm halike.shape⟩
      (Operator.keepsApart_id _ _ _) he
  have hconcrete := isConcrete_of_evaluate heval
  simp only [List.forall_mem_cons, List.not_mem_nil, false_imp_iff, implies_true,
    and_true] at hconcrete
  obtain ⟨hcc, hca, hcb⟩ := hconcrete
  obtain ⟨hfa, hfb⟩ := hsafe.fits o cond a b tc ta tb hselects hts
  obtain ⟨_, _, hchosen⟩ := k.inferChosen
  obtain ⟨_, _, hother⟩ := k.inferOther
  rw [k.broadcasts.1] at hother
  exact hasValue_expanded r (hg.output o node hn).1 hinputs hc ha hb hvals'.1 hvals'.2.1 hvals'.2.2 k
    ⟨sized hc, sized ha, sized hb⟩
    (hselects.isTruth hg (hsafe.truth o cond a b hselects) hvals.1)
    (hfa hcc hca _ _ _ hchosen) (hfb hcc hcb _ _ _ hother) heval

/-! ## The runs -/

/-- With exact arithmetic the expansion of selections keeps the meaning of every reached graph,
where the conditions of selections hold truth values if they are fed and the products of the
arithmetic forms can be addressed. -/
theorem run_after_expandSelects {s s₁ s' : Supply} {c : Bool}
    {feeds out : List (VarId × Array ℚ)} (hr : Reached s g)
    (hedit : (expandSelects : Pass (PassM ℚ)).run.Edits g s₁ c h s')
    (hf : g.FeedsInputs feeds)
    (htruth : ∀ o cond a b, g.Selects o cond a b → ∀ e ∈ feeds, g.resolve e.1 = .ok cond →
      ∀ x ∈ e.2, IsTruth x)
    (hfits : ∀ o cond a b tc ta tb, g.Selects o cond a b →
      g.tensors [cond, a, b] = .ok [tc, ta, tb] →
      tc.type.ProductFits ta.type ∧ tc.type.ProductFits tb.type)
    (hrun : g.run feeds = .ok out) :
    ∃ out', h.run feeds = .ok out' ∧ out'.map (·.2) = out.map (·.2) := by
  obtain ⟨ds, hsession⟩ := hr
  have hg := hsession.wellformed
  have key : ∀ fed, feeds.foldlM g.feed {} = .ok fed → h.Wellformed ∧ Preserves fed g h := by
    intro fed hfed
    have hsafe : SafeSelections fed g := by
      refine ⟨fun o cond a b k => ?_, hfits⟩
      refine foldlM_ok_induction
        (P := fun values => ∀ d, values.get? cond = some d → ∀ x ∈ d, IsTruth x) hfed
        (fun d hd => by cases hd) ?_
      intro values e values' he hvalues hfeed d hd
      obtain ⟨w, t, hw, -, -, rfl⟩ := feed_ok_iff.1 hfeed
      rw [Values.get?_set] at hd
      split at hd
      · next hcw =>
        cases hd
        exact htruth o cond a b k e he (hcw ▸ hw)
      · exact hvalues d hd
    exact sweep_preserves (Q := fun g => g.Sound ∧ SafeSelections fed g) hg
      ⟨hsession.sound, hsafe⟩ hedit fun o g s c h s' hg hQ ho hstep =>
        preserves_expandSelect hg hQ.1 hQ.2 ho hstep
  obtain ⟨fed, hfed, -⟩ := (run_ok_iff hg hf).1 hrun
  exact run_of_preserves hg (key fed hfed).1 hf (fun fed hfed => (key fed hfed).2) hrun

/-- A selection by the outcome of a comparison. -/
def selection : Graph ℚ where
  slots := #[.live { type := scalarType, marks := [.input] } none,
    .live { type := scalarType, marks := [.input] } none,
    .live { type := scalarType, marks := [.input] } none,
    .live { type := scalarType } (some ⟨0⟩), .live { type := scalarType } (some ⟨1⟩)]
  nodes := #[some ⟨.pointwise .greater, [⟨0⟩, ⟨0⟩], ⟨3⟩⟩,
    some ⟨.pointwise .select, [⟨3⟩, ⟨1⟩, ⟨2⟩], ⟨4⟩⟩]
  declaredInputs := [⟨0⟩, ⟨1⟩, ⟨2⟩]

/-- The selection alone, with its condition as an input. -/
def fedSelection : Graph ℚ :=
  { selection with declaredInputs := [⟨3⟩, ⟨1⟩, ⟨2⟩], declaredOutputs := [⟨4⟩] }

/-- The arithmetic form of the selection alone. -/
def fedArithmetic : Graph ℚ where
  slots := #[.live { type := scalarType, marks := [.input] } none,
    .live { type := scalarType, marks := [.input] } none,
    .live { type := scalarType, marks := [.input] } none,
    .live { type := scalarType } (some ⟨0⟩), .replaced ⟨8⟩,
    .live { type := scalarType } (some ⟨2⟩), .live { type := scalarType } (some ⟨3⟩),
    .live { type := scalarType } (some ⟨4⟩), .live { type := scalarType } (some ⟨5⟩)]
  nodes := #[some ⟨.pointwise .greater, [⟨0⟩, ⟨0⟩], ⟨3⟩⟩, none,
    some ⟨.pointwise .mul, [⟨3⟩, ⟨1⟩], ⟨5⟩⟩, some ⟨.invert, [⟨3⟩], ⟨6⟩⟩,
    some ⟨.pointwise .mul, [⟨6⟩, ⟨2⟩], ⟨7⟩⟩, some ⟨.pointwise .add, [⟨5⟩, ⟨7⟩], ⟨8⟩⟩]
  declaredInputs := [⟨3⟩, ⟨1⟩, ⟨2⟩]
  declaredOutputs := [⟨4⟩]

/-- The selection as far as its first places and operators. -/
def selectionPart (places operators : Nat) : Graph ℚ :=
  { selection with
    slots := selection.slots.extract 0 places, nodes := selection.nodes.extract 0 operators }

theorem reached_fedSelection : Reached {} fedSelection := by
  have made : (⟨scalarType, [], none⟩ : Tensor ℚ).MadeFrom [] {} {} :=
    ⟨(fun _ hd => by cases hd), rfl, (fun _ hx => by cases hx)⟩
  have compare : Gives ((selectionPart 3 0).addOp (.pointwise .greater) [⟨0⟩, ⟨0⟩]) {}
      (selectionPart 4 1, ⟨3⟩) {} := by
    unfold Gives
    cbv
  have select : Gives ((selectionPart 4 1).addOp (.pointwise .select) [⟨3⟩, ⟨1⟩, ⟨2⟩]) {}
      (selection, ⟨4⟩) {} := by
    unfold Gives
    cbv
  have hinduced : selection.induced [⟨3⟩, ⟨1⟩, ⟨2⟩] [⟨4⟩] = .ok fedSelection := by cbv
  have inputs : Session false {} [] (selectionPart 3 0) :=
    .addInput (.addInput (.addInput (.empty {}) made) made) made
  exact ⟨[], .induced (.addOp (.addOp inputs compare) select) hinduced⟩

theorem edits_fedSelection :
    (expandSelects : Pass (PassM ℚ)).run.Edits fedSelection {} true fedArithmetic {} := by
  unfold PassM.Edits
  cbv

theorem type_of_fedSelection {v : VarId} {t : Tensor ℚ} (ht : fedSelection.tensor v = .ok t) :
    t.type = scalarType := by
  obtain ⟨p, hslot⟩ := tensor_ok_iff.1 ht
  have hmem : Slot.live t p ∈ fedSelection.slots := Array.mem_of_getElem? hslot
  simp only [fedSelection, selection, List.mem_toArray, List.mem_cons, Slot.live.injEq,
    List.not_mem_nil, or_false] at hmem
  rcases hmem with ⟨rfl, -⟩ | ⟨rfl, -⟩ | ⟨rfl, -⟩ | ⟨rfl, -⟩ | ⟨rfl, -⟩ <;> rfl

theorem feeds_fedSelection (c x y : Array ℚ) :
    fedSelection.FeedsInputs [(⟨3⟩, c), (⟨1⟩, x), (⟨2⟩, y)] := by
  have hinputs : fedSelection.inputs = [⟨3⟩, ⟨1⟩, ⟨2⟩] := by cbv
  intro e he
  simp only [List.mem_cons, List.not_mem_nil, or_false] at he
  rcases he with rfl | rfl | rfl
  · exact ⟨⟨3⟩, by simp [hinputs], by cbv⟩
  · exact ⟨⟨1⟩, by simp [hinputs], by cbv⟩
  · exact ⟨⟨2⟩, by simp [hinputs], by cbv⟩

theorem run_fedSelection_after_expandSelects :
    ∃ h, (expandSelects : Pass (PassM ℚ)).run.Edits fedSelection {} true h {} ∧
      ∃ out, h.run [(⟨3⟩, #[1]), (⟨1⟩, #[1]), (⟨2⟩, #[0])] = .ok out ∧
        out.map (·.2) = [#[1]] := by
  have hrun : fedSelection.run [(⟨3⟩, #[1]), (⟨1⟩, #[1]), (⟨2⟩, #[0])] = .ok [(⟨4⟩, #[1])] := by
    cbv
  have hproduct : Gives ((Operator.pointwise .mul : Operator ℚ).infer [scalarType, scalarType]) {}
      scalarType {} := by
    unfold Gives
    cbv
  have hfit : scalarType.ProductFits scalarType := by
    intro _ _ s t s' ht
    rw [infer_pointwise_unique ht hproduct]
    rfl
  refine ⟨fedArithmetic, edits_fedSelection, run_after_expandSelects reached_fedSelection
    edits_fedSelection (feeds_fedSelection _ _ _) ?_ ?_ hrun⟩
  · intro o cond a b _ e he _ x hx
    simp only [List.mem_cons, List.not_mem_nil, or_false] at he
    rcases he with rfl | rfl | rfl
    · exact .inr (by simpa using hx)
    · exact .inr (by simpa using hx)
    · exact .inl (by simpa using hx)
  · intro o cond a b tc ta tb _ hts
    obtain ⟨hc, ha, hb⟩ : fedSelection.tensor cond = .ok tc ∧ fedSelection.tensor a = .ok ta ∧
        fedSelection.tensor b = .ok tb := by
      simpa using tensors_ok_iff.1 hts
    rw [type_of_fedSelection hc, type_of_fedSelection ha, type_of_fedSelection hb]
    exact ⟨hfit, hfit⟩

/-- A fed condition that is no truth value: the selection takes everything but zero for true. -/
theorem run_differs_after_expandSelects :
    Reached {} fedSelection ∧
      fedSelection.FeedsInputs [(⟨3⟩, #[2]), (⟨1⟩, #[3]), (⟨2⟩, #[5])] ∧
      (expandSelects : Pass (PassM ℚ)).run.Edits fedSelection {} true fedArithmetic {} ∧
      fedSelection.run [(⟨3⟩, #[2]), (⟨1⟩, #[3]), (⟨2⟩, #[5])] = .ok [(⟨4⟩, #[3])] ∧
      fedArithmetic.run [(⟨3⟩, #[2]), (⟨1⟩, #[3]), (⟨2⟩, #[5])] = .ok [(⟨8⟩, #[1])] := by
  exact ⟨reached_fedSelection, feeds_fedSelection _ _ _, edits_fedSelection, by cbv, by cbv⟩

end

end Graph

end TensorCompiler
