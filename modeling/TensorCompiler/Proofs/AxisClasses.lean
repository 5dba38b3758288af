import TensorCompiler.Proofs.AxisClosure
import TensorCompiler.Proofs.PassMeaning
import TensorCompiler.Proofs.Rounds
import TensorCompiler.Proofs.SelectForm
/-!
# Axis classes and renaming

Axis unification renames every axis to the representative of its class. Once that is done, the same
hints have nothing left to rename: a representative of the larger classes is one of the smaller
classes too. The constraints on the first axes of the outputs are gone as well, since the batch axis
always stands for itself.

* `Graph.unifyWith_eq`: axis unification renames by the classes of its constraints.
* `Graph.SettledFor`: a graph whose axes all stand for themselves.
* `Graph.settledFor_of_unifyAxes`: axis unification arrives at such a graph.
* `Graph.SettledFor.unifyAxes_again`: it changes nothing there, and when it reports so.
-/

namespace TensorCompiler

/-! ## Renaming by settled classes -/

/-- An update that leaves every entry as it is tells whether one of them counts as changed. -/
theorem updateEach_of_same {β ε : Type} {f : β → Except ε (β × Bool)} {changed : β → Bool}
    {xs : List β} (h : ∀ x ∈ xs, f x = .ok (x, changed x)) :
    updateEach f xs = (xs, .ok (xs.any changed)) := by
  induction xs with
  | nil => rfl
  | cons x xs ih =>
    obtain ⟨hx, hxs⟩ := List.forall_mem_cons.1 h
    simp only [updateEach, hx, ih hxs]
    rfl

theorem unchanged_of_updateEach {β ε : Type} {f : β → Except ε (β × Bool)} {xs : List β}
    (hf : ∀ x y, f x = .ok (y, false) → y = x) (h : (updateEach f xs).2 = .ok false) :
    (updateEach f xs).1 = xs := by
  induction xs with
  | nil => rfl
  | cons x xs ih =>
    cases hx : f x with
    | error e =>
      rw [updateEach, hx] at h
      cases h
    | ok p =>
      obtain ⟨y, changed⟩ := p
      simp only [updateEach, hx] at h ⊢
      cases hrest : (updateEach f xs).2 with
      | error e =>
        rw [hrest] at h
        cases h
      | ok rest =>
        rw [hrest] at h
        obtain ⟨rfl, rfl⟩ := Bool.or_eq_false_iff.1 (Except.ok.inj h)
        rw [ih hrest, hf x y hx]

theorem TensorType.rename?_of_fixed {t : TensorType} {f : Axis → Axis}
    (h : ∀ a ∈ t.order.axes, f a = a) : t.rename? f = some t := by
  have haxes : t.order.axes.map f = t.order.axes := by
    conv_rhs => rw [← List.map_id t.order.axes]
    exact List.map_congr_left h
  have horder : t.order.map? f = some t.order := by
    rw [Order.map?, Order.ofList?_eq_some_iff, haxes]
  unfold rename?
  split
  · next o ho =>
    obtain rfl := Option.some.inj (horder.symm.trans ho)
    rfl
  · next ho =>
    rw [horder] at ho
    cases ho

namespace Graph

variable {α : Type} {g h : Graph α} {f : Axis → Axis}

/-- An axis of a live tensor. -/
def HasAxis (g : Graph α) (a : Axis) : Prop :=
  ∃ v t p, g.slot? v = some (.live t p) ∧ a ∈ t.type.order.axes

theorem mem_slots_iff {x : Slot α} : x ∈ g.slots.toList ↔ ∃ v, g.slot? v = some x := by
  rw [Array.mem_toList_iff, Array.mem_iff_getElem?]
  exact ⟨fun ⟨i, hi⟩ => ⟨⟨i⟩, hi⟩, fun ⟨v, hv⟩ => ⟨v.index, hv⟩⟩

theorem mem_nodes_iff {n : Node α} : some n ∈ g.nodes.toList ↔ ∃ o, g.node? o = some n := by
  rw [Array.mem_toList_iff, Array.mem_iff_getElem?]
  constructor
  · intro h
    obtain ⟨i, hi⟩ := h
    exact ⟨⟨i⟩, by rw [node?, hi]; rfl⟩
  · intro h
    obtain ⟨o, ho⟩ := h
    exact ⟨o.index, Option.join_eq_some_iff.1 ho⟩

variable [Scalar α]

omit [Scalar α] in
theorem unchanged_of_slot {x y : Slot α} (h : x.renameAxes f = .ok (y, false)) : y = x := by
  cases x with
  | replaced v =>
    cases h
    rfl
  | live t p =>
    simp only [Slot.renameAxes] at h
    split at h
    · next type htype =>
      simp only [Except.ok.injEq, Prod.mk.injEq, decide_eq_false_iff_not, Decidable.not_not] at h
      obtain ⟨rfl, horder⟩ := h
      rw [TensorType.ext_of (TensorType.rename?_eq_some htype).1 horder]
    · cases h

theorem unchanged_of_node {n m : Node α} (h : n.renameAxes f = .ok (m, false)) : m = n := by
  unfold Node.renameAxes at h
  obtain ⟨op, -, h⟩ := bind_ok_iff.1 h
  split at h
  · cases h
    rfl
  · cases h

theorem unchanged_of_entry {x y : Option (Node α)} (h : renameEntry f x = .ok (y, false)) :
    y = x := by
  cases x with
  | none =>
    cases h
    rfl
  | some n =>
    cases hn : n.renameAxes f with
    | error e =>
      rw [renameEntry, hn] at h
      cases h
    | ok p =>
      obtain ⟨m, changed⟩ := p
      rw [renameEntry, hn] at h
      cases h
      rw [unchanged_of_node hn]

/-- A renaming that reports no change makes none. -/
theorem renameAxes_unchanged (h : (g.renameAxes f).2 = .ok false) : (g.renameAxes f).1 = g := by
  unfold renameAxes at h ⊢
  rcases hslots : updateEach (Slot.renameAxes f) g.slots.toList with ⟨slots, e | changed⟩
  · simp only [hslots] at h
    cases h
  · simp only [hslots] at h ⊢
    have h : (updateEach (renameEntry f) g.nodes.toList).2.map (changed || ·) = .ok false := h
    show { g with
      slots := slots.toArray
      nodes := (updateEach (renameEntry f) g.nodes.toList).1.toArray } = g
    cases hnodes : (updateEach (renameEntry f) g.nodes.toList).2 with
    | error e =>
      rw [hnodes] at h
      cases h
    | ok changed' =>
      rw [hnodes] at h
      obtain ⟨rfl, rfl⟩ := Bool.or_eq_false_iff.1 (Except.ok.inj h)
      have hs : slots = g.slots.toList := by
        have hsame : (updateEach (Slot.renameAxes f) g.slots.toList).1 = g.slots.toList :=
          unchanged_of_updateEach (fun _ _ => unchanged_of_slot) (by rw [hslots])
        rwa [hslots] at hsame
      rw [hs, unchanged_of_updateEach (fun _ _ => unchanged_of_entry) hnodes]

/-- A renaming of axes that stand for themselves changes nothing. It reports so if every operator
equals itself. -/
theorem renameAxes_of_fixed (haxes : ∀ a, g.HasAxis a → f a = a)
    (hnodes : ∀ o n, g.node? o = some n → n.op.mapAxes f = .ok n.op) :
    ∃ c, g.renameAxes f = (g, .ok c) ∧
      (c = false ↔ ∀ o n, g.node? o = some n → n.op.eqv n.op = true) := by
  have hslots : updateEach (Slot.renameAxes f) g.slots.toList = (g.slots.toList, .ok false) := by
    have hsame : updateEach (Slot.renameAxes f) g.slots.toList =
        (g.slots.toList, .ok (g.slots.toList.any fun _ => false)) := by
      refine updateEach_of_same fun x hx => ?_
      obtain ⟨v, hv⟩ := mem_slots_iff.1 hx
      cases x with
      | replaced w => rfl
      | live t p =>
        have htype := TensorType.rename?_of_fixed (f := f) fun a ha => haxes a ⟨v, t, p, hv, ha⟩
        simp only [Slot.renameAxes, htype]
        simp
    rwa [List.any_eq_false.2 fun _ _ => Bool.false_ne_true] at hsame
  -- An entry counts as changed if its operator does not equal itself.
  let changed : Option (Node α) → Bool := fun x => x.any fun n => !n.op.eqv n.op
  have hentries : updateEach (renameEntry f) g.nodes.toList =
      (g.nodes.toList, .ok (g.nodes.toList.any changed)) := by
    refine updateEach_of_same fun x hx => ?_
    cases x with
    | none => rfl
    | some n =>
      obtain ⟨o, ho⟩ := mem_nodes_iff.1 hx
      have hn : n.renameAxes f = .ok (n, !n.op.eqv n.op) := by
        simp only [Node.renameAxes, hnodes o n ho, bind, Except.bind]
        cases n.op.eqv n.op <;> rfl
      simp only [renameEntry, hn]
      rfl
  have hunfold : g.renameAxes f = ({ g with
      slots := g.slots.toList.toArray
      nodes := (updateEach (renameEntry f) g.nodes.toList).1.toArray },
        (updateEach (renameEntry f) g.nodes.toList).2.map (false || ·)) := by
    unfold renameAxes
    simp only [hslots]
    rfl
  refine ⟨g.nodes.toList.any changed, by rw [hunfold, hentries]; rfl, ?_⟩
  rw [List.any_eq_false]
  constructor
  · intro h o n hn
    simpa [changed] using h _ (mem_nodes_iff.2 ⟨o, hn⟩)
  · intro h x hx
    cases x with
    | none => exact Bool.false_ne_true
    | some n =>
      obtain ⟨o, ho⟩ := mem_nodes_iff.1 hx
      simp [changed, h o n ho]

/-! ## Axis unification -/

/-- All axes of a graph stand for themselves, and the first axes of the outputs are the batch axis
already, if they have to be. -/
structure SettledFor (classes : AxisClasses) (batchFirst : Bool) (g : Graph α) : Prop where
  axes : ∀ a, g.HasAxis a → classes a = a
  nodes : ∀ o n, g.node? o = some n → n.op.mapAxes classes = .ok n.op
  first : batchFirst = true → ∀ v ∈ g.outputs, ∀ t, g.tensor v = .ok t →
    ∀ a, t.type.order.axes.head? = some a → a = .batch

/-- The constraints that axis unification finds in a graph. -/
def batchOf (batchFirst : Bool) (g : Graph α) : Except GraphError (List (Axis × Axis)) :=
  if batchFirst then g.batchConstraints else .ok []

/-- Some constrained axis does not stand for itself. -/
def moves (classes : AxisClasses) (constraints : List (Axis × Axis)) : Bool :=
  constraints.any fun (x, y) => classes x ≠ x || classes y ≠ y

theorem moves_iff {classes : AxisClasses} {constraints : List (Axis × Axis)} :
    moves classes constraints = true ↔
      ¬∀ c ∈ constraints, classes c.1 = c.1 ∧ classes c.2 = c.2 := by
  simp only [moves, List.any_eq_true, Bool.or_eq_true, decide_eq_true_eq, ne_eq, not_forall,
    not_and_or, exists_prop]

/-- What axis unification does with its constraints. -/
def unifyWith (constraints : List (Axis × Axis)) : PassM α Bool := do
  let classes ← AxisClasses.ofConstraints constraints
  if moves classes constraints then PassM.renameAxes classes else return false

theorem edits_unifyWith_iff {constraints : List (Axis × Axis)} {c : Bool} {s s' : Supply} :
    (unifyWith constraints : PassM α Bool).Edits g s c h s' ↔
      ∃ classes, AxisClasses.ofConstraints constraints = .ok classes ∧ s = s' ∧
        if moves classes constraints then g.renameAxes classes = (h, .ok c)
        else c = false ∧ h = g := by
  unfold unifyWith
  rw [PassM.edits_except_bind_iff]
  constructor
  · rintro ⟨classes, hclasses, hedit⟩
    refine ⟨classes, hclasses, ?_⟩
    split at hedit
    · next hm =>
      obtain ⟨h, rfl⟩ := PassM.edits_renameAxes_iff.1 hedit
      exact ⟨rfl, by rwa [if_pos hm]⟩
    · next hm =>
      obtain ⟨rfl, rfl, rfl⟩ := PassM.edits_pure_iff.1 hedit
      exact ⟨rfl, by rw [if_neg hm]; exact ⟨rfl, rfl⟩⟩
  · rintro ⟨classes, hclasses, rfl, hedit⟩
    refine ⟨classes, hclasses, ?_⟩
    split at hedit
    · next hm =>
      rw [if_pos hm]
      exact PassM.edits_renameAxes_iff.2 ⟨hedit, rfl⟩
    · next hm =>
      obtain ⟨rfl, rfl⟩ := hedit
      rw [if_neg hm]
      exact PassM.edits_pure_iff.2 ⟨rfl, rfl, rfl⟩

/-- What the forest of the constraints renames is what their classes rename. -/
theorem unifyWith_eq (constraints : List (Axis × Axis)) :
    (PassM.unify constraints : PassM α Bool) = unifyWith constraints := by
  have hclasses := AxisForest.ofConstraints_root constraints
  unfold PassM.unify unifyWith
  rw [← hclasses]
  cases hforest : AxisForest.ofConstraints constraints with
  | error e => rfl
  | ok forest =>
    show (if (forest.moved constraints).isEmpty then pure false
      else PassM.renameAxes fun a => ((forest.moved constraints).lookup a).getD a : PassM α Bool) =
      if moves forest.root constraints then PassM.renameAxes forest.root else pure false
    rw [AxisForest.substitution_eq hforest]
    by_cases hfixed : ∀ c ∈ constraints, forest.root c.1 = c.1 ∧ forest.root c.2 = c.2
    · rw [if_pos (AxisForest.isEmpty_moved_iff.2 hfixed), if_neg]
      rwa [moves_iff, not_not]
    · rw [if_neg fun h => hfixed (AxisForest.isEmpty_moved_iff.1 h), if_pos]
      exact moves_iff.2 hfixed

theorem edits_unifyAxes_iff {hints : List (Axis × Axis)} {batchFirst c : Bool} {s s' : Supply} :
    (unifyAxes hints batchFirst : Pass (PassM α)).run.Edits g s c h s' ↔
      ∃ batch, batchOf batchFirst g = .ok batch ∧
        (unifyWith (hints ++ batch) : PassM α Bool).Edits g s c h s' := by
  cases batchFirst with
  | true =>
    constructor
    · intro hedit
      obtain ⟨batch, hbatch, hedit⟩ :=
        PassM.edits_except_bind_iff.1 (PassM.edits_graph_bind_iff.1 hedit)
      exact ⟨batch, hbatch, unifyWith_eq (α := α) _ ▸ hedit⟩
    · rintro ⟨batch, hbatch, hedit⟩
      rw [← unifyWith_eq] at hedit
      exact PassM.edits_graph_bind_iff.2 (PassM.edits_except_bind_iff.2 ⟨batch, hbatch, hedit⟩)
  | false =>
    constructor
    · intro hedit
      exact ⟨[], rfl, unifyWith_eq (α := α) _ ▸ hedit⟩
    · rintro ⟨batch, hbatch, hedit⟩
      cases hbatch
      rw [← unifyWith_eq] at hedit
      exact hedit

theorem reports_unifyAxes (hints : List (Axis × Axis)) (batchFirst : Bool) :
    (unifyAxes hints batchFirst : Pass (PassM α)).run.Reports := by
  have with_constraints : ∀ {x : PassM α Bool} {constraints}, x = unifyWith constraints →
      x.Reports := by
    rintro _ constraints rfl
    refine (PassM.reports_except _).bind fun classes => ?_
    split
    · exact (PassM.regular_renameAxes _).reports
    · exact PassM.reports_pure _
  cases batchFirst with
  | true =>
    exact PassM.reports_graph.bind fun _ => (PassM.reports_except _).bind fun _ =>
      with_constraints (unifyWith_eq _)
  | false => exact with_constraints (unifyWith_eq (hints ++ []))

theorem steady_unifyAxes (hints : List (Axis × Axis)) (batchFirst : Bool) :
    (unifyAxes hints batchFirst : Pass (PassM α)).run.Steady := by
  intro g s h s' hedit
  obtain ⟨batch, hbatch, hunify⟩ := edits_unifyAxes_iff.1 hedit
  obtain ⟨classes, hclasses, rfl, hrename⟩ := edits_unifyWith_iff.1 hunify
  obtain rfl : h = g := by
    split at hrename
    · have := renameAxes_unchanged (congrArg Prod.snd hrename)
      exact (congrArg Prod.fst hrename).symm.trans this
    · exact hrename.2
  exact ⟨rfl, fun r => ⟨r, edits_unifyAxes_iff.2 ⟨batch, hbatch, edits_unifyWith_iff.2
    ⟨classes, hclasses, rfl, hrename⟩⟩⟩⟩

omit [Scalar α] in
/-- The first axis of every output is constrained to be the batch axis. -/
theorem mem_batchConstraints {batch : List (Axis × Axis)} (hbatch : g.batchConstraints = .ok batch)
    {c : Axis × Axis} : c ∈ batch ↔ ∃ v ∈ g.outputs, ∃ t, g.tensor v = .ok t ∧
      t.type.order.axes.head? = some c.1 ∧ c.2 = .batch := by
  simp only [batchConstraints, bind_ok_iff, pure_ok_iff, Graph.tensors, mapM_ok_iff] at hbatch
  obtain ⟨ts, hts, rfl⟩ := hbatch
  have member : c ∈ ts.filterMap (fun t => t.type.order.axes.head?.map (·, Axis.batch)) ↔
      ∃ t ∈ ts, t.type.order.axes.head? = some c.1 ∧ c.2 = .batch := by
    simp only [List.mem_filterMap, Option.map_eq_some_iff]
    constructor
    · rintro ⟨t, ht, a, ha, rfl⟩
      exact ⟨t, ht, ha, rfl⟩
    · rintro ⟨t, ht, ha, hc⟩
      exact ⟨t, ht, c.1, ha, Prod.ext rfl hc.symm⟩
  rw [member]
  constructor
  · rintro ⟨t, ht, h⟩
    obtain ⟨v, hv, hvt⟩ := exists_of_forall₂_right hts ht
    exact ⟨v, hv, t, hvt, h⟩
  · rintro ⟨v, hv, t, ht, h⟩
    obtain ⟨u, hu, hvu⟩ := exists_of_forall₂_left hts hv
    obtain rfl := Except.ok.inj (hvu.symm.trans ht)
    exact ⟨u, hu, h⟩

omit [Scalar α] in
/-- The outputs of a graph can be read, so their first axes are known. -/
theorem exists_batchOf (batchFirst : Bool) (g : Graph α) :
    ∃ batch, batchOf batchFirst g = .ok batch := by
  cases batchFirst with
  | false => exact ⟨[], rfl⟩
  | true =>
    cases hbatch : g.batchConstraints with
    | ok batch => exact ⟨batch, hbatch⟩
    | error e =>
      rcases bind_error_iff.1 hbatch with hbatch | ⟨ts, -, hbatch⟩
      · obtain ⟨v, hv, hread⟩ := exists_of_mapM_error hbatch
        obtain ⟨t, ht⟩ := tensor_of_resolve (resolve_of_mem_outputs hv)
        rw [ht] at hread
        cases hread
      · cases hbatch

omit [Scalar α] in
/-- What was renamed to representatives stays when it is renamed again. -/
theorem mapAxes_of_mapped {f f' : Axis → Axis} {op op' : Operator α} (h : op.mapAxes f = .ok op')
    (hf : ∀ a, f' (f a) = f a) : op'.mapAxes f' = .ok op' := by
  have again : ∀ {o p : Order}, p.axes = o.axes.map f → p.axes = p.axes.map f' := by
    intro o p e
    rw [e, List.map_map]
    exact (List.map_congr_left fun a _ => hf a).symm
  cases op with
  | pointwise p => cases h; rfl
  | tile m => cases h; rfl
  | slice a b c => cases h; rfl
  | reinterpret s t =>
    simp only [Operator.mapAxes, bind_ok_iff, pure_ok_iff, Operator.order_map_ok_iff] at h
    obtain ⟨s', hs, t', ht, rfl⟩ := h
    simp only [Operator.mapAxes, bind_ok_iff, pure_ok_iff, Operator.order_map_ok_iff]
    exact ⟨s', again hs, t', again ht, rfl⟩
  | resize a m b n =>
    cases h
    simp only [Operator.mapAxes, hf]

/-- A renaming to axes that stand for themselves settles a graph, if the first axes of the outputs
are renamed to the batch axis. -/
theorem settledFor_renameAxes {classes finest : AxisClasses} {batchFirst c : Bool}
    (hok : (g.renameAxes finest).2 = .ok c) (hfixed : ∀ a, classes (finest a) = finest a)
    (hfirst : batchFirst = true → ∀ v ∈ g.outputs, ∀ t, g.tensor v = .ok t →
      ∀ a, t.type.order.axes.head? = some a → finest a = .batch) :
    (g.renameAxes finest).1.SettledFor classes batchFirst := by
  refine ⟨?_, ?_, ?_⟩
  · rintro a ⟨v, t, p, hv, ha⟩
    obtain ⟨x, hx, -⟩ := slot?_of_renameAxes hv
    obtain ⟨y, b, hy, hxy⟩ := (renameAxes_ok hok).1 v x hx
    obtain rfl := Option.some.inj (hy.symm.trans hv)
    obtain ⟨u, rfl, hu, -⟩ := Slot.renameAxes_live hxy
    rw [(TensorType.rename?_eq_some hu).2] at ha
    obtain ⟨a, -, rfl⟩ := List.mem_map.1 ha
    exact hfixed a
  · intro o n hn
    obtain ⟨m, -, -, -, hm⟩ := node_of_renameAxes hok hn
    exact mapAxes_of_mapped hm hfixed
  · intro hb v hv t ht a ha
    rw [outputs_renameAxes] at hv
    obtain ⟨u, hu⟩ := tensor_of_resolve (resolve_of_mem_outputs hv)
    obtain ⟨p, hs⟩ := tensor_ok_iff.1 hu
    obtain ⟨t', hs', hr, -⟩ := live_renameAxes hok hs
    obtain rfl := Except.ok.inj (ht.symm.trans (tensor_ok_iff.2 ⟨p, hs'⟩))
    rw [hr.axes, List.head?_map, Option.map_eq_some_iff] at ha
    obtain ⟨a₀, ha₀, rfl⟩ := ha
    exact hfirst hb v hv u hu a₀ ha₀

/-- Axis unification arrives at a graph whose axes stand for themselves as far as the hints go. -/
theorem settledFor_of_unifyAxes {hints : List (Axis × Axis)} {batchFirst c : Bool} {s s' : Supply}
    (hedit : (unifyAxes hints batchFirst : Pass (PassM α)).run.Edits g s c h s') :
    ∃ classes, AxisClasses.ofConstraints hints = .ok classes ∧ h.SettledFor classes batchFirst := by
  obtain ⟨batch, hbatch, hunify⟩ := edits_unifyAxes_iff.1 hedit
  obtain ⟨finest, hfinest, -, hrename⟩ := edits_unifyWith_iff.1 hunify
  have hmerges := hfinest
  rw [AxisClasses.ofConstraints, List.foldlM_append, bind_ok_iff] at hmerges
  obtain ⟨classes, hclasses, hmerges⟩ := hmerges
  obtain ⟨hsound, -, -⟩ := AxisClasses.sound_of_merges AxisClasses.sound_id hclasses
  obtain ⟨hsound', hcoarse, hjoined⟩ := AxisClasses.sound_of_merges hsound hmerges
  refine ⟨classes, hclasses, ?_⟩
  -- The first axis of an output was merged with the batch axis, which stands for itself.
  have hfirst : batchFirst = true → ∀ v ∈ g.outputs, ∀ t, g.tensor v = .ok t →
      ∀ a, t.type.order.axes.head? = some a → finest a = .batch := by
    rintro rfl v hv t ht a ha
    have := hjoined (a, .batch) ((mem_batchConstraints hbatch).2 ⟨v, hv, t, ht, ha, rfl⟩)
    exact this.trans (hsound'.named .batch rfl)
  split at hrename
  · obtain rfl : (g.renameAxes finest).1 = h := congrArg Prod.fst hrename
    have hok : (g.renameAxes finest).2 = .ok c := congrArg Prod.snd hrename
    exact settledFor_renameAxes hok (fun a => hcoarse.fixed _ (hsound'.representative a)) hfirst
  · next hmoves =>
    obtain ⟨-, rfl⟩ := hrename
    have hfixed : ∀ c ∈ hints ++ batch, finest c.1 = c.1 ∧ finest c.2 = c.2 := by
      simp only [moves, List.any_eq_true, not_exists, not_and, Bool.or_eq_true,
        decide_eq_true_eq, not_or, ne_eq, Decidable.not_not] at hmoves
      exact hmoves
    have hid : finest = id := AxisClasses.merges_of_fixed AxisClasses.sound_id hfinest hfixed
    have hall : ∀ a, classes a = a := fun a => hcoarse.fixed a (by rw [hid]; rfl)
    obtain rfl : classes = id := funext hall
    refine ⟨fun a _ => rfl, fun o n _ => Operator.mapAxes_id n.op, fun hb v hv t ht a ha => ?_⟩
    have := hfirst hb v hv t ht a ha
    rwa [hid] at this

omit [Scalar α] in
/-- On such a graph, the outputs add nothing to what the hints say. -/
theorem SettledFor.found {hints batch : List (Axis × Axis)} {classes : AxisClasses}
    {batchFirst : Bool} (hsettled : g.SettledFor classes batchFirst)
    (hclasses : AxisClasses.ofConstraints hints = .ok classes)
    (hbatch : batchOf batchFirst g = .ok batch) :
    AxisClasses.ofConstraints (hints ++ batch) = .ok classes ∧ ∀ c ∈ batch, c.1 = c.2 := by
  have hsame : ∀ c ∈ batch, c.1 = c.2 := by
    intro c hc
    cases batchFirst with
    | true =>
      obtain ⟨v, hv, t, ht, ha, hc₂⟩ := (mem_batchConstraints hbatch).1 hc
      rw [hsettled.first rfl v hv t ht _ ha, hc₂]
    | false =>
      cases hbatch
      cases hc
  refine ⟨?_, hsame⟩
  rw [AxisClasses.ofConstraints, List.foldlM_append, bind_ok_iff]
  exact ⟨classes, hclasses, AxisClasses.merges_of_joined fun c hc => congrArg classes (hsame c hc)⟩

/-- Where all axes stand for themselves, axis unification changes nothing. It reports so
exactly if every operator equals itself, or the hints merge nothing. -/
theorem SettledFor.unifyAxes_again {hints : List (Axis × Axis)} {classes : AxisClasses}
    {batchFirst : Bool} (hsettled : g.SettledFor classes batchFirst)
    (hclasses : AxisClasses.ofConstraints hints = .ok classes) (r : Supply) :
    ∃ d, (TensorCompiler.unifyAxes hints batchFirst : Pass (PassM α)).run.Edits g r d g r ∧
      (d = false ↔ (∀ o n, g.node? o = some n → n.op.eqv n.op = true) ∨
        ∀ p ∈ hints, p.1 = p.2) := by
  obtain ⟨batch, hbatch⟩ := exists_batchOf batchFirst g
  obtain ⟨hok, hsame⟩ := hsettled.found hclasses hbatch
  obtain ⟨d, hrename, hd⟩ := renameAxes_of_fixed hsettled.axes hsettled.nodes
  by_cases htrivial : ∀ p ∈ hints, p.1 = p.2
  · -- No class has two axes, so nothing is renamed.
    have hid : classes = id := by
      rw [AxisClasses.ofConstraints, AxisClasses.merges_of_joined htrivial] at hclasses
      exact (Except.ok.inj hclasses).symm
    have hmoves : moves classes (hints ++ batch) = false := by
      rw [hid]
      simp [moves]
    have hunify : (unifyWith (hints ++ batch) : PassM α Bool).Edits g r false g r :=
      edits_unifyWith_iff.2 ⟨classes, hok, rfl, by rw [hmoves]; exact ⟨rfl, rfl⟩⟩
    exact ⟨false, edits_unifyAxes_iff.2 ⟨batch, hbatch, hunify⟩,
      iff_of_true rfl (.inr htrivial)⟩
  · -- One of two different axes does not stand for itself.
    have hmoves : moves classes (hints ++ batch) = true := by
      rw [moves_iff]
      intro hfixed
      refine htrivial fun p hp => ?_
      have hjoined := (AxisClasses.joined_iff hclasses).2 (.of_mem hp)
      obtain ⟨h₁, h₂⟩ := hfixed p (List.mem_append_left _ hp)
      rwa [h₁, h₂] at hjoined
    have hunify : (unifyWith (hints ++ batch) : PassM α Bool).Edits g r d g r :=
      edits_unifyWith_iff.2 ⟨classes, hok, rfl, by rw [hmoves]; exact hrename⟩
    exact ⟨d, edits_unifyAxes_iff.2 ⟨batch, hbatch, hunify⟩,
      hd.trans (or_iff_left htrivial).symm⟩

/-- So it reports no change if every operator equals itself, or if the hints merge nothing. -/
theorem SettledFor.unifyAxes {hints : List (Axis × Axis)} {classes : AxisClasses}
    {batchFirst c : Bool} {s s' : Supply} (hsettled : g.SettledFor classes batchFirst)
    (hclasses : AxisClasses.ofConstraints hints = .ok classes)
    (hself : (∀ o n, g.node? o = some n → n.op.eqv n.op = true) ∨ ∀ c ∈ hints, c.1 = c.2)
    (hedit : (TensorCompiler.unifyAxes hints batchFirst : Pass (PassM α)).run.Edits g s c h s') :
    c = false := by
  obtain ⟨d, hagain, hd⟩ := hsettled.unifyAxes_again hclasses s
  obtain ⟨rfl, -⟩ := PassM.edits_unique hedit hagain
  exact hd.2 hself

end Graph

end TensorCompiler
