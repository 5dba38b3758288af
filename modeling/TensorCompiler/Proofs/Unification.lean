import TensorCompiler.Proofs.AxisClasses
/-!
# Axis unification

Axis unification asks for nothing but the equivalence closure of its constraints: the hints and, if
the batch axis comes first, the first axes of the outputs. It fails with a conflict exactly if two
different named axes are in one class. Otherwise it renames every axis to the one that stands for
its class, so that no named axis is ever renamed. In what order the constraints come, and in what
order the two axes of any of them, makes no difference.

* `PassM.SameOn`: two computations that do the same on a graph.
* `PassM.fails_renameAxes`: renaming never fails with a conflict.
* `AxisClasses.Unifies`: the substitution that a list of constraints asks for.
* `AxisClasses.rearranged_of_perm`, `AxisClasses.rearranged_of_swaps`: what counts as rearranged.
* `AxisForest.conflicts_iff`, `AxisForest.yields_of_ok`: what the forest of constraints comes to.
* `PassM.sameOn_unifyAxes`, `PassM.unify_eq`: what the pass does with it.
* `unifyAxes_closure`: the theorem about the pass.
-/

namespace TensorCompiler

/-! ## Computations on one graph -/

namespace PassM

variable {α β : Type} {x y z : PassM α β} {g : Graph α} {s : Supply} {e : PassError}

/-- On this graph, two computations have the same result, leave the same graph and draw the same
symbols. -/
def SameOn (g : Graph α) (x y : PassM α β) : Prop :=
  ∀ s, Id.run ((x.run.run g).run s) = Id.run ((y.run.run g).run s)

theorem SameOn.trans (h : SameOn g x y) (h' : SameOn g y z) : SameOn g x z :=
  fun s => (h s).trans (h' s)

theorem SameOn.fails_iff (h : SameOn g x y) : x.Fails g s e ↔ y.Fails g s e := by
  unfold Fails
  rw [h s]

/-! ## Failures of a renaming -/

/-- An update fails because the update of one entry does. -/
theorem exists_of_updateEach_error {ε : Type} {f : β → Except ε (β × Bool)} {xs : List β} {e : ε}
    (h : (updateEach f xs).2 = .error e) : ∃ x, f x = .error e := by
  induction xs with
  | nil => cases h
  | cons x xs ih =>
    cases hx : f x with
    | error e' =>
      simp only [updateEach, hx] at h
      obtain rfl := Except.error.inj h
      exact ⟨x, hx⟩
    | ok p =>
      simp only [updateEach, hx] at h
      cases hrest : (updateEach f xs).2 with
      | error e' =>
        rw [hrest] at h
        exact ih (hrest.trans h)
      | ok changed =>
        rw [hrest] at h
        cases h

theorem duplicate_of_map {f : Axis → Axis} {o : Order} {e : GraphError}
    (h : o.map f = .error e) : ∃ axes, e = .duplicateAxis axes := by
  unfold Order.map Order.ofList at h
  split at h
  · cases h
  · exact ⟨_, (Except.error.inj h).symm⟩

variable [Scalar α] {f : Axis → Axis} {e' : GraphError}

omit [Scalar α] in
theorem duplicate_of_slot {x : Slot α} (h : x.renameAxes f = .error e') :
    ∃ axes, e' = .duplicateAxis axes := by
  cases x with
  | replaced v => cases h
  | live t p =>
    simp only [Slot.renameAxes] at h
    split at h
    · cases h
    · exact ⟨_, (Except.error.inj h).symm⟩

theorem duplicate_of_node {n : Node α} (h : n.renameAxes f = .error e') :
    ∃ axes, e' = .duplicateAxis axes := by
  rcases bind_error_iff.1 h with h | ⟨op, -, h⟩
  · cases hop : n.op with
    | reinterpret source target =>
      rw [hop, Operator.mapAxes] at h
      rcases bind_error_iff.1 h with h | ⟨o, -, h⟩
      · exact duplicate_of_map h
      · rcases bind_error_iff.1 h with h | ⟨p, -, h⟩
        · exact duplicate_of_map h
        · cases h
    | pointwise f => rw [hop] at h; cases h
    | tile m => rw [hop] at h; cases h
    | slice a b c => rw [hop] at h; cases h
    | resize a m b n => rw [hop] at h; cases h
  · split at h
    · cases h
    · cases h

/-- Renaming fails only where two axes of one order get the same name. -/
theorem fails_renameAxes (h : (renameAxes f : PassM α Bool).Fails g s e) :
    ∃ axes, e = .graph (.duplicateAxis axes) := by
  have hresult : ∃ e', (g.renameAxes f).2 = .error e' ∧ PassError.graph e' = e :=
    mapError_error_iff.1 h
  obtain ⟨e', hresult, rfl⟩ := hresult
  suffices hduplicate : ∃ axes, e' = .duplicateAxis axes by
    obtain ⟨axes, rfl⟩ := hduplicate
    exact ⟨axes, rfl⟩
  unfold Graph.renameAxes at hresult
  rcases hslots : updateEach (Slot.renameAxes f) g.slots.toList with ⟨slots, e | changed⟩
  · simp only [hslots] at hresult
    obtain rfl := Except.error.inj hresult
    obtain ⟨x, hx⟩ := exists_of_updateEach_error (congrArg Prod.snd hslots)
    exact duplicate_of_slot hx
  · simp only [hslots] at hresult
    have hresult : (updateEach (Graph.renameEntry f) g.nodes.toList).2.map (changed || ·) =
      .error e' := hresult
    cases hnodes : (updateEach (Graph.renameEntry f) g.nodes.toList).2 with
    | ok changed' =>
      rw [hnodes] at hresult
      cases hresult
    | error e =>
      rw [hnodes] at hresult
      obtain rfl := Except.error.inj hresult
      obtain ⟨x, hx⟩ := exists_of_updateEach_error hnodes
      cases x with
      | none => cases hx
      | some n =>
        cases hn : n.renameAxes f with
        | ok p =>
          rw [Graph.renameEntry, hn] at hx
          cases hx
        | error e =>
          rw [Graph.renameEntry, hn] at hx
          obtain rfl := Except.error.inj hx
          exact duplicate_of_node hn

end PassM

/-! ## The substitution of a list of constraints -/

namespace AxisClasses

variable {cs cs' : List (Axis × Axis)} {classes : AxisClasses} {f : Axis → Axis}

/-- The substitution that a list of constraints asks for: every axis is sent to the one that stands
for its class. -/
structure Unifies (cs : List (Axis × Axis)) (f : Axis → Axis) : Prop where
  represents : ∀ a, Represents cs a (f a)
  /-- No named axis is renamed. -/
  named : ∀ a, a.isFree = false → f a = a
  /-- Nor is any axis without a constraint. -/
  unconstrained : ∀ a, (∀ c ∈ cs, a ≠ c.1 ∧ a ≠ c.2) → f a = a

theorem unifies_of_ok (h : ofConstraints cs = .ok classes) : Unifies cs classes where
  represents := AxisClasses.represents h
  named a ha := (sound_of_constraints h).named a ha
  unconstrained a ha := by
    rcases (generated_of_constraints h a).eq_or_mem with heq | ⟨hmem, -⟩
    · exact heq.symm
    · obtain ⟨c, hc, hac⟩ := List.mem_flatMap.1 hmem
      simp only [List.mem_cons, List.not_mem_nil, or_false] at hac
      rcases hac with rfl | rfl
      · exact absurd rfl (ha c hc).1
      · exact absurd rfl (ha c hc).2

theorem Rearranged.refl (cs : List (Axis × Axis)) : Rearranged cs cs := fun _ _ => Iff.rfl

theorem Rearranged.append (h : Rearranged cs cs') (rest : List (Axis × Axis)) :
    Rearranged (cs ++ rest) (cs' ++ rest) := by
  intro x y
  have hxy := h x y
  simp only [List.mem_append]
  grind

/-- Rearranged constraints are about the same axes. -/
theorem Rearranged.forall_iff {P : Axis → Prop} (h : Rearranged cs cs') :
    (∀ c ∈ cs, P c.1 ∧ P c.2) ↔ ∀ c ∈ cs', P c.1 ∧ P c.2 := by
  have half : ∀ {cs cs' : List (Axis × Axis)}, Rearranged cs cs' → (∀ c ∈ cs, P c.1 ∧ P c.2) →
      ∀ c ∈ cs', P c.1 ∧ P c.2 := by
    intro cs cs' h hall c hc
    rcases (h c.1 c.2).2 (.inl hc) with hmem | hmem
    · exact hall _ hmem
    · exact (hall _ hmem).symm
  exact ⟨half h, half fun x y => (h x y).symm⟩

/-- Constraints in another order are rearranged. -/
theorem rearranged_of_perm (h : cs.Perm cs') : Rearranged cs cs' :=
  fun _ _ => or_congr h.mem_iff h.mem_iff

/-- So are constraints with the axes of some of them swapped. -/
theorem rearranged_of_swaps
    (h : List.Forall₂ (fun c d => d = c ∨ d = c.swap) cs cs') : Rearranged cs cs' := by
  induction h with
  | nil => exact .refl []
  | @cons c d cs cs' hcd _ ih =>
    intro x y
    have hxy := ih x y
    obtain ⟨a, b⟩ := c
    rcases hcd with rfl | rfl
    · grind
    · simp only [Prod.swap_prod_mk, List.mem_cons, Prod.mk.injEq]
      grind

/-- Rearranged constraints have the same representatives. -/
theorem Rearranged.ofConstraints_ok (hcs : Rearranged cs cs')
    (h : AxisClasses.ofConstraints cs = .ok classes) :
    AxisClasses.ofConstraints cs' = .ok classes := by
  have hsame := hcs.ofConstraints
  rw [h] at hsame
  cases hok : AxisClasses.ofConstraints cs' with
  | ok classes' =>
    rw [hok] at hsame
    exact congrArg Except.ok (Option.some.inj hsame).symm
  | error e =>
    rw [hok] at hsame
    cases hsame

end AxisClasses

/-! ## The forest of a list of constraints -/

namespace AxisForest

open AxisClasses

variable {cs cs' : List (Axis × Axis)} {f : Axis → Axis}

/-- The constraints have a forest, and its substitution is this one. -/
def Yields (cs : List (Axis × Axis)) (f : Axis → Axis) : Prop :=
  ∃ forest, ofConstraints cs = .ok forest ∧
    (fun a => ((forest.moved cs).lookup a).getD a) = f

theorem yields_of_ok {classes : AxisClasses} (h : AxisClasses.ofConstraints cs = .ok classes) :
    Yields cs classes := by
  rw [← ofConstraints_root, map_ok_iff] at h
  obtain ⟨forest, hforest, rfl⟩ := h
  exact ⟨forest, hforest, substitution_eq hforest⟩

/-- Constraints have no forest exactly if two different named axes are in one class. -/
theorem conflicts_iff : (∃ x y, ofConstraints cs = .error (.axisConflict x y)) ↔
    ∃ x y, Conflict cs x y := by
  have hroot := ofConstraints_root cs
  constructor
  · intro h
    obtain ⟨x, y, herror⟩ := h
    rw [herror] at hroot
    rcases ofConstraints_cases cs with ⟨classes, hok, -⟩ | ⟨x', y', -, hconflict⟩
    · rw [hok] at hroot
      cases hroot
    · exact ⟨x', y', hconflict⟩
  · intro h
    obtain ⟨x, y, hconflict⟩ := h
    rcases ofConstraints_cases cs with ⟨classes, -, hno⟩ | ⟨x', y', herror, -⟩
    · exact absurd hconflict (hno x y)
    · rw [herror] at hroot
      cases hforest : ofConstraints cs with
      | ok forest =>
        rw [hforest] at hroot
        cases hroot
      | error e =>
        rw [hforest] at hroot
        obtain rfl := Except.error.inj hroot
        exact ⟨x', y', rfl⟩

end AxisForest

/-! ## The pass -/

variable {α : Type} [Scalar α] {g : Graph α} {batch cs : List (Axis × Axis)}
  {batchFirst : Bool}

omit [Scalar α] in
theorem Graph.mem_batchOf (hbatch : batchOf batchFirst g = .ok batch) {c : Axis × Axis} :
    c ∈ batch ↔ batchFirst = true ∧ c.2 = .batch ∧ ∃ v ∈ g.outputs, ∃ t, g.tensor v = .ok t ∧
      t.type.order.axes.head? = some c.1 := by
  cases batchFirst with
  | false =>
    cases hbatch
    simp
  | true =>
    rw [mem_batchConstraints hbatch]
    grind

namespace PassM

open AxisClasses

/-- The pass unifies its hints and what it reads off the outputs. -/
theorem sameOn_unifyAxes (hints : List (Axis × Axis))
    (hbatch : Graph.batchOf batchFirst g = .ok batch) :
    SameOn g (unifyAxes hints batchFirst : Pass (PassM α)).run (unify (hints ++ batch)) := by
  intro s
  cases batchFirst with
  | false =>
    cases hbatch
    rfl
  | true =>
    have hbatch : g.batchConstraints = .ok batch := hbatch
    show Id.run (((liftM g.batchConstraints >>= fun b => unify (hints ++ b) :
      PassM α Bool).run.run g).run s) = _
    rw [hbatch]
    rfl

/-- Without a conflict, the constrained axes are renamed to the representatives of their classes,
if any of them has to be. -/
theorem unify_eq {classes : AxisClasses} (h : AxisClasses.ofConstraints cs = .ok classes) :
    (unify cs : PassM α Bool) =
      if ∀ c ∈ cs, classes c.1 = c.1 ∧ classes c.2 = c.2 then pure false
      else renameAxes classes := by
  rw [Graph.unifyWith_eq, Graph.unifyWith, h]
  show (if Graph.moves classes cs then renameAxes classes else pure false : PassM α Bool) = _
  by_cases hfixed : ∀ c ∈ cs, classes c.1 = c.1 ∧ classes c.2 = c.2
  · rw [if_pos hfixed, if_neg fun hmoves => Graph.moves_iff.1 hmoves hfixed]
  · rw [if_neg hfixed, if_pos (Graph.moves_iff.2 hfixed)]

/-- Unification fails with a conflict exactly if two different named axes are in one class. -/
theorem unify_conflicts_iff {s : Supply} :
    (∃ x y, (unify cs : PassM α Bool).Fails g s (.graph (.axisConflict x y))) ↔
      ∃ x y, Conflict cs x y := by
  rcases ofConstraints_cases cs with ⟨classes, hok, hno⟩ | ⟨x, y, herror, hconflict⟩
  · refine ⟨fun h => ?_, fun ⟨x, y, h⟩ => absurd h (hno x y)⟩
    obtain ⟨x, y, hfails⟩ := h
    rw [unify_eq hok] at hfails
    split at hfails
    · exact (fails_pure_iff.1 hfails).elim
    · obtain ⟨axes, h⟩ := fails_renameAxes hfails
      cases h
  · refine ⟨fun _ => ⟨x, y, hconflict⟩, fun _ => ⟨x, y, ?_⟩⟩
    rw [Graph.unifyWith_eq, Graph.unifyWith, herror]
    rfl

end PassM

open AxisClasses in
/-- Axis unification computes the equivalence closure of its constraints. They are the hints and,
with `batchFirst`, that the first axis of each output is the batch axis. The pass fails with a
conflict if and only if the closure puts two different named axes into one class. Otherwise it
renames every axis to the named axis of its class if there is one, and else to the free axis with
the least number; and it leaves the graph as it is if no constrained axis has to be renamed. The
constraints may come in any order, with the axes of any of them swapped. -/
theorem unifyAxes_closure (hints : List (Axis × Axis)) (batchFirst : Bool) (g : Graph α) :
    ∃ batch,
      (∀ c, c ∈ batch ↔ batchFirst = true ∧ c.2 = .batch ∧ ∃ v ∈ g.outputs, ∃ t,
        g.tensor v = .ok t ∧ t.type.order.axes.head? = some c.1) ∧
      (∀ cs, Rearranged (hints ++ batch) cs →
        ((∃ x y, AxisForest.ofConstraints cs = .error (.axisConflict x y)) ↔
          ∃ x y, Conflict (hints ++ batch) x y)) ∧
      (∀ hints', Rearranged hints hints' → ∀ s,
        ((∃ x y, (unifyAxes hints' batchFirst : Pass (PassM α)).run.Fails g s
            (.graph (.axisConflict x y))) ↔
          ∃ x y, Conflict (hints ++ batch) x y)) ∧
      ((∀ x y, ¬Conflict (hints ++ batch) x y) → ∃ f, Unifies (hints ++ batch) f ∧
        (∀ cs, Rearranged (hints ++ batch) cs → AxisForest.Yields cs f) ∧
        ∀ hints', Rearranged hints hints' →
          PassM.SameOn g (unifyAxes hints' batchFirst : Pass (PassM α)).run
            (if ∀ c ∈ hints ++ batch, f c.1 = c.1 ∧ f c.2 = c.2 then pure false
              else PassM.renameAxes f)) := by
  obtain ⟨batch, hbatch⟩ := g.exists_batchOf batchFirst
  have hconflict : ∀ {cs}, Rearranged (hints ++ batch) cs →
      ((∃ x y, Conflict cs x y) ↔ ∃ x y, Conflict (hints ++ batch) x y) :=
    fun h => exists_congr fun x => exists_congr fun y => h.conflict_iff.symm
  refine ⟨batch, fun c => Graph.mem_batchOf hbatch, fun cs h => ?_, fun hints' h s => ?_,
    fun hno => ?_⟩
  · exact AxisForest.conflicts_iff.trans (hconflict h)
  · have hrun := PassM.sameOn_unifyAxes hints' hbatch
    have hfails : (∃ x y, (unifyAxes hints' batchFirst : Pass (PassM α)).run.Fails g s
        (.graph (.axisConflict x y))) ↔ ∃ x y, Conflict (hints' ++ batch) x y :=
      (exists_congr fun x => exists_congr fun y => hrun.fails_iff).trans PassM.unify_conflicts_iff
    exact hfails.trans (hconflict (h.append batch))
  · rcases ofConstraints_cases (hints ++ batch) with ⟨f, hok, -⟩ | ⟨x, y, -, h⟩
    · refine ⟨f, unifies_of_ok hok, fun cs h => ?_, fun hints' h => ?_⟩
      · exact AxisForest.yields_of_ok (h.ofConstraints_ok hok)
      · have hok' := (h.append batch).ofConstraints_ok hok
        have hrun := PassM.sameOn_unifyAxes hints' hbatch
        rw [PassM.unify_eq hok'] at hrun
        rwa [if_congr ((h.append batch).forall_iff (P := fun a => f a = a)) rfl rfl]
    · exact absurd h (hno x y)

/-- A chain of free axes. -/
example : ((AxisForest.ofConstraints [(.free 3, .free 2), (.free 2, .free 1)]).toOption.map
    fun forest => forest.root (.free 3)) = some (.free 1) := by decide

end TensorCompiler
