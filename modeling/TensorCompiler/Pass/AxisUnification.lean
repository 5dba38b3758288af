import TensorCompiler.Pass.Basic
/-!
# Axis unification

Constraints say which axes are the same dimension. Unification merges constrained axes into
classes and renames every axis to the representative of its class: the named axis if there is
one, else the free axis with the least number. Two different named axes never share a class.

The classes are kept as a forest. An axis that was merged into another one is linked to it, and
representatives are the axes without a link. A link always leads from a free axis to a named one,
or to a free one with a lesser number, so following links comes to an end.
-/

namespace TensorCompiler

/-- A choice of representatives: it sends every axis to that of its class, and each
representative to itself. -/
abbrev AxisClasses := Axis → Axis

/-- Which of two representatives stands for both classes once they are merged, and which one
gives way. -/
def AxisClasses.order (x y : Axis) : Except GraphError (Axis × Axis) :=
  match x.isFree, y.isFree with
  | false, false => .error (.axisConflict x y)
  | false, true => .ok (x, y)
  | true, false => .ok (y, x)
  | true, true => .ok (if x.number < y.number then (x, y) else (y, x))

/-- How many links can start at an axis at most: none at a named axis, and at a free one no more
than there are free axes with lesser numbers and one named axis. -/
def Axis.level : Axis → Nat
  | named .. => 0
  | free n => n + 1

/-- What gives way is linked to a lower level. -/
theorem AxisClasses.level_of_order {x y root child : Axis} (hne : x ≠ y)
    (h : AxisClasses.order x y = .ok (root, child)) : root.level < child.level := by
  cases x with
  | named m s =>
    cases y with
    | named n t => cases h
    | free n =>
      cases h
      exact Nat.succ_pos n
  | free m =>
    cases y with
    | named n t =>
      cases h
      exact Nat.succ_pos m
    | free n =>
      have hmn : m ≠ n := fun e => hne (congrArg Axis.free e)
      have h' : (if m < n then (Axis.free m, Axis.free n) else (Axis.free n, Axis.free m)) =
          (root, child) := Except.ok.inj h
      split at h'
      · cases h'
        exact Nat.succ_lt_succ ‹m < n›
      · cases h'
        exact Nat.succ_lt_succ (Nat.lt_of_le_of_ne (Nat.le_of_not_lt ‹¬m < n›) (Ne.symm hmn))

/-- Links from axes to the axes that they were merged into. -/
structure AxisForest where
  links : List (Axis × Axis)
  /-- Links lead to lower levels. -/
  descends : ∀ {a b}, links.lookup a = some b → b.level < a.level

namespace AxisForest

/-- Every axis stands for itself. -/
def empty : AxisForest := ⟨[], nofun⟩

theorem descends_cons (forest : AxisForest) {child root : Axis} (h : root.level < child.level)
    {a b : Axis} (hab : ((child, root) :: forest.links).lookup a = some b) : b.level < a.level := by
  rw [List.lookup_cons] at hab
  by_cases ha : a = child
  · rw [ha, beq_self_eq_true] at hab
    cases hab
    exact ha ▸ h
  · rw [beq_false_of_ne ha] at hab
    exact forest.descends hab

/-- Links an axis to one of a lower level. -/
def link (forest : AxisForest) (child root : Axis) (h : root.level < child.level) : AxisForest :=
  ⟨(child, root) :: forest.links, forest.descends_cons h⟩

/-- Follows the links from an axis, at most so many. -/
def climb (forest : AxisForest) : Nat → Axis → Axis
  | 0, a => a
  | n + 1, a =>
    match forest.links.lookup a with
    | some b => forest.climb n b
    | none => a

/-- The representative of an axis, where the links from it end. -/
def root (forest : AxisForest) (a : Axis) : Axis := forest.climb a.level a

theorem level_climb_le (forest : AxisForest) (n : Nat) (a : Axis) :
    (forest.climb n a).level ≤ a.level := by
  induction n generalizing a with
  | zero => exact Nat.le_refl _
  | succ n ih =>
    unfold climb
    split
    · next b hb => exact Nat.le_of_lt (Nat.lt_of_le_of_lt (ih b) (forest.descends hb))
    · exact Nat.le_refl _

theorem level_root_lt (forest : AxisForest) {a : Axis} (h : forest.root a ≠ a) :
    (forest.root a).level < a.level := by
  unfold root at h ⊢
  cases hn : a.level with
  | zero =>
    rw [hn] at h
    exact absurd rfl h
  | succ n =>
    rw [hn] at h
    unfold climb at h ⊢
    split at h
    · next b hb =>
      exact hn ▸ Nat.lt_of_le_of_lt (forest.level_climb_le n b) (forest.descends hb)
    · exact absurd rfl h

/-- The representative of an axis. The axis is linked to it directly from now on. -/
def find (forest : AxisForest) (a : Axis) : Axis × AxisForest :=
  if h : forest.root a = a then (a, forest)
  else (forest.root a, forest.link a (forest.root a) (forest.level_root_lt h))

/-- Merges the classes of two axes by linking one representative to the other. -/
def union (forest : AxisForest) (constraint : Axis × Axis) : Except GraphError AxisForest :=
  let x := forest.find constraint.1
  let y := x.2.find constraint.2
  if hne : x.1 = y.1 then .ok y.2
  else
    match h : AxisClasses.order x.1 y.1 with
    | .error e => .error e
    | .ok (root, child) => .ok (y.2.link child root (AxisClasses.level_of_order hne h))

/-- The classes that a list of constraints generates. -/
def ofConstraints (constraints : List (Axis × Axis)) : Except GraphError AxisForest :=
  constraints.foldlM union empty

/-- The constrained axes that do not stand for themselves, with their representatives. -/
def moved (forest : AxisForest) (constraints : List (Axis × Axis)) : List (Axis × Axis) :=
  (constraints.flatMap fun (x, y) => [x, y]).filterMap fun a =>
    if forest.root a = a then none else some (a, forest.root a)

end AxisForest

namespace Graph

variable {α : Type}

/-- For each output, that its first axis is the batch axis. -/
def batchConstraints (g : Graph α) : Except GraphError (List (Axis × Axis)) := do
  let tensors ← g.tensors g.outputs
  return tensors.filterMap fun t => t.type.order.axes.head?.map (·, Axis.batch)

end Graph

/-- Renames the constrained axes to the representatives of their classes. -/
def PassM.unify {α : Type} [Scalar α] (constraints : List (Axis × Axis)) : PassM α Bool := do
  let forest ← AxisForest.ofConstraints constraints
  let moved := forest.moved constraints
  if moved.isEmpty then return false
  else PassM.renameAxes fun a => (moved.lookup a).getD a

/-- Merges axes known to be the same dimension, by hints and, with `batchFirst`, by the first axes
of the outputs. -/
def unifyAxes {α : Type} [Scalar α] (hints : List (Axis × Axis)) (batchFirst : Bool) :
    Pass (PassM α) where
  name := "unify_axes"
  run := do
    let batch ← if batchFirst then (← PassM.graph).batchConstraints else pure []
    PassM.unify (hints ++ batch)

end TensorCompiler
