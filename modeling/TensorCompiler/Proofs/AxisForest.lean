import TensorCompiler.Pass.AxisUnification
import TensorCompiler.Proofs.Outcome
/-!
# Forests of axes

Axis unification links representatives to each other and shortens the links on the way. What counts
is the representative of each axis, and that changes only where two classes are merged: shortening
links keeps it, and linking one representative to another sends the whole class there.

* `AxisClasses.merge`, `AxisClasses.ofConstraints`: the classes, as functions to representatives.
* `AxisForest.root_eq`: a representative is found link by link.
* `AxisForest.root_link`: what a link between two representatives changes.
* `AxisForest.root_find`: shortening links changes no representative.
* `AxisForest.ofConstraints_root`: the forest has the representatives of the classes.
-/

namespace TensorCompiler

namespace AxisClasses

/-- Merges the classes of two axes. -/
def merge (classes : AxisClasses) (constraint : Axis × Axis) : Except GraphError AxisClasses := do
  let x := classes constraint.1
  let y := classes constraint.2
  if x = y then return classes
  let (root, child) ← order x y
  return fun a => if classes a = child then root else classes a

/-- The classes that a list of constraints generates. -/
def ofConstraints (constraints : List (Axis × Axis)) : Except GraphError AxisClasses :=
  constraints.foldlM merge id

variable {classes classes' : AxisClasses} {x y : Axis}

/-- Of two representatives, the one that gives way is free. -/
theorem order_ok {root child : Axis} (h : order x y = .ok (root, child)) :
    child.isFree = true ∧ ((root = x ∧ child = y) ∨ (root = y ∧ child = x)) := by
  unfold order at h
  cases hx : x.isFree <;> cases hy : y.isFree
  · simp [hx, hy] at h
  · simp only [hx, hy, Except.ok.injEq, Prod.mk.injEq] at h
    obtain ⟨rfl, rfl⟩ := h
    exact ⟨hy, .inl ⟨rfl, rfl⟩⟩
  · simp only [hx, hy, Except.ok.injEq, Prod.mk.injEq] at h
    obtain ⟨rfl, rfl⟩ := h
    exact ⟨hx, .inr ⟨rfl, rfl⟩⟩
  · simp only [hx, hy, Except.ok.injEq] at h
    split at h
    · cases h
      exact ⟨hy, .inl ⟨rfl, rfl⟩⟩
    · cases h
      exact ⟨hx, .inr ⟨rfl, rfl⟩⟩

/-- Each class has one representative, and a named axis represents its own. -/
structure Sound (classes : AxisClasses) : Prop where
  representative : ∀ a, classes (classes a) = classes a
  named : ∀ a, a.isFree = false → classes a = a

theorem sound_id : Sound id := ⟨fun _ => rfl, fun _ _ => rfl⟩

/-- What classes have in common with those they were merged from. -/
structure Coarsens (classes classes' : AxisClasses) : Prop where
  /-- What is together stays together. -/
  joined : ∀ a b, classes a = classes b → classes' a = classes' b
  /-- There are no new representatives. -/
  fixed : ∀ a, classes' a = a → classes a = a

theorem Coarsens.refl (classes : AxisClasses) : Coarsens classes classes :=
  ⟨fun _ _ h => h, fun _ h => h⟩

theorem Coarsens.trans {classes'' : AxisClasses} (h : Coarsens classes classes')
    (h' : Coarsens classes' classes'') : Coarsens classes classes'' :=
  ⟨fun a b e => h'.joined a b (h.joined a b e), fun a e => h.fixed a (h'.fixed a e)⟩

theorem merge_self {c : Axis × Axis} (h : classes c.1 = classes c.2) :
    merge classes c = .ok classes := by
  simp only [merge, if_pos h]
  rfl

theorem sound_of_merge {c : Axis × Axis} (hs : Sound classes)
    (h : merge classes c = .ok classes') :
    Sound classes' ∧ Coarsens classes classes' ∧ classes' c.1 = classes' c.2 := by
  by_cases hc : classes c.1 = classes c.2
  · rw [merge_self hc] at h
    obtain rfl := Except.ok.inj h
    exact ⟨hs, .refl classes, hc⟩
  · simp only [merge, if_neg hc, bind_ok_iff, pure_ok_iff] at h
    obtain ⟨⟨root, child⟩, horder, rfl⟩ := h
    obtain ⟨hfree, hends⟩ := order_ok horder
    have hroot : classes root = root := by
      rcases hends with ⟨rfl, -⟩ | ⟨rfl, -⟩ <;> exact hs.representative _
    have hchild : classes child = child := by
      rcases hends with ⟨-, rfl⟩ | ⟨-, rfl⟩ <;> exact hs.representative _
    have hne : root ≠ child := by
      rcases hends with ⟨rfl, rfl⟩ | ⟨rfl, rfl⟩
      · exact hc
      · exact Ne.symm hc
    refine ⟨⟨fun a => ?_, fun a ha => ?_⟩, ⟨fun a b e => by simp only [e], fun a e => ?_⟩, ?_⟩
    · by_cases ha : classes a = child
      · simp only [if_pos ha, hroot, if_neg hne]
      · simp only [if_neg ha, hs.representative a]
    · have ha' : a ≠ child := by
        rintro rfl
        rw [ha] at hfree
        cases hfree
      simp only [hs.named a ha, if_neg ha']
    · by_cases ha : classes a = child
      · simp only [if_pos ha] at e
        rw [← e, hroot] at ha
        exact absurd ha hne
      · simpa only [if_neg ha] using e
    · rcases hends with ⟨rfl, rfl⟩ | ⟨rfl, rfl⟩
      · simp only [if_neg hc, if_true]
      · simp only [if_neg (Ne.symm hc), if_true]

/-- Merging constraint after constraint. -/
theorem sound_of_merges {cs : List (Axis × Axis)} (hs : Sound classes)
    (h : cs.foldlM merge classes = .ok classes') :
    Sound classes' ∧ Coarsens classes classes' ∧ ∀ c ∈ cs, classes' c.1 = classes' c.2 := by
  induction cs generalizing classes with
  | nil =>
    obtain rfl := Except.ok.inj h
    exact ⟨hs, .refl classes, fun c hc => by cases hc⟩
  | cons c cs ih =>
    rw [List.foldlM_cons, bind_ok_iff] at h
    obtain ⟨next, hmerge, h⟩ := h
    obtain ⟨hnext, hcoarse, hjoined⟩ := sound_of_merge hs hmerge
    obtain ⟨hs', hcoarse', hrest⟩ := ih hnext h
    exact ⟨hs', hcoarse.trans hcoarse',
      List.forall_mem_cons.2 ⟨hcoarse'.joined _ _ hjoined, hrest⟩⟩

/-- Constraints between axes that all represent their classes have merged nothing. -/
theorem merges_of_fixed {cs : List (Axis × Axis)} (hs : Sound classes)
    (h : cs.foldlM merge classes = .ok classes')
    (hfixed : ∀ c ∈ cs, classes' c.1 = c.1 ∧ classes' c.2 = c.2) : classes' = classes := by
  induction cs generalizing classes with
  | nil => exact (Except.ok.inj h).symm
  | cons c cs ih =>
    obtain ⟨⟨h₁, h₂⟩, hrest⟩ := List.forall_mem_cons.1 hfixed
    rw [List.foldlM_cons, bind_ok_iff] at h
    obtain ⟨next, hmerge, h⟩ := h
    obtain ⟨hnext, -, hjoined⟩ := sound_of_merge hs hmerge
    obtain rfl := ih hnext h hrest
    rw [h₁, h₂] at hjoined
    have hsame : classes c.1 = classes c.2 := by rw [hjoined]
    rw [merge_self hsame] at hmerge
    exact (Except.ok.inj hmerge).symm

/-- Constraints between axes that are together already change nothing. -/
theorem merges_of_joined {cs : List (Axis × Axis)} (h : ∀ c ∈ cs, classes c.1 = classes c.2) :
    cs.foldlM merge classes = .ok classes := by
  induction cs with
  | nil => rfl
  | cons c cs ih =>
    obtain ⟨hc, hcs⟩ := List.forall_mem_cons.1 h
    rw [List.foldlM_cons, merge_self hc]
    exact ih hcs

end AxisClasses

namespace AxisForest

variable {forest : AxisForest} {a b child root : Axis}

/-! ## Representatives -/

theorem climb_of_lookup_none (n : Nat) (h : forest.links.lookup a = none) :
    forest.climb n a = a := by
  cases n with
  | zero => rfl
  | succ n =>
    unfold climb
    rw [h]

theorem climb_of_lookup_some (n : Nat) (h : forest.links.lookup a = some b) :
    forest.climb (n + 1) a = forest.climb n b := by
  rw [climb, h]

/-- More steps than the level of an axis lead nowhere else. -/
theorem climb_of_level_le {n m : Nat} (hn : a.level ≤ n) (hm : a.level ≤ m) :
    forest.climb n a = forest.climb m a := by
  induction n generalizing a m with
  | zero =>
    have hnone : forest.links.lookup a = none := by
      cases hb : forest.links.lookup a with
      | none => rfl
      | some b =>
        have := forest.descends hb
        omega
    rw [climb_of_lookup_none _ hnone, climb_of_lookup_none _ hnone]
  | succ n ih =>
    cases hb : forest.links.lookup a with
    | none => rw [climb_of_lookup_none _ hb, climb_of_lookup_none _ hb]
    | some b =>
      have hlt := forest.descends hb
      obtain ⟨m, rfl⟩ : ∃ k, m = k + 1 := ⟨m - 1, by omega⟩
      rw [climb_of_lookup_some n hb, climb_of_lookup_some m hb]
      exact ih (by omega) (by omega)

theorem root_of_none (h : forest.links.lookup a = none) : forest.root a = a :=
  climb_of_lookup_none _ h

theorem root_of_some (h : forest.links.lookup a = some b) : forest.root a = forest.root b := by
  have hlt := forest.descends h
  obtain ⟨n, hn⟩ : ∃ n, a.level = n + 1 := ⟨a.level - 1, by omega⟩
  rw [AxisForest.root, hn, climb_of_lookup_some n h]
  exact climb_of_level_le (by omega) (Nat.le_refl _)

/-- An axis that stands for itself has no link. -/
theorem lookup_eq_none_iff : forest.links.lookup a = none ↔ forest.root a = a := by
  refine ⟨root_of_none, fun h => ?_⟩
  cases hb : forest.links.lookup a with
  | none => rfl
  | some b =>
    have hlt := forest.descends hb
    have hle := forest.level_climb_le b.level b
    rw [root_of_some hb, AxisForest.root] at h
    rw [h] at hle
    omega

/-- What holds of an axis without a link, and of an axis because it holds of the next one, holds of
all axes. -/
theorem induction_links {P : Axis → Prop} (hroot : ∀ a, forest.links.lookup a = none → P a)
    (hlink : ∀ a b, forest.links.lookup a = some b → P b → P a) (a : Axis) : P a := by
  induction hn : a.level using Nat.strongRecOn generalizing a with
  | ind n ih =>
    cases hb : forest.links.lookup a with
    | none => exact hroot a hb
    | some b => exact hlink a b hb (ih b.level (hn ▸ forest.descends hb) b rfl)

theorem root_root (a : Axis) : forest.root (forest.root a) = forest.root a := by
  refine forest.induction_links (P := fun a => forest.root (forest.root a) = forest.root a)
    (fun a ha => ?_) (fun a b hb ih => ?_) a
  · rw [root_of_none ha, root_of_none ha]
  · rw [root_of_some hb, ih]

/-! ## Links -/

theorem lookup_link {h : root.level < child.level} :
    (forest.link child root h).links.lookup a =
      if a = child then some root else forest.links.lookup a := by
  show ((child, root) :: forest.links).lookup a = _
  rw [List.lookup_cons]
  by_cases ha : a = child
  · rw [if_pos ha, ha, beq_self_eq_true]
  · rw [if_neg ha, beq_false_of_ne ha]

/-- Linking one representative to another sends the class of the one to the other. -/
theorem root_link {h : root.level < child.level} (hroot : forest.root root = root)
    (hchild : forest.root child = child) (a : Axis) :
    (forest.link child root h).root a = if forest.root a = child then root else forest.root a := by
  have hne : root ≠ child := fun e => Nat.lt_irrefl _ (e ▸ h)
  have hend : (forest.link child root h).root root = root := by
    refine root_of_none ?_
    rw [lookup_link, if_neg hne]
    exact lookup_eq_none_iff.2 hroot
  refine forest.induction_links (P := fun a => (forest.link child root h).root a =
    if forest.root a = child then root else forest.root a) (fun a ha => ?_) (fun a b hb ih => ?_) a
  · rw [root_of_none ha]
    split
    · next hac => rw [root_of_some (lookup_link.trans (if_pos hac)), hend]
    · next hac => exact root_of_none (lookup_link.trans ((if_neg hac).trans ha))
  · have hac : a ≠ child := by
      rintro rfl
      rw [lookup_eq_none_iff.2 hchild] at hb
      cases hb
    rw [root_of_some (lookup_link.trans ((if_neg hac).trans hb)), root_of_some hb]
    exact ih

/-- Shortening the links from an axis changes no representative. -/
theorem root_link_root {h : (forest.root child).level < child.level} (a : Axis) :
    (forest.link child (forest.root child) h).root a = forest.root a := by
  have hne : forest.root child ≠ child := fun e => Nat.lt_irrefl _ (e ▸ h)
  have hend : (forest.link child (forest.root child) h).root (forest.root child) =
      forest.root child := by
    refine root_of_none ?_
    rw [lookup_link, if_neg hne]
    exact lookup_eq_none_iff.2 (root_root child)
  refine forest.induction_links (P := fun a =>
    (forest.link child (forest.root child) h).root a = forest.root a)
    (fun a ha => ?_) (fun a b hb ih => ?_) a
  · have hac : a ≠ child := by
      rintro rfl
      exact hne (root_of_none ha)
    rw [root_of_none ha, root_of_none (lookup_link.trans ((if_neg hac).trans ha))]
  · by_cases hac : a = child
    · rw [root_of_some (lookup_link.trans (if_pos hac)), hend, hac]
    · rw [root_of_some (lookup_link.trans ((if_neg hac).trans hb)), root_of_some hb, ih]

theorem find_fst : (forest.find a).1 = forest.root a := by
  unfold find
  split
  · next h => exact h.symm
  · rfl

theorem root_find (a b : Axis) : (forest.find a).2.root b = forest.root b := by
  unfold find
  split
  · rfl
  · next h => exact root_link_root (h := forest.level_root_lt h) b

/-! ## Classes -/

/-- A union merges the classes of the representatives. -/
theorem union_root (forest : AxisForest) (c : Axis × Axis) :
    (forest.union c).map AxisForest.root = AxisClasses.merge forest.root c := by
  have hx : (forest.find c.1).1 = forest.root c.1 := find_fst
  have hy : ((forest.find c.1).2.find c.2).1 = forest.root c.2 := find_fst.trans (root_find c.1 c.2)
  have hroot : ((forest.find c.1).2.find c.2).2.root = forest.root :=
    funext fun a => (root_find c.2 a).trans (root_find c.1 a)
  unfold union AxisClasses.merge
  dsimp only
  split
  · next heq =>
    rw [hx, hy] at heq
    rw [if_pos heq]
    exact congrArg Except.ok hroot
  · next hne =>
    rw [hx, hy] at hne
    rw [if_neg hne]
    split
    · next e he =>
      rw [hx, hy] at he
      rw [he]
      rfl
    · next root child he =>
      rw [hx, hy] at he
      rw [he]
      obtain ⟨-, hends⟩ := AxisClasses.order_ok he
      -- Both ends of the new link are representatives.
      have hends' : forest.root root = root ∧ forest.root child = child := by
        rcases hends with ⟨rfl, rfl⟩ | ⟨rfl, rfl⟩ <;> exact ⟨root_root _, root_root _⟩
      rw [← hroot] at hends'
      refine congrArg Except.ok (funext fun a => ?_)
      rw [root_link hends'.1 hends'.2, hroot]

/-- The forest that the constraints generate has the representatives of their classes, and there is
none exactly if there are no classes, with the same error. -/
theorem ofConstraints_root (cs : List (Axis × Axis)) :
    (ofConstraints cs).map AxisForest.root = AxisClasses.ofConstraints cs := by
  have hempty : empty.root = id := funext fun a => root_of_none rfl
  unfold ofConstraints AxisClasses.ofConstraints
  rw [← hempty]
  generalize empty = forest
  induction cs generalizing forest with
  | nil => rfl
  | cons c cs ih =>
    rw [List.foldlM_cons, List.foldlM_cons, ← union_root]
    cases forest.union c with
    | error e => rfl
    | ok next => exact ih next

end AxisForest

end TensorCompiler
