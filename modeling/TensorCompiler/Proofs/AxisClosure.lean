import Mathlib.Logic.Relation
import TensorCompiler.Proofs.AxisForest
/-!
# The closure of axis constraints

Merging constraint after constraint computes the least equivalence that joins the axes of each of
them. Two different named axes in one class are the only reason to fail. Otherwise every class has
one representative: its named axis, and if it has none its free axis with the least number. None of
this depends on the order of the constraints, or on the order of the two axes of any of them.

* `AxisClasses.Joined`, `AxisClasses.Conflict`, `AxisClasses.Represents`: the classes, without
  reference to how they are computed.
* `AxisClasses.joined_iff`: merged axes are those of one class.
* `AxisClasses.represents`: what the representatives are.
* `AxisClasses.ofConstraints_cases`: merging fails exactly if there is a conflict.
* `AxisClasses.Rearranged.ofConstraints`: the order of the constraints does not matter.
* `AxisForest.substitution_eq`: what is renamed, in terms of the classes.
-/

namespace TensorCompiler

namespace AxisClasses

variable {cs cs' : List (Axis × Axis)} {classes classes' : AxisClasses} {a b x y : Axis}

/-- The least equivalence that joins the axes of each constraint. -/
def Joined (cs : List (Axis × Axis)) : Axis → Axis → Prop :=
  Relation.EqvGen fun x y => (x, y) ∈ cs

/-- Two different named axes are in one class. -/
structure Conflict (cs : List (Axis × Axis)) (x y : Axis) : Prop where
  left : x.isFree = false
  right : y.isFree = false
  ne : x ≠ y
  joined : Joined cs x y

/-- The axis that stands for a class: a named one, or among free axes only the one with the least
number. -/
structure Represents (cs : List (Axis × Axis)) (a r : Axis) : Prop where
  joined : Joined cs a r
  least : r.isFree = false ∨ ∀ b, Joined cs a b → b.isFree = true ∧ r.number ≤ b.number

/-- The same constraints in any order, any number of times and with the two axes of each of them
in any order. -/
def Rearranged (cs cs' : List (Axis × Axis)) : Prop :=
  ∀ x y, (x, y) ∈ cs ∨ (y, x) ∈ cs ↔ (x, y) ∈ cs' ∨ (y, x) ∈ cs'

/-! ## Classes of constraints -/

theorem Joined.of_mem {c : Axis × Axis} (h : c ∈ cs) : Joined cs c.1 c.2 := .rel _ _ h

theorem Joined.mono (hsub : ∀ c ∈ cs, Joined cs' c.1 c.2) (h : Joined cs a b) : Joined cs' a b := by
  induction h with
  | rel x y hxy => exact hsub (x, y) hxy
  | refl x => exact .refl x
  | symm x y _ ih => exact ih.symm
  | trans x y z _ _ ih ih' => exact ih.trans _ _ _ ih'

/-- Only constrained axes are joined to others. -/
theorem Joined.eq_or_mem (h : Joined cs a b) :
    a = b ∨ a ∈ cs.flatMap (fun c => [c.1, c.2]) ∧ b ∈ cs.flatMap (fun c => [c.1, c.2]) := by
  induction h with
  | rel x y hxy =>
    exact .inr ⟨List.mem_flatMap.2 ⟨_, hxy, by simp⟩, List.mem_flatMap.2 ⟨_, hxy, by simp⟩⟩
  | refl x => exact .inl rfl
  | symm x y _ ih => exact ih.imp Eq.symm And.symm
  | trans x y z _ _ ih ih' =>
    rcases ih with rfl | ⟨hx, hy⟩
    · exact ih'
    · rcases ih' with rfl | ⟨-, hz⟩
      · exact .inr ⟨hx, hy⟩
      · exact .inr ⟨hx, hz⟩

theorem Rearranged.joined_iff (h : Rearranged cs cs') : Joined cs a b ↔ Joined cs' a b := by
  have half : ∀ {cs cs'}, Rearranged cs cs' → Joined cs a b → Joined cs' a b := by
    intro cs cs' h
    refine Joined.mono fun c hc => ?_
    rcases (h c.1 c.2).1 (.inl hc) with hc | hc
    · exact .of_mem hc
    · exact (Joined.of_mem hc).symm
  exact ⟨half h, half fun x y => (h x y).symm⟩

/-! ## Merging -/

/-- Every axis is in the class of its representative. -/
def Generated (cs : List (Axis × Axis)) (classes : AxisClasses) : Prop :=
  ∀ a, Joined cs a (classes a)

theorem Generated.mono (h : Generated cs classes) (hsub : ∀ c ∈ cs, c ∈ cs') :
    Generated cs' classes := fun a => (h a).mono fun c hc => .of_mem (hsub c hc)

/-- A merge joins no more than its constraint asks for. -/
theorem Generated.merge {c : Axis × Axis} (h : Generated cs classes) (hc : c ∈ cs)
    (hmerge : merge classes c = .ok classes') : Generated cs classes' := by
  by_cases hsame : classes c.1 = classes c.2
  · rw [merge_self hsame] at hmerge
    exact Except.ok.inj hmerge ▸ h
  · simp only [AxisClasses.merge, if_neg hsame, bind_ok_iff, pure_ok_iff] at hmerge
    obtain ⟨⟨root, child⟩, horder, rfl⟩ := hmerge
    have hends : Joined cs (classes c.1) (classes c.2) :=
      ((h c.1).symm.trans _ _ _ (Joined.of_mem hc)).trans _ _ _ (h c.2)
    have hlink : Joined cs child root := by
      rcases (order_ok horder).2 with ⟨rfl, rfl⟩ | ⟨rfl, rfl⟩
      · exact hends.symm
      · exact hends
    intro a
    by_cases ha : classes a = child
    · simp only [if_pos ha]
      exact (ha ▸ h a).trans _ _ _ hlink
    · simp only [if_neg ha]
      exact h a

theorem Conflict.mono (h : Conflict cs x y) (hsub : ∀ c ∈ cs, c ∈ cs') : Conflict cs' x y :=
  ⟨h.left, h.right, h.ne, h.joined.mono fun c hc => .of_mem (hsub c hc)⟩

/-- A merge fails because both representatives are named. -/
theorem conflict_of_merge {c : Axis × Axis} {e : GraphError} (hg : Generated cs classes)
    (hc : c ∈ cs) (hmerge : AxisClasses.merge classes c = .error e) :
    e = .axisConflict (classes c.1) (classes c.2) ∧ Conflict cs (classes c.1) (classes c.2) := by
  by_cases hsame : classes c.1 = classes c.2
  · rw [merge_self hsame] at hmerge
    cases hmerge
  · have hjoined : Joined cs (classes c.1) (classes c.2) :=
      ((hg c.1).symm.trans _ _ _ (Joined.of_mem hc)).trans _ _ _ (hg c.2)
    have horder : order (classes c.1) (classes c.2) = .error e := by
      simp only [AxisClasses.merge, if_neg hsame, bind_error_iff] at hmerge
      rcases hmerge with h | ⟨p, -, h⟩
      · exact h
      · cases h
    unfold order at horder
    cases hx : (classes c.1).isFree <;> cases hy : (classes c.2).isFree
    · rw [hx, hy] at horder
      cases horder
      exact ⟨rfl, hx, hy, hsame, hjoined⟩
    all_goals
      rw [hx, hy] at horder
      cases horder

/-- Merging goes on to the end, joining no more than it is asked to, or it stops at a conflict. -/
theorem generated_merges (done rest : List (Axis × Axis)) (hs : Sound classes)
    (hg : Generated done classes) :
    (∃ classes', rest.foldlM AxisClasses.merge classes = .ok classes' ∧
        Generated (done ++ rest) classes') ∨
      ∃ x y, rest.foldlM AxisClasses.merge classes = .error (.axisConflict x y) ∧
        Conflict (done ++ rest) x y := by
  induction rest generalizing done classes with
  | nil => exact .inl ⟨classes, rfl, by rwa [List.append_nil]⟩
  | cons c rest ih =>
    have happend : done ++ [c] ++ rest = done ++ c :: rest := List.append_assoc ..
    have hc : c ∈ done ++ [c] := List.mem_append_right _ (List.mem_singleton_self c)
    have hg' : Generated (done ++ [c]) classes := hg.mono fun d hd => List.mem_append_left _ hd
    rw [List.foldlM_cons]
    cases hmerge : AxisClasses.merge classes c with
    | ok next =>
      rw [← happend]
      exact ih (done ++ [c]) (sound_of_merge hs hmerge).1 (hg'.merge hc hmerge)
    | error e =>
      obtain ⟨rfl, hconflict⟩ := conflict_of_merge hg' hc hmerge
      refine .inr ⟨_, _, rfl, ?_⟩
      rw [← happend]
      exact hconflict.mono fun d hd => List.mem_append_left _ hd

theorem sound_of_constraints (h : ofConstraints cs = .ok classes) : Sound classes :=
  (sound_of_merges sound_id h).1

theorem generated_of_constraints (h : ofConstraints cs = .ok classes) : Generated cs classes := by
  rcases generated_merges [] cs sound_id fun a => .refl a with ⟨classes', hok, hg⟩ | ⟨x, y, he, -⟩
  · obtain rfl := Except.ok.inj (h.symm.trans hok)
    exact hg
  · have h' := h.symm.trans he
    cases h'

/-- The merged axes are those of one class. -/
theorem joined_iff (h : ofConstraints cs = .ok classes) :
    classes a = classes b ↔ Joined cs a b := by
  have hg := generated_of_constraints h
  constructor
  · intro hab
    exact (hg a).trans _ _ _ (hab ▸ (hg b).symm)
  · intro hab
    induction hab with
    | rel x y hxy => exact (sound_of_merges sound_id h).2.2 (x, y) hxy
    | refl x => rfl
    | symm x y _ ih => exact ih.symm
    | trans x y z _ _ ih ih' => exact ih.trans ih'

/-- No axis of a class has a lower level than its representative. -/
theorem level_le (h : ofConstraints cs = .ok classes) (a : Axis) : (classes a).level ≤ a.level := by
  have hforest := AxisForest.ofConstraints_root cs
  rw [h, map_ok_iff] at hforest
  obtain ⟨forest, -, rfl⟩ := hforest
  exact forest.level_climb_le _ a

/-- The representative of a class is its named axis, and the free axis with the least number if
there is none. -/
theorem represents (h : ofConstraints cs = .ok classes) (a : Axis) :
    Represents cs a (classes a) := by
  refine ⟨generated_of_constraints h a, ?_⟩
  cases hr : classes a with
  | named n s => exact .inl rfl
  | free n =>
    refine .inr fun b hb => ?_
    have hle := level_le h b
    rw [← (joined_iff h).2 hb, hr] at hle
    cases b with
    | named m s => cases hle
    | free m => exact ⟨rfl, Nat.le_of_succ_le_succ hle⟩

/-- Without a conflict there is only one representative. -/
theorem Represents.unique {r r' : Axis} (hno : ∀ x y, ¬Conflict cs x y) (h : Represents cs a r)
    (h' : Represents cs a r') : r = r' := by
  have hjoined : Joined cs r r' := h.joined.symm.trans _ _ _ h'.joined
  rcases h.least with hnamed | hleast
  · rcases h'.least with hnamed' | hleast'
    · by_contra hne
      exact hno r r' ⟨hnamed, hnamed', hne, hjoined⟩
    · rw [(hleast' r h.joined).1] at hnamed
      cases hnamed
  · obtain ⟨hfree', hle⟩ := hleast r' h'.joined
    rcases h'.least with hnamed' | hleast'
    · rw [hfree'] at hnamed'
      cases hnamed'
    · obtain ⟨hfree, hle'⟩ := hleast' r h.joined
      cases r with
      | named n s => cases hfree
      | free n =>
        cases r' with
        | named m s => cases hfree'
        | free m => exact congrArg Axis.free (Nat.le_antisymm hle hle')

/-- Constraints are merged unless they conflict. -/
theorem ofConstraints_cases (cs : List (Axis × Axis)) :
    (∃ classes, ofConstraints cs = .ok classes ∧ ∀ x y, ¬Conflict cs x y) ∨
      ∃ x y, ofConstraints cs = .error (.axisConflict x y) ∧ Conflict cs x y := by
  refine (generated_merges [] cs sound_id fun a => .refl a).imp_left ?_
  rintro ⟨classes, hok, -⟩
  refine ⟨classes, hok, fun x y hc => hc.ne ?_⟩
  have hs := sound_of_constraints hok
  rw [← hs.named x hc.left, ← hs.named y hc.right]
  exact (joined_iff hok).2 hc.joined

theorem Rearranged.conflict_iff (h : Rearranged cs cs') : Conflict cs x y ↔ Conflict cs' x y :=
  ⟨fun hc => ⟨hc.left, hc.right, hc.ne, h.joined_iff.1 hc.joined⟩,
    fun hc => ⟨hc.left, hc.right, hc.ne, h.joined_iff.2 hc.joined⟩⟩

theorem Rearranged.represents {r : Axis} (h : Rearranged cs cs') (hr : Represents cs a r) :
    Represents cs' a r :=
  ⟨h.joined_iff.1 hr.joined, hr.least.imp_right fun hleast b hb => hleast b (h.joined_iff.2 hb)⟩

/-- Rearranged constraints have the same classes, or they conflict as well. -/
theorem Rearranged.ofConstraints (h : Rearranged cs cs') :
    (AxisClasses.ofConstraints cs).toOption = (AxisClasses.ofConstraints cs').toOption := by
  rcases ofConstraints_cases cs with ⟨classes, hok, hno⟩ | ⟨x, y, herror, hc⟩
  · rcases ofConstraints_cases cs' with ⟨classes', hok', hno'⟩ | ⟨x, y, -, hc⟩
    · rw [hok, hok']
      refine congrArg some (funext fun a => ?_)
      exact (h.represents (AxisClasses.represents hok a)).unique hno' (AxisClasses.represents hok' a)
    · exact absurd (h.conflict_iff.2 hc) (hno x y)
  · rcases ofConstraints_cases cs' with ⟨classes', -, hno'⟩ | ⟨x', y', herror', -⟩
    · exact absurd (h.conflict_iff.1 hc) (hno' x y)
    · rw [herror, herror']
      rfl

end AxisClasses

namespace AxisForest

variable {cs : List (Axis × Axis)} {forest : AxisForest}

theorem classes_of_ok (h : ofConstraints cs = .ok forest) :
    AxisClasses.ofConstraints cs = .ok forest.root := by
  rw [← ofConstraints_root, h]
  rfl

theorem lookup_moved (axes : List Axis) (a : Axis) :
    (axes.filterMap fun b => if forest.root b = b then none else some (b, forest.root b)).lookup a =
      if a ∈ axes ∧ forest.root a ≠ a then some (forest.root a) else none := by
  induction axes with
  | nil => rfl
  | cons b axes ih =>
    by_cases hb : forest.root b = b
    · rw [List.filterMap_cons_none (by rw [if_pos hb]), ih]
      refine if_congr ?_ rfl rfl
      rw [List.mem_cons]
      refine ⟨fun h => ⟨.inr h.1, h.2⟩, fun ⟨h, hne⟩ => ⟨h.resolve_left ?_, hne⟩⟩
      rintro rfl
      exact hne hb
    · rw [List.filterMap_cons_some (by rw [if_neg hb]), List.lookup_cons]
      by_cases hab : a = b
      · rw [hab, beq_self_eq_true, if_pos ⟨List.mem_cons_self .., hb⟩]
      · rw [beq_false_of_ne hab, ih]
        refine if_congr ?_ rfl rfl
        rw [List.mem_cons, or_iff_right hab]

/-- Only constrained axes have another representative, so renaming the constrained axes sends every
axis to its representative. -/
theorem substitution_eq (h : ofConstraints cs = .ok forest) :
    (fun a => ((forest.moved cs).lookup a).getD a) = forest.root := by
  funext a
  rw [moved, lookup_moved]
  split
  · rfl
  · next hnot =>
    by_contra hne
    refine hnot ⟨?_, fun e => hne e.symm⟩
    have hjoined := AxisClasses.generated_of_constraints (classes_of_ok h) a
    exact (hjoined.eq_or_mem.resolve_left fun e => hne e).1

theorem isEmpty_moved_iff : (forest.moved cs).isEmpty = true ↔
    ∀ c ∈ cs, forest.root c.1 = c.1 ∧ forest.root c.2 = c.2 := by
  rw [List.isEmpty_iff, moved, List.filterMap_eq_nil_iff]
  simp only [List.mem_flatMap, List.mem_cons, List.not_mem_nil, or_false, ite_eq_left_iff,
    reduceCtorEq, imp_false, not_not]
  constructor
  · exact fun h c hc => ⟨h _ ⟨c, hc, .inl rfl⟩, h _ ⟨c, hc, .inr rfl⟩⟩
  · rintro h a ⟨c, hc, rfl | rfl⟩
    · exact (h c hc).1
    · exact (h c hc).2

end AxisForest

end TensorCompiler
