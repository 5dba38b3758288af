import TensorCompiler.Proofs.Mirroring
/-!
# Simplification of a graph inside a larger arena

A renaming of axes walks the whole arena, so it also renames what lies in the gap. It can fail
there, where it does not fail in the smaller graph, and it can change something there, where it
changes nothing in the smaller graph. The first round is the only one that has anything to rename in
the gap: afterwards all axes stand for themselves.

* `Gap.Admits`, `Gap.Fixed`: a renaming goes through in the gap; it changes nothing there.
* `Embeds.renameAxes`: renaming the larger graph renames the smaller one.
* `Embeds.reflects_round`: a round on the larger graph is a round on the smaller one.
* `Embeds.lifts_round`: the other way round, if the gap admits the renaming.
* `Embeds.reflects_simplify`: what the pipeline makes of the larger graph, it makes of the smaller
  one, around the same gap.
* `Embeds.lifts_simplify`: the other way round, if there are rounds enough.
-/

namespace TensorCompiler

/-! ## Renaming -/

theorem exists_bool_iff (p : Prop) : ∃ b : Bool, b = true ↔ p := by
  classical exact ⟨decide p, decide_eq_true_iff⟩

/-- An update of all entries succeeds if each one does, and reports a change if one of them does. -/
theorem updateEach_ok_iff {β ε : Type} {f : β → Except ε (β × Bool)} {xs : List β} {b : Bool} :
    (updateEach f xs).2 = .ok b ↔ (∀ x ∈ xs, ∃ y c, f x = .ok (y, c)) ∧
      (b = true ↔ ∃ x ∈ xs, ∃ y, f x = .ok (y, true)) := by
  induction xs generalizing b with
  | nil => cases b <;> simp [updateEach]
  | cons x xs ih =>
    cases hx : f x with
    | error e => simp [updateEach, hx]
    | ok p =>
      obtain ⟨y, c⟩ := p
      have hcons : (updateEach f (x :: xs)).2 = (updateEach f xs).2.map (c || ·) := by
        simp only [updateEach, hx]
      have hhead : (∃ z, f x = .ok (z, true)) ↔ c = true := by simp [hx]
      rw [hcons, map_ok_iff, List.forall_mem_cons, List.exists_mem_cons_iff, hhead]
      constructor
      · rintro ⟨b', hb', rfl⟩
        obtain ⟨hall, hsome⟩ := ih.1 hb'
        exact ⟨⟨⟨y, c, hx⟩, hall⟩, by rw [Bool.or_eq_true, hsome]⟩
      · rintro ⟨⟨-, hall⟩, hsome⟩
        obtain ⟨b', hb'⟩ : ∃ b' : Bool, b' = true ↔ ∃ x ∈ xs, ∃ y, f x = .ok (y, true) :=
          exists_bool_iff _
        refine ⟨b', ih.2 ⟨hall, hb'⟩, ?_⟩
        rw [Bool.eq_iff_iff, Bool.or_eq_true, hb', hsome]

namespace Graph

variable {α : Type} [Scalar α] {e : Gap} {f : Axis → Axis} {g h g₁ h₁ : Graph α} {s s' : Supply}
  {b c : Bool} {config : Config}

/-- A renaming of axes changes some variable or operator. -/
def ChangedBy (f : Axis → Axis) (g : Graph α) : Prop :=
  (∃ v x y, g.slot? v = some x ∧ x.renameAxes f = .ok (y, true)) ∨
    ∃ o n m, g.node? o = some n ∧ n.renameAxes f = .ok (m, true)

theorem renameEntry_some_iff {n : Node α} {y : Option (Node α)} {c : Bool} :
    renameEntry f (some n) = .ok (y, c) ↔ ∃ m, n.renameAxes f = .ok (m, c) ∧ y = some m := by
  rw [renameEntry, map_ok_iff]
  constructor
  · rintro ⟨⟨m, d⟩, hn, h⟩
    cases h
    exact ⟨m, hn, rfl⟩
  · rintro ⟨m, hn, rfl⟩
    exact ⟨_, hn, rfl⟩

/-- Each entry of the table of operators can be renamed if each operator can. -/
theorem forall_renameEntry_iff : (∀ x ∈ g.nodes.toList, ∃ y c, renameEntry f x = .ok (y, c)) ↔
    ∀ o n, g.node? o = some n → ∃ m c, n.renameAxes f = .ok (m, c) := by
  constructor
  · intro h o n hn
    obtain ⟨y, c, hy⟩ := h (some n) (mem_nodes_iff.2 ⟨o, hn⟩)
    obtain ⟨m, hm, -⟩ := renameEntry_some_iff.1 hy
    exact ⟨m, c, hm⟩
  · rintro h (_ | n) hx
    · exact ⟨none, false, rfl⟩
    · obtain ⟨o, hn⟩ := mem_nodes_iff.1 hx
      obtain ⟨m, c, hm⟩ := h o n hn
      exact ⟨some m, c, renameEntry_some_iff.2 ⟨m, hm, rfl⟩⟩

/-- An entry is changed if an operator is. -/
theorem exists_renameEntry_iff : (∃ x ∈ g.nodes.toList, ∃ y, renameEntry f x = .ok (y, true)) ↔
    ∃ o n m, g.node? o = some n ∧ n.renameAxes f = .ok (m, true) := by
  constructor
  · rintro ⟨_ | n, hx, y, hy⟩
    · cases hy
    · obtain ⟨o, hn⟩ := mem_nodes_iff.1 hx
      obtain ⟨m, hm, -⟩ := renameEntry_some_iff.1 hy
      exact ⟨o, n, m, hn, hm⟩
  · rintro ⟨o, n, m, hn, hm⟩
    exact ⟨some n, mem_nodes_iff.2 ⟨o, hn⟩, some m, renameEntry_some_iff.2 ⟨m, hm, rfl⟩⟩

/-- The operators are renamed once all variables are. -/
theorem renameAxes_ok_iff_updateEach : (g.renameAxes f).2 = .ok b ↔ ∃ b₁ b₂, b = (b₁ || b₂) ∧
    (updateEach (Slot.renameAxes f) g.slots.toList).2 = .ok b₁ ∧
    (updateEach (renameEntry f) g.nodes.toList).2 = .ok b₂ := by
  unfold renameAxes
  rcases updateEach (Slot.renameAxes f) g.slots.toList with ⟨slots, d | b₁⟩
  · simp
  · show (updateEach (renameEntry f) g.nodes.toList).2.map (b₁ || ·) = .ok b ↔ _
    rw [map_ok_iff]
    constructor
    · rintro ⟨b₂, hb₂, rfl⟩
      exact ⟨b₁, b₂, rfl, rfl, hb₂⟩
    · rintro ⟨b₁', b₂, rfl, hb₁, hb₂⟩
      cases hb₁
      exact ⟨b₂, hb₂, rfl⟩

/-- A renaming of axes succeeds if it does on every variable and every operator, and reports a
change if there is one. -/
theorem renameAxes_ok_iff : (g.renameAxes f).2 = .ok b ↔
    ((∀ v x, g.slot? v = some x → ∃ y c, x.renameAxes f = .ok (y, c)) ∧
      ∀ o n, g.node? o = some n → ∃ m c, n.renameAxes f = .ok (m, c)) ∧
    (b = true ↔ g.ChangedBy f) := by
  have hslots : (∀ x ∈ g.slots.toList, ∃ y c, x.renameAxes f = .ok (y, c)) ↔
      ∀ v x, g.slot? v = some x → ∃ y c, x.renameAxes f = .ok (y, c) := by
    simp only [mem_slots_iff, forall_exists_index]
    exact forall_comm
  have hmoved : (∃ x ∈ g.slots.toList, ∃ y, x.renameAxes f = .ok (y, true)) ↔
      ∃ v x y, g.slot? v = some x ∧ x.renameAxes f = .ok (y, true) := by
    simp only [mem_slots_iff]
    constructor
    · rintro ⟨x, ⟨v, hv⟩, y, hy⟩
      exact ⟨v, x, y, hv, hy⟩
    · rintro ⟨v, x, y, hv, hy⟩
      exact ⟨x, ⟨v, hv⟩, y, hy⟩
  simp only [renameAxes_ok_iff_updateEach, updateEach_ok_iff, forall_renameEntry_iff,
    exists_renameEntry_iff, hslots, hmoved]
  constructor
  · rintro ⟨b₁, b₂, rfl, ⟨hs, h₁⟩, hn, h₂⟩
    exact ⟨⟨hs, hn⟩, by rw [Bool.or_eq_true, h₁, h₂]; rfl⟩
  · rintro ⟨⟨hs, hn⟩, hb⟩
    obtain ⟨b₁, hb₁⟩ : ∃ b₁ : Bool, b₁ = true ↔
        ∃ v x y, g.slot? v = some x ∧ x.renameAxes f = .ok (y, true) := exists_bool_iff _
    obtain ⟨b₂, hb₂⟩ : ∃ b₂ : Bool, b₂ = true ↔
        ∃ o n m, g.node? o = some n ∧ n.renameAxes f = .ok (m, true) := exists_bool_iff _
    refine ⟨b₁, b₂, ?_, ⟨hs, hb₁⟩, hn, hb₂⟩
    rw [Bool.eq_iff_iff, Bool.or_eq_true, hb₁, hb₂, hb]
    rfl

theorem exists_renameAxes_iff : (∃ b, (g.renameAxes f).2 = .ok b) ↔
    (∀ v x, g.slot? v = some x → ∃ y c, x.renameAxes f = .ok (y, c)) ∧
      ∀ o n, g.node? o = some n → ∃ m c, n.renameAxes f = .ok (m, c) := by
  constructor
  · rintro ⟨b, hb⟩
    exact (renameAxes_ok_iff.1 hb).1
  · intro h
    obtain ⟨b, hb⟩ := exists_bool_iff (g.ChangedBy f)
    exact ⟨b, renameAxes_ok_iff.2 ⟨h, hb⟩⟩

theorem slot?_renameAxes (hb : (g.renameAxes f).2 = .ok b) (v : VarId) :
    (g.renameAxes f).1.slot? v =
      (g.slot? v).bind fun x => (x.renameAxes f).toOption.map Prod.fst := by
  cases hv : g.slot? v with
  | none =>
    have hmap := (sameArena_renameAxes g f).slot?_map v
    rw [hv, Option.map_none, Option.map_eq_none_iff] at hmap
    exact hmap
  | some x =>
    obtain ⟨y, c, hy, hx⟩ := (renameAxes_ok hb).1 v x hv
    rw [hy, Option.bind_some, hx]
    rfl

theorem node?_renameAxes (hb : (g.renameAxes f).2 = .ok b) (o : OpId) :
    (g.renameAxes f).1.node? o =
      (g.node? o).bind fun n => (n.renameAxes f).toOption.map Prod.fst := by
  cases ho : g.node? o with
  | none =>
    cases hm : (g.renameAxes f).1.node? o with
    | none => rfl
    | some m =>
      obtain ⟨n, hn, -⟩ := (sameArena_renameAxes g f).symm.node hm
      rw [ho] at hn
      cases hn
  | some n =>
    obtain ⟨m, c, hm, hn⟩ := (renameAxes_ok hb).2 o n ho
    rw [hm, Option.bind_some, hn]
    rfl

section

variable (e)

omit [Scalar α] in
theorem renameAxes_gapSlot (x : Slot α) :
    (e.slot x).renameAxes f = (x.renameAxes f).map (Prod.map e.slot id) := by
  cases x with
  | live t p =>
    simp only [Gap.slot, Slot.renameAxes]
    split <;> rfl
  | replaced v => rfl

theorem renameAxes_gapNode (n : Node α) :
    (e.node n).renameAxes f = (n.renameAxes f).map (Prod.map e.node id) := by
  show (n.op.mapAxes f >>= fun op => _) = (n.op.mapAxes f >>= fun op => _).map _
  cases n.op.mapAxes f with
  | error d => rfl
  | ok op =>
    show (if op.eqv n.op then _ else _) = Except.map _ (if op.eqv n.op then _ else _)
    split <;> rfl

end

/-- A renaming of axes goes through in the gap. -/
structure Admits (e : Gap) (f : Axis → Axis) (h : Graph α) : Prop where
  slot : ∀ v x, e.HasVar v → h.slot? v = some x → ∃ y c, x.renameAxes f = .ok (y, c)
  node : ∀ o n, e.HasOp o → h.node? o = some n → ∃ m c, n.renameAxes f = .ok (m, c)

/-- A renaming of axes changes nothing in the gap. -/
structure Fixes (e : Gap) (f : Axis → Axis) (h : Graph α) : Prop where
  slot : ∀ v x, e.HasVar v → h.slot? v = some x → x.renameAxes f = .ok (x, false)
  node : ∀ o n, e.HasOp o → h.node? o = some n → n.renameAxes f = .ok (n, false)

theorem Fixes.admits (k : Fixes e f h) : Admits e f h :=
  ⟨fun v x hv hx => ⟨x, false, k.slot v x hv hx⟩, fun o n ho hn => ⟨n, false, k.node o n ho hn⟩⟩

namespace Embeds

/-- What a renaming changes in the smaller graph, it changes in the larger one. -/
theorem changedBy (k : Embeds e g h) (hchanged : g.ChangedBy f) : h.ChangedBy f := by
  rcases hchanged with ⟨v, x, y, hx, hy⟩ | ⟨o, n, m, hn, hm⟩
  · refine .inl ⟨e.var v, e.slot x, e.slot y, by rw [k.slot, hx]; rfl, ?_⟩
    rw [renameAxes_gapSlot, hy]
    rfl
  · refine .inr ⟨e.op o, e.node n, e.node m, by rw [k.node, hn]; rfl, ?_⟩
    rw [renameAxes_gapNode, hm]
    rfl

/-- What else a renaming changes in the larger graph lies in the gap. -/
theorem of_changedBy (k : Embeds e g h) (hchanged : h.ChangedBy f) : g.ChangedBy f ∨
    (∃ v x y, e.HasVar v ∧ h.slot? v = some x ∧ x.renameAxes f = .ok (y, true)) ∨
    ∃ o n m, e.HasOp o ∧ h.node? o = some n ∧ n.renameAxes f = .ok (m, true) := by
  rcases hchanged with ⟨v, x, y, hx, hy⟩ | ⟨o, n, m, hn, hm⟩
  · obtain hv | ⟨w, rfl⟩ := e.hasVar_or v
    · exact .inr (.inl ⟨v, x, y, hv, hx, hy⟩)
    · rw [k.slot, Option.map_eq_some_iff] at hx
      obtain ⟨x, hx, rfl⟩ := hx
      rw [renameAxes_gapSlot, map_ok_iff] at hy
      obtain ⟨⟨z, c⟩, hz, h⟩ := hy
      cases h
      exact .inl (.inl ⟨w, x, z, hx, hz⟩)
  · obtain ho | ⟨p, rfl⟩ := e.hasOp_or o
    · exact .inr (.inr ⟨o, n, m, ho, hn, hm⟩)
    · rw [k.node, Option.map_eq_some_iff] at hn
      obtain ⟨n, hn, rfl⟩ := hn
      rw [renameAxes_gapNode, map_ok_iff] at hm
      obtain ⟨⟨z, c⟩, hz, h⟩ := hm
      cases h
      exact .inl (.inr ⟨p, n, z, hn, hz⟩)

theorem changedBy_of_fixes (k : Embeds e g h) (hfixes : Fixes e f h) (hchanged : h.ChangedBy f) :
    g.ChangedBy f := by
  rcases k.of_changedBy hchanged with hg | ⟨v, x, y, hv, hx, hy⟩ | ⟨o, n, m, ho, hn, hm⟩
  · exact hg
  · rw [hfixes.slot v x hv hx] at hy
    cases hy
  · rw [hfixes.node o n ho hn] at hm
    cases hm

/-- Renaming both graphs keeps the one in the other. -/
theorem renameAxes (k : Embeds e g h) (hb : (g.renameAxes f).2 = .ok b)
    (hc : (h.renameAxes f).2 = .ok c) : Embeds e (g.renameAxes f).1 (h.renameAxes f).1 ∧
      (b = true → c = true) ∧ ((h.ChangedBy f → g.ChangedBy f) → c = b) := by
  have hg := sameArena_renameAxes g f
  have hh := sameArena_renameAxes h f
  have hnodes : ∀ {i j : Graph α}, SameArena i j → j.nodes.size = i.nodes.size := fun k => by
    simpa using congrArg Array.size k.nodes
  have hb' := (renameAxes_ok_iff.1 hb).2
  have hc' := (renameAxes_ok_iff.1 hc).2
  refine ⟨⟨wellformed_renameAxes k.wellformed f, wellformed_renameAxes k.wellformed' f,
    hg.size ▸ k.firstVar, hnodes hg ▸ k.firstOp, by rw [hg.size, hh.size, k.vars],
    by rw [hnodes hg, hnodes hh, k.ops], fun v => ?_, fun o => ?_, ?_, ?_⟩, fun h => ?_,
    fun hback => ?_⟩
  · rw [slot?_renameAxes hc, slot?_renameAxes hb, k.slot]
    cases g.slot? v with
    | none => rfl
    | some x =>
      rw [Option.map_some, Option.bind_some, Option.bind_some, renameAxes_gapSlot]
      cases x.renameAxes f <;> rfl
  · rw [node?_renameAxes hc, node?_renameAxes hb, k.node]
    cases g.node? o with
    | none => rfl
    | some n =>
      rw [Option.map_some, Option.bind_some, Option.bind_some, renameAxes_gapNode]
      cases n.renameAxes f <;> rfl
  · rw [renameAxes_declaredInputs, renameAxes_declaredInputs, k.declaredInputs]
  · rw [renameAxes_declaredOutputs, renameAxes_declaredOutputs, k.declaredOutputs]
  · exact hc'.2 (k.changedBy (hb'.1 h))
  · rw [Bool.eq_iff_iff, hc', hb']
    exact ⟨hback, k.changedBy⟩

theorem renameAxes_of (k : Embeds e g h) (hc : (h.renameAxes f).2 = .ok c) :
    ∃ b, (g.renameAxes f).2 = .ok b := by
  obtain ⟨hslots, hnodes⟩ := exists_renameAxes_iff.1 ⟨c, hc⟩
  refine exists_renameAxes_iff.2 ⟨fun v x hx => ?_, fun o n hn => ?_⟩
  · obtain ⟨y, d, hy⟩ := hslots (e.var v) (e.slot x) (by rw [k.slot, hx]; rfl)
    rw [renameAxes_gapSlot, map_ok_iff] at hy
    obtain ⟨⟨z, d⟩, hz, -⟩ := hy
    exact ⟨z, d, hz⟩
  · obtain ⟨m, d, hm⟩ := hnodes (e.op o) (e.node n) (by rw [k.node, hn]; rfl)
    rw [renameAxes_gapNode, map_ok_iff] at hm
    obtain ⟨⟨z, d⟩, hz, -⟩ := hm
    exact ⟨z, d, hz⟩

theorem exists_renameAxes (k : Embeds e g h) (hb : (g.renameAxes f).2 = .ok b)
    (hadmits : Admits e f h) : ∃ c, (h.renameAxes f).2 = .ok c := by
  obtain ⟨hslots, hnodes⟩ := exists_renameAxes_iff.1 ⟨b, hb⟩
  refine exists_renameAxes_iff.2 ⟨fun v x hx => ?_, fun o n hn => ?_⟩
  · obtain hv | ⟨w, rfl⟩ := e.hasVar_or v
    · exact hadmits.slot v x hv hx
    · rw [k.slot, Option.map_eq_some_iff] at hx
      obtain ⟨x, hx, rfl⟩ := hx
      obtain ⟨y, d, hy⟩ := hslots w x hx
      exact ⟨e.slot y, d, by rw [renameAxes_gapSlot, hy]; rfl⟩
  · obtain ho | ⟨p, rfl⟩ := e.hasOp_or o
    · exact hadmits.node o n ho hn
    · rw [k.node, Option.map_eq_some_iff] at hn
      obtain ⟨n, hn, rfl⟩ := hn
      obtain ⟨m, d, hm⟩ := hnodes p n hn
      exact ⟨e.node m, d, by rw [renameAxes_gapNode, hm]; rfl⟩

end Embeds

/-! ## Axis unification -/

/-- The classes that axis unification finds in a graph. -/
def unifiedClasses (config : Config) (g : Graph α) : Except GraphError AxisClasses := do
  let batch ← batchOf config.batchFirst g
  AxisClasses.ofConstraints (config.axisHints ++ batch)

/-- Axis unification finds these classes in a graph, and the axes can be renamed to them. -/
def Unifies (config : Config) (g : Graph α) (classes : AxisClasses) : Prop :=
  g.unifiedClasses config = .ok classes ∧ ∃ b, (g.renameAxes classes).2 = .ok b

/-- The operators in the gap equal themselves. -/
def SelfEqualIn (e : Gap) (h : Graph α) : Prop :=
  ∀ o n, e.HasOp o → h.node? o = some n → n.op.eqv n.op = true

theorem SelfEqualIn.sameGap (k : SelfEqualIn e h) (hgap : SameGap e h h₁) : SelfEqualIn e h₁ :=
  fun o n ho hn => k o n ho (hgap.node o ho ▸ hn)

theorem SelfEqualIn.unifyAxes (k : SelfEqualIn e h)
    (hedit : (unifyAxes config.axisHints config.batchFirst : Pass (PassM α)).run.Edits h s c h₁ s') :
    SelfEqualIn e h₁ := by
  obtain ⟨batch, -, hunify⟩ := edits_unifyAxes_iff.1 hedit
  obtain ⟨classes, -, -, hrename⟩ := edits_unifyWith_iff.1 hunify
  split at hrename
  · obtain rfl : (h.renameAxes classes).1 = h₁ := congrArg Prod.fst hrename
    intro o n ho hn
    obtain ⟨m, hm, -, -, hop⟩ := node_of_renameAxes (congrArg Prod.snd hrename) hn
    exact (eqv_mapAxes hop).trans (k o m ho hm)
  · exact hrename.2 ▸ k

namespace Embeds

omit [Scalar α] in
theorem batchOf (k : Embeds e g h) (batchFirst : Bool) :
    Agree (fun x y => y = x) (batchOf batchFirst g) (batchOf batchFirst h) := by
  cases batchFirst with
  | false => exact .ok rfl
  | true =>
    show Agree _ g.batchConstraints h.batchConstraints
    unfold batchConstraints
    rw [k.outputs]
    refine (k.tensors g.outputs).bind ?_
    rintro ts _ rfl
    exact .ok rfl

omit [Scalar α] in
/-- Axis unification finds the same classes in both graphs. -/
theorem unifiedClasses (k : Embeds e g h) (config : Config) :
    Agree (fun x y => y = x) (g.unifiedClasses config) (h.unifiedClasses config) := by
  refine (k.batchOf config.batchFirst).bind ?_
  rintro batch _ rfl
  exact (Agree.refl _).mono fun _ _ h => h.symm

theorem reflects_unifyAxes (k : Embeds e g h) {r r₁ : Supply}
    (hedit : (unifyAxes config.axisHints config.batchFirst : Pass (PassM α)).run.Edits h r c h₁ r₁)
    (s : Supply) : ∃ b g₁ s₁,
      (unifyAxes config.axisHints config.batchFirst : Pass (PassM α)).run.Edits g s b g₁ s₁ ∧
      (b = true → c = true) ∧ Embeds e g₁ h₁ := by
  obtain ⟨batch, hbatch, hunify⟩ := edits_unifyAxes_iff.1 hedit
  obtain ⟨classes, hclasses, -, hrename⟩ := edits_unifyWith_iff.1 hunify
  obtain ⟨_, hbatch', e⟩ := (k.batchOf config.batchFirst).ok_of hbatch
  rw [← e] at hbatch'
  by_cases hmoves : moves classes (config.axisHints ++ batch) = true
  · rw [if_pos hmoves] at hrename
    have hc : (h.renameAxes classes).2 = .ok c := congrArg Prod.snd hrename
    obtain rfl : (h.renameAxes classes).1 = h₁ := congrArg Prod.fst hrename
    obtain ⟨b, hb⟩ := k.renameAxes_of hc
    obtain ⟨k', himp, -⟩ := k.renameAxes hb hc
    refine ⟨b, (g.renameAxes classes).1, s, edits_unifyAxes_iff.2 ⟨batch, hbatch',
      edits_unifyWith_iff.2 ⟨classes, hclasses, rfl, ?_⟩⟩, himp, k'⟩
    rw [if_pos hmoves, ← hb]
  · rw [if_neg hmoves] at hrename
    obtain ⟨rfl, rfl⟩ := hrename
    refine ⟨false, g, s, edits_unifyAxes_iff.2 ⟨batch, hbatch',
      edits_unifyWith_iff.2 ⟨classes, hclasses, rfl, ?_⟩⟩, id, k⟩
    rw [if_neg hmoves]
    exact ⟨rfl, rfl⟩

theorem lifts_unifyAxes (k : Embeds e g h) {s₁ : Supply}
    (hedit : (unifyAxes config.axisHints config.batchFirst : Pass (PassM α)).run.Edits g s b g₁ s₁)
    (hadmits : ∀ classes, g.Unifies config classes → Admits e classes h) (r : Supply) :
    ∃ c h₁ r₁,
      (unifyAxes config.axisHints config.batchFirst : Pass (PassM α)).run.Edits h r c h₁ r₁ ∧
      (b = true → c = true) ∧
      ((∀ classes, g.Unifies config classes → h.ChangedBy classes → g.ChangedBy classes) → c = b) ∧
      Embeds e g₁ h₁ := by
  obtain ⟨batch, hbatch, hunify⟩ := edits_unifyAxes_iff.1 hedit
  obtain ⟨classes, hclasses, -, hrename⟩ := edits_unifyWith_iff.1 hunify
  have hfound : g.unifiedClasses config = .ok classes := bind_ok_iff.2 ⟨batch, hbatch, hclasses⟩
  obtain ⟨_, hbatch', e⟩ := (k.batchOf config.batchFirst).of_ok hbatch
  rw [e] at hbatch'
  by_cases hmoves : moves classes (config.axisHints ++ batch) = true
  · rw [if_pos hmoves] at hrename
    have hb : (g.renameAxes classes).2 = .ok b := congrArg Prod.snd hrename
    obtain rfl : (g.renameAxes classes).1 = g₁ := congrArg Prod.fst hrename
    have hunifies : g.Unifies config classes := ⟨hfound, b, hb⟩
    obtain ⟨c, hc⟩ := k.exists_renameAxes hb (hadmits classes hunifies)
    obtain ⟨k', himp, hfixed⟩ := k.renameAxes hb hc
    refine ⟨c, (h.renameAxes classes).1, r, edits_unifyAxes_iff.2 ⟨batch, hbatch',
      edits_unifyWith_iff.2 ⟨classes, hclasses, rfl, ?_⟩⟩, himp,
      fun hback => hfixed (hback classes hunifies), k'⟩
    rw [if_pos hmoves, ← hc]
  · rw [if_neg hmoves] at hrename
    obtain ⟨rfl, rfl⟩ := hrename
    refine ⟨false, h, r, edits_unifyAxes_iff.2 ⟨batch, hbatch',
      edits_unifyWith_iff.2 ⟨classes, hclasses, rfl, ?_⟩⟩, id, fun _ => rfl, k⟩
    rw [if_neg hmoves]
    exact ⟨rfl, rfl⟩

end Embeds

/-! ## Rounds -/

omit [Scalar α] in
theorem edits_sequence_cons {p : Pass (PassM α)} {ps : List (Pass (PassM α))} :
    (Pass.sequence (p :: ps)).Edits g s c h s' ↔ ∃ b g₁ s₁, p.run.Edits g s b g₁ s₁ ∧
      (ps.foldlM (fun changed pass => return (← pass.run) || changed) b : PassM α Bool).Edits
        g₁ s₁ c h s' := by
  simp only [Pass.sequence, PassM.edits_steps_cons_iff, Bool.or_false]

/-- The changes that two rounds report: those to the smaller graph are among those to the larger
one, and under a condition the two are the same. -/
def Reported (P : Prop) (b c : Bool) : Prop := (b = true → c = true) ∧ (P → c = b)

/-- The sweeps of a round go the same way in both graphs. -/
theorem mirrors_sweeps {P : Prop} (h : Reported P b c) : PassM.Mirrors e (Reported P)
    ([dropReinterprets, foldConstants, expandSelects].foldlM
      (fun changed (pass : Pass (PassM α)) => return (← pass.run) || changed) b)
    ([dropReinterprets, foldConstants, expandSelects].foldlM
      (fun changed (pass : Pass (PassM α)) => return (← pass.run) || changed) c) := by
  have hor : ∀ a b c, Reported P b c → Reported P (a || b) (a || c) := by
    intro a b c h
    refine ⟨fun hab => ?_, fun hP => by rw [h.2 hP]⟩
    rw [Bool.or_eq_true] at hab ⊢
    exact hab.imp_right h.1
  have hpasses : ∀ p ∈ ([dropReinterprets, foldConstants, expandSelects] : List (Pass (PassM α))),
      PassM.Mirrors e Eq p.run p.run := by
    simp only [List.forall_mem_cons, List.not_mem_nil, false_imp_iff, implies_true, and_true]
    exact ⟨.sweep PassM.mirrors_dropReinterpret, .sweep PassM.mirrors_foldConstant,
      .sweep PassM.mirrors_expandSelect⟩
  exact .foldlM (m := id) hor hpasses h

namespace Embeds

/-- A round on the larger graph is a round on the smaller one, which reports no more changes. -/
theorem reflects_round (k : Embeds e g h) {r r₁ : Supply}
    (hedit : (Pass.sequence (simplifyPasses config) : PassM α Bool).Edits h r c h₁ r₁) (s : Supply) :
    (∃ b g₁ s₁, (Pass.sequence (simplifyPasses config) : PassM α Bool).Edits g s b g₁ s₁ ∧
      (b = true → c = true) ∧ Embeds e g₁ h₁) ∧ (SelfEqualIn e h → SelfEqualIn e h₁) := by
  obtain ⟨c₁, i, r₂, hunify, hsweeps⟩ := edits_sequence_cons.1 hedit
  obtain ⟨b₁, j, s₁, hunify', himp, k₁⟩ := k.reflects_unifyAxes hunify s
  obtain ⟨b, g₁, s₂, hsweeps', hR, k₂, hgap⟩ :=
    (mirrors_sweeps (P := False) ⟨himp, False.elim⟩).reflects k₁ hsweeps s₁
  exact ⟨⟨b, g₁, s₂, edits_sequence_cons.2 ⟨b₁, j, s₁, hunify', hsweeps'⟩, hR.1, k₂⟩,
    fun hself => (hself.unifyAxes hunify).sameGap hgap⟩

/-- A round on the smaller graph is a round on the larger one, if the gap admits the renaming. -/
theorem lifts_round (k : Embeds e g h) {s₁ : Supply}
    (hedit : (Pass.sequence (simplifyPasses config) : PassM α Bool).Edits g s b g₁ s₁)
    (hadmits : ∀ classes, g.Unifies config classes → Admits e classes h) (r : Supply) :
    ∃ c h₁ r₁, (Pass.sequence (simplifyPasses config) : PassM α Bool).Edits h r c h₁ r₁ ∧
      (b = true → c = true) ∧
      ((∀ classes, g.Unifies config classes → h.ChangedBy classes → g.ChangedBy classes) → c = b) ∧
      Embeds e g₁ h₁ := by
  obtain ⟨b₁, j, s₂, hunify, hsweeps⟩ := edits_sequence_cons.1 hedit
  obtain ⟨c₁, i, r₁, hunify', himp, hsame, k₁⟩ := k.lifts_unifyAxes hunify hadmits r
  obtain ⟨c, h₁, r₂, hsweeps', hR, k₂, -⟩ := (mirrors_sweeps ⟨himp, hsame⟩).lifts k₁ hsweeps r₁
  exact ⟨c, h₁, r₂, edits_sequence_cons.2 ⟨c₁, i, r₁, hunify', hsweeps'⟩, hR.1, hR.2, k₂⟩

end Embeds

/-- There is nothing to rename in the gap any more. -/
structure Calm (e : Gap) (config : Config) (h : Graph α) : Prop where
  settled : ∃ classes, AxisClasses.ofConstraints config.axisHints = .ok classes ∧
    h.SettledFor classes config.batchFirst
  selfEqual : SelfEqualIn e h

theorem Calm.fixes (k : Calm e config h) {classes : AxisClasses}
    (hclasses : h.unifiedClasses config = .ok classes) : Fixes e classes h := by
  obtain ⟨known, hknown, hsettled⟩ := k.settled
  obtain ⟨batch, hbatch, hfound⟩ := bind_ok_iff.1 hclasses
  obtain rfl := Except.ok.inj (hfound.symm.trans (hsettled.found hknown hbatch).1)
  refine ⟨fun v x _ hx => ?_, fun o n ho hn => ?_⟩
  · cases x with
    | replaced w => rfl
    | live t p =>
      have htype := TensorType.rename?_of_fixed (f := classes) fun a ha =>
        hsettled.axes a ⟨v, t, p, hx, ha⟩
      simp only [Slot.renameAxes, htype]
      simp
  · simp only [Node.renameAxes, hsettled.nodes o n hn, bind, Except.bind, k.selfEqual o n ho hn,
      if_true]
    rfl

/-- After a round there is nothing to rename in the gap. -/
theorem calm_of_round (k : Embeds e g h) (hself : SelfEqualIn e h)
    (hedit : (Pass.sequence (simplifyPasses config) : PassM α Bool).Edits h s c h₁ s') :
    Calm e config h₁ :=
  ⟨settledFor_of_round k.wellformed' hedit, (k.reflects_round hedit s).2 hself⟩

/-! ## Until nothing changes -/

section

variable {failure failure' : PassError} {n : Nat} {before before' : Bool}

omit [Scalar α] in
theorem edits_untilSettled_succ {round : PassM α Bool} :
    (Pass.untilSettled failure round (n + 1) before).Edits g s c h s' ↔
      ∃ b g₁ s₁, round.Edits g s b g₁ s₁ ∧
        if b = true then (Pass.untilSettled failure round n true).Edits g₁ s₁ c h s'
        else c = before ∧ h = g₁ ∧ s' = s₁ := by
  rw [Pass.untilSettled, PassM.edits_bind_iff]
  refine exists_congr fun b => exists_congr fun g₁ => exists_congr fun s₁ => and_congr_right fun _ => ?_
  cases b with
  | true => rfl
  | false =>
    simp only [Bool.false_eq_true, if_false, PassM.edits_pure_iff]
    constructor <;> rintro ⟨rfl, rfl, rfl⟩ <;> exact ⟨rfl, rfl, rfl⟩

omit [Scalar α] in
/-- Rounds on a graph that a round leaves alone. -/
theorem edits_untilSettled_idle {round : PassM α Bool}
    (hidle : ∀ r, ∃ r', round.Edits g r false g r')
    (hedit : (Pass.untilSettled failure round n before).Edits g s c h s') : h = g := by
  cases n with
  | zero => exact absurd hedit (by rw [Pass.untilSettled, PassM.edits_throw_iff]; exact id)
  | succ n =>
    obtain ⟨b, g₁, s₁, hround, hrest⟩ := edits_untilSettled_succ.1 hedit
    obtain ⟨r', hround'⟩ := hidle s
    obtain ⟨rfl, rfl, -⟩ := PassM.edits_unique hround hround'
    exact hrest.2.1

end

theorem steady_round (config : Config) :
    (Pass.sequence (simplifyPasses config) : PassM α Bool).Steady :=
  Pass.steady_sequence fun p hp => (steady_simplifyPasses config p hp).1

namespace Embeds

variable {failure failure' : PassError} {n : Nat} {before before' : Bool}

/-- What the rounds make of the larger graph, they make of the smaller one: it needs no more
rounds. -/
theorem reflects_untilSettled (k : Embeds e g h) {r r₁ : Supply}
    (hedit : (Pass.untilSettled failure (Pass.sequence (simplifyPasses config)) n before :
      PassM α Bool).Edits h r c h₁ r₁) (s : Supply) (before' : Bool) :
    ∃ b g₁ s₁, (Pass.untilSettled failure' (Pass.sequence (simplifyPasses config)) n before' :
      PassM α Bool).Edits g s b g₁ s₁ ∧ Embeds e g₁ h₁ := by
  induction n generalizing g h r before s before' with
  | zero => exact absurd hedit (by rw [Pass.untilSettled, PassM.edits_throw_iff]; exact id)
  | succ n ih =>
    obtain ⟨c₁, i, r₂, hround, hrest⟩ := edits_untilSettled_succ.1 hedit
    obtain ⟨⟨b₁, j, s₁, hround', himp, k₁⟩, -⟩ := k.reflects_round hround s
    cases b₁ with
    | true =>
      rw [if_pos (himp rfl)] at hrest
      obtain ⟨b, g₁, s₂, hrest', k₂⟩ := ih k₁ hrest s₁ true
      exact ⟨b, g₁, s₂, edits_untilSettled_succ.2 ⟨true, j, s₁, hround', hrest'⟩, k₂⟩
    | false =>
      refine ⟨before', j, s₁, edits_untilSettled_succ.2 ⟨false, j, s₁, hround', rfl, rfl, rfl⟩, ?_⟩
      cases c₁ with
      | false => exact hrest.2.1 ▸ k₁
      | true =>
        -- The smaller graph has settled, so the rounds to come leave it alone.
        obtain ⟨rfl, hidle⟩ := steady_round config _ _ _ _ hround'
        obtain ⟨b, g₁, s₂, hrest', k₂⟩ := ih k₁ hrest s₁ true
        rwa [edits_untilSettled_idle hidle hrest'] at k₂

/-- Once there is nothing to rename in the gap, the larger graph needs the same rounds. -/
theorem lifts_untilSettled (k : Embeds e g h) (hcalm : Calm e config h) {s₁ : Supply}
    (hedit : (Pass.untilSettled failure (Pass.sequence (simplifyPasses config)) n before :
      PassM α Bool).Edits g s b g₁ s₁) (r : Supply) (before' : Bool) :
    ∃ c h₁ r₁, (Pass.untilSettled failure' (Pass.sequence (simplifyPasses config)) n before' :
      PassM α Bool).Edits h r c h₁ r₁ ∧ Embeds e g₁ h₁ := by
  induction n generalizing g h s before r before' with
  | zero => exact absurd hedit (by rw [Pass.untilSettled, PassM.edits_throw_iff]; exact id)
  | succ n ih =>
    obtain ⟨b₁, j, s₂, hround, hrest⟩ := edits_untilSettled_succ.1 hedit
    have hfixes : ∀ classes, g.Unifies config classes → Fixes e classes h := by
      intro classes hclasses
      obtain ⟨_, hclasses', rfl⟩ := (k.unifiedClasses config).of_ok hclasses.1
      exact hcalm.fixes hclasses'
    obtain ⟨c₁, i, r₁, hround', -, hsame, k₁⟩ :=
      k.lifts_round hround (fun classes hclasses => (hfixes classes hclasses).admits) r
    obtain rfl := hsame fun classes hclasses => k.changedBy_of_fixes (hfixes classes hclasses)
    cases c₁ with
    | true =>
      obtain ⟨c, h₁, r₂, hrest', k₂⟩ := ih k₁ (calm_of_round k hcalm.selfEqual hround') hrest r₁ true
      exact ⟨c, h₁, r₂, edits_untilSettled_succ.2 ⟨true, i, r₁, hround', hrest'⟩, k₂⟩
    | false =>
      obtain ⟨-, rfl, -⟩ := hrest
      exact ⟨before', i, r₁, edits_untilSettled_succ.2 ⟨false, i, r₁, hround', rfl, rfl, rfl⟩, k₁⟩

/-- What the pipeline makes of the larger graph, it makes of the smaller one. -/
theorem reflects_simplify (k : Embeds e g h) {r r₁ : Supply}
    (hedit : (simplify config : Pass (PassM α)).run.Edits h r c h₁ r₁) (s : Supply) :
    ∃ b g₁ s₁, (simplify config : Pass (PassM α)).run.Edits g s b g₁ s₁ ∧ Embeds e g₁ h₁ :=
  k.reflects_untilSettled hedit s false

/-- What the pipeline makes of the smaller graph, it makes of the larger one, if the gap admits the
first renaming, and there is a second round or nothing changes in the gap alone. -/
theorem lifts_simplify (k : Embeds e g h) (hself : SelfEqualIn e h)
    (hadmits : ∀ classes, g.Unifies config classes → Admits e classes h)
    (hrounds : 2 ≤ config.maxIterations ∨
      ∀ classes, g.Unifies config classes → h.ChangedBy classes → g.ChangedBy classes) {s₁ : Supply}
    (hedit : (simplify config : Pass (PassM α)).run.Edits g s b g₁ s₁) (r : Supply) :
    ∃ c h₁ r₁, (simplify config : Pass (PassM α)).run.Edits h r c h₁ r₁ ∧ Embeds e g₁ h₁ := by
  obtain ⟨n, hn⟩ : ∃ n, Nat.max config.maxIterations 1 = n + 1 :=
    ⟨_, (Nat.succ_pred_eq_of_pos (Nat.le_max_right ..)).symm⟩
  have hunfold : (simplify config : Pass (PassM α)).run =
      Pass.untilSettled (.fixedPointNotReached "simplify" (n + 1))
        (Pass.sequence (simplifyPasses config)) (n + 1) false := by
    rw [← hn]
    rfl
  rw [hunfold] at hedit ⊢
  obtain ⟨b₁, j, s₂, hround, hrest⟩ := edits_untilSettled_succ.1 hedit
  obtain ⟨c₁, i, r₁, hround', himp, hsame, k₁⟩ := k.lifts_round hround hadmits r
  have hcalm := calm_of_round k hself hround'
  cases c₁ with
  | false =>
    have hb₁ : b₁ = false := Bool.eq_false_iff.2 fun h => Bool.false_ne_true (himp h)
    rw [hb₁, if_neg Bool.false_ne_true] at hrest
    obtain ⟨-, rfl, -⟩ := hrest
    exact ⟨false, i, r₁, edits_untilSettled_succ.2 ⟨false, i, r₁, hround', rfl, rfl, rfl⟩, k₁⟩
  | true =>
    suffices hlater : ∃ b' s₃ s₄, (Pass.untilSettled (.fixedPointNotReached "simplify" (n + 1))
        (Pass.sequence (simplifyPasses config)) n true : PassM α Bool).Edits j s₃ b' g₁ s₄ by
      obtain ⟨b', s₃, s₄, hlater⟩ := hlater
      obtain ⟨c, h₁, r₂, hlater', k₂⟩ := k₁.lifts_untilSettled hcalm hlater r₁ true
      exact ⟨c, h₁, r₂, edits_untilSettled_succ.2 ⟨true, i, r₁, hround', hlater'⟩, k₂⟩
    cases b₁ with
    | true => exact ⟨b, s₂, s₁, hrest⟩
    | false =>
      -- Only the gap was renamed, and another round finds nothing to do.
      obtain ⟨-, rfl, -⟩ := hrest
      obtain ⟨rfl, hidle⟩ := steady_round config _ _ _ _ hround
      obtain ⟨n, rfl⟩ : ∃ m, n = m + 1 := by
        rcases hrounds with hrounds | hback
        · exact ⟨n - 1, by have : max config.maxIterations 1 = n + 1 := hn; omega⟩
        · exact absurd (hsame hback) (by decide)
      obtain ⟨s₃, hround₂⟩ := hidle s
      exact ⟨true, s, s₃, edits_untilSettled_succ.2 ⟨false, _, s₃, hround₂, rfl, rfl, rfl⟩⟩

end Embeds

end Graph
end TensorCompiler
