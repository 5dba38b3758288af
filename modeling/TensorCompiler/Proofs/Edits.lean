import TensorCompiler.Proofs.Arena
/-!
# Edits of the arena

Each edit is described by the places and operators it leaves behind, and shown to keep the arena
wellformed. Edits that only touch tensors and operator parameters, among them a renaming of axes
that fails halfway, keep the arena itself (`SameArena`).

* `slot?_placeOp`, `slot?_detach`, `slot?_redirect`: what is where after an edit.
* `resolve_redirect`: replacing a variable redirects exactly the handles that stood for it.
* `wellformed_addVariable`, `wellformed_addOp`, `wellformed_removeOperator`,
  `wellformed_replaceVariable`, `wellformed_renameAxes`, `wellformed_induced`: the invariant.
-/

namespace TensorCompiler

/-- What links and producers see of a place. -/
def Slot.bare {α : Type} : Slot α → Option VarId × Option OpId × Option (Array α)
  | live t p => (none, p, t.data)
  | replaced v => (some v, none, none)

/-- What links and producers see of an operator. -/
def Node.bare {α : Type} (node : Node α) : List VarId × VarId := (node.inputs, node.output)

theorem Slot.bare_renameAxes {α : Type} {f : Axis → Axis} {x y : Slot α} {b : Bool}
    (h : x.renameAxes f = .ok (y, b)) : y.bare = x.bare := by
  cases x with
  | live t p =>
    simp only [Slot.renameAxes] at h
    split at h <;> cases h
    rfl
  | replaced v => cases h; rfl

theorem TensorType.rename?_eq_some {f : Axis → Axis} {t u : TensorType} (h : t.rename? f = some u) :
    u.shape = t.shape ∧ u.order.axes = t.order.axes.map f := by
  unfold TensorType.rename? at h
  split at h
  · next o ho =>
    cases h
    exact ⟨rfl, Order.ofList?_eq_some_iff.1 ho⟩
  · cases h

/-- A place with renamed axes keeps everything but its order. -/
theorem Slot.renameAxes_live {α : Type} {f : Axis → Axis} {x : Slot α} {t : Tensor α}
    {p : Option OpId} {b : Bool} (h : x.renameAxes f = .ok (.live t p, b)) :
    ∃ u, x = .live u p ∧ u.type.rename? f = some t.type ∧ t.data = u.data := by
  cases x with
  | live u q =>
    simp only [Slot.renameAxes] at h
    split at h <;> cases h
    next hu => exact ⟨u, rfl, hu, rfl⟩
  | replaced v => cases h

theorem Node.bare_renameAxes {α : Type} [Scalar α] {f : Axis → Axis} {m n : Node α} {b : Bool}
    (h : m.renameAxes f = .ok (n, b)) : n.bare = m.bare := by
  unfold Node.renameAxes at h
  rw [bind_ok_iff] at h
  obtain ⟨op, -, h⟩ := h
  split at h <;> cases h <;> rfl

/-- An update that keeps a view of every entry keeps the view of the list, even if it fails. -/
theorem updateEach_map {β γ ε : Type} {f : β → Except ε (β × Bool)} {view : β → γ}
    (hf : ∀ x y b, f x = .ok (y, b) → view y = view x) (xs : List β) :
    (updateEach f xs).1.map view = xs.map view := by
  induction xs with
  | nil => rfl
  | cons x xs ih =>
    unfold updateEach
    split
    · rfl
    · next y b h =>
      simp only [List.map_cons, ih, hf x y b h]

/-- An updated list holds at each position the old entry or its update. -/
theorem updateEach_getElem? {β ε : Type} {f : β → Except ε (β × Bool)} {xs : List β} {i : Nat}
    {y : β} (h : (updateEach f xs).1[i]? = some y) :
    ∃ x, xs[i]? = some x ∧ (y = x ∨ ∃ b, f x = .ok (y, b)) := by
  induction xs generalizing i with
  | nil => simp [updateEach] at h
  | cons x xs ih =>
    unfold updateEach at h
    split at h
    · exact ⟨y, h, .inl rfl⟩
    · next z b hz =>
      cases i with
      | zero =>
        cases h
        exact ⟨x, rfl, .inr ⟨b, hz⟩⟩
      | succ i => exact ih h

/-- After a success every entry has been updated. -/
theorem updateEach_ok {β ε : Type} {f : β → Except ε (β × Bool)} {xs : List β} {b : Bool}
    (h : (updateEach f xs).2 = .ok b) {i : Nat} {x : β} (hx : xs[i]? = some x) :
    ∃ y c, (updateEach f xs).1[i]? = some y ∧ f x = .ok (y, c) := by
  induction xs generalizing i b with
  | nil => cases hx
  | cons x' xs ih =>
    unfold updateEach at h ⊢
    split at h
    · cases h
    · next z c hz =>
      rcases hrest : (updateEach f xs).2 with e | b'
      · simp only [hrest] at h
        cases h
      · cases i with
        | zero =>
          cases hx
          exact ⟨z, c, rfl, hz⟩
        | succ i =>
          obtain ⟨y, d, hy, hf⟩ := ih hrest hx
          exact ⟨y, d, hy, hf⟩

theorem map_modify_of {β γ : Type} {view : β → γ} {f : β → β}
    (hf : ∀ x, view (f x) = view x) (xs : Array β) (i : Nat) :
    (xs.modify i f).map view = xs.map view := by
  apply Array.ext_getElem?
  intro j
  rw [Array.getElem?_map, Array.getElem?_map, Array.getElem?_modify]
  split
  · cases xs[j]? <;> simp [hf]
  · rfl

namespace Graph

variable {α : Type}

/-! ## The same arena -/

/-- The graphs differ at most in their declarations, tensors and operator parameters. -/
structure SameArena (g h : Graph α) : Prop where
  slots : h.slots.map Slot.bare = g.slots.map Slot.bare
  nodes : h.nodes.map (·.map Node.bare) = g.nodes.map (·.map Node.bare)

namespace SameArena

variable {g h : Graph α}

theorem refl (g : Graph α) : SameArena g g := ⟨rfl, rfl⟩

theorem symm (k : SameArena g h) : SameArena h g := ⟨k.slots.symm, k.nodes.symm⟩

theorem size (k : SameArena g h) : h.slots.size = g.slots.size := by
  have e := congrArg Array.size k.slots
  rwa [Array.size_map, Array.size_map] at e

theorem slot?_map (k : SameArena g h) (v : VarId) :
    (h.slot? v).map Slot.bare = (g.slot? v).map Slot.bare := by
  have e := congrArg (·[v.index]?) k.slots
  simpa only [Array.getElem?_map, slot?] using e

theorem live (k : SameArena g h) {v : VarId} {t : Tensor α} {p : Option OpId}
    (hv : g.slot? v = some (.live t p)) :
    ∃ t', h.slot? v = some (.live t' p) ∧ t'.data = t.data := by
  have e := k.slot?_map v
  rw [hv] at e
  rcases hw : h.slot? v with _ | t' | u
  · rw [hw] at e; cases e
  · rw [hw] at e
    simp only [Option.map_some, Slot.bare, Option.some.injEq, Prod.mk.injEq, true_and] at e
    obtain ⟨rfl, e⟩ := e
    exact ⟨t', rfl, e⟩
  · rw [hw] at e
    simp [Slot.bare] at e

theorem replaced (k : SameArena g h) {v w : VarId} (hv : g.slot? v = some (.replaced w)) :
    h.slot? v = some (.replaced w) := by
  have e := k.slot?_map v
  rw [hv] at e
  rcases hw : h.slot? v with _ | t' | u
  · rw [hw] at e; cases e
  · rw [hw] at e
    simp [Slot.bare] at e
  · rw [hw] at e
    simp only [Option.map_some, Slot.bare, Option.some.injEq, Prod.mk.injEq, and_true] at e
    rw [e]

theorem node (k : SameArena g h) {o : OpId} {node : Node α} (ho : g.node? o = some node) :
    ∃ node', h.node? o = some node' ∧ node'.inputs = node.inputs ∧
      node'.output = node.output := by
  have e : (h.nodes[o.index]?).map (·.map Node.bare) = (g.nodes[o.index]?).map (·.map Node.bare) := by
    have e := congrArg (·[o.index]?) k.nodes
    simpa only [Array.getElem?_map] using e
  unfold node? at ho ⊢
  rcases hg : g.nodes[o.index]? with _ | _ | n <;> rw [hg] at ho e <;> cases ho
  rcases hh : h.nodes[o.index]? with _ | _ | n' <;> rw [hh] at e <;> try cases e
  simp only [Option.map_some, Option.some.injEq, Node.bare, Prod.mk.injEq] at e
  exact ⟨n', rfl, e.1, e.2⟩

theorem links (k : SameArena g h) : h.links = g.links := by
  have e : ∀ x : Graph α, x.links = (x.slots.map Slot.bare).countP (·.1.isSome) := by
    intro x
    unfold Graph.links
    rw [Array.countP_map, Array.countP_map]
    congr 1
    funext s
    cases s <;> rfl
  rw [e h, e g, k.slots]

theorem follow (k : SameArena g h) (n : Nat) (v : VarId) : h.follow n v = g.follow n v := by
  induction n generalizing v with
  | zero => rfl
  | succ n ih =>
    rw [follow_succ, follow_succ]
    rcases hv : g.slot? v with _ | ⟨t, p⟩ | w
    · have e := k.slot?_map v
      rw [hv, Option.map_none, Option.map_eq_none_iff] at e
      rw [e]
    · obtain ⟨t', hw, -⟩ := k.live hv
      rw [hw]
    · rw [k.replaced hv]
      exact ih w

theorem resolve (k : SameArena g h) (v : VarId) : h.resolve v = g.resolve v := by
  unfold Graph.resolve
  rw [k.follow, k.size]

theorem resolveAll (k : SameArena g h) (vs : List VarId) : h.resolveAll vs = g.resolveAll vs := by
  unfold Graph.resolveAll
  simp only [k.resolve]

theorem producer (k : SameArena g h) (v : VarId) : h.producer v = g.producer v := by
  have one : ∀ {g h : Graph α}, SameArena g h → ∀ o, g.producer v = some o →
      h.producer v = some o := by
    intro g h k o hv
    obtain ⟨w, t, hr, hw⟩ := producer_some_iff.1 hv
    obtain ⟨t', hw', -⟩ := k.live hw
    exact producer_some_iff.2 ⟨w, t', (k.resolve v).trans hr, hw'⟩
  exact Option.ext fun o => ⟨one k.symm o, one k o⟩

theorem inputsOf (k : SameArena g h) {o : OpId} {ins : List VarId} :
    h.inputsOf o = .ok ins ↔ g.inputsOf o = .ok ins := by
  have one : ∀ {g h : Graph α}, SameArena g h → g.inputsOf o = .ok ins →
      h.inputsOf o = .ok ins := by
    intro g h k hins
    obtain ⟨node, ho, hins⟩ := inputsOf_ok_iff.1 hins
    obtain ⟨node', ho', e, -⟩ := k.node ho
    refine inputsOf_ok_iff.2 ⟨node', ho', ?_⟩
    rw [e]
    simpa only [k.resolve] using hins
  exact ⟨one k.symm, one k⟩

/-- A graph between handles of a wellformed arena is wellformed. -/
theorem wellformed (k : SameArena g h) (hg : g.Wellformed)
    (hi : ∀ v ∈ h.declaredInputs, v.index < g.slots.size)
    (ho : ∀ v ∈ h.declaredOutputs, v.index < g.slots.size) : h.Wellformed where
  leads v hv := by
    rw [k.size] at hv
    obtain ⟨w, hw⟩ := hg.leads v hv
    exact ⟨w, by rw [k.links, k.follow, hw]⟩
  produced v t o hv := by
    obtain ⟨t', hv', e⟩ := k.symm.live hv
    obtain ⟨hd, node, hn, hout⟩ := hg.produced v t' o hv'
    obtain ⟨node', hn', -, e'⟩ := k.node hn
    exact ⟨e.symm.trans hd, node', hn', e'.trans hout⟩
  output o node hn := by
    obtain ⟨node', hn', -, e⟩ := k.symm.node hn
    obtain ⟨hlt, hp⟩ := hg.output o node' hn'
    rw [e] at hlt hp
    refine ⟨k.size ▸ hlt, fun t p hv => ?_⟩
    obtain ⟨t', hv', -⟩ := k.symm.live hv
    exact hp t' p hv'
  inputs o node hn v hv := by
    obtain ⟨node', hn', e, -⟩ := k.symm.node hn
    exact k.size ▸ hg.inputs o node' hn' v (e ▸ hv)
  declaredInputs v hv := k.size ▸ hi v hv
  declaredOutputs v hv := k.size ▸ ho v hv

end SameArena

theorem sameArena_modifyTensor {f : Tensor α → Tensor α} (hf : ∀ t, (f t).data = t.data)
    (g : Graph α) (v : VarId) : SameArena g (g.modifyTensor v f) where
  slots := by
    apply map_modify_of
    rintro (⟨t, p⟩ | w)
    · simp only [Slot.mapTensor, Slot.bare, hf]
    · rfl
  nodes := rfl

theorem sameArena_renameAxes [Scalar α] (g : Graph α) (f : Axis → Axis) :
    SameArena g (g.renameAxes f).1 := by
  have hs : (updateEach (Slot.renameAxes f) g.slots.toList).1.toArray.map Slot.bare =
      g.slots.map Slot.bare := by
    rw [List.map_toArray, updateEach_map fun x y b h => Slot.bare_renameAxes h,
      ← Array.toList_map, Array.toArray_toList]
  unfold renameAxes
  split
  · next slots result e =>
    rw [e] at hs
    cases result with
    | error e => exact ⟨hs, rfl⟩
    | ok changed =>
      refine ⟨hs, ?_⟩
      show (updateEach _ g.nodes.toList).1.toArray.map (·.map Node.bare) = _
      rw [List.map_toArray, updateEach_map, ← Array.toList_map, Array.toArray_toList]
      rintro (_ | m) n b h
      · cases h; rfl
      · rcases hm : m.renameAxes f with e | ⟨m', c⟩
        · simp only [hm] at h; cases h
        · simp only [hm] at h
          cases h
          simp only [Option.map_some, Node.bare_renameAxes hm]

theorem renameAxes_declaredInputs [Scalar α] (g : Graph α) (f : Axis → Axis) :
    (g.renameAxes f).1.declaredInputs = g.declaredInputs := by
  unfold renameAxes
  split
  next slots result e => cases result <;> rfl

theorem renameAxes_declaredOutputs [Scalar α] (g : Graph α) (f : Axis → Axis) :
    (g.renameAxes f).1.declaredOutputs = g.declaredOutputs := by
  unfold renameAxes
  split
  next slots result e => cases result <;> rfl

/-- A place after a renaming of axes, which may have failed before it got there. -/
theorem slot?_of_renameAxes [Scalar α] {g : Graph α} {f : Axis → Axis} {v : VarId} {y : Slot α}
    (h : (g.renameAxes f).1.slot? v = some y) :
    ∃ x, g.slot? v = some x ∧ (y = x ∨ ∃ b, x.renameAxes f = .ok (y, b)) := by
  have e : (g.renameAxes f).1.slot? v =
      (updateEach (Slot.renameAxes f) g.slots.toList).1[v.index]? := by
    unfold renameAxes slot?
    split
    next slots result e => cases result <;> simp [e]
  rw [e] at h
  obtain ⟨x, hx, hy⟩ := updateEach_getElem? h
  exact ⟨x, by simpa [slot?] using hx, hy⟩

/-- The update of one entry in the table of operators. -/
def renameEntry [Scalar α] (f : Axis → Axis) :
    Option (Node α) → Except GraphError (Option (Node α) × Bool)
  | some node => (node.renameAxes f).map fun (node, changed) => (some node, changed)
  | none => .ok (none, false)

/-- A renaming that succeeds has reached every place and every operator. -/
theorem renameAxes_ok [Scalar α] {g : Graph α} {f : Axis → Axis} {b : Bool}
    (h : (g.renameAxes f).2 = .ok b) :
    (∀ v x, g.slot? v = some x → ∃ y c, (g.renameAxes f).1.slot? v = some y ∧
      x.renameAxes f = .ok (y, c)) ∧
    ∀ o m, g.node? o = some m → ∃ n c, (g.renameAxes f).1.node? o = some n ∧
      m.renameAxes f = .ok (n, c) := by
  unfold renameAxes at h ⊢
  rcases hslots : updateEach (Slot.renameAxes f) g.slots.toList with ⟨slots, e | changed⟩
  · simp only [hslots] at h
    cases h
  · simp only [hslots] at h ⊢
    constructor
    · intro v x hx
      have hok : (updateEach (Slot.renameAxes f) g.slots.toList).2 = .ok changed := by rw [hslots]
      obtain ⟨y, c, hy, hf⟩ := updateEach_ok hok (i := v.index) (x := x) (by simpa [slot?] using hx)
      exact ⟨y, c, by simpa [slot?, hslots] using hy, hf⟩
    · intro o m hm
      have h : (updateEach (renameEntry f) g.nodes.toList).2.map (changed || ·) = .ok b := h
      rcases hnodes : (updateEach (renameEntry f) g.nodes.toList).2 with e | changed'
      · rw [hnodes] at h
        cases h
      · have hm' : g.nodes.toList[o.index]? = some (some m) := by
          rw [node?, Option.join_eq_some_iff] at hm
          simpa using hm
        obtain ⟨y, c, hy, hf⟩ := updateEach_ok hnodes hm'
        rcases hn : m.renameAxes f with e | ⟨n, d⟩
        · simp only [renameEntry, hn] at hf
          cases hf
        · simp only [renameEntry, hn] at hf
          cases hf
          refine ⟨n, _, ?_, rfl⟩
          rw [node?, Option.join_eq_some_iff, ← hy, List.getElem?_toArray]
          rfl

/-- Axes may be renamed at any time: the arena stays wellformed even if the renaming fails
halfway. -/
theorem wellformed_renameAxes [Scalar α] {g : Graph α} (hg : g.Wellformed) (f : Axis → Axis) :
    (g.renameAxes f).1.Wellformed := by
  refine (sameArena_renameAxes g f).wellformed hg ?_ ?_
  · rw [renameAxes_declaredInputs]
    exact hg.declaredInputs
  · rw [renameAxes_declaredOutputs]
    exact hg.declaredOutputs

/-- Marking an output changes marks and the list of declared outputs only. -/
theorem markOutput_ok {g g' : Graph α} {v : VarId} (h : g.markOutput v = .ok g') :
    ∃ w, g.resolve v = .ok w ∧ g'.slots = (g.modifyTensor w fun t => t.mark .output).slots ∧
      g'.nodes = g.nodes ∧ g'.declaredInputs = g.declaredInputs ∧
      ∀ u ∈ g'.declaredOutputs, u ∈ g.declaredOutputs ∨ u = w := by
  unfold markOutput at h
  rw [bind_ok_iff] at h
  obtain ⟨w, hw, h⟩ := h
  simp only [] at h
  split at h
  · rw [pure_ok_iff] at h
    subst h
    exact ⟨w, hw, rfl, rfl, rfl, fun u hu => .inl hu⟩
  · rw [pure_ok_iff] at h
    subst h
    refine ⟨w, hw, rfl, rfl, rfl, fun u hu => ?_⟩
    rcases List.mem_append.1 hu with hu | hu
    · exact .inl hu
    · exact .inr (List.mem_singleton.1 hu)

theorem sameArena_markOutput {g g' : Graph α} {v : VarId} (h : g.markOutput v = .ok g') :
    SameArena g g' := by
  obtain ⟨w, -, hs, hn, -⟩ := markOutput_ok h
  have k := sameArena_modifyTensor (f := fun t => t.mark .output) (fun t => rfl) g w
  exact ⟨hs ▸ k.slots, hn ▸ k.nodes⟩

/-- The tensors of a graph with a marked output. -/
theorem slot?_of_markOutput {g g' : Graph α} {v u : VarId} {t : Tensor α} {p : Option OpId}
    (h : g.markOutput v = .ok g') (hu : g'.slot? u = some (.live t p)) :
    ∃ t', g.slot? u = some (.live t' p) ∧ t.type = t'.type ∧ t.data = t'.data := by
  obtain ⟨w, -, hs, -⟩ := markOutput_ok h
  have hu : (g.modifyTensor w fun t => t.mark .output).slots[u.index]? = some (.live t p) := hs ▸ hu
  rw [modifyTensor, Array.getElem?_modify] at hu
  split at hu
  · rcases hx : g.slots[u.index]? with _ | ⟨t', q⟩ | _ <;> rw [hx] at hu <;> cases hu
    exact ⟨t', hx, rfl, rfl⟩
  · exact ⟨t, hu, rfl, rfl⟩

theorem lt_of_resolve_eq {g : Graph α} {v w : VarId} (h : g.resolve v = .ok w) :
    w.index < g.slots.size := lt_of_resolve (resolve_resolve h)

theorem wellformed_markOutput {g g' : Graph α} {v : VarId} (hg : g.Wellformed)
    (h : g.markOutput v = .ok g') : g'.Wellformed := by
  obtain ⟨w, hw, -, -, hi, ho⟩ := markOutput_ok h
  refine (sameArena_markOutput h).wellformed hg (fun u hu => hg.declaredInputs u (hi ▸ hu))
    fun u hu => ?_
  rcases ho u hu with hu | rfl
  · exact hg.declaredOutputs u hu
  · exact lt_of_resolve_eq hw

/-- Another choice of inputs and outputs leaves the arena as it is. -/
theorem induced_ok {g g' : Graph α} {ins outs : List VarId} (h : g.induced ins outs = .ok g') :
    ∃ ins' outs', g.resolveEach ins = .ok ins' ∧ g.resolveEach outs = .ok outs' ∧
      g' = { g with declaredInputs := ins', declaredOutputs := outs' } := by
  unfold induced at h
  simp only [bind_ok_iff, pure_ok_iff] at h
  obtain ⟨ins', hi, outs', ho, vs, -, ⟨⟩, -, rfl⟩ := h
  exact ⟨ins', outs', hi, ho, rfl⟩

theorem lt_of_resolveEach {g : Graph α} {vs ws : List VarId} (h : g.resolveEach vs = .ok ws) :
    ∀ w ∈ ws, w.index < g.slots.size := by
  intro w hw
  rw [resolveEach, mapM_ok_iff] at h
  rw [← resolveAll_of_forall₂ h] at hw
  obtain ⟨v, -, hv⟩ := mem_resolveAll.1 hw
  exact lt_of_resolve_eq hv

theorem wellformed_induced {g g' : Graph α} {ins outs : List VarId} (hg : g.Wellformed)
    (h : g.induced ins outs = .ok g') : g'.Wellformed := by
  obtain ⟨ins', outs', hi, ho, rfl⟩ := induced_ok h
  have k : SameArena g { g with declaredInputs := ins', declaredOutputs := outs' } := ⟨rfl, rfl⟩
  exact k.wellformed hg (lt_of_resolveEach hi) (lt_of_resolveEach ho)

/-! ## Additions -/

section Adding

variable {g h : Graph α} {t : Tensor α} {p : Option OpId}

theorem slot?_push (hs : h.slots = g.slots.push (.live t p)) (v : VarId) :
    h.slot? v = if v.index = g.slots.size then some (.live t p) else g.slot? v := by
  rw [slot?, hs, Array.getElem?_push]
  rfl

theorem slot?_push_new (hs : h.slots = g.slots.push (.live t p)) :
    h.slot? ⟨g.slots.size⟩ = some (.live t p) := by
  rw [slot?_push hs, if_pos rfl]

theorem slot?_push_old (hs : h.slots = g.slots.push (.live t p)) {v : VarId} {x : Slot α}
    (hv : g.slot? v = some x) : h.slot? v = some x := by
  have hlt := slot?_lt hv
  rw [slot?_push hs, if_neg (by omega), hv]

theorem slot?_of_push (hs : h.slots = g.slots.push (.live t p)) {v : VarId} {x : Slot α}
    (hv : h.slot? v = some x) :
    g.slot? v = some x ∨ v = ⟨g.slots.size⟩ ∧ x = .live t p := by
  rw [slot?_push hs] at hv
  split at hv
  · next e => cases hv; exact .inr ⟨VarId.eq_of_index e, rfl⟩
  · exact .inl hv

theorem follow_push (hs : h.slots = g.slots.push (.live t p)) {n : Nat} {v w : VarId}
    (hw : g.follow n v = some w) : h.follow n v = some w :=
  follow_of_keeps (fun _ x hv => ⟨x, slot?_push_old hs hv, rfl⟩) hw

theorem leads_push (hg : g.Wellformed) (hs : h.slots = g.slots.push (.live t p)) (v : VarId)
    (hv : v.index < h.slots.size) : ∃ w, h.follow (h.links + 1) v = some w := by
  have e : h.links = g.links := by
    rw [links, links, hs, Array.map_push, Array.countP_push]
    rfl
  rw [e]
  by_cases hlt : v.index < g.slots.size
  · obtain ⟨w, hw⟩ := hg.leads v hlt
    exact ⟨w, follow_push hs hw⟩
  · rw [hs, Array.size_push] at hv
    have hv : v = ⟨g.slots.size⟩ := VarId.eq_of_index (by show v.index = g.slots.size; omega)
    subst hv
    exact ⟨_, follow_live (slot?_push_new hs) _⟩

theorem wellformed_addVariable (hg : g.Wellformed) (t : Tensor α) :
    (g.addVariable t).1.Wellformed := by
  have hs : (g.addVariable t).1.slots = g.slots.push (.live t none) := rfl
  have lt : ∀ {v : VarId}, v.index < g.slots.size → v.index < (g.addVariable t).1.slots.size := by
    intro v hv
    rw [hs, Array.size_push]
    omega
  refine ⟨leads_push hg hs, ?_, ?_, fun o node ho v hv => lt (hg.inputs o node ho v hv),
    fun v hv => lt (hg.declaredInputs v hv), fun v hv => lt (hg.declaredOutputs v hv)⟩
  · intro v t' o hv
    rcases slot?_of_push hs hv with hv | ⟨-, e⟩
    · exact hg.produced v t' o hv
    · cases e
  · intro o node ho
    obtain ⟨hlt, hp⟩ := hg.output o node ho
    refine ⟨lt hlt, fun t' p hv => ?_⟩
    rcases slot?_of_push hs hv with hv | ⟨e, -⟩
    · exact hp t' p hv
    · rw [e] at hlt
      exact absurd hlt (Nat.lt_irrefl _)

theorem wellformed_addInput (hg : g.Wellformed) (t : Tensor α) : (g.addInput t).1.Wellformed := by
  have hg' := wellformed_addVariable hg (t.mark .input)
  have k : SameArena (g.addVariable (t.mark .input)).1 (g.addInput t).1 := ⟨rfl, rfl⟩
  refine k.wellformed hg' (fun v hv => ?_) hg'.declaredOutputs
  rcases List.mem_append.1 hv with hv | hv
  · exact hg'.declaredInputs v hv
  · obtain rfl := List.mem_singleton.1 hv
    show g.slots.size < (g.slots.push _).size
    rw [Array.size_push]
    omega

/-- The graph with one more operator and its output. -/
def placeOp (g : Graph α) (op : Operator α) (ins : List VarId) (t : Tensor α) : Graph α :=
  { g with
    slots := g.slots.push (.live t (some ⟨g.nodes.size⟩))
    nodes := g.nodes.push (some ⟨op, ins, ⟨g.slots.size⟩⟩) }

theorem inferTensor_gives_iff {op : Operator α} {types : List TensorType} {s s' : Supply} :
    Gives (op.inferTensor types) s t s' ↔ ∃ type, Gives (op.infer types) s type s' ∧
      t = { type, marks := (op.tensorwiseAxes type).map .tensorwise } := by
  unfold Operator.inferTensor
  simp only [gives_bind_iff, gives_pure_iff]
  constructor
  · rintro ⟨type, _, h, rfl, rfl⟩
    exact ⟨type, h, rfl⟩
  · rintro ⟨type, h, rfl⟩
    exact ⟨type, _, h, rfl, rfl⟩

theorem addOp_gives_iff {op : Operator α} {ins : List VarId} {v : VarId} {s s' : Supply} :
    Gives (g.addOp op ins) s (h, v) s' ↔ ∃ ws ts t, g.resolveEach ins = .ok ws ∧
      g.tensors ws = .ok ts ∧ Gives (op.inferTensor (ts.map (·.type))) s t s' ∧
      h = g.placeOp op ws t ∧ v = ⟨g.slots.size⟩ := by
  unfold addOp
  simp only [gives_bind_iff, gives_except_iff, gives_pure_iff]
  constructor
  · rintro ⟨ws, _, ⟨hw, rfl⟩, ts, _, ⟨ht, rfl⟩, t, _, hi, e, rfl⟩
    cases e
    exact ⟨ws, ts, t, hw, ht, hi, rfl, rfl⟩
  · rintro ⟨ws, ts, t, hw, ht, hi, rfl, rfl⟩
    exact ⟨ws, _, ⟨hw, rfl⟩, ts, _, ⟨ht, rfl⟩, t, _, hi, rfl, rfl⟩

theorem node?_placeOp (g : Graph α) (op : Operator α) (ins : List VarId) (t : Tensor α)
    (o : OpId) : (g.placeOp op ins t).node? o =
      if o.index = g.nodes.size then some ⟨op, ins, ⟨g.slots.size⟩⟩ else g.node? o := by
  unfold node? placeOp
  rw [Array.getElem?_push]
  split <;> rfl

theorem node?_placeOp_old {op : Operator α} {ins : List VarId} {o : OpId} {node : Node α}
    (ho : g.node? o = some node) : (g.placeOp op ins t).node? o = some node := by
  have hlt := node?_lt ho
  rw [node?_placeOp, if_neg (by omega), ho]

theorem node?_of_placeOp {op : Operator α} {ins : List VarId} {o : OpId} {node : Node α}
    (ho : (g.placeOp op ins t).node? o = some node) :
    g.node? o = some node ∨ o = ⟨g.nodes.size⟩ ∧ node = ⟨op, ins, ⟨g.slots.size⟩⟩ := by
  rw [node?_placeOp] at ho
  split at ho
  · next e => cases ho; exact .inr ⟨OpId.eq_of_index e, rfl⟩
  · exact .inl ho

theorem wellformed_placeOp (hg : g.Wellformed) (op : Operator α) {ins : List VarId}
    (hins : ∀ v ∈ ins, v.index < g.slots.size) (ht : t.data = none) :
    (g.placeOp op ins t).Wellformed := by
  have hs : (g.placeOp op ins t).slots = g.slots.push (.live t (some ⟨g.nodes.size⟩)) := rfl
  have lt : ∀ {v : VarId}, v.index < g.slots.size → v.index < (g.placeOp op ins t).slots.size := by
    intro v hv
    rw [hs, Array.size_push]
    omega
  refine ⟨leads_push hg hs, ?_, ?_, ?_, fun v hv => lt (hg.declaredInputs v hv),
    fun v hv => lt (hg.declaredOutputs v hv)⟩
  · intro v t' o hv
    rcases slot?_of_push hs hv with hv | ⟨rfl, e⟩
    · obtain ⟨hd, node, ho, hout⟩ := hg.produced v t' o hv
      exact ⟨hd, node, node?_placeOp_old ho, hout⟩
    · cases e
      exact ⟨ht, _, by rw [node?_placeOp, if_pos rfl], rfl⟩
  · intro o node ho
    rcases node?_of_placeOp ho with ho | ⟨rfl, rfl⟩
    · obtain ⟨hlt, hp⟩ := hg.output o node ho
      refine ⟨lt hlt, fun t' p hv => ?_⟩
      rcases slot?_of_push hs hv with hv | ⟨e, -⟩
      · exact hp t' p hv
      · rw [e] at hlt
        exact absurd hlt (Nat.lt_irrefl _)
    · refine ⟨by rw [hs, Array.size_push]; exact Nat.lt_succ_self _, fun t' p hv => ?_⟩
      rw [slot?_push_new hs] at hv
      cases hv
      rfl
  · intro o node ho v hv
    rcases node?_of_placeOp ho with ho | ⟨rfl, rfl⟩
    · exact lt (hg.inputs o node ho v hv)
    · exact lt (hins v hv)

theorem wellformed_addOp {op : Operator α} {ins : List VarId} {v : VarId} {s s' : Supply}
    (hg : g.Wellformed) (hop : Gives (g.addOp op ins) s (h, v) s') : h.Wellformed := by
  obtain ⟨ws, ts, t, hw, -, hi, rfl, -⟩ := addOp_gives_iff.1 hop
  obtain ⟨type, -, rfl⟩ := inferTensor_gives_iff.1 hi
  exact wellformed_placeOp hg op (lt_of_resolveEach hw) rfl

end Adding

/-! ## Removal and replacement -/

/-- The graph without an operator, whose output has lost its producer. -/
def detach (g : Graph α) (o : OpId) (output : VarId) : Graph α :=
  { g with
    nodes := g.nodes.setIfInBounds o.index none
    slots := g.slots.modify output.index Slot.dropProducer }

theorem removeOperator_ok_iff {g g' : Graph α} {o : OpId} {node : Node α} :
    g.removeOperator o = .ok (g', node) ↔ g.node? o = some node ∧ g' = g.detach o node.output := by
  unfold removeOperator
  simp only [bind_ok_iff, pure_ok_iff, operator_ok_iff, Prod.mk.injEq]
  constructor
  · rintro ⟨n, hn, rfl, rfl⟩
    exact ⟨hn, rfl⟩
  · rintro ⟨hn, rfl⟩
    exact ⟨node, hn, rfl, rfl⟩

theorem slot?_detach (g : Graph α) (o : OpId) (w v : VarId) :
    (g.detach o w).slot? v = if v = w then (g.slot? v).map Slot.dropProducer else g.slot? v := by
  unfold slot? detach
  rw [Array.getElem?_modify]
  by_cases e : v = w
  · rw [if_pos e, if_pos (congrArg VarId.index e.symm)]
  · rw [if_neg e, if_neg fun e' => e (VarId.eq_of_index e'.symm)]

theorem node?_detach (g : Graph α) (o : OpId) (w : VarId) (o' : OpId) :
    (g.detach o w).node? o' = if o' = o then none else g.node? o' := by
  unfold node? detach
  rw [Array.getElem?_setIfInBounds]
  by_cases e : o' = o
  · rw [if_pos e, if_pos (congrArg OpId.index e.symm)]
    split <;> rfl
  · rw [if_neg e, if_neg fun e' => e (OpId.eq_of_index e'.symm)]

/-- The graph in which a live variable leads to another one, which takes over its runtime
marks. -/
def redirect (g : Graph α) (old new : VarId) (marks : List Mark) : Graph α :=
  let h := g.modifyTensor new fun t => { t with marks := Mark.inherit marks t.marks }
  { h with slots := h.slots.setIfInBounds old.index (.replaced new) }

theorem replaceVariable_ok_iff {g g' : Graph α} {old new : VarId} :
    g.replaceVariable old new = .ok g' ↔ ∃ a b, g.resolve old = .ok a ∧ g.resolve new = .ok b ∧
      (a = b ∧ g' = g ∨ a ≠ b ∧ ∃ x y, g.tensor a = .ok x ∧ g.tensor b = .ok y ∧
        (x.type.shape == y.type.shape) = true ∧ x.type.order = y.type.order ∧
        g' = g.redirect a b x.marks) := by
  unfold replaceVariable
  simp only [bind_ok_iff]
  constructor
  · rintro ⟨a, ha, b, hb, h⟩
    refine ⟨a, b, ha, hb, ?_⟩
    split at h
    · next e => exact .inl ⟨e, (pure_ok_iff.1 h).symm⟩
    · next e =>
      simp only [bind_ok_iff] at h
      obtain ⟨x, hx, y, hy, h⟩ := h
      split at h
      · obtain ⟨_, h, -⟩ := h
      · next hs =>
        split at h
        · obtain ⟨_, h, -⟩ := bind_ok_iff.1 h
          cases h
        · next ho =>
          refine .inr ⟨e, x, y, hx, hy, ?_, Decidable.not_not.1 ho, (pure_ok_iff.1 h).symm⟩
          simpa only [bne, Bool.not_eq_true', Bool.not_eq_false] using hs
  · rintro ⟨a, b, ha, hb, ⟨e, rfl⟩ | ⟨e, x, y, hx, hy, hs, ho, rfl⟩⟩
    · exact ⟨a, ha, b, hb, by rw [if_pos e]; rfl⟩
    · refine ⟨a, ha, b, hb, ?_⟩
      rw [if_neg e, bind_ok_iff]
      refine ⟨x, hx, ?_⟩
      rw [bind_ok_iff]
      refine ⟨y, hy, ?_⟩
      rw [if_neg (by simp [bne, hs]), if_neg (by simp [ho])]
      rfl

theorem follow_detach (g : Graph α) (o : OpId) (u : VarId) {n : Nat} {v w : VarId}
    (h : g.follow n v = some w) : (g.detach o u).follow n v = some w := by
  refine follow_of_keeps (fun v x hv => ?_) h
  rw [slot?_detach, hv]
  split
  · exact ⟨x.dropProducer, rfl, by cases x <;> rfl⟩
  · exact ⟨x, rfl, rfl⟩

theorem links_detach (g : Graph α) (o : OpId) (u : VarId) : (g.detach o u).links = g.links := by
  unfold links
  rw [show (g.detach o u).slots.map Slot.next? = g.slots.map Slot.next? from
    map_modify_of (fun x => by cases x <;> rfl) g.slots u.index]

theorem size_detach (g : Graph α) (o : OpId) (u : VarId) :
    (g.detach o u).slots.size = g.slots.size := Array.size_modify

/-- The places of the detached graph. -/
theorem slot?_of_detach {g : Graph α} {o : OpId} {u v : VarId} {t : Tensor α} {p : Option OpId}
    (h : (g.detach o u).slot? v = some (.live t p)) :
    v ≠ u ∧ g.slot? v = some (.live t p) ∨
      v = u ∧ p = none ∧ ∃ q, g.slot? v = some (.live t q) := by
  rw [slot?_detach] at h
  split at h
  · next e =>
    rcases hv : g.slot? v with _ | ⟨t', q⟩ | w <;> rw [hv] at h <;> cases h
    exact .inr ⟨e, rfl, q, rfl⟩
  · next e => exact .inl ⟨e, h⟩

theorem wellformed_detach {g : Graph α} {o : OpId} {node : Node α} (hg : g.Wellformed)
    (ho : g.node? o = some node) : (g.detach o node.output).Wellformed where
  leads v hv := by
    rw [size_detach] at hv
    obtain ⟨w, hw⟩ := hg.leads v hv
    exact ⟨w, by rw [links_detach, follow_detach g o _ hw]⟩
  produced v t p hv := by
    rcases slot?_of_detach hv with ⟨hne, hv⟩ | ⟨-, e, -⟩
    · obtain ⟨hd, n, hn, hout⟩ := hg.produced v t p hv
      refine ⟨hd, n, ?_, hout⟩
      rw [node?_detach, if_neg, hn]
      rintro rfl
      rw [ho] at hn
      cases hn
      exact hne hout.symm
    · cases e
  output p n hn := by
    rw [node?_detach] at hn
    split at hn
    · cases hn
    · next hne =>
      obtain ⟨hlt, hp⟩ := hg.output p n hn
      refine ⟨size_detach g o _ ▸ hlt, fun t q hv => ?_⟩
      rcases slot?_of_detach hv with ⟨-, hv⟩ | ⟨e, -, q', hv⟩
      · exact hp t q hv
      · have h1 := hp t q' hv
        rw [e] at hv
        have h2 := (hg.output o node ho).2 t q' hv
        exact absurd (Option.some.inj (h1.symm.trans h2)) hne
  inputs p n hn v hv := by
    rw [node?_detach] at hn
    split at hn
    · cases hn
    · exact size_detach g o _ ▸ hg.inputs p n hn v hv
  declaredInputs v hv := size_detach g o _ ▸ hg.declaredInputs v hv
  declaredOutputs v hv := size_detach g o _ ▸ hg.declaredOutputs v hv

theorem wellformed_removeOperator {g g' : Graph α} {o : OpId} {node : Node α} (hg : g.Wellformed)
    (h : g.removeOperator o = .ok (g', node)) : g'.Wellformed := by
  obtain ⟨ho, rfl⟩ := removeOperator_ok_iff.1 h
  exact wellformed_detach hg ho

theorem resolve_detach {g : Graph α} {o : OpId} {node : Node α} (hg : g.Wellformed)
    (ho : g.node? o = some node) {v w : VarId} (h : g.resolve v = .ok w) :
    (g.detach o node.output).resolve v = .ok w :=
  (resolve_ok_iff (wellformed_detach hg ho)).2 ⟨_, follow_detach g o _ (resolve_ok_follow h)⟩

section Redirecting

variable {g : Graph α} {a b : VarId} {x y : Tensor α} {p q : Option OpId} {marks : List Mark}

theorem size_redirect (g : Graph α) (a b : VarId) (marks : List Mark) :
    (g.redirect a b marks).slots.size = g.slots.size := by
  simp [redirect, modifyTensor]

theorem slot?_redirect_old (ha : g.slot? a = some (.live x p)) :
    (g.redirect a b marks).slot? a = some (.replaced b) := by
  have hlt := slot?_lt ha
  unfold slot? redirect modifyTensor
  rw [Array.getElem?_setIfInBounds, if_pos rfl, if_pos (by simpa using hlt)]

theorem slot?_redirect_new (hab : a ≠ b) (hb : g.slot? b = some (.live y q)) :
    (g.redirect a b marks).slot? b =
      some (.live { y with marks := Mark.inherit marks y.marks } q) := by
  have hb' : g.slots[b.index]? = some (.live y q) := hb
  unfold slot? redirect modifyTensor
  rw [Array.getElem?_setIfInBounds, if_neg fun e => hab (VarId.eq_of_index e),
    Array.getElem?_modify, if_pos rfl, hb']
  rfl

theorem slot?_redirect_other {v : VarId} (hva : v ≠ a) (hvb : v ≠ b) :
    (g.redirect a b marks).slot? v = g.slot? v := by
  unfold slot? redirect modifyTensor
  rw [Array.getElem?_setIfInBounds, if_neg fun e => hva (VarId.eq_of_index e.symm),
    Array.getElem?_modify, if_neg fun e => hvb (VarId.eq_of_index e.symm)]

/-- A live place of the redirected graph is live in the graph, with the same producer, type and
data. -/
theorem slot?_of_redirect (hab : a ≠ b) (ha : g.slot? a = some (.live x p))
    (hb : g.slot? b = some (.live y q)) {v : VarId} {t : Tensor α} {r : Option OpId}
    (hv : (g.redirect a b marks).slot? v = some (.live t r)) :
    v ≠ a ∧ ∃ t', g.slot? v = some (.live t' r) ∧ t.type = t'.type ∧ t.data = t'.data := by
  by_cases hva : v = a
  · rw [hva, slot?_redirect_old ha] at hv
    cases hv
  · refine ⟨hva, ?_⟩
    by_cases hvb : v = b
    · rw [hvb, slot?_redirect_new hab hb] at hv
      cases hv
      exact ⟨y, hvb ▸ hb, rfl, rfl⟩
    · rw [slot?_redirect_other hva hvb] at hv
      exact ⟨t, hv, rfl, rfl⟩

variable (marks) in
/-- A live place that is not redirected keeps its producer, type and data. -/
theorem slot?_redirect_live (hab : a ≠ b) {v : VarId} {t : Tensor α} {r : Option OpId}
    (hva : v ≠ a) (hv : g.slot? v = some (.live t r)) :
    ∃ t', (g.redirect a b marks).slot? v = some (.live t' r) ∧ t'.type = t.type ∧
      t'.data = t.data := by
  by_cases hvb : v = b
  · rw [hvb] at hv ⊢
    exact ⟨_, slot?_redirect_new hab hv, rfl, rfl⟩
  · exact ⟨t, (slot?_redirect_other hva hvb).trans hv, rfl, rfl⟩

theorem links_redirect (ha : g.slot? a = some (.live x p)) :
    (g.redirect a b marks).links = g.links + 1 := by
  have hlt := slot?_lt ha
  have e : (g.redirect a b marks).slots.map Slot.next? =
      (g.slots.map Slot.next?).setIfInBounds a.index (some b) := by
    unfold redirect modifyTensor
    rw [Array.map_setIfInBounds, map_modify_of fun x => by cases x <;> rfl]
    rfl
  have ha' : g.slots[a.index]? = some (.live x p) := ha
  have hbound : a.index < (g.slots.map Slot.next?).size := by simpa using hlt
  have hget : (g.slots.map Slot.next?)[a.index] = none := by
    rw [Array.getElem_map]
    rw [Array.getElem?_eq_getElem hlt, Option.some.injEq] at ha'
    rw [ha']
    rfl
  unfold links
  rw [e, Array.setIfInBounds_def, dif_pos hbound, Array.countP_set hbound, hget]
  rfl

/-- A chain that led to the redirected variable now leads one step further. -/
theorem follow_redirect (hab : a ≠ b) (ha : g.slot? a = some (.live x p))
    (hb : g.slot? b = some (.live y q)) {n : Nat} {v w : VarId} (h : g.follow n v = some w) :
    (g.redirect a b marks).follow (n + 1) v = some (if w = a then b else w) := by
  induction n generalizing v with
  | zero => cases h
  | succ n ih =>
    rw [follow_succ] at h
    rcases hv : g.slot? v with _ | ⟨t, r⟩ | u
    · rw [hv] at h
      cases h
    · rw [hv] at h
      obtain rfl := Option.some.inj h
      by_cases hva : v = a
      · rw [if_pos hva, hva, follow_succ, slot?_redirect_old ha]
        exact follow_live (slot?_redirect_new hab hb) n
      · obtain ⟨t', ht', -⟩ := slot?_redirect_live marks hab hva hv
        rw [if_neg hva, follow_live ht']
    · rw [hv] at h
      have hva : v ≠ a := by
        rintro rfl
        rw [ha] at hv
        cases hv
      have hvb : v ≠ b := by
        rintro rfl
        rw [hb] at hv
        cases hv
      rw [follow_succ, slot?_redirect_other hva hvb, hv]
      exact ih h

theorem wellformed_redirect (hg : g.Wellformed) (hab : a ≠ b)
    (ha : g.slot? a = some (.live x p)) (hb : g.slot? b = some (.live y q)) :
    (g.redirect a b marks).Wellformed where
  leads v hv := by
    rw [size_redirect] at hv
    obtain ⟨w, hw⟩ := hg.leads v hv
    exact ⟨_, by rw [links_redirect ha]; exact follow_redirect hab ha hb hw⟩
  produced v t o hv := by
    obtain ⟨-, t', hv', -, hd⟩ := slot?_of_redirect hab ha hb hv
    obtain ⟨hd', node, ho, hout⟩ := hg.produced v t' o hv'
    exact ⟨hd.trans hd', node, ho, hout⟩
  output o node ho := by
    obtain ⟨hlt, hp⟩ := hg.output o node ho
    refine ⟨size_redirect g a b marks ▸ hlt, fun t r hv => ?_⟩
    obtain ⟨-, t', hv', -⟩ := slot?_of_redirect hab ha hb hv
    exact hp t' r hv'
  inputs o node ho v hv := size_redirect g a b marks ▸ hg.inputs o node ho v hv
  declaredInputs v hv := size_redirect g a b marks ▸ hg.declaredInputs v hv
  declaredOutputs v hv := size_redirect g a b marks ▸ hg.declaredOutputs v hv

/-- Exactly the handles that stood for the redirected variable stand for the other one. -/
theorem resolve_redirect (hg : g.Wellformed) (hab : a ≠ b) (ha : g.slot? a = some (.live x p))
    (hb : g.slot? b = some (.live y q)) {v w : VarId} (h : g.resolve v = .ok w) :
    (g.redirect a b marks).resolve v = .ok (if w = a then b else w) :=
  (resolve_ok_iff (wellformed_redirect hg hab ha hb)).2
    ⟨_, follow_redirect hab ha hb (resolve_ok_follow h)⟩

end Redirecting

theorem wellformed_replaceVariable {g g' : Graph α} {old new : VarId} (hg : g.Wellformed)
    (h : g.replaceVariable old new = .ok g') : g'.Wellformed := by
  obtain ⟨a, b, -, -, ⟨-, rfl⟩ | ⟨hab, x, y, hx, hy, -, -, rfl⟩⟩ := replaceVariable_ok_iff.1 h
  · exact hg
  · obtain ⟨p, hx⟩ := tensor_ok_iff.1 hx
    obtain ⟨q, hy⟩ := tensor_ok_iff.1 hy
    exact wellformed_redirect hg hab hx hy

/-- What is live after a replacement was live before, with the same producer, type and data. -/
theorem slot?_of_replaceVariable {g g' : Graph α} {old new v : VarId} {t : Tensor α}
    {p : Option OpId} (h : g.replaceVariable old new = .ok g')
    (hv : g'.slot? v = some (.live t p)) :
    ∃ t', g.slot? v = some (.live t' p) ∧ t.type = t'.type ∧ t.data = t'.data := by
  obtain ⟨a, b, -, -, ⟨-, rfl⟩ | ⟨hab, x, y, hx, hy, -, -, rfl⟩⟩ := replaceVariable_ok_iff.1 h
  · exact ⟨t, hv, rfl, rfl⟩
  · obtain ⟨q, hx⟩ := tensor_ok_iff.1 hx
    obtain ⟨r, hy⟩ := tensor_ok_iff.1 hy
    exact (slot?_of_redirect hab hx hy hv).2

end Graph

end TensorCompiler
