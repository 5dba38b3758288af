import TensorCompiler.Proofs.Outcome
/-!
# The arena of a graph

Handles stay valid while a graph is edited because a replaced place links to its successor. This
module shows that the links never run in a circle and that the producers kept in the live places
agree with the table of operators.

* `Wellformed`: the invariant of the arena.
* `resolve_ok_of_lt`: in a wellformed graph every handle of the arena stands for a live variable.
* `forall₂_resolveAll`, `inputsOf_ok`: so do the handles of a list and whatever an operator reads.
* `output_of_producer`: the producer of a variable is a live operator that computes it.
-/

namespace TensorCompiler

theorem VarId.eq_of_index {v w : VarId} (h : v.index = w.index) : v = w := by
  cases v; cases w; simpa using h

theorem OpId.eq_of_index {o p : OpId} (h : o.index = p.index) : o = p := by
  cases o; cases p; simpa using h

/-- Where a replaced place leads. -/
def Slot.next? {α : Type} : Slot α → Option VarId
  | live .. => none
  | replaced v => some v

namespace Graph

variable {α : Type}

/-- The place of a handle. -/
def slot? (g : Graph α) (v : VarId) : Option (Slot α) := g.slots[v.index]?

/-- The operator of a handle, unless it is detached. -/
def node? (g : Graph α) (o : OpId) : Option (Node α) := g.nodes[o.index]?.join

/-- The number of replaced places. -/
def links (g : Graph α) : Nat := (g.slots.map Slot.next?).countP Option.isSome

theorem slot?_lt {g : Graph α} {v : VarId} {x : Slot α} (h : g.slot? v = some x) :
    v.index < g.slots.size := by
  by_contra hlt
  rw [slot?, Array.getElem?_eq_none (by omega)] at h
  cases h

theorem slot?_of_lt {g : Graph α} {v : VarId} (h : v.index < g.slots.size) :
    ∃ x, g.slot? v = some x := ⟨_, Array.getElem?_eq_getElem h⟩

theorem node?_lt {g : Graph α} {o : OpId} {node : Node α} (ho : g.node? o = some node) :
    o.index < g.nodes.size := by
  by_contra hlt
  rw [node?, Array.getElem?_eq_none (by omega)] at ho
  cases ho

theorem tensor_ok_iff {g : Graph α} {v : VarId} {t : Tensor α} :
    g.tensor v = .ok t ↔ ∃ p, g.slot? v = some (.live t p) := by
  unfold tensor slot?
  split
  · next t' p h => simp [h]
  · next h => simp [h]
  · next h => simp [h]

theorem operator_ok_iff {g : Graph α} {o : OpId} {node : Node α} :
    g.operator o = .ok node ↔ g.node? o = some node := by
  unfold operator node?
  split
  · next node' h => simp [h]
  · next h =>
    rcases hn : g.nodes[o.index]? with _ | _ | node'
    · simp
    · simp
    · exact absurd hn (h node')

theorem inputsOf_ok_iff {g : Graph α} {o : OpId} {ins : List VarId} :
    g.inputsOf o = .ok ins ↔ ∃ node, g.node? o = some node ∧
      List.Forall₂ (fun v w => g.resolve v = .ok w) node.inputs ins := by
  simp [inputsOf, bind_ok_iff, operator_ok_iff, resolveEach, mapM_ok_iff]

/-! ## Following links -/

theorem follow_succ (g : Graph α) (n : Nat) (v : VarId) :
    g.follow (n + 1) v = match g.slot? v with
      | some (.live ..) => some v
      | some (.replaced next) => g.follow n next
      | none => none := rfl

theorem follow_live {g : Graph α} {v : VarId} {t : Tensor α} {p : Option OpId}
    (h : g.slot? v = some (.live t p)) (n : Nat) : g.follow (n + 1) v = some v := by
  rw [follow_succ, h]

theorem follow_mono {g : Graph α} {n m : Nat} {v w : VarId} (h : g.follow n v = some w)
    (hnm : n ≤ m) : g.follow m v = some w := by
  induction n generalizing m v with
  | zero => cases h
  | succ n ih =>
    obtain ⟨m, rfl⟩ : ∃ k, m = k + 1 := ⟨m - 1, by omega⟩
    rw [follow_succ] at h ⊢
    split at h
    · exact h
    · exact ih h (by omega)
    · cases h

theorem follow_unique {g : Graph α} {n m : Nat} {v w u : VarId} (hw : g.follow n v = some w)
    (hu : g.follow m v = some u) : w = u := by
  have h1 := follow_mono hw (Nat.le_max_left n m)
  have h2 := follow_mono hu (Nat.le_max_right n m)
  exact Option.some.inj (h1.symm.trans h2)

theorem live_of_follow {g : Graph α} {n : Nat} {v w : VarId} (h : g.follow n v = some w) :
    ∃ t p, g.slot? w = some (.live t p) := by
  induction n generalizing v with
  | zero => cases h
  | succ n ih =>
    rw [follow_succ] at h
    split at h
    · next hv => cases h; exact ⟨_, _, hv⟩
    · exact ih h
    · cases h

theorem lt_of_follow {g : Graph α} {n : Nat} {v w : VarId} (h : g.follow n v = some w) :
    v.index < g.slots.size := by
  cases n with
  | zero => cases h
  | succ n =>
    rw [follow_succ] at h
    split at h
    · next hv => exact slot?_lt hv
    · next hv => exact slot?_lt hv
    · cases h

/-- A graph that keeps the places of another one, as far as links go, leads wherever that one
leads. -/
theorem follow_of_keeps {g h : Graph α}
    (keeps : ∀ v x, g.slot? v = some x → ∃ y, h.slot? v = some y ∧ y.next? = x.next?) {n : Nat}
    {v w : VarId} (hw : g.follow n v = some w) : h.follow n v = some w := by
  induction n generalizing v with
  | zero => cases hw
  | succ n ih =>
    rw [follow_succ] at hw ⊢
    split at hw
    · next hv =>
      obtain ⟨y, hy, e⟩ := keeps v _ hv
      cases y with
      | live t p => rw [hy]; exact hw
      | replaced u => cases e
    · next hv =>
      obtain ⟨y, hy, e⟩ := keeps v _ hv
      cases y with
      | live t p => cases e
      | replaced u => cases e; rw [hy]; exact ih hw
    · cases hw

theorem resolve_ok_follow {g : Graph α} {v w : VarId} (h : g.resolve v = .ok w) :
    g.follow (g.slots.size + 1) v = some w := by
  unfold resolve at h
  split at h
  · next hw => cases h; exact hw
  · cases h

theorem resolve_of_live {g : Graph α} {v : VarId} {t : Tensor α} {p : Option OpId}
    (h : g.slot? v = some (.live t p)) : g.resolve v = .ok v := by
  unfold resolve
  rw [follow_live h]

theorem live_of_resolve {g : Graph α} {v w : VarId} (h : g.resolve v = .ok w) :
    ∃ t p, g.slot? w = some (.live t p) := live_of_follow (resolve_ok_follow h)

theorem resolve_resolve {g : Graph α} {v w : VarId} (h : g.resolve v = .ok w) :
    g.resolve w = .ok w := by
  obtain ⟨t, p, hw⟩ := live_of_resolve h
  exact resolve_of_live hw

theorem lt_of_resolve {g : Graph α} {v w : VarId} (h : g.resolve v = .ok w) :
    v.index < g.slots.size := lt_of_follow (resolve_ok_follow h)

theorem tensor_of_resolve {g : Graph α} {v w : VarId} (h : g.resolve v = .ok w) :
    ∃ t, g.tensor w = .ok t := by
  obtain ⟨t, p, hw⟩ := live_of_resolve h
  exact ⟨t, tensor_ok_iff.2 ⟨p, hw⟩⟩

theorem resolve_of_tensor {g : Graph α} {v : VarId} {t : Tensor α} (h : g.tensor v = .ok t) :
    g.resolve v = .ok v := by
  obtain ⟨p, hv⟩ := tensor_ok_iff.1 h
  exact resolve_of_live hv

theorem mem_resolveAll {g : Graph α} {vs : List VarId} {w : VarId} :
    w ∈ g.resolveAll vs ↔ ∃ v ∈ vs, g.resolve v = .ok w := by
  simp [resolveAll, toOption_some_iff]

theorem producer_some_iff {g : Graph α} {v : VarId} {o : OpId} :
    g.producer v = some o ↔ ∃ w t, g.resolve v = .ok w ∧ g.slot? w = some (.live t (some o)) := by
  unfold producer
  cases hr : g.resolve v with
  | error e => simp [Except.toOption]
  | ok w =>
    obtain ⟨t, p, hw⟩ := live_of_resolve hr
    have hw' : g.slots[w.index]? = some (.live t p) := hw
    simp [Except.toOption, hw', hw]

/-! ## The invariant -/

/-- The links lead to live places, the producers agree with the operators, and all handles belong
to the arena. -/
structure Wellformed (g : Graph α) : Prop where
  /-- A chain of links is no longer than there are replaced places. -/
  leads : ∀ v, v.index < g.slots.size → ∃ w, g.follow (g.links + 1) v = some w
  /-- A variable with a producer is its output, and no constant. -/
  produced : ∀ v t o, g.slot? v = some (.live t (some o)) →
    t.data = none ∧ ∃ node, g.node? o = some node ∧ node.output = v
  /-- The output of an operator knows it. -/
  output : ∀ o node, g.node? o = some node → node.output.index < g.slots.size ∧
    ∀ t p, g.slot? node.output = some (.live t p) → p = some o
  inputs : ∀ o node, g.node? o = some node → ∀ v ∈ node.inputs, v.index < g.slots.size
  declaredInputs : ∀ v ∈ g.declaredInputs, v.index < g.slots.size
  declaredOutputs : ∀ v ∈ g.declaredOutputs, v.index < g.slots.size

theorem links_le (g : Graph α) : g.links ≤ g.slots.size := by
  have h : g.links ≤ (g.slots.map Slot.next?).size := Array.countP_le_size
  rwa [Array.size_map] at h

section Resolving

variable {g : Graph α}

theorem resolve_ok_of_lt (hg : g.Wellformed) {v : VarId} (hv : v.index < g.slots.size) :
    ∃ w, g.resolve v = .ok w := by
  obtain ⟨w, hw⟩ := hg.leads v hv
  refine ⟨w, ?_⟩
  unfold resolve
  rw [follow_mono hw (Nat.add_le_add_right g.links_le 1)]

theorem resolve_ok_iff (hg : g.Wellformed) {v w : VarId} :
    g.resolve v = .ok w ↔ ∃ n, g.follow n v = some w := by
  constructor
  · intro h
    exact ⟨_, resolve_ok_follow h⟩
  · rintro ⟨n, hn⟩
    obtain ⟨u, hu⟩ := resolve_ok_of_lt hg (lt_of_follow hn)
    rw [hu, follow_unique (resolve_ok_follow hu) hn]

/-- What a handle stands for in a graph that keeps the links of a wellformed one. -/
theorem resolve_of_keeps {h : Graph α} (hh : h.Wellformed)
    (keeps : ∀ v x, g.slot? v = some x → ∃ y, h.slot? v = some y ∧ y.next? = x.next?)
    {v w : VarId} (hv : g.resolve v = .ok w) : h.resolve v = .ok w :=
  (resolve_ok_iff hh).2 ⟨_, follow_of_keeps keeps (resolve_ok_follow hv)⟩

/-- Every handle of a list stands for the variable in its place of the resolved list. -/
theorem forall₂_resolveAll (hg : g.Wellformed) {vs : List VarId}
    (hvs : ∀ v ∈ vs, v.index < g.slots.size) :
    List.Forall₂ (fun v w => g.resolve v = .ok w) vs (g.resolveAll vs) := by
  induction vs with
  | nil => exact .nil
  | cons v vs ih =>
    obtain ⟨w, hw⟩ := resolve_ok_of_lt hg (hvs v (List.mem_cons_self ..))
    have e : g.resolveAll (v :: vs) = w :: g.resolveAll vs := by
      simp [resolveAll, hw, Except.toOption]
    rw [e]
    exact .cons hw (ih fun u hu => hvs u (List.mem_cons_of_mem _ hu))

theorem resolve_of_mem_inputs {v : VarId} (hv : v ∈ g.inputs) : g.resolve v = .ok v := by
  obtain ⟨u, -, hu⟩ := mem_resolveAll.1 hv
  exact resolve_resolve hu

theorem resolve_of_mem_outputs {v : VarId} (hv : v ∈ g.outputs) : g.resolve v = .ok v := by
  obtain ⟨u, -, hu⟩ := mem_resolveAll.1 hv
  exact resolve_resolve hu

theorem inputsOf_ok (hg : g.Wellformed) {o : OpId} {node : Node α} (ho : g.node? o = some node) :
    ∃ ins, g.inputsOf o = .ok ins :=
  ⟨g.resolveAll node.inputs, inputsOf_ok_iff.2
    ⟨node, ho, forall₂_resolveAll hg (hg.inputs o node ho)⟩⟩

theorem resolveAll_of_forall₂ {vs ws : List VarId}
    (h : List.Forall₂ (fun v w => g.resolve v = .ok w) vs ws) : g.resolveAll vs = ws := by
  induction h with
  | nil => rfl
  | cons hw _ ih =>
    unfold resolveAll at ih ⊢
    rw [List.filterMap_cons, toOption_some_iff.2 hw]
    exact congrArg _ ih

theorem inputsOf_eq_resolveAll {o : OpId} {node : Node α} {ins : List VarId}
    (ho : g.node? o = some node) (h : g.inputsOf o = .ok ins) :
    ins = g.resolveAll node.inputs := by
  obtain ⟨node', ho', hins⟩ := inputsOf_ok_iff.1 h
  obtain rfl : node = node' := Option.some.inj (ho.symm.trans ho')
  exact (resolveAll_of_forall₂ hins).symm

theorem resolve_of_mem_inputsOf {o : OpId} {ins : List VarId} (h : g.inputsOf o = .ok ins)
    {v : VarId} (hv : v ∈ ins) : g.resolve v = .ok v := by
  obtain ⟨node, ho, -⟩ := inputsOf_ok_iff.1 h
  rw [inputsOf_eq_resolveAll ho h] at hv
  obtain ⟨u, -, hu⟩ := mem_resolveAll.1 hv
  exact resolve_resolve hu

/-- A producer is a live operator with this output. -/
theorem output_of_producer (hg : g.Wellformed) {v : VarId} {o : OpId}
    (h : g.producer v = some o) : ∃ node, g.node? o = some node ∧ g.resolve v = .ok node.output := by
  obtain ⟨w, t, hv, hw⟩ := producer_some_iff.1 h
  obtain ⟨-, node, ho, rfl⟩ := hg.produced w t o hw
  exact ⟨node, ho, hv⟩

end Resolving

end Graph

end TensorCompiler
