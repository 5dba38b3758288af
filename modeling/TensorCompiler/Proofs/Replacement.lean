import TensorCompiler.Pass.SelectArithmetic
import TensorCompiler.Proofs.AxisClasses
/-!
# Sweeps that settle

A pass sweeps over the operators that the outputs depend on, and takes out those that it can do
without. Once an operator has been visited, the sweep does not change what it reads any more, since
operators are visited in topological order. So after the sweep no operator is left that the pass
would take out.

* `Replaced`: one operator is gone, and what stands in for it reads no more than it did.
* `Visit`: what a visit of a pass comes to, for the operators that the pass takes out.
* `sweep_settles`: after a sweep, the outputs depend on none of these.
* `Spared`: what a sweep has to keep of an earlier one.
* `sweep_idle`: where they depend on none of these, a sweep reports no change.
-/

namespace TensorCompiler

/-- The operators that the arithmetic form of a selection consists of. -/
def Operator.Arithmetic {α : Type} [Scalar α] (op : Operator α) : Prop :=
  op = .pointwise .mul ∨ op = .invert ∨ op = .pointwise .add

namespace Graph

variable {α : Type} [Scalar α] {g h : Graph α} {o : OpId} {a b : VarId}

/-- A variable is one of the inputs of an operator. -/
def Takes (g : Graph α) (o : OpId) (v : VarId) : Prop := ∃ ins, g.inputsOf o = .ok ins ∧ v ∈ ins

/-- An operator is gone, and `b` stands in for its output `a`. Whatever was added is arithmetic, and
reads only what the operator read and what was added with it before. -/
structure Replaced (g h : Graph α) (o : OpId) (a b : VarId) : Prop where
  rewired : Rewired g h o a b
  gone : h.node? o = none
  grows : g.nodes.size ≤ h.nodes.size
  back : ∀ v t p, h.slot? v = some (.live t p) → v.index < g.slots.size →
    ∃ t' q, g.slot? v = some (.live t' q) ∧ t.type = t'.type ∧ t.data = t'.data
  axes : ∀ x, h.HasAxis x → g.HasAxis x
  nodes : ∀ q n, h.node? q = some n →
    g.node? q = some n ∨ g.nodes.size ≤ q.index ∧ n.op.Arithmetic
  standIn : g.Takes o b ∧ b ≠ a ∨ ∀ c, h.producer b = some c → g.nodes.size ≤ c.index
  added : ∀ q ins, g.nodes.size ≤ q.index → h.inputsOf q = .ok ins →
    (∀ v ∈ ins, g.Takes o v ∧ v ≠ a ∨ ∀ c, h.producer v = some c → g.nodes.size ≤ c.index) ∧
      ∃ v ∈ ins, (h.producer v).isSome
  later : ¬g.Takes o a → ∀ q ins, g.nodes.size ≤ q.index → h.inputsOf q = .ok ins →
    ∀ v ∈ ins, ∀ c, h.producer v = some c → c.index < q.index

/-- An operator reads the output of another one. -/
abbrev Reads (g : Graph α) (o child : OpId) : Prop := g.DependsOn [] o child

omit [Scalar α] in
theorem node?_of_dependsOn {inputs : List VarId} {c : OpId} (h : g.DependsOn inputs o c) :
    o.index < g.nodes.size := by
  obtain ⟨ins, hins, -⟩ := h
  obtain ⟨n, hn, -⟩ := inputsOf_ok_iff.1 hins
  exact node?_lt hn

/-- A variable that stays keeps its producer. -/
theorem Replaced.producer_eq (r : Replaced g h o a b) {v : VarId} (hv : g.resolve v = .ok v)
    (hva : v ≠ a) : h.producer v = g.producer v := by
  obtain ⟨t, p, hs⟩ := live_of_resolve hv
  obtain ⟨t', hs', -⟩ := r.rewired.live v t p hva hs
  rw [producer_of_live hs, producer_of_live hs']

/-- What an operator depends on afterwards was added, or it depended on it before, or the operator
that is gone did. -/
theorem Replaced.dependsOn (hg : g.Wellformed) (r : Replaced g h o a b) {inputs : List VarId}
    {x c : OpId} (hx : h.DependsOn inputs x c) :
    g.nodes.size ≤ c.index ∨ g.DependsOn inputs x c ∨ g.DependsOn inputs o c := by
  obtain ⟨ins, hins, v, hv, hvi, hc⟩ := hx
  have read : g.Takes o v → v ≠ a → g.DependsOn inputs o c := by
    rintro ⟨reads, hreads, hmem⟩ hva
    rw [r.producer_eq (resolve_of_mem_inputsOf hreads hmem) hva] at hc
    exact ⟨reads, hreads, v, hmem, hvi, hc⟩
  obtain ⟨n, hn, -⟩ := inputsOf_ok_iff.1 hins
  rcases r.nodes x n hn with hold | ⟨hnew, -⟩
  · obtain ⟨reads, hreads⟩ := inputsOf_ok hg hold
    have hmap := r.rewired.links.inputsOf hold hn rfl hreads
    obtain rfl := Except.ok.inj (hmap.symm.trans hins)
    obtain ⟨u, hu, rfl⟩ := List.mem_map.1 hv
    split at hc
    · next hua =>
      rw [if_pos hua] at read
      rcases r.standIn with ⟨htakes, hba⟩ | hnew
      · exact .inr (.inr (read htakes hba))
      · exact .inl (hnew c hc)
    · next hua =>
      rw [if_neg hua] at hvi
      rw [r.producer_eq (resolve_of_mem_inputsOf hreads hu) hua] at hc
      exact .inr (.inl ⟨reads, hreads, u, hu, hvi, hc⟩)
  · rcases (r.added x ins hnew hins).1 v hv with ⟨htakes, hva⟩ | hadded
    · exact .inr (.inr (read htakes hva))
    · exact .inl (hadded c hc)

/-- What an added operator may read: what the operator took, and what was added before. -/
structure Available (g h : Graph α) (o : OpId) (v : VarId) : Prop where
  stands : h.resolve v = .ok v
  source : g.Takes o v ∨ g.slots.size ≤ v.index

omit [Scalar α] in
theorem producer_of_extends {i : Graph α} (k : Extends h i) {v : VarId}
    (hv : h.resolve v = .ok v) : i.producer v = h.producer v := by
  obtain ⟨t, p, hlive⟩ := live_of_resolve hv
  rw [producer_of_live (k.slot _ _ hlive), producer_of_live hlive]

omit [Scalar α] in
theorem Available.extends {i : Graph α} {v : VarId} (hv : Available g h o v) (k : Extends h i) :
    Available g i o v := by
  obtain ⟨t, p, hlive⟩ := live_of_resolve hv.stands
  exact ⟨resolve_of_live (k.slot _ _ hlive), hv.source⟩

/-- A graph in which an operator is gone, and arithmetic on what it took may have been added. -/
structure Prepared (g h : Graph α) (o : OpId) (a : VarId) : Prop where
  extension : Extends (g.detach o a) h
  wellformed : h.Wellformed
  gone : h.node? o = none
  grows : g.nodes.size ≤ h.nodes.size
  axes : ∀ v t p, h.slot? v = some (.live t p) → g.slots.size ≤ v.index →
    ∀ x ∈ t.type.order.axes, g.HasAxis x
  nodes : ∀ q n, h.node? q = some n → g.node? q = some n ∨
    g.nodes.size ≤ q.index ∧ n.op.Arithmetic ∧
      (∀ v ∈ n.inputs, Available g h o v) ∧ ∃ v ∈ n.inputs, v ≠ a ∧ (h.producer v).isSome
  later : ∀ q n, h.node? q = some n → g.nodes.size ≤ q.index →
    ∀ v ∈ n.inputs, ∀ c, h.producer v = some c → c.index < q.index

/-- What an added operator reads was available to it. -/
theorem Prepared.available (k : Prepared g h o a) {q : OpId} {n : Node α} (hq : h.node? q = some n)
    (hnew : g.nodes.size ≤ q.index) : ∀ v ∈ n.inputs, Available g h o v := by
  rcases k.nodes q n hq with hold | ⟨-, -, hins, -⟩
  · exact absurd (node?_lt hold) (Nat.not_lt.2 hnew)
  · exact hins

/-- Added variables have added producers. -/
theorem Prepared.producer_new (hg : g.Wellformed) (k : Prepared g h o a) {v : VarId} {t : Tensor α}
    {c : OpId} (hv : h.slot? v = some (.live t (some c))) (hnew : g.slots.size ≤ v.index) :
    g.nodes.size ≤ c.index := by
  obtain ⟨-, n, hn, hout⟩ := k.wellformed.produced v t c hv
  rcases k.nodes c n hn with hn | ⟨hc, -⟩
  · have hlt := (hg.output c n hn).1
    rw [hout] at hlt
    omega
  · exact hc

/-- The places of the graph, as far as they are live in the prepared one. -/
theorem Prepared.live (k : Prepared g h o a) {v : VarId} {t : Tensor α} {p : Option OpId}
    (hv : h.slot? v = some (.live t p)) (hlt : v.index < g.slots.size) :
    ∃ q, g.slot? v = some (.live t q) := by
  obtain ⟨x, hx⟩ : ∃ x, (g.detach o a).slot? v = some x :=
    slot?_of_lt (by rwa [size_detach])
  obtain rfl := Option.some.inj ((k.extension.slot v x hx).symm.trans hv)
  rcases slot?_of_detach hx with ⟨-, h⟩ | ⟨-, -, h⟩
  · exact ⟨_, h⟩
  · exact h

/-- Taking out an operator prepares a graph. -/
theorem prepared_detach {node : Node α} (hg : g.Wellformed) (hn : g.node? o = some node) :
    Prepared g (g.detach o node.output) o node.output where
  extension := .refl _
  wellformed := wellformed_detach hg hn
  gone := by rw [node?_detach, if_pos rfl]
  grows := Nat.le_of_eq (Array.size_setIfInBounds ..).symm
  axes v t p hv hge := by
    have := slot?_lt hv
    rw [size_detach] at this
    omega
  nodes q n hq := by
    rw [node?_detach] at hq
    split at hq
    · cases hq
    · exact .inl hq
  later q n hq hnew := by
    have := node?_lt hq
    rw [detach, Array.size_setIfInBounds] at this
    omega

/-- A variable may be added whose axes the graph has. -/
theorem Prepared.addVariable {g₁ : Graph α} (k : Prepared g g₁ o a) {t : Tensor α}
    (ht : ∀ x ∈ t.type.order.axes, g.HasAxis x) : Prepared g (g₁.addVariable t).1 o a := by
  have hext := extends_addVariable g₁ t
  have hwell := wellformed_addVariable k.wellformed t
  refine ⟨k.extension.trans hext, hwell, k.gone, k.grows, fun v u p hv hge => ?_, fun q n hq => ?_,
    fun q n hq hnew v hv => ?_⟩
  · rcases slot?_of_push rfl hv with hv | ⟨-, e⟩
    · exact k.axes v u p hv hge
    · cases e
      exact ht
  · refine (k.nodes q n hq).imp_right ?_
    rintro ⟨hnew, hop, hins, v, hv, hva, hp⟩
    exact ⟨hnew, hop, fun u hu => (hins u hu).extends hext, v, hv, hva,
      by rwa [producer_of_extends hext (hins v hv).stands]⟩
  · rw [producer_of_extends hext (k.available hq hnew v hv).stands]
    exact k.later q n hq hnew v hv

/-- Arithmetic may be added on what is available. -/
theorem Prepared.placeOp {g₁ : Graph α} (k : Prepared g g₁ o a) (ho : o.index < g.nodes.size)
    {op : Operator α} (hop : op.Arithmetic) {ins : List VarId} {t : Tensor α}
    (ht : ∀ x ∈ t.type.order.axes, g.HasAxis x) (hdata : t.data = none)
    (hins : ∀ v ∈ ins, Available g g₁ o v) (hproduced : ∃ v ∈ ins, v ≠ a ∧ (g₁.producer v).isSome) :
    Prepared g (g₁.placeOp op ins t) o a := by
  have hext := extends_placeOp g₁ op ins t
  have keeps : ∀ ws : List VarId, (∀ v ∈ ws, Available g g₁ o v) →
      (∃ v ∈ ws, v ≠ a ∧ (g₁.producer v).isSome) →
      (∀ v ∈ ws, Available g (g₁.placeOp op ins t) o v) ∧
        ∃ v ∈ ws, v ≠ a ∧ ((g₁.placeOp op ins t).producer v).isSome := by
    rintro ws hws ⟨v, hv, hva, hp⟩
    exact ⟨fun u hu => (hws u hu).extends hext, v, hv, hva,
      by rwa [producer_of_extends hext (hws v hv).stands]⟩
  refine ⟨k.extension.trans hext, ?_, ?_, ?_, fun v u p hv hge => ?_, fun q n hq => ?_,
    fun q n hq hnew v hv c hc => ?_⟩
  · exact wellformed_placeOp k.wellformed op (fun v hv => lt_of_resolve (hins v hv).stands) hdata
  · rw [node?_placeOp, if_neg (Nat.ne_of_lt (ho.trans_le k.grows))]
    exact k.gone
  · exact k.grows.trans ((Nat.le_succ _).trans (Nat.le_of_eq (Array.size_push _).symm))
  · rcases slot?_of_push rfl hv with hv | ⟨-, e⟩
    · exact k.axes v u p hv hge
    · cases e
      exact ht
  · rcases node?_of_placeOp hq with hq | ⟨rfl, rfl⟩
    · exact (k.nodes q n hq).imp_right fun ⟨hnew, hop, hns, hp⟩ => ⟨hnew, hop, keeps _ hns hp⟩
    · exact .inr ⟨k.grows, hop, keeps ins hins hproduced⟩
  · rcases node?_of_placeOp hq with hq | ⟨rfl, rfl⟩
    · rw [producer_of_extends hext (k.available hq hnew v hv).stands] at hc
      exact k.later q n hq hnew v hv c hc
    · rw [producer_of_extends hext (hins v hv).stands] at hc
      obtain ⟨m, hm⟩ := live_of_producer k.wellformed hc
      exact node?_lt hm

omit [Scalar α] in
/-- Whatever is produced after a replacement was produced before it. -/
theorem produced_of_replaceVariable {g₁ : Graph α} {old new v : VarId} {c : OpId}
    (hreplace : g₁.replaceVariable old new = .ok h) (hv : h.resolve v = .ok v)
    (hc : h.producer v = some c) : ∃ t, g₁.slot? v = some (.live t (some c)) := by
  obtain ⟨t, p, hlive⟩ := live_of_resolve hv
  obtain rfl := (producer_of_live hlive).symm.trans hc
  obtain ⟨t', ht', -⟩ := slot?_of_replaceVariable hreplace hlive
  exact ⟨t', ht'⟩

omit [Scalar α] in
theorem Diverts.stands {v : VarId} (r : Diverts g h a b) (hva : v ≠ a)
    (hv : g.resolve v = .ok v) : h.resolve v = .ok v := by
  have := r.links.resolve _ _ hv
  rwa [if_neg hva] at this

/-- Added operators read what they were added with, redirected. -/
theorem Prepared.redirected {g₁ : Graph α} {q : OpId} {ins : List VarId} (k : Prepared g g₁ o a)
    (r : Diverts g₁ h a b) (hq : g.nodes.size ≤ q.index) (hins : h.inputsOf q = .ok ins) :
    ∃ n, g₁.node? q = some n ∧ ins = n.inputs.map fun v => if v = a then b else v := by
  obtain ⟨n, hn, -⟩ := inputsOf_ok_iff.1 hins
  have hn₁ : g₁.node? q = some n := by rwa [node?, r.nodes] at hn
  have hself : g₁.inputsOf q = .ok n.inputs := inputsOf_ok_iff.2
    ⟨n, hn₁, List.forall₂_same.2 fun v hv => (k.available hn₁ hq v hv).stands⟩
  exact ⟨n, hn₁, Except.ok.inj (hins.symm.trans (r.links.inputsOf hn₁ hn rfl hself))⟩

/-- What was available, other than the output, was taken by the operator or has an added
producer. -/
theorem Prepared.source {g₁ : Graph α} {new v : VarId} (hg : g.Wellformed) (k : Prepared g g₁ o a)
    (r : Diverts g₁ h a b) (hreplace : g₁.replaceVariable a new = .ok h)
    (hv : Available g g₁ o v) (hva : v ≠ a) :
    g.Takes o v ∧ v ≠ a ∨ ∀ c, h.producer v = some c → g.nodes.size ≤ c.index := by
  refine hv.source.imp (⟨·, hva⟩) fun hnew c hc => ?_
  obtain ⟨t, ht⟩ := produced_of_replaceVariable hreplace (r.stands hva hv.stands) hc
  exact k.producer_new hg ht hnew

/-- In a prepared graph, another variable takes the place of the output. -/
theorem Prepared.replaced {g₁ : Graph α} {node : Node α} {x : Tensor α} {new : VarId}
    (hg : g.Wellformed) (hn : g.node? o = some node)
    (hs : g.slot? node.output = some (.live x (some o))) (hi : node.output ∉ g.inputs)
    (k : Prepared g g₁ o node.output) (hnew : g₁.resolve new = .ok b)
    (hb : g.Takes o b ∨ g.slots.size ≤ b.index)
    (hreplace : g₁.replaceVariable node.output new = .ok h) : Replaced g h o node.output b := by
  have hout : g₁.slot? node.output = some (.live x none) :=
    k.extension.slot _ _ (by rw [slot?_detach, if_pos rfl, hs]; rfl)
  obtain ⟨b', hb', r⟩ := diverts_replaceVariable k.wellformed (resolve_of_live hout) hreplace
  obtain rfl := Except.ok.inj (hnew.symm.trans hb')
  have nodes : ∀ q, h.node? q = g₁.node? q := fun q => by rw [node?, node?, r.nodes]
  have standIn : g.Takes o b ∧ b ≠ node.output ∨
      ∀ c, h.producer b = some c → g.nodes.size ≤ c.index := by
    by_cases hba : b = node.output
    · -- Nothing produces the output any more.
      right
      intro c hc
      have hstands : h.resolve b = .ok b := by
        have := r.links.resolve _ _ (resolve_resolve hnew)
        rwa [if_pos hba] at this
      obtain ⟨t, ht⟩ := produced_of_replaceVariable hreplace hstands hc
      rw [hba, hout] at ht
      cases ht
    · exact k.source hg r hreplace ⟨resolve_resolve hnew, hb⟩ hba
  refine ⟨rewired_replaceVariable hg hn hs hi k.wellformed k.extension r, (nodes o).trans k.gone,
    by rw [r.nodes]; exact k.grows, ?_, ?_, ?_, standIn, ?_, ?_⟩
  · intro v t p hv hlt
    obtain ⟨t', ht', htype, hdata⟩ := slot?_of_replaceVariable hreplace hv
    obtain ⟨q, hq⟩ := k.live ht' hlt
    exact ⟨t', q, hq, htype, hdata⟩
  · rintro y ⟨v, t, p, hv, hy⟩
    obtain ⟨t', ht', htype, -⟩ := slot?_of_replaceVariable hreplace hv
    rw [htype] at hy
    rcases Nat.lt_or_ge v.index g.slots.size with hlt | hge
    · obtain ⟨q, hq⟩ := k.live ht' hlt
      exact ⟨v, t', q, hq, hy⟩
    · exact k.axes v t' p ht' hge y hy
  · intro q n hq
    exact (k.nodes q n (nodes q ▸ hq)).imp_right fun k => ⟨k.1, k.2.1⟩
  · intro q ins hq hins
    obtain ⟨n, hnq, rfl⟩ := k.redirected r hq hins
    rcases k.nodes q n hnq with hold | ⟨-, -, hinputs, u, hu, hua, hup⟩
    · exact absurd (node?_lt hold) (Nat.not_lt.2 hq)
    refine ⟨fun v hv => ?_, u, List.mem_map.2 ⟨u, hu, if_neg hua⟩, ?_⟩
    · obtain ⟨w, hw, rfl⟩ := List.mem_map.1 hv
      split
      · exact standIn
      · next hwa => exact k.source hg r hreplace (hinputs w hw) hwa
    · obtain ⟨t, p, hlive⟩ := live_of_resolve (hinputs u hu).stands
      obtain ⟨t', ht', -⟩ := r.live u t p hua hlive
      rwa [producer_of_live ht', ← producer_of_live hlive]
  · intro hself q ins hq hins v hv c hc
    obtain ⟨n, hnq, rfl⟩ := k.redirected r hq hins
    obtain ⟨w, hw, rfl⟩ := List.mem_map.1 hv
    have havailable := k.available hnq hq w hw
    have hwa : w ≠ node.output := by
      rintro rfl
      rcases havailable.source with htakes | hnew
      · exact hself htakes
      · exact absurd (slot?_lt hs) (Nat.not_lt.2 hnew)
    rw [if_neg hwa] at hc
    obtain ⟨t, ht⟩ :=
      produced_of_replaceVariable hreplace (r.stands hwa havailable.stands) hc
    exact k.later q n hnq hq w hw c (producer_of_live ht)

/-! ## Operators that the outputs depend on -/

/-- The operators that compute the outputs are among these, and so is what these depend on. -/
structure Closed (g : Graph α) (N : OpId → Prop) : Prop where
  outputs : ∀ v ∈ g.outputs, v ∉ g.inputs → ∀ c, g.producer v = some c → N c
  reads : ∀ x c, N x → g.DependsOn g.inputs x c → N c

omit [Scalar α] in
theorem Closed.of_needed {N : OpId → Prop} (hN : g.Closed N) (ho : g.Needed o) : N o := by
  induction ho with
  | output hv hvi hp => exact hN.outputs _ hv hvi _ hp
  | read _ hread ih => exact hN.reads _ _ ih hread

omit [Scalar α] in
theorem node_of_needed (hg : g.Wellformed) (ho : g.Needed o) : ∃ n, g.node? o = some n := by
  cases ho with
  | output _ _ hp => exact live_of_producer hg hp
  | read _ hread =>
    obtain ⟨_, _, _, _, _, hp⟩ := hread
    exact live_of_producer hg hp

/-- A replacement adds to what the outputs depend on only what it adds to the graph. -/
theorem Replaced.closed (hg : g.Wellformed) (r : Replaced g h o a b) {N : OpId → Prop}
    (hN : g.Closed N) (ho : N o) (hnew : ∀ c : OpId, g.nodes.size ≤ c.index → N c) :
    h.Closed N where
  outputs v hv hvi c hc := by
    rw [r.rewired.inputs hg] at hvi
    unfold Graph.outputs at hv
    rw [r.rewired.declaredOutputs, r.rewired.links.resolveAll hg hg.declaredOutputs] at hv
    obtain ⟨u, hu, rfl⟩ := List.mem_map.1 hv
    have hu : u ∈ g.outputs := hu
    split at hc
    · next hua =>
      rw [if_pos hua] at hvi
      rcases r.standIn with ⟨⟨reads, hreads, hb⟩, hba⟩ | hadded
      · rw [r.producer_eq (resolve_of_mem_inputsOf hreads hb) hba] at hc
        exact hN.reads o c ho ⟨reads, hreads, b, hb, hvi, hc⟩
      · exact hnew c (hadded c hc)
    · next hua =>
      rw [if_neg hua] at hvi
      rw [r.producer_eq (resolve_of_mem_outputs hu) hua] at hc
      exact hN.outputs u hu hvi c hc
  reads x c hx hread := by
    rw [r.rewired.inputs hg] at hread
    rcases r.dependsOn hg hread with hc | hread | hread
    · exact hnew c hc
    · exact hN.reads x c hx hread
    · exact hN.reads o c ho hread

/-! ## Sweeps -/

/-- What a visit comes to: nothing, or else an operator that `R` is about is replaced. -/
inductive Visit (R : Graph α → OpId → Prop) (S : Graph α → VarId → Prop) (g : Graph α) (o : OpId) :
    Bool → Graph α → Prop
  | idle : ¬R g o → Visit R S g o false g
  | replaced {h : Graph α} {a b : VarId} : R g o → Replaced g h o a b → h.Wellformed → S h b →
      Visit R S g o true h

omit [Scalar α] in
/-- An operator of a traversal does not read the output of a later one. -/
theorem not_reads_later (hg : g.Wellformed) {ops : List OpId} (hops : g.topologicalOrder = .ok ops) :
    ops.Pairwise fun o p => ¬g.Reads o p := by
  have hord := ordered_topologicalOrder hops
  -- What computes no input is read as what the operator depends on, and that stands before it.
  have before : ∀ pre o post, ops = pre ++ o :: post → ∀ p ∈ post, ¬g.Reads o p := by
    rintro pre o post rfl p hp ⟨ins, hins, v, hv, -, hpv⟩
    obtain ⟨n, t, hn, hs, hi⟩ := output_of_mem_topologicalOrder hg hops
      (List.mem_append_right pre (List.mem_cons_of_mem o hp))
    obtain ⟨m, hm, hout⟩ := output_of_producer hg hpv
    obtain rfl := Option.some.inj (hn.symm.trans hm)
    obtain rfl := Except.ok.inj ((resolve_of_mem_inputsOf hins hv).symm.trans hout)
    have hpre := hord.behind pre o post rfl p ⟨ins, hins, _, hv, hi, hpv⟩
    have hnodup := hord.nodup
    rw [List.nodup_append] at hnodup
    exact hnodup.2.2 p hpre p (List.mem_cons_of_mem o hp) rfl
  have suffix : ∀ post pre, ops = pre ++ post → post.Pairwise fun o p => ¬g.Reads o p := by
    intro post
    induction post with
    | nil => exact fun _ _ => .nil
    | cons o post ih =>
      intro pre e
      exact .cons (before pre o post e) (ih (pre ++ [o]) (by rw [e, List.append_assoc]; rfl))
  exact suffix ops [] rfl

/-- A sweep in progress: `rest` is still to be visited, and the operators behind it are done. -/
structure Sweeping (R : Graph α → OpId → Prop) (Q : Graph α → Prop) (g : Graph α)
    (rest : List OpId) (i : Graph α) : Prop where
  wellformed : i.Wellformed
  kept : Q i
  grows : g.nodes.size ≤ i.nodes.size
  closed : i.Closed fun q => g.Needed q ∨ g.nodes.size ≤ q.index
  nodup : rest.Nodup
  ahead : ∀ o ∈ rest, i.Computes o ∧ g.Needed o
  apart : rest.Pairwise fun o p => ¬i.Reads o p
  settled : ∀ q n, i.node? q = some n → (g.Needed q ∨ g.nodes.size ≤ q.index) → q ∉ rest →
    (∀ p ∈ rest, ¬i.Reads q p) ∧ ¬R i q

section

variable {R : Graph α → OpId → Prop} {Q : Graph α → Prop} {S : Graph α → VarId → Prop}
  {i j : Graph α} {rest : List OpId}

omit [Scalar α] in
theorem sweeping_start (hg : g.Wellformed) (hQ : Q g) {ops : List OpId}
    (hops : g.topologicalOrder = .ok ops) : Sweeping R Q g ops g where
  wellformed := hg
  kept := hQ
  grows := Nat.le_refl _
  closed := by
    refine ⟨fun v hv hvi c hc => .inl (.output hv hvi hc), fun x c hx hread => .inl ?_⟩
    rcases hx with hx | hx
    · exact .read hx hread
    · exact absurd (node?_of_dependsOn hread) (Nat.not_lt.2 hx)
  nodup := (ordered_topologicalOrder hops).nodup
  ahead o ho := ⟨output_of_mem_topologicalOrder hg hops ho, (mem_topologicalOrder_iff hops).1 ho⟩
  apart := not_reads_later hg hops
  settled q n hn hq hrest := by
    rcases hq with hq | hq
    · exact absurd ((mem_topologicalOrder_iff hops).2 hq) hrest
    · exact absurd (node?_lt hn) (Nat.not_lt.2 hq)

omit [Scalar α] in
/-- A visit that changes nothing settles the operator. -/
theorem Sweeping.idle (k : Sweeping R Q g (o :: rest) i) (hR : ¬R i o) :
    Sweeping R Q g rest i where
  wellformed := k.wellformed
  kept := k.kept
  grows := k.grows
  closed := k.closed
  nodup := (List.nodup_cons.1 k.nodup).2
  ahead p hp := k.ahead p (List.mem_cons_of_mem o hp)
  apart := (List.pairwise_cons.1 k.apart).2
  settled q n hn hq hrest := by
    by_cases hqo : q = o
    · subst hqo
      exact ⟨(List.pairwise_cons.1 k.apart).1, hR⟩
    · obtain ⟨hreads, hR⟩ := k.settled q n hn hq (by simp [hqo, hrest])
      exact ⟨fun p hp => hreads p (List.mem_cons_of_mem o hp), hR⟩

/-- A visit that replaces the operator settles what it adds. -/
theorem Sweeping.replaced (k : Sweeping R Q g (o :: rest) i) (r : Replaced i j o a b)
    (hj : j.Wellformed) (hQ : Q j)
    (hadded : ∀ q n, j.node? q = some n → n.op.Arithmetic →
      (∀ ins, j.inputsOf q = .ok ins → ∃ v ∈ ins, (j.producer v).isSome) → ¬R j q)
    (hold : ∀ q n, i.node? q = some n → ¬i.Reads q o → R j q → R i q) :
    Sweeping R Q g rest j := by
  obtain ⟨hfresh, hnodup⟩ := List.nodup_cons.1 k.nodup
  obtain ⟨⟨-, ho⟩, hahead⟩ := List.forall_mem_cons.1 k.ahead
  obtain ⟨hfirst, hapart⟩ := List.pairwise_cons.1 k.apart
  have hi := k.wellformed
  -- Nobody comes to read what is still to be visited.
  have reads : ∀ q, ∀ p ∈ rest, (∀ n, i.node? q = some n → ¬i.Reads q p) → ¬j.Reads q p := by
    intro q p hp hqp hread
    obtain ⟨n, -, hn, -⟩ := (hahead p hp).1
    rcases r.dependsOn hi hread with hnew | hsame | hgone
    · exact absurd (node?_lt hn) (Nat.not_lt.2 hnew)
    · obtain ⟨ins, hins, -⟩ := id hsame
      obtain ⟨m, hm, -⟩ := inputsOf_ok_iff.1 hins
      exact hqp m hm hsame
    · exact hfirst p hp hgone
  refine ⟨hj, hQ, k.grows.trans r.grows, r.closed hi k.closed (.inl ho) fun c hc =>
    .inr (k.grows.trans hc), hnodup, fun p hp => ⟨?_, (hahead p hp).2⟩, ?_, ?_⟩
  · exact r.rewired.computes hi (ne_of_mem_of_not_mem hp hfresh) (hahead p hp).1
  · exact hapart.imp_of_mem fun _ hp hqp => reads _ _ hp fun _ _ => hqp
  · intro q n hn hq hrest
    rcases r.nodes q n hn with hn' | ⟨hnew, hop⟩
    · have hqo : q ≠ o := by
        rintro rfl
        rw [r.gone] at hn
        cases hn
      obtain ⟨hreads, hR⟩ := k.settled q n hn' hq (by simp [hqo, hrest])
      obtain ⟨hreads₀, hreads⟩ := List.forall_mem_cons.1 hreads
      exact ⟨fun p hp => reads q p hp fun _ _ => hreads p hp,
        fun hj => hR (hold q n hn' hreads₀ hj)⟩
    · refine ⟨fun p hp => reads q p hp fun m hm => absurd (node?_lt hm) (Nat.not_lt.2 hnew),
        hadded q n hn hop fun ins hins => (r.added q ins hnew hins).2⟩

/-- In a later graph, `R` is about none of the operators that the outputs may depend on. -/
def Spared (R : Graph α → OpId → Prop) (g i : Graph α) : Prop :=
  ∀ q, (g.Needed q ∨ g.nodes.size ≤ q.index) → ¬R i q

omit [Scalar α] in
theorem spared_start (hnode : ∀ q, R g q → ∃ n, g.node? q = some n)
    (hR : ∀ q, g.Needed q → ¬R g q) : Spared R g g := by
  intro q hq hRq
  rcases hq with hq | hq
  · exact hR q hq hRq
  · obtain ⟨n, hn⟩ := hnode q hRq
    exact absurd (node?_lt hn) (Nat.not_lt.2 hq)

/-- This stays so if a replacement does not make `R` true of anything. -/
theorem Spared.replaced (k : Spared R g i) (r : Replaced i j o a b)
    (hnode : ∀ q, R j q → ∃ n, j.node? q = some n)
    (hadded : ∀ q n, j.node? q = some n → n.op.Arithmetic →
      (∀ ins, j.inputsOf q = .ok ins → ∃ v ∈ ins, (j.producer v).isSome) → ¬R j q)
    (hold : ∀ q n, i.node? q = some n → R j q → R i q) : Spared R g j := by
  intro q hq hRq
  obtain ⟨n, hn⟩ := hnode q hRq
  rcases r.nodes q n hn with hn' | ⟨hnew, hop⟩
  · exact k q hq (hold q n hn' hRq)
  · exact hadded q n hn hop (fun ins hins => (r.added q ins hnew hins).2) hRq

/-- After a sweep, the outputs depend on no operator that the pass takes out. -/
theorem sweep_settles {step : OpId → PassM α Bool} {s s' : Supply} {c : Bool} (hg : g.Wellformed)
    (hQ : Q g) (hsweep : (PassM.sweep step).Edits g s c h s')
    (hvisit : ∀ o i s c j s', i.Wellformed → i.Computes o → (step o).Edits i s c j s' →
      Visit R S i o c j)
    (hkeeps : ∀ i j o a b, i.Wellformed → j.Wellformed → Replaced i j o a b → S j b → Q i → Q j)
    (hadded : ∀ i q n, i.Wellformed → i.node? q = some n → n.op.Arithmetic →
      (∀ ins, i.inputsOf q = .ok ins → ∃ v ∈ ins, (i.producer v).isSome) → ¬R i q)
    (hold : ∀ i j o a b q n, i.Wellformed → Replaced i j o a b → i.node? q = some n →
      ¬i.Reads q o → R j q → R i q) :
    h.Wellformed ∧ Q h ∧ ∀ q, h.Needed q → (g.Needed q ∨ g.nodes.size ≤ q.index) ∧ ¬R h q := by
  have key : Sweeping R Q g [] h := by
    refine PassM.sweep_induction (P := fun rest i _ => Sweeping R Q g rest i) hsweep ?_ ?_
    · exact fun ops hops => sweeping_start hg hQ hops
    · intro o rest i s c j s' k hedit
      have hi := k.wellformed
      cases hvisit o i s c j s' hi (k.ahead o (List.mem_cons_self ..)).1 hedit with
      | idle hR => exact k.idle hR
      | replaced hR r hj hS =>
        exact k.replaced r hj (hkeeps i j o _ _ hi hj r hS k.kept)
          (fun q n => hadded j q n hj) fun q n => hold i j o _ _ q n hi r
  refine ⟨key.wellformed, key.kept, fun q hq => ?_⟩
  have hN := key.closed.of_needed hq
  obtain ⟨n, hn⟩ := node_of_needed key.wellformed hq
  exact ⟨hN, (key.settled q n hn hN (List.not_mem_nil)).2⟩

/-- Where the outputs depend on no operator that the pass takes out, a sweep reports no change. -/
theorem sweep_idle {step : OpId → PassM α Bool} {s s' : Supply} {c : Bool} (hg : g.Wellformed)
    (hR : ∀ q, g.Needed q → ¬R g q) (hsweep : (PassM.sweep step).Edits g s c h s')
    (hvisit : ∀ o s c j s', g.Computes o → (step o).Edits g s c j s' → Visit R S g o c j) :
    c = false ∧ h = g := by
  refine PassM.sweep_of_idle (fun ops hops o ho s c j s' hedit => ?_) hsweep
  cases hvisit o s c j s' (output_of_mem_topologicalOrder hg hops ho) hedit with
  | idle => exact ⟨rfl, rfl⟩
  | replaced ho' => exact absurd ho' (hR o ((mem_topologicalOrder_iff hops).1 ho))

end

end Graph

end TensorCompiler
