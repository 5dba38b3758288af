import Mathlib.Data.List.Nodup
import Mathlib.Data.List.Perm.Subperm
import Mathlib.Logic.Relation
import TensorCompiler.Proofs.ExactScalars
import TensorCompiler.Proofs.Session
/-!
# The traversal of a graph

`Graph.topologicalOrder` is a depth-first search from the outputs that stops at declared inputs.
This module shows that the search lists every operator it meets once and behind those it depends
on, that it lists only what the outputs depend on, and that it succeeds unless it meets a circle.

* `Ordered`: no operator occurs twice, and whatever an operator depends on stands before it.
* `ordered_topologicalOrder`: the traversal is such a list.
* `topologicalOrder_induction`: a property of the roots that dependencies inherit holds of every
  listed operator.
* `topologicalOrder_ok`: the traversal succeeds if no root depends on itself through others.
* `topologicalOrder_exact`: it fails exactly if there is a circle among the operators that the
  outputs depend on, and otherwise lists these operators.
-/

namespace TensorCompiler.Graph

variable {α : Type}

/-- One operator reads what another one computes, not through an input. -/
def DependsOn (g : Graph α) (inputs : List VarId) (o child : OpId) : Prop :=
  ∃ ins, g.inputsOf o = .ok ins ∧ ∃ v ∈ ins, v ∉ inputs ∧ g.producer v = some child

/-- A list of operators, each of them once and behind its dependencies. -/
structure Ordered (g : Graph α) (inputs : List VarId) (ops : List OpId) : Prop where
  nodup : ops.Nodup
  readable : ∀ o ∈ ops, ∃ ins, g.inputsOf o = .ok ins
  behind : ∀ pre o post, ops = pre ++ o :: post → ∀ c, g.DependsOn inputs o c → c ∈ pre

variable {g : Graph α} {inputs : List VarId}

theorem ordered_nil : g.Ordered inputs [] where
  nodup := List.nodup_nil
  readable o ho := by cases ho
  behind pre o post h := by
    have := congrArg List.length h
    simp at this

theorem Ordered.snoc {ops : List OpId} {o : OpId} {ins : List VarId} (h : g.Ordered inputs ops)
    (ho : o ∉ ops) (hins : g.inputsOf o = .ok ins) (hc : ∀ c, g.DependsOn inputs o c → c ∈ ops) :
    g.Ordered inputs (ops ++ [o]) where
  nodup := by
    rw [List.nodup_append]
    refine ⟨h.nodup, List.nodup_singleton o, fun x hx y hy => ?_⟩
    rw [List.mem_singleton.1 hy]
    rintro rfl
    exact ho hx
  readable p hp := by
    rcases List.mem_append.1 hp with hp | hp
    · exact h.readable p hp
    · rw [List.mem_singleton.1 hp]
      exact ⟨ins, hins⟩
  behind pre p post e c hp := by
    rcases List.eq_nil_or_concat post with rfl | ⟨post, q, rfl⟩
    · obtain ⟨rfl, e'⟩ := List.append_inj' e rfl
      obtain rfl := List.singleton_injective e'
      exact hc c hp
    · have e : ops ++ [o] = (pre ++ p :: post) ++ [q] := by simpa using e
      obtain ⟨e, -⟩ := List.append_inj' e rfl
      exact h.behind pre p post e c hp

/-- The dependencies of a listed operator are listed. -/
theorem Ordered.closed {ops : List OpId} (h : g.Ordered inputs ops) {o c : OpId} (ho : o ∈ ops)
    (hc : g.DependsOn inputs o c) : c ∈ ops := by
  obtain ⟨pre, post, rfl⟩ := List.append_of_mem ho
  exact List.mem_append_left _ (h.behind pre o post rfl c hc)

/-- What holds of an operator if it holds of its dependencies, holds of all listed ones. -/
theorem Ordered.induction {P : OpId → Prop} {ops : List OpId} (h : g.Ordered inputs ops)
    (hstep : ∀ o ∈ ops, (∀ c, g.DependsOn inputs o c → P c) → P o) : ∀ o ∈ ops, P o := by
  have prefixes : ∀ post pre, ops = pre ++ post → (∀ o ∈ pre, P o) → ∀ o ∈ ops, P o := by
    intro post
    induction post with
    | nil =>
      rintro pre rfl hpre o ho
      exact hpre o (by simpa using ho)
    | cons o post ih =>
      intro pre e hpre
      refine ih (pre ++ [o]) (by rw [e, List.append_assoc]; rfl) fun p hp => ?_
      rcases List.mem_append.1 hp with hp | hp
      · exact hpre p hp
      · obtain rfl := List.mem_singleton.1 hp
        exact hstep p (by simp [e]) fun c hc => hpre c (h.behind pre p post e c hc)
  exact prefixes ops [] rfl (by simp)

/-! ## What a visit lists -/

/-- The list after a visit of `o`: it extends the list before, by operators of which `P` holds and
that are not on the path. -/
structure Visited (g : Graph α) (inputs : List VarId) (P : OpId → Prop) (path done : List OpId)
    (done' : List OpId) : Prop where
  ordered : g.Ordered inputs done'
  keeps : ∀ x ∈ done, x ∈ done'
  added : ∀ x ∈ done', x ∈ done ∨ x ∉ path ∧ P x

theorem Visited.trans {P : OpId → Prop} {path done done' done'' : List OpId}
    (h : g.Visited inputs P path done done') (h' : g.Visited inputs P path done' done'') :
    g.Visited inputs P path done done'' where
  ordered := h'.ordered
  keeps x hx := h'.keeps x (h.keeps x hx)
  added x hx := by
    rcases h'.added x hx with hx | hx
    · exact h.added x hx
    · exact .inr hx

/-- An operator is listed behind all that it reads. -/
theorem Visited.close {P : OpId → Prop} {path done mid : List OpId} {op : OpId}
    {reads : List VarId} (h : g.Visited inputs P (op :: path) done mid) (hdone : op ∉ done)
    (hpath : op ∉ path) (hop : P op) (hreads : g.inputsOf op = .ok reads)
    (hlisted : ∀ v ∈ reads, v ∉ inputs → ∀ c, g.producer v = some c → c ∈ mid) :
    g.Visited inputs P path done (mid ++ [op]) where
  ordered := by
    refine h.ordered.snoc (fun hmem => ?_) hreads ?_
    · rcases h.added op hmem with hmem | ⟨hfresh, -⟩
      · exact hdone hmem
      · exact hfresh (List.mem_cons_self ..)
    · rintro c ⟨ins, hins, v, hv, hvi, hc⟩
      obtain rfl : reads = ins := Except.ok.inj (hreads.symm.trans hins)
      exact hlisted v hv hvi c hc
  keeps x hx := List.mem_append_left _ (h.keeps x hx)
  added x hx := by
    rcases List.mem_append.1 hx with hx | hx
    · exact (h.added x hx).imp_right fun ⟨hfresh, hx⟩ =>
        ⟨fun hx => hfresh (List.mem_cons_of_mem _ hx), hx⟩
    · rw [List.mem_singleton.1 hx]
      exact .inr ⟨hpath, hop⟩

/-- What the visit of an operator does about a variable that it reads, where the path starts with
that operator. -/
def visitRead (g : Graph α) (inputs : List VarId) (fuel : Nat) (path done : List OpId)
    (v : VarId) : Except GraphError (List OpId) :=
  if v ∈ inputs then .ok done
  else match g.producer v with
    | none => .ok done
    | some child =>
      if child ∈ path then .error (.cyclicGraph v)
      else if child ∈ done then .ok done
      else g.visit inputs fuel path done child

theorem visit_succ (g : Graph α) (inputs : List VarId) (fuel : Nat) (path done : List OpId)
    (op : OpId) : g.visit inputs (fuel + 1) path done op = (do
      let reads ← g.inputsOf op
      let done ← reads.foldlM (g.visitRead inputs fuel (op :: path)) done
      return done ++ [op]) := rfl

/-- A variable whose producer is listed, or that has none to list, is passed over. Otherwise its
producer is visited. -/
theorem visitRead_ok {fuel : Nat} {path done next : List OpId} {v : VarId}
    (h : g.visitRead inputs fuel path done v = .ok next) :
    (next = done ∧ (v ∉ inputs → ∀ c, g.producer v = some c → c ∈ done)) ∨
    ∃ child, v ∉ inputs ∧ g.producer v = some child ∧ child ∉ path ∧ child ∉ done ∧
      g.visit inputs fuel path done child = .ok next := by
  unfold visitRead at h
  split at h
  · next hv =>
    cases h
    exact .inl ⟨rfl, absurd hv⟩
  · next hv =>
    split at h
    · next hp =>
      cases h
      exact .inl ⟨rfl, fun _ c hc => by cases hp.symm.trans hc⟩
    · next child hp =>
      split at h
      · cases h
      · next hpath =>
        split at h
        · next hdone =>
          cases h
          exact .inl ⟨rfl, fun _ c hc => Option.some.inj (hp.symm.trans hc) ▸ hdone⟩
        · next hdone => exact .inr ⟨child, hv, hp, hpath, hdone, h⟩

/-- It fails where its producer is on the path, or where the visit of its producer fails. -/
theorem visitRead_error {fuel : Nat} {path done : List OpId} {v : VarId} {e : GraphError}
    (h : g.visitRead inputs fuel path done v = .error e) : ∃ child, v ∉ inputs ∧
      g.producer v = some child ∧ (child ∈ path ∧ e = .cyclicGraph v ∨
        child ∉ path ∧ g.visit inputs fuel path done child = .error e) := by
  unfold visitRead at h
  split at h
  · cases h
  · next hv =>
    split at h
    · cases h
    · next child hp =>
      split at h
      · next hpath =>
        cases h
        exact ⟨child, hv, hp, .inl ⟨hpath, rfl⟩⟩
      · next hpath =>
        split at h
        · cases h
        · exact ⟨child, hv, hp, .inr ⟨hpath, h⟩⟩

theorem visited_visit {P : OpId → Prop} (hP : ∀ o c, P o → g.DependsOn inputs o c → P c)
    {fuel : Nat} {path done done' : List OpId} {op : OpId}
    (h : g.visit inputs fuel path done op = .ok done') (hd : g.Ordered inputs done)
    (hdone : op ∉ done) (hpath : op ∉ path) (hop : P op) :
    g.Visited inputs P path done done' ∧ op ∈ done' := by
  induction fuel generalizing path done done' op with
  | zero => cases h
  | succ fuel ih =>
    rw [visit_succ] at h
    simp only [bind_ok_iff, pure_ok_iff] at h
    obtain ⟨reads, hreads, mid, hmid, rfl⟩ := h
    -- The reads processed so far have listed their producers, and nothing from the path.
    obtain ⟨hvis, hlisted⟩ : g.Visited inputs P (op :: path) done mid ∧
        ∀ v ∈ reads, v ∉ inputs → ∀ c, g.producer v = some c → c ∈ mid := by
      refine foldlM_ok_processed
        (P := fun seen now => g.Visited inputs P (op :: path) done now ∧
          ∀ v ∈ seen, v ∉ inputs → ∀ c, g.producer v = some c → c ∈ now)
        hmid ⟨⟨hd, fun x hx => hx, fun x hx => .inl hx⟩, fun v hv => by cases hv⟩ ?_
      rintro seen v rest now next e ⟨hnow, hseen⟩ hv
      have hin : v ∈ reads := e ▸ List.mem_append_right seen (List.mem_cons_self ..)
      obtain ⟨hvis, hkeeps, hlists⟩ : g.Visited inputs P (op :: path) done next ∧
          (∀ x ∈ now, x ∈ next) ∧ (v ∉ inputs → ∀ c, g.producer v = some c → c ∈ next) := by
        rcases visitRead_ok hv with ⟨rfl, hlists⟩ | ⟨child, hvi, hp, hcp, hcd, hv⟩
        · exact ⟨hnow, fun x hx => hx, hlists⟩
        · obtain ⟨hvis, hmem⟩ := ih hv hnow.ordered hcd hcp
            (hP op child hop ⟨reads, hreads, v, hin, hvi, hp⟩)
          exact ⟨hnow.trans hvis, hvis.keeps,
            fun _ c hc => Option.some.inj (hp.symm.trans hc) ▸ hmem⟩
      refine ⟨hvis, fun u hu hui c hc => ?_⟩
      rcases List.mem_append.1 hu with hu | hu
      · exact hkeeps c (hseen u hu hui c hc)
      · rw [List.mem_singleton.1 hu] at hui hc
        exact hlists hui c hc
    exact ⟨hvis.close hdone hpath hop hreads hlisted, by simp⟩

theorem visited_topologicalOrder {P : OpId → Prop} {ops : List OpId}
    (hroots : ∀ o ∈ g.rootOps, P o) (hP : ∀ o c, P o → g.DependsOn g.inputs o c → P c)
    (h : g.topologicalOrder = .ok ops) :
    g.Visited g.inputs P [] [] ops ∧ ∀ o ∈ g.rootOps, o ∈ ops := by
  refine foldlM_ok_processed
    (P := fun seen now => g.Visited g.inputs P [] [] now ∧ ∀ o ∈ seen, o ∈ now) h
    ⟨⟨ordered_nil, fun x hx => hx, fun x hx => .inl hx⟩, fun o ho => by cases ho⟩ ?_
  rintro seen o rest now next e ⟨hnow, hseen⟩ ho
  have hroot : P o := hroots o (e ▸ List.mem_append_right seen (List.mem_cons_self ..))
  split at ho
  · next hmem =>
    cases ho
    refine ⟨hnow, fun x hx => ?_⟩
    rcases List.mem_append.1 hx with hx | hx
    · exact hseen x hx
    · rw [List.mem_singleton.1 hx]
      exact hmem
  · next hmem =>
    obtain ⟨hvis, hin⟩ := visited_visit hP ho hnow.ordered hmem (List.not_mem_nil) hroot
    refine ⟨hnow.trans hvis, fun x hx => ?_⟩
    rcases List.mem_append.1 hx with hx | hx
    · exact hvis.keeps x (hseen x hx)
    · rw [List.mem_singleton.1 hx]
      exact hin

/-- The traversal lists every operator once and behind its dependencies. -/
theorem ordered_topologicalOrder {ops : List OpId} (h : g.topologicalOrder = .ok ops) :
    g.Ordered g.inputs ops :=
  (visited_topologicalOrder (P := fun _ => True) (fun _ _ => trivial) (fun _ _ _ _ => trivial)
    h).1.ordered

/-- A property of the roots that dependencies inherit holds of every listed operator. -/
theorem topologicalOrder_induction {P : OpId → Prop} {ops : List OpId}
    (h : g.topologicalOrder = .ok ops) (hroots : ∀ o ∈ g.rootOps, P o)
    (hP : ∀ o c, P o → g.DependsOn g.inputs o c → P c) : ∀ o ∈ ops, P o := by
  intro o ho
  rcases (visited_topologicalOrder hroots hP h).1.added o ho with h | h
  · cases h
  · exact h.2

theorem mem_topologicalOrder_of_root {ops : List OpId} (h : g.topologicalOrder = .ok ops) {o : OpId}
    (ho : o ∈ g.rootOps) : o ∈ ops :=
  (visited_topologicalOrder (P := fun _ => True) (fun _ _ => trivial) (fun _ _ _ _ => trivial)
    h).2 o ho

theorem mem_rootOps {o : OpId} :
    o ∈ g.rootOps ↔ ∃ v ∈ g.outputs, v ∉ g.inputs ∧ g.producer v = some o := by
  simp [rootOps, and_assoc]

/-- Every listed operator computes a variable that is no input. -/
theorem produces_of_mem_topologicalOrder {ops : List OpId} (h : g.topologicalOrder = .ok ops)
    {o : OpId} (ho : o ∈ ops) : ∃ v, g.resolve v = .ok v ∧ v ∉ g.inputs ∧ g.producer v = some o := by
  refine topologicalOrder_induction (P := fun o => ∃ v, g.resolve v = .ok v ∧ v ∉ g.inputs ∧
    g.producer v = some o) h ?_ ?_ o ho
  · intro o ho
    obtain ⟨v, hv, hvi, hp⟩ := mem_rootOps.1 ho
    exact ⟨v, resolve_of_mem_outputs hv, hvi, hp⟩
  · rintro o c - ⟨ins, hins, v, hv, hvi, hp⟩
    exact ⟨v, resolve_of_mem_inputsOf hins hv, hvi, hp⟩

/-- A listed operator is live, and so is its output, which is no input and knows it. -/
theorem output_of_mem_topologicalOrder (hg : g.Wellformed) {ops : List OpId}
    (h : g.topologicalOrder = .ok ops) {o : OpId} (ho : o ∈ ops) :
    ∃ node t, g.node? o = some node ∧ g.slot? node.output = some (.live t (some o)) ∧
      node.output ∉ g.inputs := by
  obtain ⟨v, hv, hvi, hp⟩ := produces_of_mem_topologicalOrder h ho
  obtain ⟨w, t, hw, hs⟩ := producer_some_iff.1 hp
  obtain rfl : v = w := Except.ok.inj (hv.symm.trans hw)
  obtain ⟨-, node, hn, rfl⟩ := hg.produced v t o hs
  exact ⟨node, t, hn, hs, hvi⟩

/-- The reachable variables are the inputs, the outputs, and what the listed operators touch. -/
theorem mem_reachable_iff {ops : List OpId} {vars : List VarId} (hops : g.topologicalOrder = .ok ops)
    (h : g.reachable = .ok vars) {v : VarId} : v ∈ vars ↔ v ∈ g.inputs ∨ v ∈ g.outputs ∨
      ∃ o ∈ ops, ∃ ins node, g.inputsOf o = .ok ins ∧ g.node? o = some node ∧
        (v ∈ ins ∨ v = node.output) := by
  simp only [reachable, hops, bind_ok_iff, Except.ok.injEq, exists_eq_left', pure_ok_iff,
    mapM_ok_iff, operator_ok_iff] at h
  obtain ⟨touched, htouched, rfl⟩ := h
  have touch : (∃ l ∈ touched, v ∈ l) ↔ ∃ o ∈ ops, ∃ ins node, g.inputsOf o = .ok ins ∧
      g.node? o = some node ∧ (v ∈ ins ∨ v = node.output) := by
    clear hops
    induction htouched with
    | nil => simp
    | cons ho _ ih =>
      obtain ⟨ins, hins, node, hnode, rfl⟩ := ho
      simp [ih, hins, hnode]
  rw [List.mem_eraseDups, List.mem_append, List.mem_append, List.mem_flatten, touch,
    or_assoc, or_comm (b := v ∈ g.outputs)]

theorem reachable_ok (hg : g.Wellformed) {ops : List OpId} (hops : g.topologicalOrder = .ok ops) :
    ∃ vars, g.reachable = .ok vars := by
  have htouch : ∀ o ∈ ops, ∃ touched, (do
      return (← g.inputsOf o) ++ [(← g.operator o).output]) = Except.ok (ε := GraphError) touched := by
    intro o ho
    obtain ⟨ins, hins⟩ := (ordered_topologicalOrder hops).readable o ho
    obtain ⟨node, -, hn, -⟩ := output_of_mem_topologicalOrder hg hops ho
    exact ⟨_, bind_ok_iff.2 ⟨ins, hins, bind_ok_iff.2 ⟨node, operator_ok_iff.2 hn, rfl⟩⟩⟩
  obtain ⟨touched, htouched⟩ := exists_forall₂ htouch
  simp only [reachable, hops, bind_ok_iff, Except.ok.injEq, exists_eq_left', pure_ok_iff]
  exact ⟨_, touched, mapM_ok_iff.2 htouched, rfl⟩

/-! ## When the traversal succeeds -/

/-- One operator computes what another one reads. -/
abbrev Below (g : Graph α) (inputs : List VarId) (child o : OpId) : Prop :=
  g.DependsOn inputs o child

theorem not_self_of_acc {β : Type} {r : β → β → Prop} {b : β} (h : Acc r b) : ¬r b b := by
  induction h with
  | intro b _ ih => exact fun hb => ih b hb hb

/-- A path of different live operators is no longer than the table of operators. -/
theorem length_le_of_live {path : List OpId} (hn : path.Nodup)
    (hlive : ∀ o ∈ path, ∃ node, g.node? o = some node) : path.length ≤ g.nodes.size := by
  have hsub : path.map OpId.index ⊆ List.range g.nodes.size := by
    intro i hi
    obtain ⟨o, ho, rfl⟩ := List.mem_map.1 hi
    obtain ⟨node, hnode⟩ := hlive o ho
    exact List.mem_range.2 (node?_lt hnode)
  have hinj : (path.map OpId.index).Nodup :=
    hn.map_on fun x _ y _ e => OpId.eq_of_index e
  have := (List.subperm_of_subset hinj hsub).length_le
  rwa [List.length_map, List.length_range] at this

theorem live_of_producer (hg : g.Wellformed) {v : VarId} {o : OpId} (h : g.producer v = some o) :
    ∃ node, g.node? o = some node := by
  obtain ⟨node, hnode, -⟩ := output_of_producer hg h
  exact ⟨node, hnode⟩

/-- A visit fails only where it meets a circle. The operators on the path lead to the one that is
visited, and there are too few operators for the fuel to run out. -/
theorem visit_error (hg : g.Wellformed) {fuel : Nat} {path done : List OpId} {op : OpId}
    {e : GraphError} (h : g.visit inputs fuel path done op = .error e) (hn : (op :: path).Nodup)
    (hlive : ∀ o ∈ op :: path, ∃ node, g.node? o = some node)
    (hpath : ∀ o ∈ path, Relation.TransGen (g.DependsOn inputs) o op)
    (hfuel : g.nodes.size + 1 ≤ fuel + path.length) :
    ∃ v c, e = .cyclicGraph v ∧ Relation.ReflTransGen (g.DependsOn inputs) op c ∧
      Relation.TransGen (g.DependsOn inputs) c c := by
  induction fuel generalizing path done op with
  | zero =>
    have hlen := length_le_of_live hn hlive
    rw [List.length_cons] at hlen
    omega
  | succ fuel ih =>
    obtain ⟨node, hnode⟩ := hlive op (List.mem_cons_self ..)
    obtain ⟨reads, hreads⟩ := inputsOf_ok hg hnode
    rw [visit_succ, bind_error_iff] at h
    rcases h with h | ⟨_, hr, h⟩
    · rw [hreads] at h
      cases h
    obtain rfl := Except.ok.inj (hreads.symm.trans hr)
    rw [bind_error_iff] at h
    rcases h with h | ⟨_, -, h⟩
    · obtain ⟨now, v, hv, h⟩ := foldlM_error h
      obtain ⟨child, hvi, hc, h⟩ := visitRead_error h
      have hread : g.DependsOn inputs op child := ⟨reads, hreads, v, hv, hvi, hc⟩
      have hchain : ∀ o ∈ op :: path, Relation.TransGen (g.DependsOn inputs) o child := by
        intro o ho
        rcases List.mem_cons.1 ho with rfl | ho
        · exact .single hread
        · exact .tail (hpath o ho) hread
      rcases h with ⟨hcircle, rfl⟩ | ⟨hfresh, h⟩
      · exact ⟨v, child, rfl, .single hread, hchain child hcircle⟩
      · obtain ⟨u, c, he, hreach, hcircle⟩ := ih h (List.nodup_cons.2 ⟨hfresh, hn⟩)
          (List.forall_mem_cons.2 ⟨live_of_producer hg hc, hlive⟩) hchain
          (by rw [List.length_cons]; omega)
        exact ⟨u, c, he, .head hread hreach, hcircle⟩
    · cases h

/-- The operators that the outputs depend on: those that compute an output, and with each operator
those that compute what it reads, up to the inputs. -/
inductive Needed (g : Graph α) : OpId → Prop
  | output {v o} : v ∈ g.outputs → v ∉ g.inputs → g.producer v = some o → Needed g o
  | read {o c} : Needed g o → g.DependsOn g.inputs o c → Needed g c

theorem needed_of_root {o : OpId} (h : o ∈ g.rootOps) : g.Needed o := by
  obtain ⟨v, hv, hvi, hp⟩ := mem_rootOps.1 h
  exact .output hv hvi hp

theorem Needed.reach {o c : OpId} (h : g.Needed o)
    (hr : Relation.ReflTransGen (g.DependsOn g.inputs) o c) : g.Needed c := by
  induction hr with
  | refl => exact h
  | tail _ hread ih => exact .read ih hread

/-- The traversal fails only where an operator that the outputs depend on depends on itself. -/
theorem topologicalOrder_error (hg : g.Wellformed) {e : GraphError}
    (h : g.topologicalOrder = .error e) : ∃ v o c, e = .cyclicGraph v ∧ o ∈ g.rootOps ∧
      Relation.ReflTransGen (g.DependsOn g.inputs) o c ∧
      Relation.TransGen (g.DependsOn g.inputs) c c := by
  obtain ⟨now, o, ho, h⟩ := foldlM_error h
  split at h
  · cases h
  · obtain ⟨w, -, -, hp⟩ := mem_rootOps.1 ho
    obtain ⟨v, c, he, hreach, hcircle⟩ := visit_error hg h (List.nodup_singleton o)
      (List.forall_mem_singleton.2 (live_of_producer hg hp)) (fun x hx => by cases hx)
      (Nat.le_refl _)
    exact ⟨v, o, c, he, ho, hreach, hcircle⟩

/-- The traversal succeeds if no root depends on itself through others. -/
theorem topologicalOrder_ok (hg : g.Wellformed)
    (hacc : ∀ o ∈ g.rootOps, Acc (g.Below g.inputs) o) : ∃ ops, g.topologicalOrder = .ok ops := by
  cases h : g.topologicalOrder with
  | ok ops => exact ⟨ops, rfl⟩
  | error e =>
    obtain ⟨v, o, c, -, ho, hreach, hcircle⟩ := topologicalOrder_error hg h
    have hc : Acc (g.Below g.inputs) c := by
      clear hcircle h
      induction hreach with
      | refl => exact hacc o ho
      | tail _ hread ih => exact ih.inv hread
    exact absurd (Relation.transGen_swap.2 hcircle) (not_self_of_acc hc.transGen)

/-! ## What the traversal lists -/

/-- What a listed operator depends on, through however many others, stands before it. -/
theorem Ordered.before {ops : List OpId} (h : g.Ordered inputs ops) {pre post : List OpId}
    {o c : OpId} (e : ops = pre ++ o :: post)
    (hc : Relation.TransGen (g.DependsOn inputs) o c) : c ∈ pre := by
  induction hc with
  | single hread => exact h.behind pre o post e _ hread
  | tail _ hread ih =>
    obtain ⟨before, after, rfl⟩ := List.append_of_mem ih
    refine List.mem_append_left _ (h.behind before _ (after ++ o :: post) ?_ _ hread)
    rw [e, List.append_assoc, List.cons_append]

/-- No listed operator depends on itself. -/
theorem Ordered.acyclic {ops : List OpId} (h : g.Ordered inputs ops) {o : OpId} (ho : o ∈ ops) :
    ¬Relation.TransGen (g.DependsOn inputs) o o := by
  intro hcircle
  obtain ⟨pre, post, rfl⟩ := List.append_of_mem ho
  have hpre := h.before rfl hcircle
  have hn := h.nodup
  rw [List.nodup_append] at hn
  exact hn.2.2 o hpre o (List.mem_cons_self ..) rfl

theorem mem_topologicalOrder_iff {ops : List OpId} (h : g.topologicalOrder = .ok ops) {o : OpId} :
    o ∈ ops ↔ g.Needed o := by
  constructor
  · exact topologicalOrder_induction h (fun _ => needed_of_root) (fun _ _ ho hc => .read ho hc) o
  · intro ho
    induction ho with
    | output hv hvi hp => exact mem_topologicalOrder_of_root h (mem_rootOps.2 ⟨_, hv, hvi, hp⟩)
    | read _ hread ih => exact (ordered_topologicalOrder h).closed ih hread

/-- Some operator that the outputs depend on depends on itself. -/
def Circular (g : Graph α) : Prop :=
  ∃ o, g.Needed o ∧ Relation.TransGen (g.DependsOn g.inputs) o o

/-- The traversal of a reached graph fails exactly if it has a circle to meet. Otherwise it lists the
operators that the outputs depend on, each of them once, and behind the producers of all it reads
that is no input. -/
theorem topologicalOrder_exact [Scalar α] {s : Supply} (h : Reached s g) :
    ((∃ v, g.topologicalOrder = .error (.cyclicGraph v)) ↔ g.Circular) ∧
      (¬g.Circular → ∃ ops, g.topologicalOrder = .ok ops ∧ ops.Nodup ∧
        (∀ o, o ∈ ops ↔ g.Needed o) ∧
        ∀ pre o post, ops = pre ++ o :: post → ∃ ins, g.inputsOf o = .ok ins ∧
          ∀ v ∈ ins, v ∉ g.inputs → ∀ c, g.producer v = some c → c ∈ pre) := by
  have failed : ∀ e, g.topologicalOrder = .error e → (∃ v, e = .cyclicGraph v) ∧ g.Circular := by
    intro e he
    obtain ⟨v, o, c, he, ho, hreach, hcircle⟩ := topologicalOrder_error h.wellformed he
    exact ⟨⟨v, he⟩, c, (needed_of_root ho).reach hreach, hcircle⟩
  refine ⟨⟨fun ⟨v, hv⟩ => (failed _ hv).2, ?_⟩, fun hc => ?_⟩
  · rintro ⟨o, ho, hcircle⟩
    cases hops : g.topologicalOrder with
    | ok ops =>
      exact absurd hcircle
        ((ordered_topologicalOrder hops).acyclic ((mem_topologicalOrder_iff hops).2 ho))
    | error e =>
      obtain ⟨v, rfl⟩ := (failed e hops).1
      exact ⟨v, rfl⟩
  · cases hops : g.topologicalOrder with
    | error e => exact absurd (failed e hops).2 hc
    | ok ops =>
      have hordered := ordered_topologicalOrder hops
      refine ⟨ops, rfl, hordered.nodup, fun o => mem_topologicalOrder_iff hops,
        fun pre o post e => ?_⟩
      obtain ⟨ins, hins⟩ := hordered.readable o (e ▸ List.mem_append_right pre
        (List.mem_cons_self ..))
      exact ⟨ins, hins, fun v hv hvi c hc => hordered.behind pre o post e c ⟨ins, hins, v, hv, hvi, hc⟩⟩

/-- An operator that reads its own output, since the output replaced what it read. -/
def selfReading : Graph ℚ where
  slots := #[.replaced ⟨1⟩,
    .live { type := ⟨[], ⟨[], List.nodup_nil⟩, List.length_nil⟩, marks := [.output] } (some ⟨0⟩)]
  nodes := #[some ⟨.reinterpret ⟨[], List.nodup_nil⟩ ⟨[], List.nodup_nil⟩, [⟨0⟩], ⟨1⟩⟩]
  declaredOutputs := [⟨1⟩]

theorem reached_selfReading : Reached {} selfReading := by
  have made : (⟨⟨[], ⟨[], List.nodup_nil⟩, rfl⟩, [], none⟩ : Tensor ℚ).MadeFrom [] {} {} :=
    ⟨(fun _ hd => by cases hd), rfl, (fun _ hx => by cases hx)⟩
  have computed : Gives ((({} : Graph ℚ).addVariable ⟨⟨[], ⟨[], List.nodup_nil⟩, rfl⟩, [], none⟩).1
    |>.addOp (.reinterpret ⟨[], List.nodup_nil⟩ ⟨[], List.nodup_nil⟩) [⟨0⟩]) {} (_, ⟨1⟩) {} := rfl
  have marked : Session false {} [] _ :=
    .markOutput (v := ⟨1⟩) (.addOp (.addVariable (.empty {}) made) computed) rfl
  exact ⟨[], .replaceVariable marked (rfl : Graph.replaceVariable _ ⟨0⟩ ⟨1⟩ = .ok _)⟩

theorem cyclicGraph_selfReading :
    ∃ v, selfReading.topologicalOrder = .error (.cyclicGraph v) := by
  have reads : selfReading.DependsOn selfReading.inputs ⟨0⟩ ⟨0⟩ :=
    ⟨[⟨1⟩], rfl, ⟨1⟩, List.mem_singleton_self _, (fun h => by cases h), rfl⟩
  have needed : selfReading.Needed ⟨0⟩ :=
    .output (List.mem_singleton_self (⟨1⟩ : VarId)) (fun h => by cases h) rfl
  exact (topologicalOrder_exact reached_selfReading).1.2 ⟨⟨0⟩, needed, .single reads⟩

end TensorCompiler.Graph
