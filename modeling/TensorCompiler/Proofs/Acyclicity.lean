import TensorCompiler.Proofs.FixedPoint
/-!
# Sweeps make no circles

What a sweep puts in place of an operator reads what the operator read, and what was added before.
So as long as no operator depends on itself, none does after the replacement. The operators that the
outputs depend on could be listed before the sweep, and they can be listed again when it is done.

* `Replaced.acc_below`: what the operator depends on is left as it is.
* `Replaced.acc_added`, `Replaced.acc`: no circle goes through an added operator, or any other.
* `acc_of_topologicalOrder`: listed operators are on no circle.
* `sweep_acyclic`: after a sweep, the operators can be listed again.
-/

namespace TensorCompiler

namespace Graph

variable {α : Type} [Scalar α] {g h i j : Graph α} {o : OpId} {a b : VarId} {x c : OpId}

/-! ## One replacement -/

omit [Scalar α] in
/-- Reading the output of an operator is depending on it, unless the output is an input. -/
theorem dependsOn_of_reads (hi : i.Wellformed) {t : Tensor α}
    (ha : i.slot? a = some (.live t (some o))) (hin : a ∉ i.inputs) (h : i.Reads x o) :
    i.DependsOn i.inputs x o := by
  obtain ⟨ins, hins, v, hv, -, hp⟩ := h
  obtain ⟨m, hm, hout⟩ := output_of_producer hi hp
  obtain ⟨-, m', hm', houta⟩ := hi.produced a t o ha
  obtain rfl := Option.some.inj (hm.symm.trans hm')
  obtain rfl : v = a := by
    have hva := (resolve_of_mem_inputsOf hins hv).symm.trans hout
    rw [houta] at hva
    exact Except.ok.inj hva
  exact ⟨ins, hins, v, hv, hin, hp⟩

/-- What did not read the operator depends on what it depended on before. -/
theorem Replaced.dependsOn_of_not_reads (hi : i.Wellformed) (r : Replaced i j o a b)
    (hx : x.index < i.nodes.size) (hread : ¬i.Reads x o) (h : j.DependsOn j.inputs x c) :
    i.DependsOn i.inputs x c := by
  rw [r.rewired.inputs hi] at h
  obtain ⟨ins, hins, v, hv, hvi, hp⟩ := h
  obtain ⟨n, hn, -⟩ := inputsOf_ok_iff.1 hins
  rcases r.nodes x n hn with hold | ⟨hnew, -⟩
  · have hins' := r.inputsOf hi hold hread hins
    obtain ⟨t, ht⟩ := r.rewired.produced
    have hva : v ≠ a := by
      rintro rfl
      exact hread (reads_of_mem hins' ht hv)
    rw [r.producer_eq (resolve_of_mem_inputsOf hins' hv) hva] at hp
    exact ⟨ins, hins', v, hv, hvi, hp⟩
  · exact absurd hx (Nat.not_lt.2 hnew)

/-- What the operator depends on, through however many others, is on no circle. -/
theorem Replaced.acc_below (hi : i.Wellformed) (r : Replaced i j o a b)
    (ho : Acc (i.Below i.inputs) o) (hx : Relation.TransGen (i.DependsOn i.inputs) o x) :
    Acc (j.Below j.inputs) x := by
  obtain ⟨t, ht⟩ := r.rewired.produced
  have hacc : Acc (i.Below i.inputs) x := by
    induction hx with
    | single hread => exact ho.inv hread
    | tail _ hread ih => exact ih.inv hread
  induction hacc with
  | intro x _ ih =>
    -- It does not read the operator, or this would depend on itself.
    have hnot : ¬i.Reads x o := by
      intro hread
      have hcircle := hx.tail (dependsOn_of_reads hi ht r.rewired.noInput hread)
      exact not_self_of_acc ho.transGen (Relation.transGen_swap.2 hcircle)
    have hold : x.index < i.nodes.size := by
      obtain ⟨y, -, hread⟩ := Relation.TransGen.tail'_iff.1 hx
      obtain ⟨_, _, _, _, _, hp⟩ := hread
      obtain ⟨n, hn⟩ := live_of_producer hi hp
      exact node?_lt hn
    refine ⟨x, fun c hc => ?_⟩
    have hread := r.dependsOn_of_not_reads hi hold hnot hc
    exact ih c hread (hx.tail hread)

/-- Added operators are on no circle. -/
theorem Replaced.acc_added (hi : i.Wellformed) (r : Replaced i j o a b)
    (ho : Acc (i.Below i.inputs) o) {k : Nat} (hnew : i.nodes.size ≤ k) :
    Acc (j.Below j.inputs) ⟨k⟩ := by
  obtain ⟨t, ht⟩ := r.rewired.produced
  have hself : ¬i.Takes o a := by
    intro htakes
    obtain ⟨ins, hins, hmem⟩ := htakes
    exact not_self_of_acc ho
      (dependsOn_of_reads hi ht r.rewired.noInput (reads_of_mem hins ht hmem))
  induction k using Nat.strongRecOn with
  | ind k ih =>
    refine ⟨_, fun c hc => ?_⟩
    obtain ⟨ins, hins, v, hv, hvi, hp⟩ := hc
    rw [r.rewired.inputs hi] at hvi
    rcases (r.added ⟨k⟩ ins hnew hins).1 v hv with ⟨⟨reads, hreads, hmem⟩, hva⟩ | hadded
    · rw [r.producer_eq (resolve_of_mem_inputsOf hreads hmem) hva] at hp
      exact r.acc_below hi ho (.single ⟨reads, hreads, v, hmem, hvi, hp⟩)
    · exact ih c.index (r.later hself ⟨k⟩ ins hnew hins v hv c hp) (hadded c hp)

/-- If the operator is on no circle, the replacement makes none. -/
theorem Replaced.acc (hi : i.Wellformed) (r : Replaced i j o a b) (ho : Acc (i.Below i.inputs) o)
    (hx : Acc (i.Below i.inputs) x) : Acc (j.Below j.inputs) x := by
  induction hx with
  | intro x _ ih =>
    refine ⟨x, fun c hc => ?_⟩
    rw [Below, r.rewired.inputs hi] at hc
    rcases r.dependsOn hi hc with hnew | hread | hread
    · exact r.acc_added hi ho hnew
    · exact ih c hread
    · exact r.acc_below hi ho (.single hread)

/-! ## A whole sweep -/

omit [Scalar α] in
theorem acc_of_topologicalOrder {ops : List OpId} (hops : g.topologicalOrder = .ok ops)
    (hx : g.Needed x) : Acc (g.Below g.inputs) x :=
  (ordered_topologicalOrder hops).induction (fun o _ hdeps => ⟨o, fun c hc => hdeps c hc⟩) x
    ((mem_topologicalOrder_iff hops).2 hx)

/-- After a sweep that takes out operators one by one, the operators can be listed again. -/
theorem sweep_acyclic {R : Graph α → OpId → Prop} {S : Graph α → VarId → Prop}
    {step : OpId → PassM α Bool} {s s' : Supply} {d : Bool} (hg : g.Wellformed)
    (hsweep : (PassM.sweep step).Edits g s d h s')
    (hvisit : ∀ o i s c j s', i.Wellformed → i.Computes o → (step o).Edits i s c j s' →
      Visit R S i o c j) : ∃ ops, h.topologicalOrder = .ok ops := by
  -- The outputs depend on operators that they depended on before, and on added ones.
  let N : OpId → Prop := fun x => g.Needed x ∨ g.nodes.size ≤ x.index
  let Q : Graph α → Prop := fun i => ∀ x, N x → Acc (i.Below i.inputs) x
  have key : Sweeping (fun _ _ => False) Q g [] h := by
    refine PassM.sweep_induction (P := fun rest i _ => Sweeping (fun _ _ => False) Q g rest i)
      hsweep (fun ops hops => sweeping_start hg (fun x hx => ?_) hops) ?_
    · rcases hx with hx | hx
      · exact acc_of_topologicalOrder hops hx
      · exact ⟨x, fun c hc => absurd (node?_of_dependsOn hc) (Nat.not_lt.2 hx)⟩
    · intro o rest i s c j s' k hedit
      have hi := k.wellformed
      obtain ⟨ho, hneeded⟩ := k.ahead o (List.mem_cons_self ..)
      cases hvisit o i s c j s' hi ho hedit with
      | idle => exact k.idle not_false
      | replaced _ r hj =>
        refine k.replaced r hj (fun x hx => ?_) (fun _ _ _ _ _ => not_false) fun _ _ _ _ h => h
        exact r.acc hi (k.kept o (.inl hneeded)) (k.kept x hx)
  refine topologicalOrder_ok key.wellformed fun x hx => key.kept x ?_
  exact key.closed.of_needed (needed_of_root hx)

end Graph

end TensorCompiler
