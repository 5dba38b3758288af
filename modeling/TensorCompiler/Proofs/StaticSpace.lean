import TensorCompiler.Proofs.Buffers
import TensorCompiler.Proofs.Liveness
/-!
# The static space

A layout gives the constants their regions in the order of the traversal. The static space is
filled later, by ascending handle, with one copy for each constant. The order of the copies does
not matter, as no region shares an element with another one, and what a copy writes is what is
found there at the end.

* `Placement.Tiles`: regions one behind the other; they are apart from each other and leave no gap.
* `Placement.tiles_placeConstants`: those of the constants.
* `MemoryLayout.table_of_allocate`: the table of a layout has them in front.
* `MemoryLayout.exists_shipConstants`: what a sequence of copies does to the static space.
* `MemoryLayout.load?_constants`: the region of a constant holds its data.
-/

namespace TensorCompiler

/-- Regions of the static space that are apart from each other do not overlap. -/
theorem Allocation.Apart.disjoint {o n o' n' : Nat}
    (h : Apart Dim.known? ⟨.static, .known o, .known n⟩ ⟨.static, .known o', .known n'⟩) :
    o + n ≤ o' ∨ o' + n' ≤ o := by
  rcases h with hne | ⟨_, _, _, _, ⟨ho, hn⟩, ⟨ho', hn'⟩, hdisjoint⟩
  · exact absurd rfl hne
  · cases ho
    cases hn
    cases ho'
    cases hn'
    exact hdisjoint

namespace Placement

variable {α : Type} {g : Graph α} {p p' p'' : Placement} {s s' : Supply}
  {val : Dim → Option Nat}

/-! ## Regions one behind the other -/

/-- The table has regions of the static space that follow each other from a start up to an end. -/
inductive Tiles : Nat → List (VarId × Allocation) → Nat → Prop
  | nil (start : Nat) : Tiles start [] start
  | cons {start length stop : Nat} {table : List (VarId × Allocation)} (v : VarId) :
      Tiles (start + length) table stop →
      Tiles start ((v, ⟨.static, .known start, .known length⟩) :: table) stop

section

variable {start stop : Nat} {table : List (VarId × Allocation)}

theorem Tiles.le (h : Tiles start table stop) : start ≤ stop := by
  induction h with
  | nil => exact Nat.le_refl _
  | cons v _ ih => omega

/-- Every region lies between the start and the end. -/
theorem Tiles.region (h : Tiles start table stop) {e : VarId × Allocation} (he : e ∈ table) :
    ∃ o n, e.2 = ⟨.static, .known o, .known n⟩ ∧ start ≤ o ∧ o + n ≤ stop := by
  induction h with
  | nil => cases he
  | cons v hrest ih =>
    rcases List.mem_cons.1 he with rfl | he
    · exact ⟨_, _, rfl, Nat.le_refl _, hrest.le⟩
    · obtain ⟨o, n, hplace, hstart, hstop⟩ := ih he
      exact ⟨o, n, hplace, by omega, hstop⟩

theorem Tiles.pairwise (hval : Dim.Reads val) (h : Tiles start table stop) :
    table.Pairwise fun e f => e.2.Apart val f.2 := by
  induction h with
  | nil => exact .nil
  | @cons start length _ _ v hrest ih =>
    refine .cons (fun f hf => ?_) ih
    obtain ⟨o, n, hplace, hstart, -⟩ := hrest.region hf
    rw [hplace]
    exact .inr ⟨start, length, o, n, ⟨hval.known _, hval.known _⟩, ⟨hval.known _, hval.known _⟩,
      .inl hstart⟩

/-- The regions of two variables are apart from each other. -/
theorem Tiles.apart (hval : Dim.Reads val) (h : Tiles start table stop) {e f : VarId × Allocation}
    (he : e ∈ table) (hf : f ∈ table) (hne : e.1 ≠ f.1) : e.2.Apart val f.2 := by
  have : Std.Symm fun e f : VarId × Allocation => e.2.Apart val f.2 :=
    ⟨fun _ _ hapart => hapart.symm⟩
  exact (h.pairwise hval).forall he hf fun heq => hne (congrArg Prod.fst heq)

/-- The regions leave no gap. -/
theorem Tiles.covers (h : Tiles start table stop) {i : Nat} (hstart : start ≤ i)
    (hstop : i < stop) :
    ∃ e ∈ table, ∃ o n, e.2 = ⟨.static, .known o, .known n⟩ ∧ o ≤ i ∧ i < o + n := by
  induction h with
  | nil => omega
  | @cons start length _ _ v _ ih =>
    rcases Nat.lt_or_ge i (start + length) with hlt | hge
    · exact ⟨_, List.mem_cons_self .., start, length, rfl, hstart, hlt⟩
    · obtain ⟨e, he, hregion⟩ := ih hge hstop
      exact ⟨e, List.mem_cons_of_mem _ he, hregion⟩

theorem tiles_placeConstants {offset size : Nat} {vs : List (VarId × Tensor α)}
    (h : placeConstants offset vs = (table, size)) : Tiles offset table size := by
  induction vs generalizing offset table with
  | nil =>
    cases h
    exact .nil _
  | cons x vs ih =>
    obtain ⟨v, t⟩ := x
    unfold placeConstants at h
    split at h
    · exact ih h
    · next data _ =>
      cases hrest : placeConstants (offset + data.size) vs with
      | mk rest size' =>
        rw [hrest] at h
        cases h
        exact .cons v (ih hrest)

end

/-! ## The table -/

/-- The second placement has the table of the first one in front of regions in the dynamic space,
which it has extended. -/
structure Appends (val : Dim → Option Nat) (p p' : Placement) : Prop where
  table : ∃ rest, p'.table = p.table ++ rest ∧ ∀ e ∈ rest, e.2.space = .dynamic
  top : ∀ extent, val p'.space.top = some extent → ∃ extent', val p.space.top = some extent'

theorem Appends.refl (val : Dim → Option Nat) (p : Placement) : Appends val p p :=
  ⟨⟨[], by simp, by simp⟩, fun extent h => ⟨extent, h⟩⟩

theorem Appends.trans (h : Appends val p p') (h' : Appends val p' p'') : Appends val p p'' where
  table := by
    obtain ⟨rest, he, hd⟩ := h.table
    obtain ⟨rest', he', hd'⟩ := h'.table
    refine ⟨rest ++ rest', by rw [he', he, List.append_assoc], fun e he => ?_⟩
    exact (List.mem_append.1 he).elim (hd e) (hd' e)
  top extent hx := by
    obtain ⟨extent', hx'⟩ := h'.top extent hx
    exact h.top extent' hx'

theorem Appends.get? (h : Appends val p p') {v : VarId} {a : Allocation} (ha : p.get? v = some a) :
    p'.get? v = some a := by
  obtain ⟨rest, he, -⟩ := h.table
  unfold Placement.get? at ha ⊢
  rw [he, List.lookup_append, ha]
  rfl

theorem appends_place (hval : Dim.Reads val) {v : VarId} (h : Gives (place g p v) s p' s') :
    Appends val p p' := by
  rcases place_gives_iff.1 h with ⟨-, rfl, -⟩ | ⟨-, t, size, s₁, a, space, -, -, ha, rfl⟩
  · exact .refl val p
  · rcases DynamicSpace.alloc_cases ha with ⟨_, _, _, -, -, rfl, htop, -⟩ | ⟨rfl, htop, -⟩
    · exact ⟨⟨[_], rfl, by simp⟩, fun extent hx => ⟨extent, htop ▸ hx⟩⟩
    · refine ⟨⟨[_], rfl, by simp⟩, fun extent hx => ?_⟩
      obtain ⟨n, m, hn, -⟩ := hval.sum htop hx
      exact ⟨n, hn⟩

theorem appends_places (hval : Dim.Reads val) {vs : List VarId}
    (h : Gives (vs.foldlM (place g) p) s p' s') : Appends val p p' := by
  induction vs generalizing p s with
  | nil =>
    obtain ⟨rfl, -⟩ := gives_pure_iff.1 h
    exact .refl val _
  | cons v vs ih =>
    rw [List.foldlM_cons, gives_bind_iff] at h
    obtain ⟨p₁, s₁, hp, h⟩ := h
    exact (appends_place hval hp).trans (ih h)

theorem appends_placeSteps (hval : Dim.Reads val) {kept : List VarId} {steps : List MemoryStep}
    (h : Gives (placeSteps g kept p steps) s p' s') : Appends val p p' := by
  induction steps generalizing p s with
  | nil =>
    obtain ⟨rfl, -⟩ := gives_pure_iff.1 h
    exact .refl val _
  | cons m later ih =>
    rw [placeSteps, gives_bind_iff] at h
    obtain ⟨p₁, s₁, hp, h⟩ := h
    have hrelease : Appends val p₁ ((lastReads kept m later).foldl release p₁) :=
      ⟨⟨[], by rw [List.append_nil, foldl_release_table], by simp⟩, fun extent hx =>
        ⟨extent, foldl_release_top p₁ _ ▸ hx⟩⟩
    exact (appends_place hval hp).trans (hrelease.trans (ih h))

end Placement

namespace MemoryLayout

open Placement

variable {α : Type} {g : Graph α} {layout : MemoryLayout} {s s' : Supply}

/-- The constants of a layout in front of the variables in the dynamic space. -/
theorem table_of_allocate (h : Gives (allocate g) s layout s') : ∃ vars tensors table rest,
    g.reachable = .ok vars ∧ List.Forall₂ (fun v t => g.tensor v = .ok t) vars tensors ∧
      placeConstants 0 (vars.zip tensors) = (table, layout.staticSize) ∧
      layout.allocations = table ++ rest ∧ ∀ e ∈ rest, e.2.space = .dynamic := by
  obtain ⟨vars, ops, steps, tensors, table, p₁, s₁, p₂, s₂, p₃, hvars, -, -, htensors, htable, hp₁,
    hp₂, hp₃, hall, -⟩ := allocate_gives h
  obtain ⟨rest, hrest, hdynamic⟩ := ((appends_places Dim.reads_known hp₁).trans
    ((appends_placeSteps Dim.reads_known hp₂).trans (appends_places Dim.reads_known hp₃))).table
  exact ⟨vars, tensors, table, rest, hvars, mapM_ok_iff.1 htensors, htable, hall.trans hrest,
    hdynamic⟩

/-! ## The copies -/

/-- The entry of a constant whose region lies in a static space of some size. -/
structure Ships (g : Graph α) (size : Nat) (e : VarId × Allocation) (start : Nat)
    (data : Array α) : Prop where
  tensor : ∃ t, g.tensor e.1 = .ok t ∧ t.data = some data
  place : e.2 = ⟨.static, .known start, .known data.size⟩
  fits : start + data.size ≤ size

section

variable {cells : Array α} {e : VarId × Allocation} {start : Nat} {data : Array α}

theorem Ships.unique {size start' : Nat} {data' : Array α} (h : Ships g size e start data)
    (h' : Ships g size e start' data') : start' = start ∧ data' = data := by
  obtain ⟨t, ht, hd⟩ := h.tensor
  obtain ⟨t', ht', hd'⟩ := h'.tensor
  have hplace := h'.place.symm.trans h.place
  obtain rfl := Except.ok.inj (ht.symm.trans ht')
  obtain rfl := Option.some.inj (hd.symm.trans hd')
  simpa using hplace

theorem exists_shipConstant (h : Ships g cells.size e start data) :
    ∃ cells', shipConstant g cells e = .ok cells' ∧ AgreeOutside start data.size cells cells' ∧
      load? cells' start data.size = some data := by
  obtain ⟨t, ht, hd⟩ := h.tensor
  obtain ⟨cells', hstore, hagree, hcells⟩ := exists_store h.fits
  refine ⟨cells', ?_, hagree, load?_eq_some_iff.2 ⟨hagree.size ▸ h.fits, rfl, hcells⟩⟩
  have hwrite : store? cells (e.2.offset.known?.getD 0) data = some cells' := by
    rw [h.place]
    exact hstore
  rw [shipConstant, bind_ok_iff]
  refine ⟨t, ht, ?_⟩
  simp only [hd, Option.getD_some, hwrite]
  rfl

/-- Copies to regions apart from each other: each region holds its data at the end, and what is
apart from all of them is as before. -/
theorem exists_shipConstants {entries : List (VarId × Allocation)} {cells : Array α}
    (hships : ∀ e ∈ entries, ∃ start data, Ships g cells.size e start data)
    (hapart : entries.Pairwise fun e f => e.2.Apart Dim.known? f.2) :
    ∃ cells', entries.foldlM (shipConstant g) cells = .ok cells' ∧ cells'.size = cells.size ∧
      (∀ e ∈ entries, ∀ start data, Ships g cells.size e start data →
        load? cells' start data.size = some data) ∧
      ∀ (a : Allocation) start length, a = ⟨.static, .known start, .known length⟩ →
        (∀ e ∈ entries, a.Apart Dim.known? e.2) →
        load? cells' start length = load? cells start length := by
  induction entries generalizing cells with
  | nil => exact ⟨cells, rfl, rfl, by simp, fun _ _ _ _ _ => rfl⟩
  | cons e entries ih =>
    obtain ⟨⟨start, data, he⟩, hrest⟩ := List.forall_mem_cons.1 hships
    obtain ⟨hfirst, hapart⟩ := List.pairwise_cons.1 hapart
    obtain ⟨cells₁, hcells₁, hagree, hload⟩ := exists_shipConstant he
    obtain ⟨cells', hcells', hsize, hdata, hframe⟩ := ih (hagree.size ▸ hrest) hapart
    rw [hagree.size] at hsize hdata
    refine ⟨cells', ?_, hsize, List.forall_mem_cons.2 ⟨fun start' data' he' => ?_, hdata⟩,
      fun a start' length ha hall => ?_⟩
    · rw [List.foldlM_cons, hcells₁]
      exact hcells'
    · obtain ⟨rfl, rfl⟩ := he.unique he'
      rw [hframe e.2 _ _ he.place hfirst, hload]
    · obtain ⟨hthis, hall⟩ := List.forall_mem_cons.1 hall
      rw [hframe a _ _ ha hall]
      rw [ha, he.place] at hthis
      exact hagree.load? hthis.disjoint

end

/-- The regions of the constants are where their data are to go. -/
theorem exists_ships {vars : List VarId} {tensors : List (Tensor α)}
    {table : List (VarId × Allocation)} {size : Nat}
    (htensors : List.Forall₂ (fun v t => g.tensor v = .ok t) vars tensors)
    (htable : placeConstants 0 (vars.zip tensors) = (table, size)) {e : VarId × Allocation}
    (he : e ∈ table) : ∃ start data, Ships g size e start data := by
  obtain ⟨t, data, hmem, hd, hsize⟩ := size_placeConstants htable e he
  obtain ⟨o, n, hplace, -, hstop⟩ := (tiles_placeConstants htable).region he
  rw [hplace] at hsize
  cases hsize
  exact ⟨o, data, ⟨t, (zip_of_forall₂ htensors).2 _ hmem, hd⟩, hplace, hstop⟩

/-- The copies go to the regions of the table, in some order. -/
theorem perm_static {table rest : List (VarId × Allocation)}
    (hall : layout.allocations = table ++ rest) (htable : ∀ e ∈ table, e.2.space = .static)
    (hrest : ∀ e ∈ rest, e.2.space = .dynamic) :
    ((sortByVar layout.allocations).filter (·.2.space = .static)).Perm table := by
  have hfilter : layout.allocations.filter (·.2.space = .static) = table := by
    rw [hall, List.filter_append, List.filter_eq_self.2 fun e he => by simp [htable e he],
      List.filter_eq_nil_iff.2 fun e he => by simp [hrest e he], List.append_nil]
  exact hfilter ▸ (List.mergeSort_perm layout.allocations _).filter _

/-- The copies succeed: they fill the static space, and the region of a constant holds its data. -/
theorem exists_constants [Scalar α] (h : Gives (allocate g) s layout s') :
    ∃ constants, layout.constants g = .ok constants ∧ constants.size = layout.staticSize ∧
      ∀ v vars t d, g.reachable = .ok vars → v ∈ vars → g.tensor v = .ok t → t.data = some d →
        ∃ start, layout.get? v = some ⟨.static, .known start, .known d.size⟩ ∧
          load? constants start d.size = some d := by
  obtain ⟨vars, tensors, table, rest, hvars, htensors, htable, hall, hrest⟩ := table_of_allocate h
  have hships : ∀ e ∈ table, ∃ start data, Ships g layout.staticSize e start data :=
    fun e he => exists_ships htensors htable he
  have hperm := perm_static hall (fun e he => by
    obtain ⟨start, data, hship⟩ := hships e he
    rw [hship.place]) hrest
  have hsize : (Array.replicate layout.staticSize (Scalar.zero : α)).size = layout.staticSize :=
    Array.size_replicate
  obtain ⟨constants, hconstants, htotal, hdata, -⟩ := exists_shipConstants
    (fun e he => hsize ▸ hships e (hperm.mem_iff.1 he))
    ((hperm.pairwise_iff fun hapart => hapart.symm).2
      ((tiles_placeConstants htable).pairwise Dim.reads_known))
  rw [hsize] at htotal hdata
  refine ⟨constants, hconstants, htotal, fun v vars' t d hvars' hv ht hd => ?_⟩
  obtain rfl := Except.ok.inj (hvars.symm.trans hvars')
  obtain ⟨hlen, hzip⟩ := zip_of_forall₂ htensors
  obtain ⟨u, hmem⟩ := exists_mem_zip hlen hv
  obtain rfl := Except.ok.inj (ht.symm.trans (hzip _ hmem))
  obtain ⟨a, ha⟩ := (get?_placeConstants htable).2 ⟨t, d, hmem, hd⟩
  obtain ⟨before, after, hsplit, -⟩ := List.lookup_eq_some_iff.1 ha
  have hentry : (v, a) ∈ table := hsplit ▸ List.mem_append_right before (List.mem_cons_self ..)
  obtain ⟨start, d', hship⟩ := hships _ hentry
  obtain ⟨t', ht', hd'⟩ := hship.tensor
  obtain rfl := Except.ok.inj (ht.symm.trans ht')
  obtain rfl := Option.some.inj (hd.symm.trans hd')
  refine ⟨start, ?_, hdata _ (hperm.mem_iff.2 hentry) start d hship⟩
  rw [get?, hall, List.lookup_append, ha, ← hship.place]
  rfl

/-- Without constants there is nothing to ship. -/
theorem constants_of_dynamic [Scalar α] (h : ∀ e ∈ layout.allocations, e.2.space = .dynamic)
    (hsize : layout.staticSize = 0) : layout.constants g = .ok #[] := by
  have hnone : (sortByVar layout.allocations).filter (·.2.space = .static) = [] :=
    List.filter_eq_nil_iff.2 fun e he => by
      simp [h e ((List.mergeSort_perm layout.allocations _).mem_iff.1 he)]
  unfold constants
  simp only [hnone, hsize]
  rfl

theorem constants_ok [Scalar α] (h : Gives (allocate g) s layout s') :
    ∃ data, layout.constants g = .ok data := by
  obtain ⟨data, hdata, -⟩ := exists_constants h
  exact ⟨data, hdata⟩

/-- The shipped data fill the static space, and the region of a constant holds its data. -/
theorem load?_constants [Scalar α] (h : Gives (allocate g) s layout s') {constants : Array α}
    (hconstants : layout.constants g = .ok constants) : constants.size = layout.staticSize ∧
      ∀ v vars t d, g.reachable = .ok vars → v ∈ vars → g.tensor v = .ok t → t.data = some d →
        ∃ start, layout.get? v = some ⟨.static, .known start, .known d.size⟩ ∧
          load? constants start d.size = some d := by
  obtain ⟨constants', hconstants', hdata⟩ := exists_constants h
  obtain rfl := Except.ok.inj (hconstants.symm.trans hconstants')
  exact hdata

end MemoryLayout

end TensorCompiler
