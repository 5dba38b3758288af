import TensorCompiler.Pass.TextureLimit
import TensorCompiler.Proofs.Liveness
/-!
# Layouts of valid graphs

Whatever the outputs of a valid graph depend on gets its place. In linear memory, that never fails;
textures are limited in size, and each needs to know the number of its elements.

* `MemoryLayout.raisesOnly_allocate`, `MemoryLayout.placed_of_allocate`: memory is laid out
  completely.
* `Graph.checkTextures_ok`, `Graph.checkTextures_error`: what the texture limit accepts and reports.
* `TextureLayout.allocate_ok`, `TextureLayout.placed_of_allocate`: textures of known sizes are
  laid out completely.
-/

namespace TensorCompiler

/-! ## Valid graphs -/

namespace Graph

variable {α : Type} {g : Graph α} {vars : List VarId}

theorem validate_ok (h : g.validate = .ok ()) :
    ∃ vars, g.reachable = .ok vars ∧ ∀ v ∈ vars, ∃ t, g.tensor v = .ok t := by
  unfold validate at h
  obtain ⟨vars, hvars, h⟩ := bind_ok_iff.1 h
  refine ⟨vars, hvars, fun v hv => ?_⟩
  obtain ⟨t, ht, -⟩ := bind_ok_iff.1 (forM_ok_iff.1 h v hv)
  exact ⟨t, ht⟩

theorem topologicalOrder_of_reachable (h : g.reachable = .ok vars) :
    ∃ ops, g.topologicalOrder = .ok ops := by
  unfold reachable at h
  obtain ⟨ops, hops, -⟩ := bind_ok_iff.1 h
  exact ⟨ops, hops⟩

theorem tensors_ok (h : ∀ v ∈ vars, ∃ t, g.tensor v = .ok t) : ∃ ts, g.tensors vars = .ok ts := by
  obtain ⟨ts, hts⟩ := exists_forall₂ h
  exact ⟨ts, mapM_ok_iff.2 hts⟩

/-- What an operator of the traversal reads and writes is reachable. -/
theorem operands_reachable {ops : List OpId} (hops : g.topologicalOrder = .ok ops)
    (hvars : g.reachable = .ok vars) {o : OpId} {n : Node α} {ins : List VarId} (ho : o ∈ ops)
    (hn : g.node? o = some n) (hins : g.inputsOf o = .ok ins) : ∀ v ∈ n.output :: ins, v ∈ vars := by
  intro v hv
  refine (mem_reachable_iff hops hvars).2 (.inr (.inr ⟨o, ho, ins, n, hins, hn, ?_⟩))
  rcases List.mem_cons.1 hv with rfl | hv
  · exact .inr rfl
  · exact .inl hv

end Graph

/-! ## Linear memory -/

namespace Placement

variable {α : Type} {g : Graph α} {p p' : Placement} {s s' : Supply}
  {P : GraphError → Prop}

theorem raisesOnly_place {v : VarId} (h : ∃ t, g.tensor v = .ok t) :
    RaisesOnly (place g p v) s P := by
  obtain ⟨t, ht⟩ := h
  unfold place
  split
  · exact .pure
  · refine .step (gives_except_iff.2 ⟨ht, rfl⟩) (.fresh fun size s₁ _ => .fresh fun r s₂ _ => ?_)
    exact .pure

/-- Every placed variable has a tensor. -/
def AllLive (g : Graph α) (p : Placement) : Prop := ∀ e ∈ p.table, ∃ t, g.tensor e.1 = .ok t

theorem placed_of_place {v : VarId} (h : Gives (place g p v) s p' s') (hp : p.AllLive g) :
    p'.AllLive g ∧ (∃ a, p'.get? v = some a) ∧
      ∀ w, (∃ a, p.get? w = some a) → ∃ a, p'.get? w = some a := by
  rcases place_gives_iff.1 h with ⟨ha, rfl, -⟩ | ⟨hv, t, -, -, a, space, ht, -, -, rfl⟩
  · exact ⟨hp, ha, fun w hw => hw⟩
  · refine ⟨List.forall_mem_append.2 ⟨hp, List.forall_mem_singleton.2 ⟨t, ht⟩⟩,
      ⟨a, by rw [get?_append rfl hv, if_pos rfl]⟩, fun w hw => ?_⟩
    rw [get?_append rfl hv]
    split
    · exact ⟨a, rfl⟩
    · exact hw

theorem placed_of_places {vs : List VarId} (h : Gives (vs.foldlM (place g) p) s p' s')
    (hp : p.AllLive g) : p'.AllLive g ∧ (∀ v ∈ vs, ∃ a, p'.get? v = some a) ∧
      ∀ w, (∃ a, p.get? w = some a) → ∃ a, p'.get? w = some a := by
  induction vs generalizing p s with
  | nil =>
    obtain ⟨rfl, -⟩ := gives_foldlM_nil_iff.1 h
    exact ⟨hp, by simp, fun w hw => hw⟩
  | cons v vs ih =>
    obtain ⟨p₁, s₁, hv, h⟩ := gives_foldlM_cons_iff.1 h
    obtain ⟨hp₁, hav, hkeep₁⟩ := placed_of_place hv hp
    obtain ⟨hp', hvs, hkeep⟩ := ih h hp₁
    exact ⟨hp', List.forall_mem_cons.2 ⟨hkeep v hav, hvs⟩, fun w hw => hkeep w (hkeep₁ w hw)⟩

theorem placed_of_placeSteps {kept : List VarId} {steps : List MemoryStep}
    (h : Gives (placeSteps g kept p steps) s p' s') (hp : p.AllLive g) : p'.AllLive g := by
  induction steps generalizing p s with
  | nil =>
    obtain ⟨rfl, -⟩ := gives_pure_iff.1 h
    exact hp
  | cons m later ih =>
    obtain ⟨p₁, s₁, hm, h⟩ := gives_bind_iff.1 h
    refine ih h fun e he => ?_
    rw [foldl_release_table] at he
    exact (placed_of_place hm hp).1 e he

theorem raisesOnly_placeSteps {kept : List VarId} {steps : List MemoryStep}
    (h : ∀ m ∈ steps, ∃ t, g.tensor m.output = .ok t) :
    RaisesOnly (placeSteps g kept p steps) s P := by
  induction steps generalizing p s with
  | nil => exact .pure
  | cons m later ih =>
    obtain ⟨hm, hlater⟩ := List.forall_mem_cons.1 h
    exact .bind (raisesOnly_place hm) fun _ _ _ => ih hlater

theorem mem_placeConstants {offset size : Nat} {vs : List (VarId × Tensor α)}
    {table : List (VarId × Allocation)} (h : placeConstants offset vs = (table, size)) :
    ∀ e ∈ table, ∃ t, (e.1, t) ∈ vs := by
  induction vs generalizing offset table with
  | nil =>
    cases h
    simp
  | cons e vs ih =>
    obtain ⟨v, t⟩ := e
    unfold placeConstants at h
    split at h
    · exact fun e he => (ih h e he).imp fun u hu => List.mem_cons_of_mem _ hu
    · next data _ =>
      cases hrest : placeConstants (offset + data.size) vs with
      | mk rest size' =>
        rw [hrest] at h
        cases h
        intro e he
        rcases List.mem_cons.1 he with rfl | he
        · exact ⟨t, List.mem_cons_self ..⟩
        · exact (ih hrest e he).imp fun u hu => List.mem_cons_of_mem _ hu

end Placement

namespace MemoryLayout

variable {α : Type} {g : Graph α} {layout : MemoryLayout} {vars : List VarId} {s s' : Supply}

theorem mem_of_get? {v : VarId} {a : Allocation} (h : layout.get? v = some a) :
    (v, a) ∈ layout.allocations := by
  obtain ⟨pre, post, e, -⟩ := List.lookup_eq_some_iff.1 h
  exact e ▸ List.mem_append_right _ (List.mem_cons_self ..)

/-- Memory can always be laid out. -/
theorem raisesOnly_allocate {P : GraphError → Prop} (hg : g.Wellformed)
    (hvars : g.reachable = .ok vars) (hlive : ∀ v ∈ vars, ∃ t, g.tensor v = .ok t) :
    RaisesOnly (allocate g) s P := by
  obtain ⟨ops, hops⟩ := Graph.topologicalOrder_of_reachable hvars
  obtain ⟨ts, hts⟩ := Graph.tensors_ok hlive
  refine .step (gives_except_iff.2 ⟨hvars, rfl⟩) (.step (gives_except_iff.2 ⟨hops, rfl⟩) ?_)
  refine .bind (.mapM fun o ho s => ?_) fun steps s₁ hsteps => ?_
  · obtain ⟨n, -, hn, -⟩ := Graph.output_of_mem_topologicalOrder hg hops ho
    obtain ⟨ins, hins⟩ := (Graph.ordered_topologicalOrder hops).readable o ho
    exact .step (gives_except_iff.2 ⟨Graph.operator_ok_iff.2 hn, rfl⟩)
      (.step (gives_except_iff.2 ⟨hins, rfl⟩) .pure)
  · obtain ⟨hsteps, -⟩ := (gives_mapM_iff fun _ _ _ _ => stepOf_gives_iff).1 hsteps
    refine .step (gives_except_iff.2 ⟨hts, rfl⟩) (.bind (.foldlM fun p v hv s => ?_) fun _ _ _ =>
      .bind (Placement.raisesOnly_placeSteps fun m hm => ?_) fun _ _ _ =>
      .bind (.foldlM fun p v hv s => Placement.raisesOnly_place (hlive v hv)) fun _ _ _ => .pure)
    · exact Placement.raisesOnly_place
        (hlive v ((Graph.mem_reachable_iff hops hvars).2 (.inl hv)))
    · obtain ⟨o, ho, n, hn, hout, hins⟩ := exists_of_forall₂_right hsteps hm
      exact hlive m.output (hout ▸ Graph.operands_reachable hops hvars ho hn hins _
        (List.mem_cons_self ..))

/-- Every variable of the layout has a tensor, and every reachable variable has its place. -/
theorem placed_of_allocate (h : Gives (allocate g) s layout s') :
    (∀ e ∈ layout.allocations, ∃ t, g.tensor e.1 = .ok t) ∧
      ∀ vars, g.reachable = .ok vars → ∀ v ∈ vars, ∃ a, layout.get? v = some a := by
  obtain ⟨vars, ops, steps, ts, table, p₁, s₁, p₂, s₂, p₃, hvars, -, -, hts, htable, hp₁, hp₂, hp₃,
    htable', -⟩ := allocate_gives h
  have hconstants : Placement.AllLive g { table } := by
    intro e he
    obtain ⟨t, ht⟩ := Placement.mem_placeConstants htable e he
    obtain ⟨-, hzip⟩ := zip_of_forall₂ (mapM_ok_iff.1 hts)
    exact ⟨t, hzip _ ht⟩
  obtain ⟨hlive₁, -, -⟩ := Placement.placed_of_places hp₁ hconstants
  obtain ⟨hlive₃, hplaced, -⟩ :=
    Placement.placed_of_places hp₃ (Placement.placed_of_placeSteps hp₂ hlive₁)
  refine ⟨htable' ▸ hlive₃, fun vars' hvars' v hv => ?_⟩
  obtain rfl := Except.ok.inj (hvars.symm.trans hvars')
  obtain ⟨a, ha⟩ := hplaced v hv
  exact ⟨a, by rw [get?, htable']; exact ha⟩

end MemoryLayout

/-! ## Textures -/

section

variable {α : Type} {g : Graph α} {vars : List VarId} {max : Nat} {mode : ChannelMode}
  {overrides : List (VarId × TextureShape)} {config : Config} {layout : TextureLayout}

theorem TensorType.concreteSize_error {t : TensorType} {e : GraphError}
    (h : t.concreteSize = .error e) : ∃ d, e = .unresolved d := by
  unfold concreteSize at h
  rcases bind_error_iff.1 h with h | ⟨sizes, -, h⟩
  · obtain ⟨d, -, h⟩ := exists_of_mapM_error h
    unfold knownDim at h
    split at h
    · cases h
    · cases h
      exact ⟨d, rfl⟩
  · cases h

/-- A texture within the limit is rejected if it is too small, or if no word counts its scalars. -/
theorem TextureShape.check_error {shape : TextureShape} {v : VarId} {t : TensorType} {size : Nat}
    {e : PassError} (h : shape.check mode max v t size = .error e) :
    (∃ fault, e = .textureLimit v fault) ∨
      shape.fits max = true ∧ wordLimit ≤ shape.texels * mode.channels := by
  unfold check capacity? at h
  cases hfits : shape.fits max with
  | false =>
    rw [hfits] at h
    cases h
    exact .inl ⟨_, rfl⟩
  | true =>
    rw [hfits] at h
    by_cases hlimit : shape.texels * mode.channels < wordLimit
    · rw [if_pos hlimit] at h
      simp only [Bool.not_true, Bool.false_eq_true, if_false] at h
      split at h
      · cases h
        exact .inl ⟨_, rfl⟩
      · cases h
    · exact .inr ⟨rfl, Nat.le_of_not_lt hlimit⟩

/-- The scalars of some texture within the limit are not counted by a word. -/
def Graph.Uncountable (g : Graph α) (config : Config) : Prop :=
  ∃ vars v t size, g.reachable = .ok vars ∧ v ∈ vars ∧ g.tensor v = .ok t ∧
    t.type.concreteSize = .ok size ∧
    let shape := TextureShape.choose config.textureShapes config.channelMode config.maxTextureSize
      v size
    shape.fits config.maxTextureSize = true ∧
      wordLimit ≤ shape.texels * config.channelMode.channels

/-- The texture limit reports symbolic sizes and textures that do not fit. -/
theorem Graph.checkTextures_error (hvars : g.reachable = .ok vars)
    (hlive : ∀ v ∈ vars, ∃ t, g.tensor v = .ok t) (hcount : ¬g.Uncountable config) {e : PassError}
    (h : g.checkTextures config.maxTextureSize config.channelMode config.textureShapes = .error e) :
    (∃ d, e = .graph (.unresolved d)) ∨ ∃ v fault, e = .textureLimit v fault := by
  unfold checkTextures at h
  rcases bind_error_iff.1 h with h | ⟨vars', hvars', h⟩
  · rw [hvars] at h
    cases h
  obtain rfl := Except.ok.inj (hvars.symm.trans (mapError_ok_iff.1 hvars'))
  obtain ⟨v, hv, h⟩ := exists_of_forM_error h
  obtain ⟨t, ht⟩ := hlive v hv
  rcases bind_error_iff.1 h with h | ⟨t', ht', h⟩
  · rw [ht] at h
    cases h
  obtain rfl := Except.ok.inj (ht.symm.trans (mapError_ok_iff.1 ht'))
  rcases bind_error_iff.1 h with h | ⟨size, hsize, h⟩
  · obtain ⟨f, hf, rfl⟩ := mapError_error_iff.1 h
    obtain ⟨d, rfl⟩ := TensorType.concreteSize_error hf
    exact .inl ⟨d, rfl⟩
  rcases TextureShape.check_error h with ⟨fault, rfl⟩ | ⟨hfits, hlimit⟩
  · exact .inr ⟨v, fault, rfl⟩
  · exact absurd ⟨vars, v, t, size, hvars, hv, ht, mapError_ok_iff.1 hsize, hfits, hlimit⟩ hcount

theorem Graph.checkTextures_ok
    (h : g.checkTextures max mode overrides = .ok ()) (hvars : g.reachable = .ok vars) :
    ∀ v ∈ vars, ∃ t size, g.tensor v = .ok t ∧ t.type.concreteSize = .ok size := by
  unfold checkTextures at h
  obtain ⟨vars', hvars', h⟩ := bind_ok_iff.1 h
  obtain rfl := Except.ok.inj (hvars.symm.trans (mapError_ok_iff.1 hvars'))
  intro v hv
  obtain ⟨t, ht, h⟩ := bind_ok_iff.1 (forM_ok_iff.1 h v hv)
  obtain ⟨size, hsize, -⟩ := bind_ok_iff.1 h
  exact ⟨t, size, mapError_ok_iff.1 ht, mapError_ok_iff.1 hsize⟩

end

namespace TextureLayout

variable {α : Type} {g : Graph α} {vars : List VarId} {config : Config} {layout : TextureLayout}

theorem map_fst_placeConstants (offset : Nat)
    (entries : List (VarId × TextureAllocation × Option (Array α))) :
    (placeConstants offset entries).map (·.1) = entries.map (·.1) := by
  induction entries generalizing offset with
  | nil => rfl
  | cons e entries ih =>
    obtain ⟨v, a, _ | data⟩ := e
    · exact congrArg (v :: ·) (ih offset)
    · exact congrArg (v :: ·) (ih (offset + data.size))

/-- The variables of a layout are the reachable ones, and all of them have tensors. -/
theorem placed_of_allocate (h : allocate g config = .ok layout) :
    (∀ e ∈ layout.textures, ∃ t, g.tensor e.1 = .ok t) ∧
      ∀ vars, g.reachable = .ok vars → ∀ v ∈ vars, ∃ a, layout.get? v = some a := by
  unfold allocate at h
  simp only [bind_ok_iff, mapM_ok_iff, pure_ok_iff] at h
  obtain ⟨vars, hvars, entries, hentries, rfl⟩ := h
  have hkeys : ∀ v, v ∈ (placeConstants 0 (sortByVar entries)).map (·.1) ↔
      v ∈ entries.map (·.1) := fun v => by
    rw [map_fst_placeConstants]
    exact ((List.mergeSort_perm entries _).map _).mem_iff
  constructor
  · intro e he
    obtain ⟨entry, hentry, hkey⟩ := List.mem_map.1 ((hkeys e.1).1 (List.mem_map_of_mem he))
    obtain ⟨v, -, t, ht, a, -, rfl⟩ := exists_of_forall₂_right hentries hentry
    exact ⟨t, hkey ▸ ht⟩
  · intro vars' hvars' v hv
    obtain rfl := Except.ok.inj (hvars.symm.trans hvars')
    obtain ⟨entry, hentry, t, -, a, -, rfl⟩ := exists_of_forall₂_left hentries hv
    have hmem := (hkeys v).2 (List.mem_map_of_mem hentry)
    obtain ⟨e, he, rfl⟩ := List.mem_map.1 hmem
    cases hlookup : (placeConstants 0 (sortByVar entries)).lookup e.1 with
    | some a => exact ⟨a, hlookup⟩
    | none => simpa using List.lookup_eq_none_iff.1 hlookup e he

/-- Textures of known sizes can always be laid out. -/
theorem allocate_ok (hvars : g.reachable = .ok vars)
    (hsize : ∀ v ∈ vars, ∃ t size, g.tensor v = .ok t ∧ t.type.concreteSize = .ok size) :
    ∃ layout, allocate g config = .ok layout := by
  have hentries : ∀ v ∈ vars, ∃ entry, (do
      let t ← g.tensor v
      return (v, ← texture config v t.type, t.data)) = Except.ok (ε := GraphError) entry := by
    intro v hv
    obtain ⟨t, size, ht, hsize⟩ := hsize v hv
    exact ⟨_, bind_ok_iff.2 ⟨t, ht, bind_ok_iff.2 ⟨_, bind_ok_iff.2 ⟨size, hsize, rfl⟩, rfl⟩⟩⟩
  obtain ⟨entries, hentries⟩ := exists_forall₂ hentries
  unfold allocate
  exact ⟨_, bind_ok_iff.2 ⟨vars, hvars, bind_ok_iff.2 ⟨entries, mapM_ok_iff.2 hentries, rfl⟩⟩⟩

/-- The data of the constants can be read. -/
theorem constants_ok (h : allocate g config = .ok layout) :
    ∃ data, layout.constants g = .ok data := by
  have hlive := (placed_of_allocate h).1
  have hparts : ∀ e ∈ layout.textures.filter (·.2.constantOffset.isSome), ∃ part,
      (do return (← g.tensor e.1).data.getD #[]) = Except.ok (ε := GraphError) part := by
    intro e he
    obtain ⟨t, ht⟩ := hlive e (List.mem_of_mem_filter he)
    exact ⟨_, bind_ok_iff.2 ⟨t, ht, rfl⟩⟩
  obtain ⟨parts, hparts⟩ := exists_forall₂ hparts
  unfold constants
  exact ⟨_, bind_ok_iff.2 ⟨parts, mapM_ok_iff.2 hparts, rfl⟩⟩

end TextureLayout

end TensorCompiler
