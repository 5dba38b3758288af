import TensorCompiler.Proofs.CeilingDivision
import TensorCompiler.Proofs.Constants
/-!
# What the texture limit accepts

The limit rejects a graph only if one of its variables cannot be kept in a texture. A derived shape
fills rows of the greatest width before it starts another one. That is as good as any choice: if a
rectangle of texels within the limit holds all scalars, the derived one is within the limit too.

* `TextureShape.holds_derive_iff`: the derived shape serves if any shape does.
* `TextureShape.check_ok_iff`: the check of a texture, as long as a word counts its scalars.
* `Graph.checkTextures_ok_iff`: the check of all variables.
* `Graph.checkTextureLimit_exact`: the pass accepts exactly what can be placed, and changes nothing.
-/

namespace TensorCompiler

/-! ## One texture -/

theorem ChannelMode.channels_pos (mode : ChannelMode) : 0 < mode.channels := by
  cases mode <;> decide

namespace TextureShape

variable {shape : TextureShape} {mode : ChannelMode} {max size : Nat}

/-- No side of the rectangle is longer than `max` texels, and the texels hold all scalars. -/
structure Holds (shape : TextureShape) (mode : ChannelMode) (max size : Nat) : Prop where
  width : shape.width ≤ max
  height : shape.height ≤ max
  capacity : size ≤ shape.width * shape.height * mode.channels

/-- A derived shape has the texels for all scalars, in rows of the greatest width that they fill. -/
theorem exists_derive (hmax : 1 ≤ max) (size : Nat) (mode : ChannelMode) :
    ∃ texels width, texels = Nat.max (size ⌈/⌉ mode.channels) 1 ∧ width = Nat.min texels max ∧
      0 < width ∧ derive size mode max = ⟨width, texels ⌈/⌉ width⟩ := by
  have hwidth : 0 < Nat.min (Nat.max (size ⌈/⌉ mode.channels) 1) max :=
    Nat.lt_min.2 ⟨Nat.lt_of_lt_of_le Nat.one_pos (Nat.le_max_right _ _), hmax⟩
  refine ⟨_, _, rfl, rfl, hwidth, ?_⟩
  unfold derive
  rw [add_pred_div (mode.channels_pos), show Nat.max max 1 = max from Nat.max_eq_left hmax]
  dsimp only
  rw [add_pred_div hwidth]

/-- A derived shape is within the limit as soon as the largest square is large enough. -/
theorem holds_derive (hmax : 1 ≤ max) (h : size ≤ max * max * mode.channels) :
    (derive size mode max).Holds mode max size := by
  obtain ⟨texels, width, htexels, hwidth, hpos, hderive⟩ := exists_derive hmax size mode
  have hsquare : texels ≤ max * max := by
    rw [htexels]
    refine Nat.max_le.2 ⟨?_, Nat.mul_pos hmax hmax⟩
    rwa [ceilDiv_le_iff_le_mul (mode.channels_pos), Nat.mul_comm]
  have hrows : texels ≤ width * max := by
    rw [hwidth]
    rcases Nat.le_total texels max with hle | hle
    · rw [show Nat.min texels max = texels from Nat.min_eq_left hle]
      exact Nat.le_mul_of_pos_right texels hmax
    · rw [show Nat.min texels max = max from Nat.min_eq_right hle]
      exact hsquare
  rw [hderive]
  refine ⟨hwidth ▸ Nat.min_le_right _ _, (ceilDiv_le_iff_le_mul hpos).2 hrows, ?_⟩
  calc size
      ≤ mode.channels * (size ⌈/⌉ mode.channels) := le_smul_ceilDiv (mode.channels_pos)
    _ ≤ mode.channels * texels := Nat.mul_le_mul_left _ (htexels ▸ Nat.le_max_left _ _)
    _ ≤ mode.channels * (width * (texels ⌈/⌉ width)) :=
        Nat.mul_le_mul_left _ (le_smul_ceilDiv hpos)
    _ = width * (texels ⌈/⌉ width) * mode.channels := Nat.mul_comm _ _

/-- The derived shape serves if any shape does. -/
theorem holds_derive_iff (hmax : 1 ≤ max) :
    (derive size mode max).Holds mode max size ↔
      ∃ shape : TextureShape, shape.Holds mode max size := by
  refine ⟨fun h => ⟨_, h⟩, fun ⟨shape, h⟩ => holds_derive hmax (h.capacity.trans ?_)⟩
  exact Nat.mul_le_mul_right _ (Nat.mul_le_mul h.width h.height)

/-- A word counts the scalars of every texture within the limit. -/
theorem capacity?_of_fits (hlimit : max < 0x80000000) (hwidth : shape.width ≤ max)
    (hheight : shape.height ≤ max) :
    shape.capacity? mode = some (shape.width * shape.height * mode.channels) := by
  have hside : max * max ≤ 0x7fffffff * 0x7fffffff := Nat.mul_le_mul (by omega) (by omega)
  have hchannels : mode.channels ≤ 4 := by cases mode <;> decide
  have htexels : shape.width * shape.height ≤ max * max := Nat.mul_le_mul hwidth hheight
  have hscalars := Nat.mul_le_mul (htexels.trans hside) hchannels
  exact if_pos (Nat.lt_of_le_of_lt hscalars (by decide))

/-- What the check of a texture accepts. -/
theorem check_ok_iff (hlimit : max < 0x80000000) {v : VarId} {t : TensorType} :
    shape.check mode max v t size = .ok () ↔ shape.Holds mode max size := by
  constructor
  · intro h
    obtain ⟨hwidth, hheight, hsize⟩ := check_ok h
    exact ⟨hwidth, hheight, hsize⟩
  · intro h
    have hfits : shape.fits max = true := decide_eq_true ⟨h.width, h.height⟩
    have hsize : ¬shape.width * shape.height * mode.channels < size := Nat.not_lt.2 h.capacity
    unfold check
    rw [hfits, capacity?_of_fits hlimit h.width h.height]
    simp only [Bool.not_true, Bool.false_eq_true, if_false, if_neg hsize]
    rfl

/-- The configured texture of a variable holds its scalars, or without one, some texture does. -/
def Placeable (overrides : List (VarId × TextureShape)) (mode : ChannelMode) (max : Nat) (v : VarId)
    (size : Nat) : Prop :=
  match overrides.lookup v with
  | some shape => shape.Holds mode max size
  | none => ∃ shape : TextureShape, shape.Holds mode max size

theorem placeable_iff (hmax : 1 ≤ max) {overrides : List (VarId × TextureShape)} {v : VarId} :
    Placeable overrides mode max v size ↔
      (choose overrides mode max v size).Holds mode max size := by
  unfold Placeable choose
  cases overrides.lookup v with
  | some shape => exact Iff.rfl
  | none => exact (holds_derive_iff hmax).symm

end TextureShape

/-! ## All variables -/

namespace Graph

section

variable {α : Type} {g : Graph α} {vars : List VarId} {max : Nat} {mode : ChannelMode}
  {overrides : List (VarId × TextureShape)}

/-- The check accepts a graph if all its variables have known shapes and can be placed. -/
theorem checkTextures_ok_iff (hmax : 1 ≤ max) (hlimit : max < 0x80000000)
    (hvars : g.reachable = .ok vars) : g.checkTextures max mode overrides = .ok () ↔
      ∀ v ∈ vars, ∃ t, ∃ ns : List Nat, g.tensor v = .ok t ∧ t.type.shape = ns.map .known ∧
        TextureShape.Placeable overrides mode max v ns.prod := by
  unfold checkTextures
  rw [hvars]
  refine forM_ok_iff.trans (forall₂_congr fun v _ => ?_)
  simp only [bind_ok_iff, mapError_ok_iff, TextureShape.check_ok_iff hlimit,
    TextureShape.placeable_iff hmax, concreteSize_ok_iff]
  constructor
  · rintro ⟨t, ht, _, ⟨ns, hshape, rfl⟩, h⟩
    exact ⟨t, ns, ht, hshape, h⟩
  · rintro ⟨t, ns, ht, hshape, h⟩
    exact ⟨t, ht, _, ⟨ns, hshape, rfl⟩, h⟩

/-- The pass ends as the check does, and leaves everything as it was. -/
theorem run_checkTextureLimit (g : Graph α) (s : Supply) :
    Id.run (((checkTextureLimit max mode overrides).run.run.run g).run s) =
      (((g.checkTextures max mode overrides).map fun _ => false, g), s) := by
  unfold checkTextureLimit
  rw [PassM.run_bind]
  show Id.run (((liftM (g.checkTextures max mode overrides) >>= fun _ => pure false :
    PassM α Bool).run.run g).run s) = _
  rw [PassM.run_bind]
  cases h : g.checkTextures max mode overrides with
  | ok u => rfl
  | error e => rfl

/-- The texture limit accepts a graph exactly if all its variables can be placed: each has a known
shape, and its configured texture is within the limit and holds its scalars, or without one, some
rectangle within the limit does. The graph is left unchanged, whatever the outcome is. -/
theorem checkTextureLimit_exact [Scalar α] {s₀ : Supply} (hg : Reached s₀ g) (hc : ¬g.Circular)
    (hmax : 1 ≤ max) (hlimit : max < 0x80000000) (mode : ChannelMode)
    (overrides : List (VarId × TextureShape)) :
    ∃ vars r, g.reachable = .ok vars ∧
      (∀ s, Id.run (((checkTextureLimit max mode overrides).run.run.run g).run s) = ((r, g), s)) ∧
      (r = .ok false ∨ ∃ e, r = .error e) ∧
      (r = .ok false ↔ ∀ v ∈ vars, ∃ t, ∃ ns : List Nat, g.tensor v = .ok t ∧
        t.type.shape = ns.map .known ∧ TextureShape.Placeable overrides mode max v ns.prod) := by
  obtain ⟨ops, hops⟩ : ∃ ops, g.topologicalOrder = .ok ops := by
    cases hops : g.topologicalOrder with
    | ok ops => exact ⟨ops, rfl⟩
    | error e =>
      obtain ⟨v, o, c, -, ho, hreach, hcircle⟩ := topologicalOrder_error hg.wellformed hops
      exact absurd ⟨c, (needed_of_root ho).reach hreach, hcircle⟩ hc
  obtain ⟨vars, hvars⟩ := reachable_ok hg.wellformed hops
  refine ⟨vars, _, hvars, run_checkTextureLimit g, ?_, ?_⟩
  · cases g.checkTextures max mode overrides with
    | ok u => exact .inl rfl
    | error e => exact .inr ⟨e, rfl⟩
  · rw [← checkTextures_ok_iff hmax hlimit hvars, map_ok_iff]
    exact ⟨fun ⟨_, h, _⟩ => h, fun h => ⟨(), h, rfl⟩⟩

end

theorem not_circular_packed : ¬packed.Circular := by
  rintro ⟨o, ho, -⟩
  induction ho with
  | @output v o hv _ hp =>
    rcases List.mem_cons.1 (show v ∈ [⟨0⟩, ⟨1⟩, ⟨2⟩] from hv) with rfl | hv
    · cases hp
    rcases List.mem_cons.1 hv with rfl | hv
    · cases hp
    · cases List.mem_singleton.1 hv
      cases hp
  | read _ _ ih => exact ih

/-- One texel of four channels is enough for each of the constants. One scalar does not do for two
elements, even if larger textures are allowed. -/
theorem checkTextureLimit_packed : Reached {} packed ∧ ¬packed.Circular ∧
    (∀ s, Id.run (((checkTextureLimit 1 .rgba []).run.run.run packed).run s) =
      ((.ok false, packed), s)) ∧
    ∃ e, ∀ s, Id.run (((checkTextureLimit 2 .r [(⟨0⟩, ⟨1, 1⟩)]).run.run.run packed).run s) =
      ((.error e, packed), s) := by
  have hg := built_packed.reached
  have hvars : packed.reachable = .ok [⟨0⟩, ⟨1⟩, ⟨2⟩] := rfl
  refine ⟨hg, not_circular_packed, ?_, ?_⟩
  · obtain ⟨vars, r, hvars', hrun, -, haccept⟩ := checkTextureLimit_exact hg not_circular_packed
      (by decide : 1 ≤ 1) (by decide) .rgba []
    obtain rfl := Except.ok.inj (hvars.symm.trans hvars')
    have placed : ∀ {v n}, n ≤ 4 → TextureShape.Placeable [] .rgba 1 v n :=
      fun hn => ⟨⟨1, 1⟩, Nat.le_refl _, Nat.le_refl _, hn⟩
    obtain rfl := haccept.2 (List.forall_mem_cons.2 ⟨⟨_, [2], rfl, rfl, placed (by decide)⟩,
      List.forall_mem_cons.2 ⟨⟨_, [0], rfl, rfl, placed (by decide)⟩,
        List.forall_mem_singleton.2 ⟨_, [1], rfl, rfl, placed (by decide)⟩⟩⟩)
    exact hrun
  · obtain ⟨vars, r, hvars', hrun, houtcome, haccept⟩ := checkTextureLimit_exact hg
      not_circular_packed (by decide : 1 ≤ 2) (by decide) .r [(⟨0⟩, ⟨1, 1⟩)]
    obtain rfl := Except.ok.inj (hvars.symm.trans hvars')
    rcases houtcome with rfl | ⟨e, rfl⟩
    · obtain ⟨t, ns, ht, hshape, hplaced⟩ := haccept.1 rfl ⟨0⟩ (List.mem_cons_self ..)
      cases ht
      obtain rfl : ns = [2] := map_known_injective hshape.symm
      exact absurd hplaced.capacity (by decide)
    · exact ⟨e, hrun⟩

end Graph

end TensorCompiler
