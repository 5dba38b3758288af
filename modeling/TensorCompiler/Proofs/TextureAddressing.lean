import TensorCompiler.Proofs.Execution
import TensorCompiler.Proofs.Generation
/-!
# Addresses in textures

A texture keeps the scalars of a tensor texel by texel and row by row. The limit on textures, the
layout and the arithmetic of the shaders are three separate pieces, and together they give every
scalar of a tensor a place of its own inside its texture, whatever the limit, the packing and the
configured shapes are, even where the last texel and the last row are filled only partly.

* `TextureShape.place`: where a scalar is; `Kernel.fetch?_eq`: that is where shaders read it.
* `TextureShape.scalarAt_place`: a fragment computes its scalars from these places.
* `TextureAllocation.Addressable`: all places are inside, and none is shared.
* `Glsl.addressable_of_prepare`: the theorem about the preparation of the backend.
-/

namespace TensorCompiler

/-! ## Places of scalars -/

/-- A scalar of a texture. -/
structure TexelPlace where
  column : Nat
  row : Nat
  channel : Nat
  deriving DecidableEq

namespace TextureShape

/-- The place of the scalar of a given index. -/
def place (s : TextureShape) (channels i : Nat) : TexelPlace :=
  ⟨i / channels % s.width, i / channels / s.width, i % channels⟩

/-- The index of the scalar at a place. -/
def scalarAt (s : TextureShape) (channels : Nat) (p : TexelPlace) : Nat :=
  (p.row * s.width + p.column) * channels + p.channel

/-- The place lies in the texture. -/
def Contains (s : TextureShape) (channels : Nat) (p : TexelPlace) : Prop :=
  p.column < s.width ∧ p.row < s.height ∧ p.channel < channels

variable {s : TextureShape} {channels : Nat}

theorem scalarAt_place (i : Nat) : s.scalarAt channels (s.place channels i) = i := by
  rw [scalarAt, place, Nat.mul_comm _ s.width, Nat.div_add_mod, Nat.mul_comm, Nat.div_add_mod]

theorem place_injective {i j : Nat} (h : s.place channels i = s.place channels j) : i = j := by
  have hi : s.scalarAt channels (s.place channels i) = i := scalarAt_place i
  rw [← hi, h, scalarAt_place]

/-- The scalars that a texture can hold have their places in it. -/
theorem contains_place {i : Nat} (hi : i < s.texels * channels) :
    s.Contains channels (s.place channels i) := by
  have hpos : 0 < s.width * s.height * channels := Nat.zero_lt_of_lt hi
  have hchannels : 0 < channels := Nat.pos_of_mul_pos_left hpos
  have hwidth : 0 < s.width := Nat.pos_of_mul_pos_right (Nat.pos_of_mul_pos_right hpos)
  refine ⟨Nat.mod_lt _ hwidth, ?_, Nat.mod_lt _ hchannels⟩
  exact Nat.div_lt_of_lt_mul (Nat.div_lt_of_lt_mul (Nat.mul_comm channels _ ▸ hi))

/-- All places in a texture are those of its scalars. -/
theorem scalarAt_lt {p : TexelPlace} (h : s.Contains channels p) :
    s.scalarAt channels p < s.texels * channels := by
  obtain ⟨hcolumn, hrow, hchannel⟩ := h
  have htexel : p.row * s.width + p.column < s.texels := by
    calc p.row * s.width + p.column < (p.row + 1) * s.width := by
          rw [Nat.succ_mul]
          omega
      _ ≤ s.height * s.width := Nat.mul_le_mul_right _ hrow
      _ = s.texels := Nat.mul_comm ..
  calc s.scalarAt channels p < (p.row * s.width + p.column + 1) * channels := by
        rw [scalarAt, Nat.succ_mul]
        omega
    _ ≤ s.texels * channels := Nat.mul_le_mul_right _ htexel

end TextureShape

/-! ## The arithmetic of the shaders -/

section

variable {α : Type} {k : Kernel α} {textures : Textures α} {t : Texture α} {v : VarId}
  {name : String}

/-- A shader fetches a scalar from its place. -/
theorem Kernel.fetch?_eq (hsampler : k.sampler? name = some v) (ht : textures v = some t)
    (hchannels : k.int? "channels" = some t.channels)
    (hwidth : k.textureWidth? name = some t.shape.width) {i : Nat}
    (hi : i < t.shape.texels * t.channels) :
    k.fetch? textures name i = t.scalars[i]? := by
  have hplace := TextureShape.contains_place hi
  have hpos : ¬(t.channels = 0 ∨ t.shape.width = 0) := by
    obtain ⟨hcolumn, -, hchannel⟩ := hplace
    have := Nat.zero_lt_of_lt hcolumn
    have := Nat.zero_lt_of_lt hchannel
    omega
  have hread : t.scalar? (i / t.channels % t.shape.width) (i / t.channels / t.shape.width)
      (i % t.channels) = t.scalars[i]? := by
    rw [Texture.scalar?]
    refine (if_pos hplace).trans ?_
    exact congrArg (t.scalars[·]?) (TextureShape.scalarAt_place (s := t.shape) i)
  simp only [fetch?, hchannels, hwidth, hsampler, ht, Option.bind_eq_bind, Option.bind_some,
    if_neg hpos, hread]

/-- A fragment computes the scalars that have their places in its texel. -/
theorem Kernel.fragment?_place [Scalar α] {shape : TextureShape} {channels size : Nat}
    (hchannels : k.int? "channels" = some channels)
    (hwidth : k.textureWidth? "y" = some shape.width) (hsize : k.int? "y_size" = some size) {i : Nat}
    (hi : i < shape.texels * channels) :
    k.fragment? textures (shape.place channels i).column (shape.place channels i).row
        (shape.place channels i).channel =
      if i < size then k.element? Glsl.maxRank (k.fetch? textures) i else some Scalar.zero := by
  obtain ⟨-, -, hchannel⟩ := TextureShape.contains_place hi
  have hindex : ((shape.place channels i).row * shape.width + (shape.place channels i).column) *
      channels + (shape.place channels i).channel = i := TextureShape.scalarAt_place i
  simp only [fragment?, hchannels, hwidth, hsize, Option.bind_eq_bind, Option.bind_some, hindex,
    hchannel, true_and]

end

/-! ## Prepared textures -/

/-- All scalars have places in the texture, each its own. -/
structure TextureAllocation.Addressable (a : TextureAllocation) : Prop where
  inside : ∀ i < a.size,
    a.shape.Contains a.channelMode.channels (a.shape.place a.channelMode.channels i)
  injective : ∀ i < a.size, ∀ j < a.size,
    a.shape.place a.channelMode.channels i = a.shape.place a.channelMode.channels j → i = j

theorem TextureAllocation.addressable {a : TextureAllocation}
    (h : a.size ≤ a.shape.texels * a.channelMode.channels) : a.Addressable where
  inside _ hi := TextureShape.contains_place (Nat.lt_of_lt_of_le hi h)
  injective _ _ _ _ e := TextureShape.place_injective e

/-- A texture has as many scalars as it has places. -/
theorem TextureAllocation.Addressable.size_le {a : TextureAllocation} (h : a.Addressable) :
    a.size ≤ a.shape.texels * a.channelMode.channels := by
  refine Nat.le_of_not_lt fun hlt => ?_
  have := TextureShape.scalarAt_lt (h.inside _ hlt)
  rw [TextureShape.scalarAt_place] at this
  exact Nat.lt_irrefl _ this

/-- What the check of a texture accepts. -/
theorem TextureShape.check_ok {shape : TextureShape} {mode : ChannelMode} {max : Nat} {v : VarId}
    {t : TensorType} {size : Nat} (h : shape.check mode max v t size = .ok ()) :
    shape.width ≤ max ∧ shape.height ≤ max ∧ size ≤ shape.texels * mode.channels := by
  unfold check capacity? at h
  cases hfits : shape.fits max with
  | false =>
    rw [hfits] at h
    cases h
  | true =>
    rw [hfits] at h
    obtain ⟨hwidth, hheight⟩ := of_decide_eq_true hfits
    refine ⟨hwidth, hheight, ?_⟩
    by_cases hlimit : shape.texels * mode.channels < wordLimit
    · rw [if_pos hlimit] at h
      simp only [Bool.not_true, Bool.false_eq_true, if_false] at h
      split at h
      · cases h
      · next hsize => exact Nat.le_of_not_lt hsize
    · rw [if_neg hlimit] at h
      cases h

section

variable {α : Type} {g : Graph α} {config : Config} {layout : TextureLayout} {vars : List VarId}

/-- The texture of a variable has the configured shape, else the derived one, for all scalars. -/
def TextureAllocation.Backs (config : Config) (v : VarId) (t : TensorType)
    (a : TextureAllocation) : Prop :=
  t.concreteSize = .ok a.size ∧ a.channelMode = config.channelMode ∧
    a.shape = TextureShape.choose config.textureShapes config.channelMode config.maxTextureSize v
      a.size

/-- An offset for its constant leaves a texture as it is. -/
theorem TextureLayout.mem_placeConstants {offset : Nat}
    {entries : List (VarId × TextureAllocation × Option (Array α))} {e : VarId × TextureAllocation}
    (h : e ∈ placeConstants offset entries) : ∃ a data, (e.1, a, data) ∈ entries ∧
      e.2.shape = a.shape ∧ e.2.channelMode = a.channelMode ∧ e.2.size = a.size := by
  induction entries generalizing offset with
  | nil => cases h
  | cons entry entries ih =>
    obtain ⟨v, a, _ | data⟩ := entry
    · rcases List.mem_cons.1 h with rfl | h
      · exact ⟨a, none, List.mem_cons_self .., rfl, rfl, rfl⟩
      · obtain ⟨b, data, hmem, heq⟩ := ih h
        exact ⟨b, data, List.mem_cons_of_mem _ hmem, heq⟩
    · rcases List.mem_cons.1 h with rfl | h
      · exact ⟨a, some data, List.mem_cons_self .., rfl, rfl, rfl⟩
      · obtain ⟨b, data, hmem, heq⟩ := ih h
        exact ⟨b, data, List.mem_cons_of_mem _ hmem, heq⟩

theorem TextureLayout.mem_of_get? {v : VarId} {a : TextureAllocation} (h : layout.get? v = some a) :
    (v, a) ∈ layout.textures := by
  obtain ⟨pre, post, e, -⟩ := List.lookup_eq_some_iff.1 h
  exact e ▸ List.mem_append_right _ (List.mem_cons_self ..)

theorem TextureLayout.reachable_of_allocate (h : allocate g config = .ok layout) :
    ∃ vars, g.reachable = .ok vars := by
  unfold allocate at h
  obtain ⟨vars, hvars, -⟩ := bind_ok_iff.1 h
  exact ⟨vars, hvars⟩

/-- The textures of a layout back the variables that the outputs depend on. -/
theorem TextureLayout.backs_of_allocate (h : allocate g config = .ok layout)
    (hvars : g.reachable = .ok vars) :
    ∀ e ∈ layout.textures, e.1 ∈ vars ∧ ∃ t, g.tensor e.1 = .ok t ∧ e.2.Backs config e.1 t.type := by
  unfold allocate at h
  simp only [bind_ok_iff, mapM_ok_iff, pure_ok_iff] at h
  obtain ⟨vars', hvars', entries, hentries, rfl⟩ := h
  obtain rfl := Except.ok.inj (hvars.symm.trans hvars')
  intro e he
  obtain ⟨a, data, hmem, hshape, hmode, hsize⟩ := mem_placeConstants he
  have hmem := (List.mergeSort_perm entries _).mem_iff.1 hmem
  obtain ⟨v, hv, t, ht, b, hb, heq⟩ := exists_of_forall₂_right hentries hmem
  cases heq
  simp only [texture, bind_ok_iff, pure_ok_iff] at hb
  obtain ⟨size, hconcrete, rfl⟩ := hb
  exact ⟨hv, t, ht, hsize ▸ hconcrete, hmode, hsize ▸ hshape⟩

/-- What the limit on textures accepts. -/
theorem Graph.backed_of_checkTextures
    (h : g.checkTextures config.maxTextureSize config.channelMode config.textureShapes = .ok ())
    (hvars : g.reachable = .ok vars) {v : VarId} (hv : v ∈ vars) {t : Tensor α}
    (ht : g.tensor v = .ok t) {a : TextureAllocation} (ha : a.Backs config v t.type) :
    a.shape.width ≤ config.maxTextureSize ∧ a.shape.height ≤ config.maxTextureSize ∧
      a.Addressable := by
  unfold checkTextures at h
  obtain ⟨vars', hvars', h⟩ := bind_ok_iff.1 h
  obtain rfl := Except.ok.inj (hvars.symm.trans (mapError_ok_iff.1 hvars'))
  obtain ⟨t', ht', h⟩ := bind_ok_iff.1 (forM_ok_iff.1 h v hv)
  obtain rfl := Except.ok.inj (ht.symm.trans (mapError_ok_iff.1 ht'))
  obtain ⟨size, hsize, h⟩ := bind_ok_iff.1 h
  obtain ⟨hconcrete, hmode, hshape⟩ := ha
  obtain rfl := Except.ok.inj (hconcrete.symm.trans (mapError_ok_iff.1 hsize))
  obtain ⟨hwidth, hheight, hcapacity⟩ := TextureShape.check_ok h
  rw [← hshape] at hwidth hheight hcapacity
  exact ⟨hwidth, hheight, TextureAllocation.addressable (hmode ▸ hcapacity)⟩

/-- Texture addressing is safe and lossless. Whenever the texture backend prepares a graph, no
texture is longer than the limit, and every variable that the outputs depend on has a texture, of
the configured shape if there is one, in which all its scalars have their own places. -/
theorem Glsl.addressable_of_prepare {target : Target} {s s' : Supply}
    (h : Gives (backend.prepare g config) s target s') :
    (∀ e ∈ target.layout.textures, e.2.shape.width ≤ config.maxTextureSize ∧
      e.2.shape.height ≤ config.maxTextureSize) ∧
    ∃ vars, g.reachable = .ok vars ∧ ∀ v ∈ vars, ∃ t a, g.tensor v = .ok t ∧
      target.layout.get? v = some a ∧ a.Backs config v t.type ∧
      a.channelMode.channels = target.channels ∧ a.Addressable := by
  simp only [backend, gives_bind_iff, generates_pass_iff, generates_graph_iff,
    gives_pure_iff] at h
  obtain ⟨⟨⟩, _, ⟨hcheck, rfl⟩, layout, _, ⟨hlayout, rfl⟩, rfl, rfl⟩ := h
  obtain ⟨vars, hvars⟩ : ∃ vars, g.reachable = .ok vars := by
    unfold TextureLayout.allocate at hlayout
    obtain ⟨vars, hvars, -⟩ := bind_ok_iff.1 hlayout
    exact ⟨vars, hvars⟩
  have hbacks := TextureLayout.backs_of_allocate hlayout hvars
  refine ⟨fun e he => ?_, vars, hvars, fun v hv => ?_⟩
  · obtain ⟨hv, t, ht, ha⟩ := hbacks e he
    obtain ⟨hwidth, hheight, -⟩ := Graph.backed_of_checkTextures hcheck hvars hv ht ha
    exact ⟨hwidth, hheight⟩
  · obtain ⟨a, ha⟩ := (TextureLayout.placed_of_allocate hlayout).2 vars hvars v hv
    obtain ⟨-, t, ht, hback⟩ := hbacks (v, a) (TextureLayout.mem_of_get? ha)
    obtain ⟨-, -, haddressable⟩ := Graph.backed_of_checkTextures hcheck hvars hv ht hback
    exact ⟨t, a, ht, ha, hback, congrArg _ hback.2.1, haddressable⟩

end

/-! ## A configured shape -/

namespace Graph

/-- Seven elements along one axis. -/
def sevenType : TensorType := ⟨[.known 7], ⟨[.channel], List.nodup_singleton _⟩, rfl⟩

/-- Seven elements passed on. -/
def seven : Graph ℚ where
  slots := #[.live { type := sevenType, marks := [.input, .output] } none]
  declaredInputs := [⟨0⟩]
  declaredOutputs := [⟨0⟩]

/-- Two texels of four scalars, one above the other, where rows could be two texels long. -/
def columnConfig : Config :=
  { maxTextureSize := 2, channelMode := .rgba, textureShapes := [(⟨0⟩, ⟨1, 2⟩)] }

/-- The last of the seven elements is the third scalar of the second row. -/
theorem seven_addressable : ∃ target a,
    Gives (Glsl.backend.prepare seven columnConfig) {} target {} ∧
      target.layout.get? ⟨0⟩ = some a ∧ a.Addressable ∧ a.size = 7 ∧
      a.shape.place a.channelMode.channels 6 = ⟨0, 1, 2⟩ := by
  have hprepare : ∃ target, Gives (Glsl.backend.prepare seven columnConfig) {} target {} := ⟨_, rfl⟩
  obtain ⟨target, hprepare⟩ := hprepare
  obtain ⟨-, vars, hvars, hall⟩ := Glsl.addressable_of_prepare hprepare
  obtain rfl := Except.ok.inj ((rfl : seven.reachable = .ok [⟨0⟩]).symm.trans hvars)
  obtain ⟨t, a, ht, ha, ⟨hsize, hmode, hshape⟩, -, haddressable⟩ :=
    hall ⟨0⟩ (List.mem_singleton_self _)
  obtain rfl := Except.ok.inj ht
  have hsize : 7 = a.size := Except.ok.inj hsize
  refine ⟨target, a, hprepare, ha, haddressable, hsize.symm, ?_⟩
  rw [hmode, hshape, ← hsize]
  rfl

end Graph

end TensorCompiler
