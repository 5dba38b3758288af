import TensorCompiler.Proofs.Constants
import TensorCompiler.Proofs.FragmentKernel
/-!
# Textures as a machine

The texture backend holds a variable in the first scalars of its texture. A fragment kernel draws
the whole texture of its output and no other one, and leaves zeros behind the last element.

* `Kernel.exists_draw`: what a fragment kernel draws.
* `TextureLayout.Houses`: every texture of a layout has room for its variable.
* `TextureLayout.Held`: all textures of a layout are there.
* `TextureLayout.exists_render`: a fragment kernel draws the value of the output.
* `TextureLayout.serves`: textures under a layout compute the values of the graph.
-/

namespace TensorCompiler

open Dim

/-! ## Drawing -/

/-- A kernel whose loop computes the elements of an array draws them to the front of its texture. -/
theorem Kernel.exists_draw {α : Type} [Scalar α] {k : Kernel α} {textures : Textures α}
    {shape : TextureShape} {channels : Nat} {d : Array α}
    (hchannels : k.int? "channels" = some channels)
    (hwidth : k.textureWidth? "y" = some shape.width) (hsize : k.int? "y_size" = some d.size)
    (hroom : d.size ≤ shape.texels * channels)
    (helement : ∀ i < d.size, k.element? Glsl.maxRank (k.fetch? textures) i = d[i]?) :
    ∃ scalars, k.draw? textures shape channels = some scalars ∧
      scalars.size = shape.texels * channels ∧ load? scalars 0 d.size = some d := by
  have hmap : (List.range (shape.texels * channels)).mapM (fun p =>
      k.fragment? textures (p / channels % shape.width) (p / channels / shape.width)
        (p % channels)) =
      some ((List.range (shape.texels * channels)).map fun p => d[p]?.getD Scalar.zero) := by
    rw [option_mapM_iff, List.forall₂_map_right_iff, List.forall₂_same]
    intro p hp
    refine (Kernel.fragment?_place hchannels hwidth hsize (List.mem_range.1 hp)).trans ?_
    split
    · next hlt => rw [helement p hlt, Array.getElem?_eq_getElem hlt, Option.getD_some]
    · next hge => rw [Array.getElem?_eq_none (Nat.le_of_not_lt hge), Option.getD_none]
  refine ⟨_, by simp only [draw?, hmap, Option.bind_eq_bind, Option.bind_some]; rfl, by simp, ?_⟩
  rw [load?_eq_some_iff]
  refine ⟨by simpa using hroom, rfl, fun i hi => ?_⟩
  simp [Array.getElem?_eq_getElem hi, hi.trans_le hroom]

/-- The texture of an allocation, with all its scalars. -/
structure Texture.Realizes {α : Type} (t : Texture α) (a : TextureAllocation) : Prop where
  shape : t.shape = a.shape
  channels : t.channels = a.channelMode.channels
  size : t.scalars.size = a.shape.texels * a.channelMode.channels

namespace Textures

variable {α : Type} {textures : Textures α} {v w : VarId} {t : Texture α}

theorem set_self : textures.set v t v = some t := if_pos rfl

theorem set_of_ne (h : w ≠ v) : textures.set v t w = textures w := if_neg h

end Textures

namespace TextureLayout

variable {α : Type} {layout : TextureLayout} {g : Graph α} {channels : Nat}

/-! ## Layouts of a graph -/

/-- Every variable that the outputs depend on has a texture with room for its elements. -/
structure Houses (layout : TextureLayout) (g : Graph α) (channels : Nat) : Prop where
  placed : ∀ vars, g.reachable = .ok vars → ∀ v ∈ vars, ∃ a, layout.get? v = some a
  size : ∀ v a t n, layout.get? v = some a → g.tensor v = .ok t → t.type.concreteSize = .ok n →
    a.size = n
  packing : ∀ v a, layout.get? v = some a → a.channelMode.channels = channels
  room : ∀ v a, layout.get? v = some a → a.size ≤ a.shape.texels * channels

theorem houses_of_allocate {config : Config} (h : allocate g config = .ok layout)
    (hcheck : g.checkTextures config.maxTextureSize config.channelMode config.textureShapes =
      .ok ()) : layout.Houses g config.channelMode.channels := by
  obtain ⟨vars, hvars⟩ := reachable_of_allocate h
  have hbacks : ∀ {v a}, layout.get? v = some a → v ∈ vars ∧ ∃ t, g.tensor v = .ok t ∧
      a.Backs config v t.type := fun ha => backs_of_allocate h hvars _ (mem_of_get? ha)
  refine ⟨(placed_of_allocate h).2, fun v a t n ha ht hn => ?_, fun v a ha => ?_, fun v a ha => ?_⟩
  · obtain ⟨-, t', ht', hback⟩ := hbacks ha
    obtain rfl := Except.ok.inj (ht.symm.trans ht')
    exact Except.ok.inj (hback.1.symm.trans hn)
  · obtain ⟨-, t, -, hback⟩ := hbacks ha
    rw [hback.2.1]
  · obtain ⟨hv, t, ht, hback⟩ := hbacks ha
    obtain ⟨-, -, haddressable⟩ := Graph.backed_of_checkTextures hcheck hvars hv ht hback
    exact hback.2.1 ▸ haddressable.size_le

/-! ## Textures of a layout -/

/-- What a texture is filled with before the feeds. -/
def filling (constants : Array α) (a : TextureAllocation) : Array α :=
  match a.constantOffset with
  | some offset => constants.extract offset (offset + a.size)
  | none => #[]

theorem size_filling_le (constants : Array α) (a : TextureAllocation) :
    (filling constants a).size ≤ a.size := by
  unfold filling
  split
  · rw [Array.size_extract]
    omega
  · exact Nat.zero_le _

/-- All textures of a layout are there. -/
def Held (layout : TextureLayout) (textures : Textures α) : Prop :=
  ∀ v a, layout.get? v = some a → ∃ t, textures v = some t ∧ t.Realizes a

section

variable {textures : Textures α} {v w : VarId} {a : TextureAllocation} {t : Texture α}

/-- Other textures stay when one is replaced. -/
theorem Held.set (h : layout.Held textures) (ha : layout.get? v = some a) (ht : t.Realizes a) :
    layout.Held (textures.set v t) := by
  intro w b hb
  by_cases hw : w = v
  · subst hw
    obtain rfl := Option.some.inj (ha.symm.trans hb)
    exact ⟨t, Textures.set_self, ht⟩
  · rw [Textures.set_of_ne hw]
    exact h w b hb

theorem contents?_set_self (ha : layout.get? v = some a) :
    layout.contents? (textures.set v t) v = load? t.scalars 0 a.size := by
  simp only [contents?, Textures.set_self, ha, Option.bind_eq_bind, Option.bind_some]

theorem contents?_set_of_ne (h : w ≠ v) :
    layout.contents? (textures.set v t) w = layout.contents? textures w := by
  simp only [contents?, Textures.set_of_ne h]

/-- What a texture holds are its first scalars. -/
theorem scalars_of_contents? {d : Array α} (ha : layout.get? v = some a) (ht : textures v = some t)
    (h : layout.contents? textures v = some d) {i : Nat} {x : α} (hx : d[i]? = some x) :
    t.scalars[i]? = some x := by
  simp only [contents?, ha, ht, Option.bind_eq_bind, Option.bind_some] at h
  obtain ⟨-, hsize, hcell⟩ := load?_eq_some_iff.1 h
  obtain ⟨hi, -⟩ := Array.getElem?_eq_some_iff.1 hx
  rw [← hx, ← hcell i (hsize ▸ hi), Nat.zero_add]

/-- Data with room in a texture fill its front. -/
theorem exists_storeAt (h : layout.Held textures) (ha : layout.get? v = some a) {d : Array α}
    (hsize : a.size = d.size) (hroom : a.size ≤ a.shape.texels * a.channelMode.channels) :
    ∃ textures', storeAt? textures (v, d) = some textures' ∧ layout.Held textures' ∧
      layout.contents? textures' v = some d ∧
      ∀ w, w ≠ v → layout.contents? textures' w = layout.contents? textures w := by
  obtain ⟨t, ht, hreal⟩ := h v a ha
  have hfit : 0 + d.size ≤ t.scalars.size := by
    rw [hreal.size]
    omega
  obtain ⟨scalars, hstore, hagree, hcells⟩ := exists_store hfit
  refine ⟨textures.set v { t with scalars }, ?_, h.set ha ⟨hreal.shape, hreal.channels,
    hagree.size.trans hreal.size⟩, ?_, fun w hw => contents?_set_of_ne hw⟩
  · simp only [storeAt?, ht, hstore, Option.bind_eq_bind, Option.bind_some]
    rfl
  · rw [contents?_set_self ha, hsize, load?_eq_some_iff]
    exact ⟨hagree.size ▸ hfit, rfl, hcells⟩

end

section

variable [Scalar α] {fed : Values α} {o : OpId} {n : Node α} {y : Operand} {xs : List Operand}
  {ds : List (Array α)} {d : Array α} {textures : Textures α} {k : Kernel α}

/-- Where the operands have their values in their textures, a kernel draws the value of the output
and changes no other texture. -/
theorem exists_render (hk : Glsl.EmittedFor ⟨layout, channels⟩ g o k)
    (h : g.ComputedFrom fed o n y xs ds d) (hn : g.node? o = some n)
    (hhouses : layout.Houses g channels) (hheld : layout.Held textures)
    (hxs : ∀ p ∈ xs.zip ds, layout.contents? textures p.1.var = some p.2) : ∃ textures',
    k.render? textures = some textures' ∧ layout.Held textures' ∧
      layout.contents? textures' y.var = some d ∧
      ∀ w, w ≠ y.var → layout.contents? textures' w = layout.contents? textures w := by
  obtain ⟨a, ha, hlaunch, hchannels, hwidth, hsize⟩ := hk.output h hn
  obtain ⟨t, ht, hreal⟩ := hheld y.var a ha
  have hpacking : a.channelMode.channels = channels := hhouses.packing _ _ ha
  have hcount : a.size = d.size := by
    obtain ⟨u, hu, rfl⟩ := h.output
    rw [h.size]
    refine hhouses.size _ a u _ ha hu (concreteSize_ok_iff.2 ⟨_, ?_, rfl⟩)
    exact TensorType.shape_eq_of_isConcrete (h.concrete _ (List.mem_cons_self ..))
  have hroom : d.size ≤ a.shape.texels * channels := hcount ▸ hhouses.room _ _ ha
  have helement : ∀ i < d.size, k.element? Glsl.maxRank (k.fetch? textures) i = d[i]? := by
    intro i hi
    have hloop := hk.loop h hn (Nat.zero_lt_of_lt hi)
    refine hloop.walks.element?_eq h.length h.determines ?_ hi
    intro name x e hname hxe j v hv
    obtain ⟨b, hb, hsampler, hwidth'⟩ := hloop.operand name x hname
    obtain ⟨u, hu, hreal'⟩ := hheld x.var b hb
    have hscalar := scalars_of_contents? hb hu (hxs _ hxe) hv
    have hj : j < u.shape.texels * u.channels := by
      rw [hreal'.shape, hreal'.channels, ← hreal'.size]
      exact (Array.getElem?_eq_some_iff.1 hscalar).1
    have hchannels' : k.int? "channels" = some u.channels := by
      rw [hchannels, hreal'.channels, hhouses.packing _ _ hb]
    exact (Kernel.fetch?_eq hsampler hu hchannels' (hreal'.shape ▸ hwidth') hj).trans hscalar
  obtain ⟨scalars, hdraw, hscalars, hload⟩ :=
    Kernel.exists_draw hchannels hwidth hsize hroom helement
  refine ⟨textures.set y.var { t with scalars }, ?_, hheld.set ha ⟨hreal.shape, hreal.channels,
    hpacking ▸ hscalars⟩, ?_, fun w hw => contents?_set_of_ne hw⟩
  · have htc : t.channels = channels := hreal.channels.trans hpacking
    simp only [Kernel.render?, hlaunch, ht, Option.bind_eq_bind, Option.bind_some, hreal.shape,
      htc, hdraw]
    rfl
  · rw [contents?_set_self ha, hcount]
    exact hload

end

/-! ## The machine -/

section

variable [Scalar α] {fed : Values α} {s : Supply}

/-- Textures under a layout. -/
def machine (layout : TextureLayout) : Machine (Textures α) α where
  contents? := layout.contents?
  storeAt? := storeAt?
  runs k a b := k.render? a = some b

theorem takesFeeds {ops : List OpId} (hg : g.Wellformed) (hhouses : layout.Houses g channels)
    (hops : g.topologicalOrder = .ok ops) : layout.machine.TakesFeeds g layout.Held := by
  intro textures v d t hheld hv ht hsize
  obtain ⟨vars, hvars⟩ := Graph.reachable_ok hg hops
  obtain ⟨a, ha⟩ := hhouses.placed vars hvars v
    ((Graph.mem_reachable_iff hops hvars).2 (.inl hv))
  obtain ⟨textures', hstore, hheld', hcontents, hothers⟩ := exists_storeAt hheld ha
    (hhouses.size v a t _ ha ht hsize) (hhouses.packing v a ha ▸ hhouses.room v a ha)
  exact ⟨textures', hstore, hheld', hcontents, fun w _ hw => hothers w hw⟩

/-- Textures under a layout compute the values of a graph, if there is room for all of them. -/
theorem serves (hb : Built s g) (hbound : g.Bound) (hhouses : layout.Houses g channels)
    {feeds : List (VarId × Array α)} (hfeed : feeds.foldlM g.feed {} = .ok fed) {ops : List OpId}
    (hops : g.topologicalOrder = .ok ops) :
    layout.machine.Serves g fed layout.Held (Glsl.EmittedFor ⟨layout, channels⟩ g) := by
  have hwf := hb.reached.wellformed
  refine Machine.serves_of_built hb hbound hfeed (takesFeeds hwf hhouses hops) ?_
  intro done o later k n y xs ds d textures _ hk hn hcomputed hheld hoperands
  obtain ⟨textures', hrender, hheld', hcontents, hothers⟩ :=
    exists_render hk hcomputed hn hhouses hheld fun p hp => (hoperands p hp).2
  obtain ⟨u, -, rfl⟩ := hcomputed.output
  refine ⟨⟨textures', hrender⟩, fun st' hrun => ?_⟩
  obtain rfl := Option.some.inj (hrender.symm.trans hrun)
  exact ⟨hheld', hcontents, fun w _ hw => hothers w hw⟩

theorem exists_blank (hhouses : layout.Houses g channels) (constants : Array α) {v : VarId}
    {a : TextureAllocation} (ha : layout.get? v = some a) : ∃ t,
    layout.blank constants v = some t ∧ t.Realizes a ∧
      load? t.scalars 0 (filling constants a).size = some (filling constants a) := by
  have hroom := hhouses.packing v a ha ▸ hhouses.room v a ha
  have hfit : 0 + (filling constants a).size ≤
      (Array.replicate (a.shape.texels * a.channelMode.channels) (Scalar.zero : α)).size := by
    have := size_filling_le constants a
    rw [Array.size_replicate]
    omega
  obtain ⟨scalars, hstore, hagree, hcells⟩ := exists_store hfit
  refine ⟨⟨a.shape, a.channelMode.channels, scalars⟩, ?_, ⟨rfl, rfl, ?_⟩,
    load?_eq_some_iff.2 ⟨hagree.size ▸ hfit, rfl, hcells⟩⟩
  · cases hoffset : a.constantOffset with
    | some offset =>
      rw [filling, hoffset] at hstore
      simp [blank, ha, hoffset, hstore]
    | none =>
      rw [filling, hoffset] at hstore
      simp [blank, ha, hoffset, hstore]
  · rw [hagree.size, Array.size_replicate]

/-- Before the feeds, all textures are there, and those of the constants hold their data. -/
theorem held_blank {config : Config} (hg : Reached s g) (h : allocate g config = .ok layout)
    (hhouses : layout.Houses g channels) {constants : Array α}
    (hconstants : layout.constants g = .ok constants) : layout.Held (layout.blank constants) ∧
      ∀ v vars t d, g.reachable = .ok vars → v ∈ vars → g.tensor v = .ok t → t.data = some d →
        layout.contents? (layout.blank constants) v = some d := by
  refine ⟨fun v a ha => ?_, fun v vars t d hvars hv ht hd => ?_⟩
  · obtain ⟨t, ht, hreal, -⟩ := exists_blank hhouses constants ha
    exact ⟨t, ht, hreal⟩
  · obtain ⟨ds, hsession⟩ := hg
    obtain ⟨a, ha⟩ := hhouses.placed vars hvars v hv
    obtain ⟨t', ht', -, hdata⟩ := load?_constants h hconstants ha
    obtain rfl := Except.ok.inj (ht.symm.trans ht')
    obtain ⟨start, hoffset, hload⟩ := hdata d hd
    obtain ⟨q, hslot⟩ := Graph.tensor_ok_iff.1 ht
    have hsize : a.size = d.size :=
      hhouses.size v a t d.size ha ht (concreteSize_ok_iff.2 ((hsession.sound v t q hslot).2 d hd))
    have hfilling : filling constants a = d := by
      rw [filling, hoffset, hsize]
      unfold load? at hload
      split at hload
      · exact Option.some.inj hload
      · cases hload
    obtain ⟨u, hu, -, hfilled⟩ := exists_blank hhouses constants ha
    rw [hfilling, ← hsize] at hfilled
    simp only [contents?, hu, ha, Option.bind_eq_bind, Option.bind_some, hfilled]

end

end TextureLayout

end TensorCompiler
