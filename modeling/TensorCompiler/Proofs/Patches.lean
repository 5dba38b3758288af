import TensorCompiler.Proofs.Injection
import TensorCompiler.Proofs.Naming
/-!
# Patches

Symbolic integers of a meta table are written when their values are known. Here it is shown that an
injection for linear memory leaves a patch for each of them and for nothing else, so that after the
patches are applied the loader reads the values of all dimensions.

* `MetaTable.patched`: a meta table with the values of its patches.
* `Binding.Holds`: a value stands for a binding under a valuation of the dimensions.
* `Injection.keeps_holds`: injection establishes it for the patched table.
* `patches_of_inject`, `binds_of_patches`: the patches of an injection are those of its table, for
  symbolic dimensions of its bindings.
-/

namespace TensorCompiler

/-- Writes the value of a dimension to its entry of a meta table. -/
def Patch.write (val : Dim → Nat) (entries : List Nat) (p : Patch) : List Nat :=
  match p.site with
  | .table index => entries.set index (val p.dim)
  | .uniform .. => entries

/-- The table with the values of its patches. -/
def MetaTable.patched (val : Dim → Nat) (t : MetaTable) : MetaTable :=
  { entries := t.patches.foldl (Patch.write val) t.entries }

/-- The dimensions that are written out for a binding. -/
def Binding.dims {α : Type} : Binding α → List Dim
  | .buffer a => [a.offset]
  | .int x => [x]
  | .ints xs => xs
  | .float _ => []
  | .sampler _ => []

/-- The value that the loader provides stands for this binding under a valuation. -/
def Binding.Holds {α : Type} (val : Dim → Nat) (table : MetaTable) (value : BoundValue α) :
    Binding α → Prop
  | .buffer a => value.buffer? = some a
  | .int x => value.ints? table = some [val x]
  | .ints xs => value.ints? table = some (xs.map val)
  | .float x => value.float? = some x
  | .sampler v => value.sampler? = some v

/-- A valuation of dimensions that leaves the known ones alone. -/
def Dim.Respects (val : Dim → Nat) : Prop := ∀ n, val (.known n) = n

theorem Dim.respects_stored : Dim.Respects Dim.stored := fun _ => rfl

/-! ## The meta table -/

section

variable {val : Dim → Nat} {P : Dim → Prop} {t t' : MetaTable}

/-- Every patch is for an entry of the table, and for a dimension of a kind. -/
def MetaTable.Patchable (P : Dim → Prop) (t : MetaTable) : Prop :=
  ∀ p ∈ t.patches, P p.dim ∧ ∃ index, p.site = .table index ∧ index < t.entries.length

theorem MetaTable.patchable_empty : MetaTable.Patchable P {} := fun p hp => by cases hp

theorem length_foldl_write (patches : List Patch) (entries : List Nat) :
    (patches.foldl (Patch.write val) entries).length = entries.length := by
  induction patches generalizing entries with
  | nil => rfl
  | cons p patches ih =>
    rw [List.foldl_cons, ih]
    unfold Patch.write
    split
    · exact List.length_set
    · rfl

/-- Patches of the front of a table leave what is behind it alone. -/
theorem foldl_write_append {patches : List Patch} {entries : List Nat} (more : List Nat)
    (h : ∀ p ∈ patches, ∃ index, p.site = .table index ∧ index < entries.length) :
    patches.foldl (Patch.write val) (entries ++ more) =
      patches.foldl (Patch.write val) entries ++ more := by
  induction patches generalizing entries with
  | nil => rfl
  | cons p patches ih =>
    obtain ⟨⟨index, hsite, hlt⟩, hpatches⟩ := List.forall_mem_cons.1 h
    have hwrite : p.write val (entries ++ more) = p.write val entries ++ more := by
      simp only [Patch.write, hsite]
      exact List.set_append_left _ _ hlt
    have hlen : (p.write val entries).length = entries.length := length_foldl_write [p] entries
    rw [List.foldl_cons, List.foldl_cons, hwrite, ih fun q hq => hlen.symm ▸ hpatches q hq]

theorem MetaTable.Patchable.sites (h : t.Patchable P) :
    ∀ p ∈ t.patches, ∃ index, p.site = .table index ∧ index < t.entries.length :=
  fun p hp => (h p hp).2

/-- A pushed dimension is read back by its value. -/
theorem push_patched (hval : Dim.Respects val) (ht : t.Patchable P) {x : Dim} {index : Nat}
    (hx : x.known? = none → P x) (h : t.push x = .ok (index, t')) : t'.Patchable P ∧
      (t'.patched val).entries = (t.patched val).entries ++ [val x] := by
  have hlonger : ∀ n, ∀ p ∈ t.patches,
      P p.dim ∧ ∃ index, p.site = .table index ∧ index < (t.entries ++ [n]).length := by
    intro n p hp
    obtain ⟨hdim, index, hsite, hlt⟩ := ht p hp
    exact ⟨hdim, index, hsite, Nat.lt_of_lt_of_le hlt (by simp)⟩
  unfold MetaTable.push at h
  simp only [] at h
  split at h
  · next n hn =>
    simp only [bind_ok_iff, pure_ok_iff] at h
    obtain ⟨m, hm, h⟩ := h
    obtain ⟨rfl, -⟩ := fitInt32_ok_iff.1 hm
    cases h
    refine ⟨hlonger m, ?_⟩
    rw [MetaTable.patched, foldl_write_append _ ht.sites, Dim.known?_eq_some_iff.1 hn, hval]
    rfl
  · next hn =>
    cases h
    constructor
    · refine List.forall_mem_append.2 ⟨hlonger 0, List.forall_mem_singleton.2 ⟨hx hn, ?_⟩⟩
      exact ⟨t.entries.length, rfl, by simp⟩
    · have hlen : (t.patched val).entries.length = t.entries.length := length_foldl_write _ _
      have hfront : t.patches.foldl (Patch.write val) (t.entries ++ [0]) =
          (t.patched val).entries ++ [0] := foldl_write_append _ ht.sites
      show (t.patches ++ [(⟨x, .table t.entries.length⟩ : Patch)]).foldl (Patch.write val)
        (t.entries ++ [0]) = _
      rw [List.foldl_append, hfront, List.foldl_cons, List.foldl_nil, ← hlen]
      simp [Patch.write]

theorem extend_patched (hval : Dim.Respects val) (ht : t.Patchable P) {xs : List Dim} {offset : Nat}
    (hxs : ∀ x ∈ xs, x.known? = none → P x) (h : t.extend xs = (.ok offset, t')) :
    t'.Patchable P ∧ (t'.patched val).entries = (t.patched val).entries ++ xs.map val := by
  induction xs generalizing t offset with
  | nil =>
    cases h
    exact ⟨ht, by simp⟩
  | cons x xs ih =>
    obtain ⟨hx, hxs⟩ := List.forall_mem_cons.1 hxs
    unfold MetaTable.extend at h
    split at h
    · cases h
    · next index t₁ hpush =>
      obtain ⟨ht₁, hentries⟩ := push_patched hval ht hx hpush
      cases hrest : t₁.extend xs with
      | mk result t₂ =>
        rw [hrest] at h
        cases result with
        | error e => cases h
        | ok offset' =>
          cases h
          obtain ⟨ht', hentries'⟩ := ih ht₁ hxs hrest
          exact ⟨ht', by rw [hentries', hentries, List.append_assoc]; rfl⟩

theorem length_patched (val : Dim → Nat) (t : MetaTable) :
    (t.patched val).entries.length = t.entries.length := length_foldl_write _ _

end

/-! ## Rendering -/

section

variable {α : Type} {d : Dialect} {name : String} {P : Dim → Prop} {t t' : MetaTable}
  {r : Rendered α}

/-- The table stays patchable, and only grows behind, whatever the values of the dimensions. -/
structure MetaTable.Extends (P : Dim → Prop) (t t' : MetaTable) : Prop where
  patchable : t'.Patchable P
  continues : ∀ val, Dim.Respects val → (t.patched val).Continues (t'.patched val)

theorem MetaTable.Extends.refl (h : t.Patchable P) : t.Extends P t :=
  ⟨h, fun _ _ => .refl _⟩

theorem holds_loadInt {x : Dim} (ht : t.Patchable P) (hx : x.known? = none → P x)
    (h : d.loadInt name x t = .ok (r, t')) : t.Extends P t' ∧
      ∀ val, Dim.Respects val → (Binding.int x).Holds val (t'.patched val) r.value := by
  unfold Dialect.loadInt at h
  split at h
  · next n hn =>
    simp only [bind_ok_iff, pure_ok_iff] at h
    obtain ⟨m, -, h⟩ := h
    cases h
    refine ⟨.refl ht, fun val hval => ?_⟩
    rw [Dim.known?_eq_some_iff.1 hn]
    exact congrArg (fun n => some [n]) (hval n).symm
  · split at h
    · cases h
    · simp only [bind_ok_iff, pure_ok_iff] at h
      obtain ⟨⟨index, t₁⟩, hpush, h⟩ := h
      cases h
      have hpatched := fun val (hval : Dim.Respects val) => push_patched hval ht hx hpush
      refine ⟨⟨(hpatched _ Dim.respects_stored).1, fun val hval => ⟨_, (hpatched val hval).2⟩⟩,
        fun val hval => ?_⟩
      have hread := ints?_of_appended (α := α) (hpatched val hval).2
      rwa [length_patched, ← (push_ok hpush).1] at hread

theorem holds_loadInts {xs : List Dim} (ht : t.Patchable P) (hxs : ∀ x ∈ xs, x.known? = none → P x)
    (h : d.loadInts name xs t = .ok (r, t')) : t.Extends P t' ∧
      ∀ val, Dim.Respects val → (Binding.ints xs).Holds val (t'.patched val) r.value := by
  unfold Dialect.loadInts at h
  split at h
  · cases h
  · simp only [bind_ok_iff, pure_ok_iff] at h
    obtain ⟨offset, hoffset, h⟩ := h
    cases h
    have hextend : t.extend xs = (.ok offset, (t.extend xs).2) := Prod.ext hoffset rfl
    have hpatched := fun val (hval : Dim.Respects val) => extend_patched hval ht hxs hextend
    refine ⟨⟨(hpatched _ Dim.respects_stored).1, fun val hval => ⟨_, (hpatched val hval).2⟩⟩,
      fun val hval => ?_⟩
    have hread := ints?_of_appended (α := α) (hpatched val hval).2
    rwa [length_patched, List.length_map, ← (extend_ok hextend).1] at hread

theorem holds_loadRegion {a : Allocation} (ht : t.Patchable P)
    (hx : a.offset.known? = none → P a.offset)
    (h : d.loadRegion name a t = .ok (r, t')) : t.Extends P t' ∧
      ∀ val, Dim.Respects val → (Binding.buffer a).Holds val (t'.patched val) r.value := by
  have pushed : ∀ {index t₁}, t.push a.offset = .ok (index, t₁) → t.Extends P t₁ := fun hpush =>
    ⟨(push_patched Dim.respects_stored ht hx hpush).1,
      fun val hval => ⟨_, (push_patched hval ht hx hpush).2⟩⟩
  unfold Dialect.loadRegion at h
  split at h
  · cases h
    exact ⟨.refl ht, fun _ _ => rfl⟩
  · simp only [bind_ok_iff, pure_ok_iff] at h
    obtain ⟨⟨index, t₁⟩, hpush, h⟩ := h
    cases h
    exact ⟨pushed hpush, fun _ _ => rfl⟩
  · simp only [bind_ok_iff, pure_ok_iff] at h
    obtain ⟨address, -, h⟩ := h
    cases h
    exact ⟨.refl ht, fun _ _ => rfl⟩
  · simp only [bind_ok_iff, pure_ok_iff] at h
    obtain ⟨base, -, ⟨index, t₁⟩, hpush, h⟩ := h
    cases h
    exact ⟨pushed hpush, fun _ _ => rfl⟩
  · cases h

theorem Binding.Holds.continues {val : Dim → Nat} {value : BoundValue α} {b : Binding α}
    (h : t.Continues t') (hb : b.Holds val t value) : b.Holds val t' value := by
  cases b with
  | int x => exact ints?_of_continues h hb
  | ints xs => exact ints?_of_continues h hb
  | buffer a => exact hb
  | float x => exact hb
  | sampler v => exact hb

variable [ScalarText α] {injector : Injector α}

/-- The symbolic dimension is one of a binding. -/
def Injector.Binds (injector : Injector α) (x : Dim) : Prop :=
  x.known? = none ∧ ∃ name b, injector.bindings.get? name = some b ∧ x ∈ b.dims

/-- Over linear memory, the values of the patched table stand for the bindings. -/
theorem Injection.keeps_holds (hd : injector.dialect ≠ .glsl) :
    Injection.Keeps injector (MetaTable.Patchable injector.Binds) fun table value b =>
      ∀ val, Dim.Respects val → b.Holds val (table.patched val) value where
  empty := MetaTable.patchable_empty
  load {name b t r t'} hb ht h := by
    have hbinds : ∀ x ∈ b.dims, x.known? = none → injector.Binds x := fun x hx hn =>
      ⟨hn, name, b, hb, hx⟩
    suffices t.Extends injector.Binds t' ∧
        ∀ val, Dim.Respects val → b.Holds val (t'.patched val) r.value from
      ⟨this.1.patchable, this.2, fun value b hvalue val hval =>
        (hvalue val hval).continues (this.1.continues val hval)⟩
    cases b with
    | int x => exact holds_loadInt ht (hbinds x (List.mem_singleton_self x)) h
    | ints xs => exact holds_loadInts ht hbinds h
    | buffer a => exact holds_loadRegion ht (hbinds a.offset (List.mem_singleton_self _)) h
    | float x =>
      simp only [Dialect.load, bind_ok_iff, pure_ok_iff] at h
      obtain ⟨text, -, h⟩ := h
      cases h
      exact ⟨.refl ht, fun _ _ => rfl⟩
    | sampler v => cases h
  uniform _ _ h := by
    rw [Dialect.uniform, if_pos hd] at h
    cases h

theorem Injection.uniformPatches_step {s s' : Injection α} {segment : Segment}
    (hd : injector.dialect ≠ .glsl) (h : s.step injector segment = .ok s') :
    s'.uniformPatches = s.uniformPatches := by
  cases writes_of_step h with
  | text => rfl
  | unbound => rfl
  | again => rfl
  | first hname _ _ hrender =>
    rcases render_cases hname hrender with ⟨r, table, -, -, rfl⟩ | ⟨_, _, _, -, huniform, -⟩
    · rfl
    · rw [Dialect.uniform, if_pos hd] at huniform
      cases huniform

/-- Over linear memory there are no uniforms, and so no patches of uniforms. -/
theorem patches_of_inject {template : Template} {injected : Injected α}
    (hd : injector.dialect ≠ .glsl) (h : injector.inject template = .ok injected) :
    injected.patches = injected.table.patches := by
  obtain ⟨-, s, hs, rfl⟩ := inject_ok h
  have hnone : s.uniformPatches = [] :=
    foldlM_ok_induction (P := fun s : Injection α => s.uniformPatches = []) hs rfl
      fun s segment s' _ hnone hstep => (Injection.uniformPatches_step hd hstep).trans hnone
  show s.table.patches ++ s.uniformPatches = s.table.patches
  rw [hnone, List.append_nil]

/-- Every patch is for a symbolic dimension of a binding. -/
theorem binds_of_patches {template : Template} {injected : Injected α}
    (hd : injector.dialect ≠ .glsl) (h : injector.inject template = .ok injected) :
    ∀ p ∈ injected.patches, injector.Binds p.dim := by
  obtain ⟨s, hrecorded, htable, -⟩ := inject_recorded (Injection.keeps_holds hd) h
  rw [patches_of_inject hd h, ← htable]
  exact fun p hp => (hrecorded.table p hp).1

end

end TensorCompiler
