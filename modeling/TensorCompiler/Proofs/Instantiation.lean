import TensorCompiler.Proofs.Emission
import TensorCompiler.Proofs.Patches
import TensorCompiler.Proofs.Valuations
/-!
# Instantiated kernels

When the free symbols of a model get their values, the loader writes the value of every patch to the
meta table of its kernel. Whatever a kernel over linear memory reads from its tables then is the
value of the dimension that was bound: a symbolic dimension that is bound has a patch, since
otherwise the table could not follow its value.

* `Kernel.instantiate?`: a kernel under a valuation.
* `Kernel.ProvidesAt`: the loader reads the bindings back as numbers.
* `exists_patch_of_holds`: every symbolic dimension of a table has its patch.
* `provides_of_instantiate`: instantiation establishes `ProvidesAt` for the bindings of a kernel.
-/

namespace TensorCompiler

/-- Writes the value of a dimension to its entry of a meta table. -/
def Patch.fill? (env : Valuation) (entries : List Nat) (p : Patch) : Option (List Nat) := do
  let n ← p.dim.resolve env
  match p.site with
  | .table index => if index < entries.length then some (entries.set index n) else none
  | .uniform .. => none

/-- The kernel under a valuation, with all patches applied to its meta table. -/
def Kernel.instantiate? {α : Type} (env : Valuation) (k : Kernel α) : Option (Kernel α) := do
  let entries ← k.patches.foldlM (Patch.fill? env) k.table.entries
  return { k with table := { entries }, patches := [] }

/-! ## Bindings as numbers -/

section

variable {α : Type} {val : Dim → Option Nat}

/-- The value that the loader provides stands for this binding, with its dimensions read as
numbers. -/
def Binding.HoldsAt (val : Dim → Option Nat) (table : MetaTable) (value : BoundValue α) :
    Binding α → Prop
  | .buffer a => value.buffer? = some a
  | .int x => ∃ n, val x = some n ∧ value.ints? table = some [n]
  | .ints xs => ∃ ns, Dim.ReadAs val xs ns ∧ value.ints? table = some ns
  | .float x => value.float? = some x
  | .sampler v => value.sampler? = some v

/-- Under every name, the loader finds a value that stands for the binding. -/
def Kernel.ProvidesAt (val : Dim → Option Nat) (k : Kernel α) (entries : List (String × Binding α)) :
    Prop :=
  ∀ name b, (name, b) ∈ entries → ∃ value, k.value? name = some value ∧ b.HoldsAt val k.table value

namespace Kernel.ProvidesAt

variable {k : Kernel α} {entries : List (String × Binding α)} {name : String}

theorem ints (h : k.ProvidesAt val entries) {xs : List Dim} (hm : (name, .ints xs) ∈ entries) :
    ∃ ns, Dim.ReadAs val xs ns ∧ k.ints? name = some ns := by
  obtain ⟨value, hvalue, ns, hns, hread⟩ := h _ _ hm
  exact ⟨ns, hns, by simp [ints?, hvalue, hread]⟩

/-- The values of a binding whose dimensions are read as known numbers. -/
theorem ints_eq (h : k.ProvidesAt val entries) {xs : List Dim} {ns : List Nat}
    (hns : Dim.ReadAs val xs ns) (hm : (name, .ints xs) ∈ entries) : k.ints? name = some ns := by
  obtain ⟨ms, hms, hread⟩ := h.ints hm
  rw [hread, hms.unique hns]

theorem int (h : k.ProvidesAt val entries) {x : Dim} (hm : (name, .int x) ∈ entries) :
    ∃ n, val x = some n ∧ k.int? name = some n := by
  obtain ⟨value, hvalue, n, hn, hread⟩ := h _ _ hm
  exact ⟨n, hn, by simp [int?, ints?, hvalue, hread]⟩

theorem float (h : k.ProvidesAt val entries) {x : α} (hm : (name, .float x) ∈ entries) :
    k.float? name = some x := by
  obtain ⟨value, hvalue, hread⟩ := h _ _ hm
  have hread' : value.float? = some x := hread
  simp [float?, hvalue, hread']

theorem buffer (h : k.ProvidesAt val entries) {a : Allocation} (hm : (name, .buffer a) ∈ entries) :
    k.buffer? name = some a := by
  obtain ⟨value, hvalue, hread⟩ := h _ _ hm
  have hread' : value.buffer? = some a := hread
  simp [buffer?, hvalue, hread']

end Kernel.ProvidesAt

/-! ## Completeness of the patches -/

/-- The dimensions that are read from the table. -/
def Binding.tableDims : Binding α → List Dim
  | .int x => [x]
  | .ints xs => xs
  | _ => []

theorem patched_congr {value value' : Dim → Nat} {t : MetaTable}
    (h : ∀ p ∈ t.patches, value p.dim = value' p.dim) : t.patched value = t.patched value' := by
  have hfold : ∀ entries : List Nat,
      t.patches.foldl (Patch.write value) entries = t.patches.foldl (Patch.write value') entries :=
    fun entries => List.foldl_ext _ _ _ fun entries p hp => by
      unfold Patch.write
      rw [h p hp]
  rw [MetaTable.patched, hfold, MetaTable.patched]

/-- A table that follows the value of a symbolic dimension has a patch for it. -/
theorem exists_patch_of_holds {t : MetaTable} {b : Binding α} {value : BoundValue α} {x : Dim}
    (h : ∀ val, Dim.Respects val → b.Holds val (t.patched val) value) (hx : x ∈ b.tableDims)
    (hn : x.known? = none) : ∃ p ∈ t.patches, p.dim = x := by
  classical
  by_contra hnone
  push Not at hnone
  -- Another value for the dimension makes no difference to a table without a patch for it.
  let raised : Dim → Nat := fun d => if d = x then x.stored + 1 else d.stored
  have hraised : Dim.Respects raised := fun n => if_neg fun e => by
    rw [← e] at hn
    cases hn
  have htable : t.patched raised = t.patched Dim.stored :=
    patched_congr fun p hp => if_neg (hnone p hp)
  have hbefore := h _ Dim.respects_stored
  have hafter := htable ▸ h _ hraised
  suffices raised x = x.stored by simp [raised] at this
  cases b with
  | int y =>
    obtain rfl := List.mem_singleton.1 hx
    exact List.head_eq_of_cons_eq (Option.some.inj (hafter.symm.trans hbefore))
  | ints xs =>
    have hmap : xs.map raised = xs.map Dim.stored := Option.some.inj (hafter.symm.trans hbefore)
    exact List.map_inj_left.1 hmap x hx
  | _ => cases hx

/-! ## Instantiation -/

variable {env : Valuation}

/-- The values of the dimensions that have one. -/
def Valuation.value (env : Valuation) (d : Dim) : Nat := (d.resolve env).getD 0

theorem Valuation.respects_value (env : Valuation) : Dim.Respects env.value := fun _ => rfl

theorem Valuation.resolve_eq {d : Dim} (h : ∃ n, d.resolve env = some n) :
    d.resolve env = some (env.value d) := by
  obtain ⟨n, hn⟩ := h
  rw [Valuation.value, hn, Option.getD_some]

theorem foldlM_fill? {patches : List Patch} {entries : List Nat}
    (hsites : ∀ p ∈ patches, ∃ index, p.site = .table index ∧ index < entries.length)
    (hresolve : ∀ p ∈ patches, ∃ n, p.dim.resolve env = some n) :
    patches.foldlM (Patch.fill? env) entries =
      some (patches.foldl (Patch.write env.value) entries) := by
  induction patches generalizing entries with
  | nil => rfl
  | cons p patches ih =>
    obtain ⟨⟨index, hsite, hlt⟩, hsites⟩ := List.forall_mem_cons.1 hsites
    obtain ⟨hp, hresolve⟩ := List.forall_mem_cons.1 hresolve
    have hwrite : p.fill? env entries = some (p.write env.value entries) := by
      simp [Patch.fill?, Patch.write, hsite, hlt, Valuation.resolve_eq hp]
    have hlen : (p.write env.value entries).length = entries.length := length_foldl_write [p] entries
    rw [List.foldlM_cons, hwrite]
    exact ih (hlen ▸ hsites) hresolve

/-- Values that hold under all valuations are read as numbers under one that resolves them. -/
theorem Binding.Holds.at {t : MetaTable} {value : BoundValue α} {b : Binding α}
    (h : b.Holds env.value t value) (hresolve : ∀ x ∈ b.tableDims, ∃ n, x.resolve env = some n) :
    b.HoldsAt (Dim.resolve env) t value := by
  cases b with
  | buffer a => exact h
  | float x => exact h
  | sampler v => exact h
  | int x => exact ⟨_, Valuation.resolve_eq (hresolve x (List.mem_singleton_self x)), h⟩
  | ints xs => exact ⟨_, Dim.readAs_map fun x hx => Valuation.resolve_eq (hresolve x hx), h⟩

variable [ScalarText α] {injector : Injector α} {template : Template} {injected : Injected α}
  {k : Kernel α} {entries : List (String × Binding α)}

/-- A kernel whose patches resolve can be instantiated, and then reads the values of everything that
was bound. -/
theorem provides_of_instantiate (hd : injector.dialect ≠ .glsl)
    (h : injector.inject template = .ok injected) (htable : k.table = injected.table)
    (hbindings : k.bindings = injected.bindings) (hpatches : k.patches = injected.patches)
    (hentries : ∀ name b, (name, b) ∈ entries → injector.bindings.get? name = some b)
    (hresolve : ∀ p ∈ k.patches, ∃ n, p.dim.resolve env = some n) :
    ∃ k', k.instantiate? env = some k' ∧ k'.kind = k.kind ∧ k'.launch = k.launch ∧
      k'.ProvidesAt (Dim.resolve env) entries := by
  have hkeeps := Injection.keeps_holds hd
  have hpatched : k.patches = k.table.patches := by rw [hpatches, patches_of_inject hd h, htable]
  have hsites : k.table.Patchable injector.Binds := by
    obtain ⟨s, hrecorded, hs, -⟩ := inject_recorded hkeeps h
    exact htable ▸ hs ▸ hrecorded.table
  rw [hpatched] at hresolve
  have hinstantiate : k.instantiate? env = some
      { k with table := k.table.patched env.value, patches := [] } := by
    rw [Kernel.instantiate?, hpatched, foldlM_fill? hsites.sites hresolve]
    rfl
  refine ⟨_, hinstantiate, rfl, rfl, fun name b hb => ?_⟩
  obtain ⟨value, hvalue, hholds⟩ := exists_of_inject hkeeps h (hentries name b hb)
  rw [← htable] at hholds
  refine ⟨value, ?_, (hholds _ env.respects_value).at fun x hx => ?_⟩
  · rw [Kernel.value?, hbindings]
    exact hvalue
  · cases hn : x.known? with
    | some n => exact ⟨n, by rw [Dim.known?_eq_some_iff.1 hn, Dim.resolve]⟩
    | none =>
      obtain ⟨p, hp, rfl⟩ := exists_patch_of_holds hholds hx hn
      exact hresolve p hp

end

end TensorCompiler
