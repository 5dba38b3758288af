import Mathlib.Data.List.Nodup
import TensorCompiler.Proofs.Injection
import TensorCompiler.Proofs.Naming
/-!
# What a request is rendered as

The first request of a name decides how its binding is written out and which integers are stored
for it. A stored integer has a site, in the meta table or in a uniform, and a symbolic one has a
patch there. This module says once what a rendering can do, for all dialects.

* `Entry`: an integer that is stored, with its site.
* `Dialect.Renders`: the forms in which a binding is written out, and the entries of each form.
* `Injection.Extends`: what the entries add to the meta table, the uniforms and the patches.
* `render_extends`: every successful rendering has one of the forms, and adds its entries.
-/

namespace TensorCompiler

/-- An integer that is stored for the runtime. -/
structure Entry where
  site : PatchSite
  dim : Dim

/-- The patch of an entry; a known one has none. -/
def Entry.patch? (e : Entry) : Option Patch :=
  if e.dim.isKnown then none else some ⟨e.dim, e.site⟩

/-- The entries of a list of dimensions whose sites are numbered from `start` on. -/
def entriesFrom (site : Nat → PatchSite) (start : Nat) (xs : List Dim) : List Entry :=
  (xs.zipIdx start).map fun (x, i) => ⟨site i, x⟩

section

variable {site : Nat → PatchSite} {start : Nat} {xs : List Dim}

theorem entriesFrom_cons {x : Dim} :
    entriesFrom site start (x :: xs) = ⟨site start, x⟩ :: entriesFrom site (start + 1) xs := rfl

theorem sites_entriesFrom :
    (entriesFrom site start xs).map (·.site) = (List.range' start xs.length).map site := by
  rw [entriesFrom, List.map_map, ← List.zipIdx_map_snd, List.map_map]
  rfl

theorem mem_entriesFrom {e : Entry} : e ∈ entriesFrom site start xs ↔
    ∃ k, xs[k]? = some e.dim ∧ e.site = site (start + k) := by
  simp only [entriesFrom, List.mem_map, Prod.exists, List.mk_mem_zipIdx_iff_le_and_getElem?_sub]
  constructor
  · rintro ⟨x, i, ⟨hle, hx⟩, rfl⟩
    exact ⟨i - start, hx, by simp only [Nat.add_sub_cancel' hle]⟩
  · rintro ⟨k, hx, hsite⟩
    refine ⟨e.dim, start + k, ⟨Nat.le_add_right .., by rwa [Nat.add_sub_cancel_left]⟩, ?_⟩
    rw [← hsite]

theorem nodup_sites (hsite : Function.Injective site) :
    ((entriesFrom site start xs).map (·.site)).Nodup := by
  rw [sites_entriesFrom]
  exact List.Nodup.map hsite List.nodup_range'

/-- A site of this kind that no entry has lies behind the list. -/
theorem getElem?_of_notMem_sites {k : Nat}
    (h : site (start + k) ∉ (entriesFrom site start xs).map (·.site)) : xs[k]? = none := by
  by_contra hk
  obtain ⟨x, hx⟩ := Option.ne_none_iff_exists'.1 hk
  exact h (List.mem_map.2 ⟨⟨site (start + k), x⟩, mem_entriesFrom.2 ⟨k, hx, rfl⟩, rfl⟩)

theorem table_injective : Function.Injective PatchSite.table := fun _ _ h => PatchSite.table.inj h

theorem uniform_injective (name : String) : Function.Injective (PatchSite.uniform name) :=
  fun _ _ h => (PatchSite.uniform.inj h).2

end

/-! ## Stored integers -/

section

variable {t t' t'' : MetaTable} {x : Dim} {xs : List Dim}

/-- The second table is the first one with these dimensions behind. -/
structure MetaTable.Grows (t t' : MetaTable) (xs : List Dim) : Prop where
  entries : t'.entries = t.entries ++ xs.map Dim.stored
  patches : t'.patches =
    t.patches ++ (entriesFrom .table t.entries.length xs).filterMap Entry.patch?
  fits : ∀ x ∈ xs, x.Fits

theorem MetaTable.Grows.refl (t : MetaTable) : t.Grows t [] :=
  ⟨(List.append_nil _).symm, (List.append_nil _).symm, List.forall_mem_nil _⟩

theorem MetaTable.Grows.cons (h : t.Grows t' [x]) (h' : t'.Grows t'' xs) :
    t.Grows t'' (x :: xs) where
  entries := by simp [h'.entries, h.entries]
  patches := by
    have hlen : t'.entries.length = t.entries.length + 1 := by simp [h.entries]
    rw [h'.patches, h.patches, hlen, entriesFrom_cons, entriesFrom_cons, List.append_assoc,
      ← List.filterMap_append]
    rfl
  fits := List.forall_mem_cons.2 ⟨h.fits x (List.mem_singleton_self x), h'.fits⟩

theorem patch?_known {n : Nat} {site : PatchSite} (h : x.known? = some n) :
    Entry.patch? ⟨site, x⟩ = none := if_pos (by simp [Dim.isKnown, h])

theorem patch?_symbolic {site : PatchSite} (h : x.known? = none) :
    Entry.patch? ⟨site, x⟩ = some ⟨x, site⟩ := if_neg (by simp [Dim.isKnown, h])

theorem push_grows {index : Nat} (h : t.push x = .ok (index, t')) : t.Grows t' [x] := by
  obtain ⟨-, hentries, hfit⟩ := push_ok h
  refine ⟨hentries, ?_, List.forall_mem_singleton.2 hfit⟩
  rw [entriesFrom_cons]
  unfold MetaTable.push at h
  simp only [] at h
  split at h
  · next n hn =>
    simp only [bind_ok_iff, pure_ok_iff] at h
    obtain ⟨m, -, h⟩ := h
    cases h
    rw [List.filterMap_cons_none (patch?_known hn)]
    exact (List.append_nil _).symm
  · next hn =>
    cases h
    rw [List.filterMap_cons_some (patch?_symbolic hn)]
    rfl

theorem extend_grows {offset : Nat} (h : t.extend xs = (.ok offset, t')) : t.Grows t' xs := by
  induction xs generalizing t offset with
  | nil =>
    cases h
    exact .refl _
  | cons x xs ih =>
    unfold MetaTable.extend at h
    split at h
    · cases h
    · next index t₁ hx =>
      cases hrest : t₁.extend xs with
      | mk result t₂ =>
        rw [hrest] at h
        cases result with
        | error e => cases h
        | ok offset' =>
          cases h
          exact (push_grows hx).cons (ih hrest)

theorem uniformInts_patches {name : String} {component : Nat} {ns : List Nat} {patches : List Patch}
    (h : uniformInts name component xs = .ok (ns, patches)) :
    patches = (entriesFrom (.uniform name) component xs).filterMap Entry.patch? := by
  induction xs generalizing component ns patches with
  | nil =>
    cases h
    rfl
  | cons x xs ih =>
    rw [entriesFrom_cons]
    unfold uniformInts at h
    cases hx : x.known? with
    | some n =>
      simp only [hx, Dim.isKnown, bind_ok_iff, pure_ok_iff] at h
      obtain ⟨m, -, ⟨ns', patches'⟩, hrest, h⟩ := h
      cases h
      rw [List.filterMap_cons_none (patch?_known hx)]
      exact ih hrest
    | none =>
      simp only [hx, Dim.isKnown, bind_ok_iff, pure_ok_iff] at h
      obtain ⟨m, -, ⟨ns', patches'⟩, hrest, h⟩ := h
      cases h
      rw [List.filterMap_cons_some (patch?_symbolic hx)]
      exact congrArg (_ :: ·) (ih hrest)

end

/-! ## Forms of a rendering -/

section

variable {α : Type} [ScalarText α]

/-- The forms in which a binding is written out at its first request, when the meta table has
`start` entries and `unit` samplers have been declared, and the entries that are stored for it. -/
inductive Dialect.Renders (d : Dialect) (start unit : Nat) :
    Request → Binding α → Rendered α → List Entry → Prop
  /-- A known integer is written into the source. -/
  | literal {name : String} {n : Nat} : n < 0x80000000 →
      Renders d start unit (.loadBuffer name) (.int (.known n)) ⟨toString n, .literal n⟩ []
  /-- A symbolic integer has an entry of the meta table. -/
  | symbol {name : String} {x : Dim} : d ≠ .glsl → x.known? = none →
      Renders d start unit (.loadBuffer name) (.int x)
        ⟨s!"meta_buffer[{start}]", .table start 1⟩ (entriesFrom .table start [x])
  | float {name text : String} {x : α} : d.floatText x = .ok text →
      Renders d start unit (.loadBuffer name) (.float x) ⟨text, .float x⟩ []
  /-- Tables are pointers in C. -/
  | pointer {name : String} {xs : List Dim} : d = .c →
      Renders d start unit (.loadBuffer name) (.ints xs)
        ⟨s!"(meta_buffer + {start})", .table start xs.length⟩ (entriesFrom .table start xs)
  /-- Tables are indices elsewhere. -/
  | index {name : String} {xs : List Dim} {dynamicBase : Nat} : d = .wgsl dynamicBase →
      Renders d start unit (.loadBuffer name) (.ints xs)
        ⟨toString start, .table start xs.length⟩ (entriesFrom .table start xs)
  /-- A region whose offset is known has no entry. -/
  | region {name : String} {a : Allocation} {offset : Nat} : d = .c →
      a.offset.known? = some offset →
      Renders d start unit (.loadBuffer name) (.buffer a)
        ⟨"(" ++ a.space.pointer ++ s!" + {offset})", .buffer a⟩ []
  /-- A region whose offset is symbolic reads it from its entry. -/
  | symbolicRegion {name : String} {a : Allocation} : d = .c → a.offset.known? = none →
      Renders d start unit (.loadBuffer name) (.buffer a)
        ⟨"(" ++ a.space.pointer ++ s!" + meta_buffer[{start}])", .buffer a⟩
        (entriesFrom .table start [a.offset])
  | address {name : String} {a : Allocation} {dynamicBase offset : Nat} : d = .wgsl dynamicBase →
      a.offset.known? = some offset → a.space.base dynamicBase + offset < 0x80000000 →
      Renders d start unit (.loadBuffer name) (.buffer a)
        ⟨toString (a.space.base dynamicBase + offset), .buffer a⟩ []
  | symbolicAddress {name : String} {a : Allocation} {dynamicBase : Nat} : d = .wgsl dynamicBase →
      a.offset.known? = none → a.space.base dynamicBase < 0x80000000 →
      Renders d start unit (.loadBuffer name) (.buffer a)
        ⟨s!"({a.space.base dynamicBase} + meta_buffer[{start}])", .buffer a⟩
        (entriesFrom .table start [a.offset])
  | uniformInt {type name : String} {x : Dim} : d = .glsl →
      Renders d start unit (.uniform type name) (.int x)
        ⟨"uniform " ++ type ++ " " ++ name ++ ";", .uniform type (.ints [x.stored])⟩
        (entriesFrom (.uniform name) 0 [x])
  | uniformInts {type name : String} {xs : List Dim} : d = .glsl →
      Renders d start unit (.uniform type name) (.ints xs)
        ⟨"uniform " ++ type ++ " " ++ name ++ ";", .uniform type (.ints (xs.map Dim.stored))⟩
        (entriesFrom (.uniform name) 0 xs)
  | uniformFloat {type name text : String} {x : α} : d = .glsl → d.floatText x = .ok text →
      Renders d start unit (.uniform type name) (.float x)
        ⟨"uniform " ++ type ++ " " ++ name ++ ";", .uniform type (.floats [x])⟩ []
  /-- Samplers are bound to the units in their order. -/
  | sampler {type name : String} {v : VarId} : d = .glsl →
      Renders d start unit (.uniform type name) (.sampler v)
        ⟨"uniform " ++ type ++ " " ++ name ++ ";", .sampler v unit⟩ []

end

/-- A component of an integer uniform. -/
def BoundValue.component? {α : Type} (component : Nat) : BoundValue α → Option Nat
  | .uniform _ (.ints ns) => ns[component]?
  | _ => none

/-- The unit of a sampler. -/
def BoundValue.unit? {α : Type} : BoundValue α → Option Nat
  | .sampler _ unit => some unit
  | _ => none

section

variable {α : Type} {d : Dialect} {type name : String} {t t' : MetaTable} {r : Rendered α}
  {b : Binding α} {unit : Nat}

theorem loadInt_grows [ScalarText α] {x : Dim} (h : d.loadInt name x t = .ok (r, t')) :
    ∃ xs, t.Grows t' xs ∧ d.Renders t.entries.length unit (.loadBuffer name) (.int x) r
      (entriesFrom .table t.entries.length xs) := by
  unfold Dialect.loadInt at h
  split at h
  · next n hn =>
    simp only [bind_ok_iff, pure_ok_iff] at h
    obtain ⟨m, hm, h⟩ := h
    obtain ⟨rfl, hlt⟩ := fitInt32_ok_iff.1 hm
    cases h
    obtain rfl := Dim.known?_eq_some_iff.1 hn
    exact ⟨[], .refl t, .literal hlt⟩
  · next hn =>
    split at h
    · cases h
    · next hd =>
      simp only [bind_ok_iff, pure_ok_iff] at h
      obtain ⟨⟨index, t₁⟩, hpush, h⟩ := h
      cases h
      obtain ⟨rfl, -⟩ := push_ok hpush
      exact ⟨[x], push_grows hpush, .symbol hd hn⟩

theorem loadInts_grows [ScalarText α] {xs : List Dim} (h : d.loadInts name xs t = .ok (r, t')) :
    t.Grows t' xs ∧ d.Renders t.entries.length unit (.loadBuffer name) (.ints xs) r
      (entriesFrom .table t.entries.length xs) := by
  unfold Dialect.loadInts at h
  split at h
  · cases h
  · next hd =>
    simp only [bind_ok_iff, pure_ok_iff] at h
    obtain ⟨offset, hoffset, h⟩ := h
    cases h
    have hextend : t.extend xs = (.ok offset, (t.extend xs).2) := Prod.ext hoffset rfl
    obtain ⟨rfl, -⟩ := extend_ok hextend
    refine ⟨extend_grows hextend, ?_⟩
    cases d with
    | c => exact .pointer rfl
    | wgsl dynamicBase => exact .index rfl
    | glsl => exact absurd rfl hd

theorem loadRegion_grows [ScalarText α] {a : Allocation}
    (h : d.loadRegion name a t = .ok (r, t')) :
    ∃ xs, t.Grows t' xs ∧ d.Renders t.entries.length unit (.loadBuffer name) (.buffer a) r
      (entriesFrom .table t.entries.length xs) := by
  unfold Dialect.loadRegion at h
  split at h
  · next offset hn =>
    cases h
    exact ⟨[], .refl t, .region rfl hn⟩
  · next hn =>
    simp only [bind_ok_iff, pure_ok_iff] at h
    obtain ⟨⟨index, t₁⟩, hpush, h⟩ := h
    cases h
    obtain ⟨rfl, -⟩ := push_ok hpush
    exact ⟨[a.offset], push_grows hpush, .symbolicRegion rfl hn⟩
  · next dynamicBase offset hn =>
    simp only [bind_ok_iff, pure_ok_iff] at h
    obtain ⟨address, haddress, h⟩ := h
    obtain ⟨rfl, hlt⟩ := fitInt32_ok_iff.1 haddress
    cases h
    exact ⟨[], .refl t, .address rfl hn hlt⟩
  · next dynamicBase hn =>
    simp only [bind_ok_iff, pure_ok_iff] at h
    obtain ⟨base, hbase, ⟨index, t₁⟩, hpush, h⟩ := h
    obtain ⟨rfl, hlt⟩ := fitInt32_ok_iff.1 hbase
    cases h
    obtain ⟨rfl, -⟩ := push_ok hpush
    exact ⟨[a.offset], push_grows hpush, .symbolicAddress rfl hn hlt⟩
  · cases h

variable [ScalarText α]

/-- A load adds to the meta table only. -/
theorem load_grows (unit : Nat) (h : d.load name b t = .ok (r, t')) :
    ∃ xs, t.Grows t' xs ∧ d.Renders t.entries.length unit (.loadBuffer name) b r
      (entriesFrom .table t.entries.length xs) := by
  cases b with
  | int x => exact loadInt_grows h
  | ints xs => exact ⟨xs, loadInts_grows h⟩
  | buffer a => exact loadRegion_grows h
  | float x =>
    simp only [Dialect.load, bind_ok_iff, pure_ok_iff] at h
    obtain ⟨text, htext, h⟩ := h
    cases h
    exact ⟨[], .refl t, .float htext⟩
  | sampler v => cases h

/-- A uniform has its own components and patches. -/
theorem uniform_renders (start : Nat) {patches : List Patch}
    (h : d.uniform type name b unit = .ok (r, patches)) :
    ∃ ys, patches = (entriesFrom (.uniform name) 0 ys).filterMap Entry.patch? ∧
      (∀ y ∈ ys, y.Fits) ∧ (∀ c, r.value.component? c = (ys.map Dim.stored)[c]?) ∧
      d.Renders start unit (.uniform type name) b r (entriesFrom (.uniform name) 0 ys) := by
  unfold Dialect.uniform at h
  split at h
  · cases h
  · next hd =>
    obtain rfl := not_not.1 hd
    cases b with
    | int x =>
      simp only [bind_ok_iff, pure_ok_iff] at h
      obtain ⟨⟨ns, ps⟩, hns, h⟩ := h
      cases h
      obtain ⟨rfl, hfits⟩ := uniformInts_ok hns
      exact ⟨[x], uniformInts_patches hns, hfits, fun _ => rfl, .uniformInt rfl⟩
    | ints xs =>
      simp only [bind_ok_iff, pure_ok_iff] at h
      obtain ⟨⟨ns, ps⟩, hns, h⟩ := h
      cases h
      obtain ⟨rfl, hfits⟩ := uniformInts_ok hns
      exact ⟨xs, uniformInts_patches hns, hfits, fun _ => rfl, .uniformInts rfl⟩
    | float x =>
      simp only [bind_ok_iff, pure_ok_iff] at h
      obtain ⟨text, htext, h⟩ := h
      cases h
      exact ⟨[], rfl, List.forall_mem_nil _, fun _ => rfl, .uniformFloat rfl htext⟩
    | sampler v =>
      cases h
      exact ⟨[], rfl, List.forall_mem_nil _, fun _ => rfl, .sampler rfl⟩
    | buffer a => cases h

theorem Dialect.Renders.load_value {start : Nat} {entries : List Entry}
    (h : d.Renders start unit (.loadBuffer name) b r entries) :
    (∀ c, r.value.component? c = none) ∧ r.value.unit? = none := by
  cases h <;> exact ⟨fun _ => rfl, rfl⟩

/-- What the first request of a name adds: dimensions of the meta table, components of a uniform,
and the value that the runtime provides. -/
structure Injection.Extends (s s' : Injection α) (name : String) (r : Rendered α)
    (xs ys : List Dim) : Prop where
  source : s'.source = s.source ++ r.text
  texts : s'.texts = (name, r.text) :: s.texts
  bindings : s'.bindings = s.bindings ++ [⟨name, r.value⟩]
  table : s.table.Grows s'.table xs
  uniformPatches : s'.uniformPatches =
    s.uniformPatches ++ (entriesFrom (.uniform name) 0 ys).filterMap Entry.patch?
  components : ∀ c, r.value.component? c = (ys.map Dim.stored)[c]?
  fits : ∀ y ∈ ys, y.Fits
  units : (r.value.unit? = none ∧ s'.units = s.units) ∨
    (r.value.unit? = some s.units ∧ s'.units = s.units + 1)

variable {injector : Injector α} {s s' : Injection α} {request : Request}

/-- The first request of a name is rendered in one of the forms. -/
theorem render_extends (hname : request.binding? = some name)
    (h : s.render injector request name b = .ok s') : ∃ r xs ys, s.Extends s' name r xs ys ∧
      injector.dialect.Renders s.table.entries.length s.units request b r
        (entriesFrom .table s.table.entries.length xs ++ entriesFrom (.uniform name) 0 ys) := by
  rcases Injection.render_cases hname h with
    ⟨r, table, rfl, hload, rfl⟩ | ⟨type, r, patches, rfl, huniform, rfl⟩
  · obtain ⟨xs, hgrows, hr⟩ := load_grows s.units hload
    obtain ⟨hcomponents, hunit⟩ := hr.load_value
    refine ⟨r, xs, [], ⟨rfl, rfl, rfl, hgrows, (List.append_nil _).symm, hcomponents,
      List.forall_mem_nil _, .inl ⟨hunit, rfl⟩⟩, ?_⟩
    exact (List.append_nil _).symm ▸ hr
  · obtain ⟨ys, hpatches, hfits, hcomponents, hr⟩ :=
      uniform_renders s.table.entries.length huniform
    refine ⟨r, [], ys, ⟨rfl, rfl, rfl, .refl _, congrArg _ hpatches, hcomponents, hfits, ?_⟩, hr⟩
    generalize entriesFrom (.uniform name) 0 ys = entries at hr
    cases hr with
    | uniformInt => exact .inl ⟨rfl, rfl⟩
    | uniformInts => exact .inl ⟨rfl, rfl⟩
    | uniformFloat => exact .inl ⟨rfl, rfl⟩
    | sampler => exact .inr ⟨rfl, rfl⟩

end

end TensorCompiler
