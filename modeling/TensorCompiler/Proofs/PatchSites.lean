import TensorCompiler.Proofs.Rendering
/-!
# Where integers are stored

An injection stores integers at two kinds of sites, entries of the meta table and components of
uniforms. This module reads a result site by site, for every dialect: what a rendering changes, and
what is left at a site after the patches are applied.

* `Injected.cell?`, `Injected.patchesAt`: the integer at a site, and the patches of the site.
* `Injected.Stores`: an entry is stored as its dimension demands.
* `Injected.fill?`, `exists_fill?`: the result under a valuation, with all patches applied, has the
  values of the dimensions that were stored.
* `Injection.Extends.cell?_new`, `patchesAt_new`, `cell?_old`, `patchesAt_old`: a rendering stores
  its entries with their patches, and leaves the other sites alone.
-/

namespace TensorCompiler

/-! ## Sites -/

section

variable {α : Type}

/-- The integer that is stored at a site. -/
def Injected.cell? (i : Injected α) : PatchSite → Option Nat
  | .table index => i.table.entries[index]?
  | .uniform name component =>
    (i.bindings.find? (·.name = name)).bind fun kb => kb.value.component? component

/-- The patches of a site. -/
def Injected.patchesAt (i : Injected α) (site : PatchSite) : List Patch :=
  i.patches.filter (·.site = site)

/-- The entry is stored as a signed word: a known integer as it is and without a patch, a symbolic
one as zero and with one patch. -/
def Injected.Stores (i : Injected α) (e : Entry) : Prop :=
  match e.dim.known? with
  | some n => i.cell? e.site = some n ∧ n < 0x80000000 ∧ i.patchesAt e.site = []
  | none => i.cell? e.site = some 0 ∧ i.patchesAt e.site = [⟨e.dim, e.site⟩]

variable {i : Injected α} {e : Entry}

theorem stores_iff : i.Stores e ↔ i.cell? e.site = some e.dim.stored ∧ e.dim.Fits ∧
    i.patchesAt e.site = e.patch?.toList := by
  unfold Injected.Stores
  cases h : e.dim.known? with
  | some n =>
    have hpatch : e.patch? = none := patch?_known h
    simp only [Dim.Fits, stored_known h, hpatch, Option.toList_none]
  | none =>
    have hpatch : e.patch? = some ⟨e.dim, e.site⟩ := patch?_symbolic h
    have hfits := fits_symbolic h
    simp only [stored_symbolic h, hpatch, Option.toList_some, hfits, true_and]

theorem Injected.Stores.cell (h : i.Stores e) : i.cell? e.site = some e.dim.stored :=
  (stores_iff.1 h).1

theorem patches_singleton (e : Entry) : [e].filterMap Entry.patch? = e.patch?.toList := by
  cases h : e.patch? with
  | none => exact List.filterMap_cons_none h
  | some p => exact List.filterMap_cons_some h

theorem site_of_patch? {p : Patch} (h : e.patch? = some p) : p.site = e.site := by
  unfold Entry.patch? at h
  split at h
  · cases h
  · exact congrArg Patch.site (Option.some.inj h).symm

theorem filter_patches_of_notMem {es : List Entry} {site : PatchSite}
    (h : site ∉ es.map (·.site)) : (es.filterMap Entry.patch?).filter (·.site = site) = [] := by
  rw [List.filter_eq_nil_iff]
  intro p hp hsite
  obtain ⟨e, he, hpatch⟩ := List.mem_filterMap.1 hp
  rw [site_of_patch? hpatch, decide_eq_true_eq] at hsite
  exact h (hsite ▸ List.mem_map_of_mem he)

/-- The site of an entry has the patch of that entry only. -/
theorem filter_patches {es : List Entry} (hes : (es.map (·.site)).Nodup) (he : e ∈ es) :
    (es.filterMap Entry.patch?).filter (·.site = e.site) = e.patch?.toList := by
  induction es with
  | nil => cases he
  | cons e' es ih =>
    rw [List.map_cons, List.nodup_cons] at hes
    obtain ⟨hnew, hes⟩ := hes
    rw [← List.singleton_append, List.filterMap_append, List.filter_append, patches_singleton]
    rcases List.mem_cons.1 he with rfl | he
    · rw [filter_patches_of_notMem hnew, List.append_nil, List.filter_eq_self]
      intro p hp
      exact decide_eq_true (site_of_patch? (Option.mem_toList.1 hp))
    · rw [ih hes he, List.append_left_eq_self, List.filter_eq_nil_iff]
      intro p hp hsite
      rw [site_of_patch? (Option.mem_toList.1 hp), decide_eq_true_eq] at hsite
      exact hnew (hsite ▸ List.mem_map_of_mem he)

end

/-! ## Filling the sites -/

section

variable {α : Type} {env : Valuation} {i i' : Injected α}

/-- Writes a component of an integer uniform. -/
def BoundValue.setComponent (component n : Nat) : BoundValue α → BoundValue α
  | .uniform type (.ints ns) => .uniform type (.ints (ns.set component n))
  | value => value

/-- Writes an integer to a site. -/
def Injected.put (i : Injected α) (site : PatchSite) (n : Nat) : Injected α :=
  match site with
  | .table index => { i with table := { i.table with entries := i.table.entries.set index n } }
  | .uniform name component =>
    { i with bindings := i.bindings.map fun kb =>
        if kb.name = name then { kb with value := kb.value.setComponent component n } else kb }

/-- Writes the value of a patch to its site, where there has to be an integer. -/
def Patch.put? (env : Valuation) (i : Injected α) (p : Patch) : Option (Injected α) := do
  let n ← p.dim.resolve env
  if (i.cell? p.site).isSome then some (i.put p.site n) else none

/-- The result under a valuation, with all patches applied. -/
def Injected.fill? (env : Valuation) (i : Injected α) : Option (Injected α) :=
  i.patches.foldlM (Patch.put? env) i

theorem component?_setComponent (value : BoundValue α) (c c' n : Nat) :
    (value.setComponent c n).component? c' =
      if c' = c then (value.component? c').map fun _ => n else value.component? c' := by
  unfold BoundValue.setComponent
  split
  · next type ns =>
    show (ns.set c n)[c']? = _
    rw [List.getElem?_set]
    by_cases hc : c = c'
    · subst hc
      by_cases hlt : c < ns.length
      · simp [hlt, BoundValue.component?]
      · simp [hlt, BoundValue.component?]
    · simp [hc, Ne.symm hc, BoundValue.component?]
  · next hints =>
    have hnone : value.component? c' = none := by
      unfold BoundValue.component?
      split
      · next type ns => exact absurd rfl (hints type ns)
      · rfl
    simp [hnone]

theorem find?_put (name other : String) (c n : Nat) :
    (i.put (.uniform name c) n).bindings.find? (·.name = other) =
      (i.bindings.find? (·.name = other)).map fun kb =>
        if kb.name = name then { kb with value := kb.value.setComponent c n } else kb := by
  show (i.bindings.map _).find? _ = _
  rw [List.find?_map]
  congr 2
  funext kb
  by_cases h : kb.name = name
  · simp [h]
  · simp [h]

theorem cell?_put_table (index index' n : Nat) :
    (i.put (.table index) n).cell? (.table index') =
      if index' = index then (i.cell? (.table index')).map fun _ => n
      else i.cell? (.table index') := by
  show (i.table.entries.set index n)[index']? = _
  rw [List.getElem?_set]
  by_cases h : index = index'
  · subst h
    by_cases hlt : index < i.table.entries.length
    · simp [hlt, Injected.cell?]
    · simp [hlt, Injected.cell?]
  · simp [h, Ne.symm h, Injected.cell?]

theorem cell?_put_uniform (name name' : String) (c c' n : Nat) :
    (i.put (.uniform name c) n).cell? (.uniform name' c') =
      if name' = name ∧ c' = c then (i.cell? (.uniform name' c')).map fun _ => n
      else i.cell? (.uniform name' c') := by
  show ((i.put (.uniform name c) n).bindings.find? _).bind _ = _
  rw [find?_put]
  cases hkb : i.bindings.find? (·.name = name') with
  | none => simp [Injected.cell?, hkb]
  | some kb =>
    have hname : kb.name = name' := by simpa using List.find?_some hkb
    by_cases h : name' = name
    · subst h
      simp [Injected.cell?, hkb, hname, component?_setComponent]
    · simp [Injected.cell?, hkb, hname, h]

/-- A written site holds what has been written, and the others are left alone. -/
theorem cell?_put (site other : PatchSite) (n : Nat) : (i.put site n).cell? other =
    if other = site then (i.cell? other).map fun _ => n else i.cell? other := by
  cases site with
  | table index =>
    cases other with
    | table index' => simp only [cell?_put_table, PatchSite.table.injEq]
    | uniform name c => rfl
  | uniform name c =>
    cases other with
    | table index => rfl
    | uniform name' c' => simp only [cell?_put_uniform, PatchSite.uniform.injEq]

theorem isSome_cell?_put (site other : PatchSite) (n : Nat) :
    ((i.put site n).cell? other).isSome = (i.cell? other).isSome := by
  rw [cell?_put]
  split
  · exact Option.isSome_map
  · rfl

/-- Patches whose values are known are applied one after the other: a site has the value of its
last patch. -/
theorem foldlM_put? {ps : List Patch} (hcells : ∀ p ∈ ps, (i.cell? p.site).isSome)
    (hresolve : ∀ p ∈ ps, ∃ n, p.dim.resolve env = some n) :
    ∃ i', ps.foldlM (Patch.put? env) i = some i' ∧
      (∀ site, (i'.cell? site).isSome = (i.cell? site).isSome) ∧
      ∀ site, i'.cell? site =
        (ps.filter (·.site = site)).foldl (fun _ p => p.dim.resolve env) (i.cell? site) := by
  induction ps generalizing i with
  | nil => exact ⟨i, rfl, fun _ => rfl, fun _ => rfl⟩
  | cons p ps ih =>
    obtain ⟨hcell, hcells⟩ := List.forall_mem_cons.1 hcells
    obtain ⟨⟨n, hn⟩, hresolve⟩ := List.forall_mem_cons.1 hresolve
    have hput : p.put? env i = some (i.put p.site n) := by
      simp [Patch.put?, hn, hcell]
    obtain ⟨i', hi', hsome, hvalues⟩ := ih (i := i.put p.site n)
      (fun q hq => (isSome_cell?_put ..).trans (hcells q hq)) hresolve
    refine ⟨i', ?_, fun site => (hsome site).trans (isSome_cell?_put ..), fun site => ?_⟩
    · rw [List.foldlM_cons, hput]
      exact hi'
    · rw [hvalues, cell?_put]
      by_cases hsite : site = p.site
      · subst hsite
        obtain ⟨m, hm⟩ := Option.isSome_iff_exists.1 hcell
        rw [if_pos rfl, List.filter_cons_of_pos (by simp), List.foldl_cons, hn, hm]
        rfl
      · rw [if_neg hsite, List.filter_cons_of_neg (by simp [Ne.symm hsite])]

/-- Filling gives a stored entry the value of its dimension. -/
theorem exists_fill? (hcells : ∀ p ∈ i.patches, (i.cell? p.site).isSome)
    (hresolve : ∀ p ∈ i.patches, ∃ n, p.dim.resolve env = some n) :
    ∃ filled, i.fill? env = some filled ∧
      (∀ site, (filled.cell? site).isSome = (i.cell? site).isSome) ∧
      ∀ e, i.Stores e → filled.cell? e.site = e.dim.resolve env := by
  obtain ⟨filled, hfilled, hsome, hvalues⟩ := foldlM_put? hcells hresolve
  refine ⟨filled, hfilled, hsome, fun e he => ?_⟩
  obtain ⟨hcell, -, hpatches⟩ := stores_iff.1 he
  rw [hvalues, show i.patches.filter (·.site = e.site) = e.patch?.toList from hpatches, hcell]
  cases hn : e.dim.known? with
  | some n =>
    have hpatch : e.patch? = none := patch?_known hn
    rw [hpatch, stored_known hn, Dim.known?_eq_some_iff.1 hn]
    rfl
  | none =>
    have hpatch : e.patch? = some ⟨e.dim, e.site⟩ := patch?_symbolic hn
    rw [hpatch]
    rfl

end

/-! ## Rendering a name -/

section

variable {α : Type} {s s' : Injection α} {name : String} {r : Rendered α} {xs ys : List Dim}

/-- The result of an injection that ends here. -/
def Injection.result (s : Injection α) : Injected α :=
  { source := s.source
    table := s.table
    bindings := s.bindings
    patches := s.table.patches ++ s.uniformPatches }

/-- The entries that a rendering adds to the meta table and to the uniform of its name. -/
def Injection.newEntries (s : Injection α) (name : String) (xs ys : List Dim) : List Entry :=
  entriesFrom .table s.table.entries.length xs ++ entriesFrom (.uniform name) 0 ys

theorem nodup_newEntries : ((s.newEntries name xs ys).map (·.site)).Nodup := by
  rw [Injection.newEntries, List.map_append, List.nodup_append']
  refine ⟨nodup_sites table_injective, nodup_sites (uniform_injective name), ?_⟩
  rw [sites_entriesFrom, sites_entriesFrom]
  intro site hx hy
  obtain ⟨k, -, rfl⟩ := List.mem_map.1 hx
  obtain ⟨c, -, hc⟩ := List.mem_map.1 hy
  cases hc

namespace Injection

/-- Sites of new entries have not been there before. -/
theorem cell?_fresh (hnew : s.bindings.find? (·.name = name) = none) {e : Entry}
    (he : e ∈ s.newEntries name xs ys) : s.result.cell? e.site = none := by
  rcases List.mem_append.1 he with he | he
  · obtain ⟨k, -, hsite⟩ := mem_entriesFrom.1 he
    rw [hsite]
    exact List.getElem?_eq_none (Nat.le_add_right ..)
  · obtain ⟨k, -, hsite⟩ := mem_entriesFrom.1 he
    simp [hsite, Injected.cell?, Injection.result, hnew]

namespace Extends

theorem cell?_table (h : s.Extends s' name r xs ys) (index : Nat) :
    s'.result.cell? (.table index) =
      if index < s.table.entries.length then s.result.cell? (.table index)
      else (xs.map Dim.stored)[index - s.table.entries.length]? := by
  show s'.table.entries[index]? = _
  rw [h.table.entries, List.getElem?_append]
  rfl

theorem cell?_uniform (h : s.Extends s' name r xs ys)
    (hnew : s.bindings.find? (·.name = name) = none) (other : String) (c : Nat) :
    s'.result.cell? (.uniform other c) =
      if other = name then (ys.map Dim.stored)[c]? else s.result.cell? (.uniform other c) := by
  show (s'.bindings.find? (·.name = other)).bind _ = _
  rw [h.bindings, List.find?_append]
  split
  · next heq =>
    subst heq
    simp [hnew, h.components]
  · next hne => simp [Ne.symm hne, Injected.cell?, Injection.result]

theorem cell?_new (h : s.Extends s' name r xs ys)
    (hnew : s.bindings.find? (·.name = name) = none) {e : Entry}
    (he : e ∈ s.newEntries name xs ys) : s'.result.cell? e.site = some e.dim.stored := by
  rcases List.mem_append.1 he with he | he
  · obtain ⟨k, hk, hsite⟩ := mem_entriesFrom.1 he
    rw [hsite, h.cell?_table, if_neg (by omega), Nat.add_sub_cancel_left, List.getElem?_map, hk]
    rfl
  · obtain ⟨k, hk, hsite⟩ := mem_entriesFrom.1 he
    rw [hsite, h.cell?_uniform hnew, if_pos rfl, Nat.zero_add, List.getElem?_map, hk]
    rfl

/-- Sites that are not those of new entries keep what they hold. -/
theorem cell?_old (h : s.Extends s' name r xs ys)
    (hnew : s.bindings.find? (·.name = name) = none) {site : PatchSite}
    (hsite : site ∉ (s.newEntries name xs ys).map (·.site)) :
    s'.result.cell? site = s.result.cell? site := by
  rw [newEntries, List.map_append, List.mem_append, not_or] at hsite
  cases site with
  | table index =>
    rw [h.cell?_table]
    split
    · rfl
    · next hge =>
      obtain ⟨k, rfl⟩ := Nat.exists_eq_add_of_le (Nat.le_of_not_lt hge)
      rw [Nat.add_sub_cancel_left, List.getElem?_map, getElem?_of_notMem_sites hsite.1]
      exact (List.getElem?_eq_none (Nat.le_add_right ..)).symm
  | uniform other c =>
    rw [h.cell?_uniform hnew]
    split
    · next heq =>
      subst heq
      have hc : ys[c]? = none :=
        getElem?_of_notMem_sites (by rw [Nat.zero_add]; exact hsite.2)
      simp [hc, Injected.cell?, Injection.result, hnew]
    · rfl

/-- A site with an integer is that of a new entry, or had one before. -/
theorem isSome_or_new (h : s.Extends s' name r xs ys)
    (hnew : s.bindings.find? (·.name = name) = none) {site : PatchSite}
    (hsite : (s'.result.cell? site).isSome) :
    site ∈ (s.newEntries name xs ys).map (·.site) ∨
      site ∉ (s.newEntries name xs ys).map (·.site) ∧ (s.result.cell? site).isSome := by
  by_cases hmem : site ∈ (s.newEntries name xs ys).map (·.site)
  · exact .inl hmem
  · exact .inr ⟨hmem, h.cell?_old hnew hmem ▸ hsite⟩

theorem fits_new (h : s.Extends s' name r xs ys) {e : Entry}
    (he : e ∈ s.newEntries name xs ys) : e.dim.Fits := by
  rcases List.mem_append.1 he with he | he
  · obtain ⟨k, hk, -⟩ := mem_entriesFrom.1 he
    exact h.table.fits _ (List.mem_of_getElem? hk)
  · obtain ⟨k, hk, -⟩ := mem_entriesFrom.1 he
    exact h.fits _ (List.mem_of_getElem? hk)

theorem mem_patches (h : s.Extends s' name r xs ys) {p : Patch} : p ∈ s'.result.patches ↔
    p ∈ s.result.patches ∨ p ∈ (s.newEntries name xs ys).filterMap Entry.patch? := by
  simp only [Injection.result, newEntries, h.table.patches, h.uniformPatches, List.mem_append,
    List.filterMap_append]
  tauto

theorem patchesAt_old (h : s.Extends s' name r xs ys) {site : PatchSite}
    (hsite : site ∉ (s.newEntries name xs ys).map (·.site)) :
    s'.result.patchesAt site = s.result.patchesAt site := by
  rw [newEntries, List.map_append, List.mem_append, not_or] at hsite
  simp only [Injected.patchesAt, Injection.result, h.table.patches, h.uniformPatches,
    List.filter_append, filter_patches_of_notMem hsite.1, filter_patches_of_notMem hsite.2,
    List.append_nil]

theorem patchesAt_new (h : s.Extends s' name r xs ys) {e : Entry}
    (he : e ∈ s.newEntries name xs ys) (hbefore : s.result.patchesAt e.site = []) :
    s'.result.patchesAt e.site = e.patch?.toList := by
  rw [← filter_patches nodup_newEntries he, newEntries, List.filterMap_append, List.filter_append]
  simp only [Injected.patchesAt, Injection.result, List.filter_append, List.append_eq_nil_iff]
    at hbefore
  simp only [Injected.patchesAt, Injection.result, h.table.patches, h.uniformPatches,
    List.filter_append, hbefore.1, hbefore.2, List.nil_append]

end Extends

end Injection

end

end TensorCompiler
