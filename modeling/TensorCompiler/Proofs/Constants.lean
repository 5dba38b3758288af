import TensorCompiler.Proofs.Cells
import TensorCompiler.Proofs.Machines
import TensorCompiler.Proofs.StaticSpace
import TensorCompiler.Proofs.TextureAddressing
/-!
# The data of the constants

A descriptor ships the data of the constants. For textures they are put one behind the other by
ascending handle, and a constant begins where the data of those before it end.

* `load?_concat`: the data in the middle of others.
* `MemoryLayout.stored_apart`: variables with stored data have regions apart from each other.
* `TextureLayout.load?_constants`: the data that fill the texture of a constant.
* `Graph.HasConstants`: the constants that the outputs depend on.
* `MemoryLayout.Packs`: their regions are disjoint and make up the static space.
* `constants_shipped`: both layouts say where the data of each constant are shipped.
-/

namespace TensorCompiler

section

variable {α : Type}

theorem foldl_append_eq (acc : Array α) (parts : List (Array α)) :
    parts.foldl (· ++ ·) acc = acc ++ parts.foldl (· ++ ·) #[] := by
  induction parts generalizing acc with
  | nil => simp
  | cons d parts ih => rw [List.foldl_cons, List.foldl_cons, ih, ih (#[] ++ d)]; simp

theorem size_foldl_append (parts : List (Array α)) :
    (parts.foldl (· ++ ·) #[]).size = (parts.map Array.size).sum := by
  induction parts with
  | nil => rfl
  | cons d parts ih => rw [List.foldl_cons, foldl_append_eq]; simp [ih]

/-- Some data lie where those before them end. -/
theorem load?_concat (pre : List (Array α)) (d : Array α) (post : List (Array α)) :
    load? ((pre ++ d :: post).foldl (· ++ ·) #[]) (pre.map Array.size).sum d.size = some d := by
  have hall : (pre ++ d :: post).foldl (· ++ ·) #[] =
      pre.foldl (· ++ ·) #[] ++ (d ++ post.foldl (· ++ ·) #[]) := by
    rw [List.foldl_append, List.foldl_cons, foldl_append_eq, Array.append_assoc]
  rw [hall, ← size_foldl_append, load?_eq_some_iff]
  refine ⟨by simp only [Array.size_append]; omega, rfl, fun i hi => ?_⟩
  rw [Array.getElem?_append_right (by omega), Nat.add_sub_cancel_left,
    Array.getElem?_append_left hi]

end

/-! ## Linear memory -/

namespace MemoryLayout

variable {α : Type} {g : Graph α} {layout : MemoryLayout} {s s' : Supply}

/-- Variables with stored data have regions apart from each other. -/
theorem stored_apart [Scalar α] {val : Dim → Option Nat} (hval : Dim.Reads val) (hg : Reached s g)
    (h : Gives (allocate g) s layout s') {extent : Nat}
    (hx : val layout.dynamicSize = some extent) {v w : VarId} (hne : v ≠ w) (hv : g.Stored v)
    (hw : g.Stored w) : ∃ a b, layout.get? v = some a ∧ layout.get? w = some b ∧ a.Apart val b := by
  obtain ⟨ds, hg⟩ := hg
  obtain ⟨σ, hσ⟩ := hg.named
  obtain ⟨vars, ops, steps, tensors, table, p₁, s₁, p₂, s₂, p₃, hvars, -, -, htensors, htable, hp₁,
    hp₂, hp₃, hall, hsize⟩ := allocate_gives h
  obtain ⟨hlen, hzip⟩ := zip_of_forall₂ (mapM_ok_iff.1 htensors)
  have htidy : Placement.Tidy g val s ⟨table, {}⟩ [] :=
    Placement.tidy_static hσ fun e he => by
      obtain ⟨_, _, hplace, -, -⟩ := (Placement.tiles_placeConstants htable).region he
      rw [hplace]
  obtain ⟨h₁, hf₁, hin⟩ := Placement.tidy_places hval htidy hp₁
  -- Both variables have their places before the first operator is looked at.
  have placed : ∀ {u}, g.Stored u → ∃ a, p₁.get? u = some a := by
    rintro u (hu | ⟨vars', t, d, hvars', hu, ht, hd⟩)
    · exact hin u hu
    · obtain rfl := Except.ok.inj (hvars.symm.trans hvars')
      obtain ⟨t', hmem⟩ := exists_mem_zip hlen hu
      obtain rfl := Except.ok.inj (ht.symm.trans (hzip _ hmem))
      obtain ⟨a, ha⟩ := (Placement.get?_placeConstants htable).2 ⟨t, d, hmem, hd⟩
      exact ⟨a, hf₁.keeps u a ha⟩
  have hrest : Placement.Appends val p₁ p₃ :=
    (Placement.appends_placeSteps hval hp₂).trans (Placement.appends_places hval hp₃)
  obtain ⟨extent₁, hx₁⟩ := hrest.top extent (hsize ▸ hx)
  have hget : ∀ {u a}, p₁.get? u = some a → layout.get? u = some a := fun {u a} ha => by
    rw [get?, hall]
    exact hrest.get? ha
  obtain ⟨a, ha⟩ := placed hv
  obtain ⟨b, hb⟩ := placed hw
  refine ⟨a, b, hget ha, hget hb, ?_⟩
  have hfits := h₁.fits extent₁ hx₁
  by_cases hda : a.space = .dynamic
  · exact hfits.held v w a b hne (List.not_mem_nil) (List.not_mem_nil) ha hb hda
  by_cases hdb : b.space = .dynamic
  · exact (hfits.held w v b a hne.symm (List.not_mem_nil) (List.not_mem_nil) hb ha hdb).symm
  · -- Regions in the static space are those of constants.
    have static : ∀ {u a}, p₁.get? u = some a → a.space ≠ .dynamic → (u, a) ∈ table :=
      fun {u a} ha hd => (hf₁.added _ (Placement.mem_table_of_get? ha)).resolve_right hd
    exact (Placement.tiles_placeConstants htable).apart hval (static ha hda) (static hb hdb) hne

end MemoryLayout

/-! ## Textures -/

namespace TextureLayout

variable {α : Type} {g : Graph α} {config : Config} {layout : TextureLayout}

/-- The data of the constants among some entries. -/
def dataOf (entries : List (VarId × TextureAllocation × Option (Array α))) : List (Array α) :=
  entries.filterMap (·.2.2)

/-- The data of a constant begin behind those of the constants before it. -/
theorem split_placeConstants {offset : Nat}
    {entries : List (VarId × TextureAllocation × Option (Array α))} {e : VarId × TextureAllocation}
    (he : e ∈ placeConstants offset entries) : ∃ pre a data post,
      entries = pre ++ (e.1, a, data) :: post ∧
      (data = none → e.2 = a) ∧ ∀ d, data = some d →
        e.2.constantOffset = some (offset + ((dataOf pre).map Array.size).sum) := by
  induction entries generalizing offset with
  | nil => cases he
  | cons entry entries ih =>
    obtain ⟨v, a, _ | data⟩ := entry
    · rcases List.mem_cons.1 he with rfl | he
      · exact ⟨[], a, none, entries, rfl, fun _ => rfl, by simp⟩
      · obtain ⟨pre, b, data, post, rfl, hnone, hsome⟩ := ih he
        exact ⟨_ :: pre, b, data, post, rfl, hnone, by simpa [dataOf] using hsome⟩
    · rcases List.mem_cons.1 he with rfl | he
      · exact ⟨[], a, some data, entries, rfl, by simp, by simp [dataOf]⟩
      · obtain ⟨pre, b, data', post, rfl, hnone, hsome⟩ := ih he
        exact ⟨_ :: pre, b, data', post, rfl, hnone, by simpa [dataOf, Nat.add_assoc] using hsome⟩

/-- The constants are shipped in the order of the entries. -/
theorem mapM_data_placeConstants {offset : Nat}
    {entries : List (VarId × TextureAllocation × Option (Array α))}
    (hentries : ∀ e ∈ entries, e.2.1.constantOffset = none ∧
      ∃ t, g.tensor e.1 = .ok t ∧ t.data = e.2.2) :
    (((placeConstants offset entries).filter (·.2.constantOffset.isSome)).mapM
      fun e => do return (← g.tensor e.1).data.getD #[] : Except GraphError (List (Array α))) =
        .ok (dataOf entries) := by
  induction entries generalizing offset with
  | nil => rfl
  | cons entry entries ih =>
    obtain ⟨⟨hoffset, t, ht, hdata⟩, hrest⟩ := List.forall_mem_cons.1 hentries
    obtain ⟨v, a, _ | data⟩ := entry
    · have hoffset' : a.constantOffset = none := hoffset
      simpa [placeConstants, dataOf, hoffset'] using ih hrest
    · have ht' : g.tensor v = .ok t := ht
      have hdata' : t.data = some data := hdata
      rw [placeConstants, List.filter_cons_of_pos (by simp), List.mapM_cons, ht', ih hrest]
      simp [dataOf, hdata']
      rfl

/-- One entry for each reachable variable, and what is shipped for them. -/
theorem entries_of_allocate (h : allocate g config = .ok layout) :
    ∃ vars entries, g.reachable = .ok vars ∧
      List.Forall₂ (fun v e => e.1 = v ∧ e.2.1.constantOffset = none ∧
        ∃ t, g.tensor v = .ok t ∧ t.data = e.2.2) vars entries ∧
      layout.textures = placeConstants 0 (sortByVar entries) ∧
      layout.constants g = .ok ((dataOf (sortByVar entries)).foldl (· ++ ·) #[]) := by
  unfold allocate at h
  simp only [bind_ok_iff, mapM_ok_iff, pure_ok_iff] at h
  obtain ⟨vars, hvars, entries, hentries, rfl⟩ := h
  have hall : List.Forall₂ (fun v e => e.1 = v ∧ e.2.1.constantOffset = none ∧
      ∃ t, g.tensor v = .ok t ∧ t.data = e.2.2) vars entries := by
    refine hentries.imp ?_
    rintro v _ ⟨t, ht, a, ha, rfl⟩
    simp only [texture, bind_ok_iff, pure_ok_iff] at ha
    obtain ⟨size, -, rfl⟩ := ha
    exact ⟨rfl, rfl, t, ht, rfl⟩
  refine ⟨vars, entries, hvars, hall, rfl, ?_⟩
  unfold TextureLayout.constants
  dsimp only
  rw [mapM_data_placeConstants fun e he => ?_]
  · rfl
  · have hmem := (List.mergeSort_perm entries _).mem_iff.1 he
    obtain ⟨v, -, rfl, hoffset, ht⟩ := exists_of_forall₂_right hall hmem
    exact ⟨hoffset, ht⟩

/-- The texture of a constant knows where its data begin in the shipped data. -/
theorem load?_constants (h : allocate g config = .ok layout) {constants : Array α}
    (hconstants : layout.constants g = .ok constants) {v : VarId} {a : TextureAllocation}
    (ha : layout.get? v = some a) : ∃ t, g.tensor v = .ok t ∧
      (t.data = none → a.constantOffset = none) ∧ ∀ d, t.data = some d →
        ∃ start, a.constantOffset = some start ∧ load? constants start d.size = some d := by
  obtain ⟨vars, entries, -, hall, hlayout, hdata⟩ := entries_of_allocate h
  obtain rfl := Except.ok.inj (hconstants.symm.trans hdata)
  obtain ⟨pre, b, data, post, hsplit, hnone, hsome⟩ :=
    split_placeConstants (hlayout ▸ mem_of_get? ha)
  have hmem : (v, b, data) ∈ entries := (List.mergeSort_perm entries _).mem_iff.1
    (hsplit ▸ List.mem_append_right _ (List.mem_cons_self ..))
  obtain ⟨_, -, rfl, hoffset, t, ht, rfl⟩ := exists_of_forall₂_right hall hmem
  refine ⟨t, ht, fun hd => ?_, fun d hd => ⟨_, hsome d hd, ?_⟩⟩
  · have heq : a = b := hnone hd
    rw [heq]
    exact hoffset
  · have hparts : dataOf (pre ++ (v, b, t.data) :: post) = dataOf pre ++ d :: dataOf post := by
      simp [dataOf, hd]
    rw [hsplit, hparts, Nat.zero_add]
    exact load?_concat _ d _

end TextureLayout

/-! ## All constants -/

section

variable {α : Type} {g : Graph α} {vars : List VarId}

theorem forall₂_zip {β γ : Type} {R : β → γ → Prop} {xs : List β} {ys : List γ}
    (h : List.Forall₂ R xs ys) : List.Forall₂ (fun x e => e.1 = x ∧ R x e.2) xs (xs.zip ys) := by
  induction h with
  | nil => exact .nil
  | cons hxy _ ih => exact .cons ⟨rfl, hxy⟩ ih

theorem lookup_of_nodup {β γ : Type} [BEq β] [LawfulBEq β] {entries : List (β × γ)}
    (hnodup : (entries.map (·.1)).Nodup) {e : β × γ} (he : e ∈ entries) :
    entries.lookup e.1 = some e.2 := by
  induction entries with
  | nil => cases he
  | cons x entries ih =>
    obtain ⟨hx, hnodup⟩ := List.nodup_cons.1 hnodup
    rcases List.mem_cons.1 he with rfl | he
    · exact List.lookup_cons_self
    · have hne : (e.1 == x.1) = false :=
        beq_eq_false_iff_ne.2 fun heq => hx (List.mem_map.2 ⟨e, he, heq⟩)
      rw [List.lookup_cons, hne]
      exact ih hnodup he

theorem Graph.nodup_reachable (h : g.reachable = .ok vars) : vars.Nodup := by
  unfold reachable at h
  obtain ⟨ops, -, h⟩ := bind_ok_iff.1 h
  obtain ⟨touched, -, h⟩ := bind_ok_iff.1 h
  obtain rfl := pure_ok_iff.1 h
  exact Placement.nodup_eraseDups _

/-- The list has each constant that the outputs depend on once, with its data. -/
structure Graph.HasConstants (g : Graph α) (shipped : List (VarId × Array α)) : Prop where
  nodup : (shipped.map (·.1)).Nodup
  mem_iff : ∀ v d, (v, d) ∈ shipped ↔
    ∃ vars t, g.reachable = .ok vars ∧ v ∈ vars ∧ g.tensor v = .ok t ∧ t.data = some d

/-- The variables that have data. -/
def constantsOf (vs : List (VarId × Option (Array α))) : List (VarId × Array α) :=
  vs.filterMap fun e => e.2.map (e.1, ·)

theorem mem_constantsOf {vs : List (VarId × Option (Array α))} {v : VarId} {d : Array α} :
    (v, d) ∈ constantsOf vs ↔ (v, some d) ∈ vs := by
  simp only [constantsOf, List.mem_filterMap, Option.map_eq_some_iff, Prod.mk.injEq]
  constructor
  · rintro ⟨⟨w, data⟩, he, c, rfl, rfl, rfl⟩
    exact he
  · intro he
    exact ⟨(v, some d), he, d, rfl, rfl, rfl⟩

theorem map_fst_constantsOf (vs : List (VarId × Option (Array α))) :
    ((constantsOf vs).map (·.1)).Sublist (vs.map (·.1)) := by
  induction vs with
  | nil => exact .slnil
  | cons e vs ih =>
    obtain ⟨v, _ | d⟩ := e
    · exact ih.cons v
    · exact ih.cons_cons v

theorem Graph.hasConstants_constantsOf {vs : List (VarId × Option (Array α))}
    (hvars : g.reachable = .ok vars)
    (h : List.Forall₂ (fun v e => e.1 = v ∧ ∃ t, g.tensor v = .ok t ∧ t.data = e.2) vars vs) :
    g.HasConstants (constantsOf vs) where
  nodup := by
    have hkeys : vars = vs.map (·.1) := eq_map_of_forall₂ (h.flip.imp fun _ _ he => he.1.symm)
    exact (map_fst_constantsOf vs).nodup (hkeys ▸ nodup_reachable hvars)
  mem_iff v d := by
    rw [mem_constantsOf]
    constructor
    · intro he
      obtain ⟨_, hv, rfl, t, ht, hd⟩ := exists_of_forall₂_right h he
      exact ⟨vars, t, hvars, hv, ht, hd⟩
    · rintro ⟨vars', t, hvars', hv, ht, hd⟩
      obtain rfl := Except.ok.inj (hvars.symm.trans hvars')
      obtain ⟨⟨_, data⟩, he, rfl, t', ht', hd'⟩ := exists_of_forall₂_left h hv
      obtain rfl := Except.ok.inj (ht.symm.trans ht')
      exact (hd'.symm.trans hd) ▸ he

end

/-! ### In the static space -/

namespace Placement

variable {α : Type}

theorem Tiles.total {start stop : Nat} {table : List (VarId × Allocation)}
    (h : Tiles start table stop) :
    stop = start + (table.map fun e => e.2.size.known?.getD 0).sum := by
  induction h with
  | nil => rfl
  | @cons start length stop table v _ ih =>
    rw [ih, List.map_cons, List.sum_cons, ← Nat.add_assoc]
    rfl

/-- The table has the constants in the order of the variables. -/
theorem map_placeConstants {offset size : Nat} {vs : List (VarId × Tensor α)}
    {table : List (VarId × Allocation)} (h : placeConstants offset vs = (table, size)) :
    table.map (fun e => (e.1, e.2.size)) =
      (constantsOf (vs.map fun e => (e.1, e.2.data))).map fun e => (e.1, .known e.2.size) := by
  induction vs generalizing offset table with
  | nil =>
    cases h
    rfl
  | cons x vs ih =>
    obtain ⟨v, t⟩ := x
    unfold placeConstants at h
    split at h
    · next hnone =>
      have hnone' : t.data = none := hnone
      simpa [constantsOf, hnone'] using ih h
    · next data hdata =>
      have hdata' : t.data = some data := hdata
      cases hrest : placeConstants (offset + data.size) vs with
      | mk rest size' =>
        rw [hrest] at h
        cases h
        simpa [constantsOf, hdata'] using ih hrest

end Placement

namespace MemoryLayout

variable {α : Type} {g : Graph α} {layout : MemoryLayout} {s s' : Supply}
  {shipped : List (VarId × Array α)}

/-- The variable has the cells of the static space from a start on. -/
def At (layout : MemoryLayout) (v : VarId) (start length : Nat) : Prop :=
  layout.get? v = some ⟨.static, .known start, .known length⟩

/-- The regions of some constants make up the static space. -/
structure Packs (layout : MemoryLayout) (shipped : List (VarId × Array α)) : Prop where
  static : ∀ v a, layout.get? v = some a → (a.space = .static ↔ ∃ d, (v, d) ∈ shipped)
  placed : ∀ v d, (v, d) ∈ shipped → ∃ start, layout.At v start d.size
  disjoint : ∀ v d w c, (v, d) ∈ shipped → (w, c) ∈ shipped → v ≠ w → ∀ start start',
    layout.At v start d.size → layout.At w start' c.size →
    start + d.size ≤ start' ∨ start' + c.size ≤ start
  covers : ∀ i, i < layout.staticSize ↔
    ∃ v d start, (v, d) ∈ shipped ∧ layout.At v start d.size ∧ start ≤ i ∧ i < start + d.size
  total : layout.staticSize = (shipped.map (·.2.size)).sum

/-- The table of the constants in front of the variables in the dynamic space. -/
structure Tabulates (layout : MemoryLayout) (table : List (VarId × Allocation))
    (shipped : List (VarId × Array α)) : Prop where
  tiles : Placement.Tiles 0 table layout.staticSize
  entries : table.map (fun e => (e.1, e.2.size)) =
    shipped.map fun e => (e.1, .known e.2.size)
  mem_iff : ∀ v a, (v, a) ∈ table ↔ layout.get? v = some a ∧ a.space = .static

theorem exists_tabulates (h : Gives (allocate g) s layout s') :
    ∃ table shipped, g.HasConstants shipped ∧ layout.Tabulates table shipped := by
  obtain ⟨vars, tensors, table, rest, hvars, htensors, htable, hall, hrest⟩ := table_of_allocate h
  have hshipped : g.HasConstants
      (constantsOf ((vars.zip tensors).map fun e => (e.1, e.2.data))) := by
    refine Graph.hasConstants_constantsOf hvars (List.forall₂_map_right_iff.2 ?_)
    exact (forall₂_zip htensors).imp fun v e he => ⟨he.1, e.2, he.2, rfl⟩
  have htiles := Placement.tiles_placeConstants htable
  have hentries := Placement.map_placeConstants htable
  have hnodup : (table.map (·.1)).Nodup := by
    have hkeys := congrArg (List.map Prod.fst) hentries
    simp only [List.map_map, Function.comp_def] at hkeys
    exact hkeys ▸ hshipped.nodup
  refine ⟨table, _, hshipped, htiles, hentries, fun v a => ⟨fun he => ?_, fun ⟨ha, hspace⟩ => ?_⟩⟩
  · obtain ⟨_, _, hplace, -, -⟩ := htiles.region he
    refine ⟨?_, congrArg Allocation.space hplace⟩
    rw [get?, hall, List.lookup_append, lookup_of_nodup hnodup he]
    rfl
  · -- A region outside the table lies in the dynamic space.
    rcases List.mem_append.1 (hall ▸ mem_of_get? ha) with he | he
    · exact he
    · cases hspace.symm.trans (hrest _ he)

namespace Tabulates

variable {table : List (VarId × Allocation)} {v : VarId}

theorem mem_table (h : layout.Tabulates table shipped) {start n : Nat} (hat : layout.At v start n) :
    (v, ⟨.static, .known start, .known n⟩) ∈ table :=
  (h.mem_iff _ _).2 ⟨hat, rfl⟩

/-- Each constant has its region. -/
theorem exists_region (h : layout.Tabulates table shipped) {d : Array α} (hd : (v, d) ∈ shipped) :
    ∃ start, layout.At v start d.size ∧ start + d.size ≤ layout.staticSize := by
  have hmem : (v, Dim.known d.size) ∈ table.map fun e => (e.1, e.2.size) :=
    h.entries ▸ List.mem_map_of_mem (f := fun e => (e.1, Dim.known e.2.size)) hd
  obtain ⟨⟨w, a⟩, he, heq⟩ := List.mem_map.1 hmem
  obtain ⟨o, n, hplace, -, hstop⟩ := h.tiles.region he
  cases hplace
  cases heq
  exact ⟨o, ((h.mem_iff _ _).1 he).1, hstop⟩

/-- Each region has its constant. -/
theorem exists_data (h : layout.Tabulates table shipped) {a : Allocation} (he : (v, a) ∈ table) :
    ∃ d, (v, d) ∈ shipped ∧ a.size = .known d.size := by
  have hmem : (v, a.size) ∈ shipped.map fun e => (e.1, Dim.known e.2.size) :=
    h.entries ▸ List.mem_map_of_mem (f := fun e => (e.1, e.2.size)) he
  obtain ⟨⟨w, d⟩, hd, heq⟩ := List.mem_map.1 hmem
  obtain ⟨rfl, hsize⟩ := Prod.mk.inj heq
  exact ⟨d, hd, hsize.symm⟩

theorem packs (h : layout.Tabulates table shipped) : layout.Packs shipped where
  static v a ha := by
    constructor
    · intro hspace
      obtain ⟨d, hd, -⟩ := h.exists_data ((h.mem_iff v a).2 ⟨ha, hspace⟩)
      exact ⟨d, hd⟩
    · rintro ⟨d, hd⟩
      obtain ⟨start, hat, -⟩ := h.exists_region hd
      rw [← Option.some.inj (hat.symm.trans ha)]
  placed v d hd := by
    obtain ⟨start, hat, -⟩ := h.exists_region hd
    exact ⟨start, hat⟩
  disjoint v d w c _ _ hne start start' hv hw :=
    (h.tiles.apart Dim.reads_known (h.mem_table hv) (h.mem_table hw) hne).disjoint
  covers i := by
    constructor
    · intro hi
      obtain ⟨⟨v, a⟩, he, o, n, hplace, hstart, hstop⟩ := h.tiles.covers (Nat.zero_le i) hi
      cases hplace
      obtain ⟨d, hd, hsize⟩ := h.exists_data he
      cases hsize
      exact ⟨v, d, o, hd, ((h.mem_iff _ _).1 he).1, hstart, hstop⟩
    · rintro ⟨v, d, start, hd, hat, hstart, hstop⟩
      obtain ⟨start', hat', hle⟩ := h.exists_region hd
      obtain rfl : start' = start := by simpa using hat'.symm.trans hat
      omega
  total := by
    have hsizes := congrArg (List.map fun e => e.2.known?.getD 0) h.entries
    simp only [List.map_map, Function.comp_def] at hsizes
    rw [h.tiles.total, Nat.zero_add, hsizes]
    rfl

end Tabulates

end MemoryLayout

/-! ### In textures -/

namespace TextureLayout

variable {α : Type} {g : Graph α} {config : Config} {layout : TextureLayout}

theorem dataOf_eq_map (entries : List (VarId × TextureAllocation × Option (Array α))) :
    dataOf entries = (constantsOf (entries.map fun e => (e.1, e.2.2))).map (·.2) := by
  induction entries with
  | nil => rfl
  | cons e entries ih =>
    obtain ⟨v, a, _ | d⟩ := e
    · exact ih
    · exact congrArg (d :: ·) ih

/-- Each constant is shipped once, whatever the order. -/
theorem total_dataOf (entries : List (VarId × TextureAllocation × Option (Array α))) :
    ((dataOf (sortByVar entries)).map Array.size).sum =
      ((constantsOf (entries.map fun e => (e.1, e.2.2))).map (·.2.size)).sum := by
  have hperm : (dataOf (sortByVar entries)).Perm (dataOf entries) :=
    (List.mergeSort_perm entries _).filterMap _
  rw [(hperm.map _).sum_eq, dataOf_eq_map, List.map_map]
  rfl

theorem exists_constants (h : allocate g config = .ok layout) :
    ∃ shipped constants, g.HasConstants shipped ∧ layout.constants g = .ok constants ∧
      constants.size = (shipped.map (·.2.size)).sum ∧
      ∀ v d, (v, d) ∈ shipped → ∃ a start, layout.get? v = some a ∧
        a.constantOffset = some start ∧ load? constants start d.size = some d := by
  obtain ⟨vars, entries, hvars, hall, -, hdata⟩ := entries_of_allocate h
  have hshipped : g.HasConstants (constantsOf (entries.map fun e => (e.1, e.2.2))) :=
    Graph.hasConstants_constantsOf hvars
      (List.forall₂_map_right_iff.2 (hall.imp fun _ _ he => ⟨he.1, he.2.2⟩))
  refine ⟨_, _, hshipped, hdata, ?_, fun v d hd => ?_⟩
  · rw [size_foldl_append, total_dataOf]
  · obtain ⟨vars', t, hvars', hv, ht, ht'⟩ := (hshipped.mem_iff v d).1 hd
    obtain ⟨a, ha⟩ := (placed_of_allocate h).2 vars' hvars' v hv
    obtain ⟨t', htensor, -, hload⟩ := load?_constants h hdata ha
    obtain rfl := Except.ok.inj (ht.symm.trans htensor)
    obtain ⟨start, hstart, hd⟩ := hload d ht'
    exact ⟨a, start, ha, hstart, hd⟩

end TextureLayout

section

variable {α : Type} [Scalar α] {g : Graph α}

/-- Once a graph is laid out in linear memory, the regions of its constants make up the static
space, and what is shipped fills it. In both layouts the data of a constant are found in what is
shipped where the layout says so, and nothing else is shipped. -/
theorem constants_shipped :
    (∀ layout s s', Gives (MemoryLayout.allocate g) s layout s' →
      ∃ shipped constants, g.HasConstants shipped ∧ layout.Packs shipped ∧
        layout.constants g = .ok constants ∧
        constants.size = layout.staticSize ∧ constants.size = (shipped.map (·.2.size)).sum ∧
        ∀ v d, (v, d) ∈ shipped → ∃ start, layout.At v start d.size ∧
          load? constants start d.size = some d) ∧
    ∀ config layout, TextureLayout.allocate g config = .ok layout →
      ∃ shipped constants, g.HasConstants shipped ∧ layout.constants g = .ok constants ∧
        constants.size = (shipped.map (·.2.size)).sum ∧
        ∀ v d, (v, d) ∈ shipped → ∃ a start, layout.get? v = some a ∧
          a.constantOffset = some start ∧ load? constants start d.size = some d := by
  refine ⟨fun layout s s' h => ?_, fun config layout h => TextureLayout.exists_constants h⟩
  obtain ⟨table, shipped, hshipped, htable⟩ := MemoryLayout.exists_tabulates h
  obtain ⟨constants, hconstants, hsize, hdata⟩ := MemoryLayout.exists_constants h
  have hpacks := htable.packs
  refine ⟨shipped, constants, hshipped, hpacks, hconstants, hsize, hsize.trans hpacks.total,
    fun v d hd => ?_⟩
  obtain ⟨vars, t, hvars, hv, ht, ht'⟩ := (hshipped.mem_iff v d).1 hd
  exact hdata v vars t d hvars hv ht ht'

end

namespace Graph

/-- A number of elements side by side. -/
def rowType (n : Nat) : TensorType := ⟨[.known n], channelType.order, channelType.rank_eq⟩

/-- Three constants without an operator. The first one is an input as well as an output, and the
second one is empty. -/
def packed : Graph ℚ where
  slots := #[.live { type := rowType 2, marks := [.input, .output], data := some #[5, 6] } none,
    .live { type := rowType 0, marks := [.output], data := some #[] } none,
    .live { type := rowType 1, marks := [.output], data := some #[7] } none]
  declaredInputs := [⟨0⟩]
  declaredOutputs := [⟨0⟩, ⟨1⟩, ⟨2⟩]

theorem built_packed : Built {} packed := by
  have words : Session true {} [.known 2, .known 0, .known 1] ({} : Graph ℚ) :=
    .word (.word (.word (.empty {}) (by decide)) (by decide)) (by decide)
  have made₂ : (⟨rowType 2, [], some #[5, 6]⟩ : Tensor ℚ).MadeFrom [.known 2, .known 0, .known 1]
      {} {} := ⟨by simp [rowType], rfl, fun x hx => Option.some.inj hx ▸ rfl⟩
  have made₀ : (⟨rowType 0, [], some #[]⟩ : Tensor ℚ).MadeFrom [.known 2, .known 0, .known 1]
      {} {} := ⟨by simp [rowType], rfl, fun x hx => Option.some.inj hx ▸ rfl⟩
  have made₁ : (⟨rowType 1, [], some #[7]⟩ : Tensor ℚ).MadeFrom [.known 2, .known 0, .known 1]
      {} {} := ⟨by simp [rowType], rfl, fun x hx => Option.some.inj hx ▸ rfl⟩
  have first := Session.markOutput (v := ⟨0⟩)
    (.addVariable (.addVariable (.addInput words made₂) made₀) made₁) rfl
  have second := Session.markOutput (v := ⟨1⟩) first rfl
  exact ⟨_, .markOutput second (rfl : Graph.markOutput _ ⟨2⟩ = .ok packed)⟩

theorem constants_shipped_packed : Built {} packed ∧
    (∃ layout constants, Gives (MemoryLayout.allocate packed) {} layout {} ∧
      layout.constants packed = .ok constants ∧ constants.size = 3 ∧
      load? constants 0 2 = some #[5, 6] ∧ load? constants 2 0 = some #[] ∧
      load? constants 2 1 = some #[7]) ∧
    ∃ layout constants a start, TextureLayout.allocate packed {} = .ok layout ∧
      layout.constants packed = .ok constants ∧ layout.get? ⟨2⟩ = some a ∧
      a.constantOffset = some start ∧ load? constants start 1 = some #[7] := by
  have hvars : packed.reachable = .ok [⟨0⟩, ⟨1⟩, ⟨2⟩] := rfl
  have constant : ∀ {shipped : List (VarId × Array ℚ)}, packed.HasConstants shipped →
      (⟨0⟩, #[5, 6]) ∈ shipped ∧ (⟨1⟩, #[]) ∈ shipped ∧ (⟨2⟩, #[7]) ∈ shipped := fun h =>
    ⟨(h.mem_iff _ _).2 ⟨_, _, hvars, by simp, rfl, rfl⟩,
      (h.mem_iff _ _).2 ⟨_, _, hvars, by simp, rfl, rfl⟩,
      (h.mem_iff _ _).2 ⟨_, _, hvars, by simp, rfl, rfl⟩⟩
  refine ⟨built_packed, ?_, ?_⟩
  · obtain ⟨layout, hlayout, hsize, h₀, h₁, h₂⟩ : ∃ layout,
        Gives (MemoryLayout.allocate packed) {} layout {} ∧ layout.staticSize = 3 ∧
        layout.At ⟨0⟩ 0 2 ∧ layout.At ⟨1⟩ 2 0 ∧ layout.At ⟨2⟩ 2 1 :=
      ⟨_, rfl, rfl, rfl, rfl, rfl⟩
    obtain ⟨shipped, constants, hshipped, -, hconstants, htotal, -, hload⟩ :=
      constants_shipped.1 layout {} {} hlayout
    obtain ⟨hd₀, hd₁, hd₂⟩ := constant hshipped
    have data : ∀ {v start} {d : Array ℚ}, (v, d) ∈ shipped → layout.At v start d.size →
        load? constants start d.size = some d := by
      intro v start d hd hat
      obtain ⟨start', hat', hload⟩ := hload v d hd
      obtain rfl : start' = start := by simpa [MemoryLayout.At] using hat'.symm.trans hat
      exact hload
    exact ⟨layout, constants, hlayout, hconstants, htotal.trans hsize, data hd₀ h₀, data hd₁ h₁,
      data hd₂ h₂⟩
  · obtain ⟨layout, hlayout⟩ : ∃ layout, TextureLayout.allocate packed {} = .ok layout :=
      TextureLayout.allocate_ok hvars (List.forall_mem_cons.2 ⟨⟨_, _, rfl, rfl⟩,
        List.forall_mem_cons.2 ⟨⟨_, _, rfl, rfl⟩, List.forall_mem_singleton.2 ⟨_, _, rfl, rfl⟩⟩⟩)
    obtain ⟨shipped, constants, hshipped, hconstants, -, hload⟩ :=
      constants_shipped.2 {} layout hlayout
    obtain ⟨a, start, ha, hstart, hd⟩ := hload _ _ (constant hshipped).2.2
    exact ⟨layout, constants, a, start, hlayout, hconstants, ha, hstart, hd⟩

end Graph

end TensorCompiler
