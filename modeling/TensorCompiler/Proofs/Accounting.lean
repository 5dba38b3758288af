import Mathlib
import TensorCompiler.Proofs.ExactScalars
import TensorCompiler.Proofs.PatchSites
/-!
# What an injection accounts for

A successful injection leaves a list of bindings, a meta table and a list of patches. This module
shows for every dialect that nothing in them is missing, doubled or shifted: the bindings are those
of the names in the order of their first requests, whatever is stored belongs to one of them, a
known integer has its own value and no patch, and a symbolic one has a zero and one patch.

* `Record`: a binding that has been written out, in one of the forms of `Dialect.Renders`.
* `Injected.Accounted`: the records account for whatever has been stored.
* `Injected.Accounted.extend`: a rendering adds the entries of its record and leaves the others.
* `Injection.Ran.step`: what holds of the segments so far is kept by writing the next one out.
* `inject_accounted`: a successful injection accounts for everything, and filling it gives every
  entry the value of its dimension.
-/

namespace TensorCompiler

/-! ## Records -/

section

variable {α : Type} [ScalarText α]

/-- A binding that has been written out, at its first request. -/
structure Record (injector : Injector α) where
  request : Request
  name : String
  binding : Binding α
  rendered : Rendered α
  entries : List Entry
  named : request.binding? = some name
  bound : injector.bindings.get? name = some binding
  form : ∃ start unit, injector.dialect.Renders start unit request binding rendered entries

variable {injector : Injector α}

/-- What the runtime provides for it. -/
def Record.provided (r : Record injector) : KernelBinding α := ⟨r.name, r.rendered.value⟩

/-- The text that a segment is written as. -/
def Injector.write (injector : Injector α) (records : List (Record injector)) : Segment → String
  | .text text => text
  | .request request =>
    match request.binding? with
    | none => injector.name
    | some name => ((records.find? (·.name = name)).map (·.rendered.text)).getD ""

/-- The records account for whatever has been stored. -/
structure Injected.Accounted (i : Injected α) (records : List (Record injector)) : Prop where
  /-- The bindings of the result are those of the records, in their order. -/
  provided : i.bindings = records.map Record.provided
  /-- No name has been recorded twice. -/
  nodup : (records.map (·.name)).Nodup
  /-- Every entry of a record is stored. -/
  stored : ∀ r ∈ records, ∀ e ∈ r.entries, i.Stores e
  /-- Every site belongs to one record. -/
  owned : ∀ site, (i.cell? site).isSome → ∃! r, r ∈ records ∧ site ∈ r.entries.map (·.site)
  /-- Every patch is for a site. -/
  patched : ∀ p ∈ i.patches, (i.cell? p.site).isSome

namespace Injected.Accounted

variable {i : Injected α} {records : List (Record injector)} {s s' : Injection α}

theorem empty : (Injection.result {} : Injected α).Accounted ([] : List (Record injector)) where
  provided := rfl
  nodup := List.nodup_nil
  stored := List.forall_mem_nil _
  owned site h := by cases site <;> cases h
  patched := List.forall_mem_nil _

/-- A site without an integer has no patches. -/
theorem patchesAt_eq_nil (h : i.Accounted records) {site : PatchSite}
    (hsite : i.cell? site = none) : i.patchesAt site = [] := by
  rw [Injected.patchesAt, List.filter_eq_nil_iff]
  intro p hp hp'
  have hcell := h.patched p hp
  rw [of_decide_eq_true hp', hsite] at hcell
  cases hcell

theorem isSome_of_mem (h : i.Accounted records) {r : Record injector} (hr : r ∈ records)
    {site : PatchSite} (hsite : site ∈ r.entries.map (·.site)) : (i.cell? site).isSome := by
  obtain ⟨e, he, rfl⟩ := List.mem_map.1 hsite
  rw [(h.stored r hr e he).cell]
  rfl

theorem find?_bindings (h : i.Accounted records) (name : String) :
    i.bindings.find? (·.name = name) = (records.find? (·.name = name)).map Record.provided := by
  rw [h.provided, List.find?_map]
  rfl

variable {name : String} {rendered : Rendered α} {xs ys : List Dim}

/-- New entries have other sites than those of the records. -/
theorem apart (h : s.result.Accounted records) (hnew : s.bindings.find? (·.name = name) = none)
    {r : Record injector} (hr : r ∈ records) {site : PatchSite}
    (hsite : site ∈ r.entries.map (·.site)) :
    site ∉ (s.newEntries name xs ys).map (·.site) := by
  intro hmem
  obtain ⟨e, he, rfl⟩ := List.mem_map.1 hmem
  have hsome := h.isSome_of_mem hr hsite
  rw [Injection.cell?_fresh hnew he] at hsome
  cases hsome

theorem stored_old (h : s.result.Accounted records) (hs : s.Extends s' name rendered xs ys)
    (hnew : s.bindings.find? (·.name = name) = none) {r : Record injector} (hr : r ∈ records)
    {e : Entry} (he : e ∈ r.entries) : s'.result.Stores e := by
  have hsite : e.site ∉ (s.newEntries name xs ys).map (·.site) :=
    h.apart hnew hr (List.mem_map_of_mem he)
  rw [stores_iff, hs.cell?_old hnew hsite, hs.patchesAt_old hsite]
  exact stores_iff.1 (h.stored r hr e he)

theorem stored_new (h : s.result.Accounted records) (hs : s.Extends s' name rendered xs ys)
    (hnew : s.bindings.find? (·.name = name) = none) {e : Entry}
    (he : e ∈ s.newEntries name xs ys) : s'.result.Stores e :=
  stores_iff.2 ⟨hs.cell?_new hnew he, hs.fits_new he,
    hs.patchesAt_new he (h.patchesAt_eq_nil (Injection.cell?_fresh hnew he))⟩

theorem patched_extend (h : s.result.Accounted records) (hs : s.Extends s' name rendered xs ys)
    (hnew : s.bindings.find? (·.name = name) = none) {p : Patch} (hp : p ∈ s'.result.patches) :
    (s'.result.cell? p.site).isSome := by
  by_cases hmem : p.site ∈ (s.newEntries name xs ys).map (·.site)
  · obtain ⟨e, he, hsite⟩ := List.mem_map.1 hmem
    rw [← hsite, hs.cell?_new hnew he]
    rfl
  · rw [hs.cell?_old hnew hmem]
    rcases hs.mem_patches.1 hp with hp | hp
    · exact h.patched p hp
    · obtain ⟨e, he, hpatch⟩ := List.mem_filterMap.1 hp
      exact absurd (site_of_patch? hpatch ▸ List.mem_map_of_mem he) hmem

/-- A rendering adds the entries of its record and leaves the others alone. -/
theorem extend (h : s.result.Accounted records) {record : Record injector}
    (hs : s.Extends s' record.name record.rendered xs ys)
    (hentries : record.entries = s.newEntries record.name xs ys)
    (hfind : records.find? (·.name = record.name) = none) :
    s'.result.Accounted (records ++ [record]) := by
  have hnew : s.bindings.find? (·.name = record.name) = none := by
    rw [show s.bindings = s.result.bindings from rfl, h.find?_bindings, hfind]
    rfl
  constructor
  case provided =>
    show s'.bindings = _
    rw [hs.bindings, show s.bindings = _ from h.provided, List.map_append]
    rfl
  case nodup =>
    rw [List.map_append, List.nodup_append']
    refine ⟨h.nodup, List.nodup_singleton _, ?_⟩
    intro other hother hmem
    obtain ⟨r, hr, rfl⟩ := List.mem_map.1 hother
    exact List.find?_eq_none.1 hfind r hr (decide_eq_true (List.mem_singleton.1 hmem))
  case stored =>
    intro r hr e he
    rcases List.mem_append.1 hr with hr | hr
    · exact h.stored_old hs hnew hr he
    · obtain rfl := List.mem_singleton.1 hr
      exact h.stored_new hs hnew (hentries ▸ he)
  case owned =>
    intro site hsite
    rcases hs.isSome_or_new hnew hsite with hmem | ⟨hmem, hbefore⟩
    · refine ⟨record, ⟨by simp, hentries ▸ hmem⟩, ?_⟩
      rintro r ⟨hr, hr'⟩
      rcases List.mem_append.1 hr with hr | hr
      · exact absurd hmem (h.apart hnew hr hr')
      · exact List.mem_singleton.1 hr
    · obtain ⟨r, ⟨hr, hr'⟩, hunique⟩ := h.owned site hbefore
      refine ⟨r, ⟨List.mem_append_left _ hr, hr'⟩, ?_⟩
      rintro q ⟨hq, hq'⟩
      rcases List.mem_append.1 hq with hq | hq
      · exact hunique q ⟨hq, hq'⟩
      · obtain rfl := List.mem_singleton.1 hq
        exact absurd (hentries ▸ hq') hmem
  case patched => exact fun p hp => h.patched_extend hs hnew hp

end Injected.Accounted

/-! ## Segments -/

/-- What has been written out and recorded after these segments. -/
structure Injection.Ran (injector : Injector α) (seen : List Segment) (s : Injection α)
    (records : List (Record injector)) : Prop where
  accounted : s.result.Accounted records
  /-- A record is of a request that has been met. -/
  requested : ∀ r ∈ records, .request r.request ∈ seen
  names : records.map (·.name) = (Template.mk seen).names.eraseDups
  texts : ∀ name, s.texts.lookup name = (records.find? (·.name = name)).map (·.rendered.text)
  source : s.source = String.join (seen.map (injector.write records))
  units : s.bindings.filterMap (·.value.unit?) = List.range s.units

variable {seen : List Segment} {segment : Segment} {s s' : Injection α}
  {records : List (Record injector)}

omit [ScalarText α] in
theorem names_snoc : (Template.mk (seen ++ [segment])).names =
    (Template.mk seen).names ++ (Template.mk [segment]).names := by
  simp only [Template.names, Template.requests, List.filterMap_append]

theorem names_request (request : Request) :
    (Template.mk [.request request]).names = request.binding?.toList := by
  cases h : request.binding? with
  | none => simp [Template.names, Template.requests, h]
  | some name => simp [Template.names, Template.requests, h]

theorem eraseDups_snoc (xs : List String) (x : String) : (xs ++ [x]).eraseDups =
    if x ∈ xs then xs.eraseDups else xs.eraseDups ++ [x] := by
  rw [List.eraseDups_append]
  split
  · next h => simp [List.removeAll, h]
  · next h => simp [List.removeAll, h, List.eraseDups_cons]

namespace Injection.Ran

theorem empty : ({} : Injection α).Ran injector [] [] where
  accounted := .empty
  requested := List.forall_mem_nil _
  names := rfl
  texts _ := rfl
  source := rfl
  units := rfl

/-- What has been requested has been recorded. -/
theorem mem_names (h : s.Ran injector seen records) {name : String} :
    name ∈ (Template.mk seen).names ↔ ∃ r ∈ records, r.name = name := by
  rw [← List.mem_eraseDups, ← h.names, List.mem_map]

/-- A segment that requests nothing new. -/
theorem emit (h : s.Ran injector seen records) {text : String}
    (hnames : ∀ name ∈ (Template.mk [segment]).names, name ∈ (Template.mk seen).names)
    (htext : injector.write records segment = text) :
    (s.emit text).Ran injector (seen ++ [segment]) records where
  accounted := ⟨h.accounted.provided, h.accounted.nodup, h.accounted.stored, h.accounted.owned,
    h.accounted.patched⟩
  requested r hr := List.mem_append_left _ (h.requested r hr)
  names := by
    have hnone : (Template.mk [segment]).names.removeAll (Template.mk seen).names = [] :=
      List.filter_eq_nil_iff.2 fun name hname => by simp [hnames name hname]
    rw [names_snoc, List.eraseDups_append, hnone, h.names]
    exact (List.append_nil _).symm
  texts := h.texts
  source := by
    rw [List.map_append, List.map_singleton, String.join_append, htext, ← h.source]
    simp [Injection.emit]
  units := h.units

/-- A name that has been requested has its record. -/
theorem exists_record (h : s.Ran injector seen records) {request : Request} {name : String}
    (hrequest : .request request ∈ seen) (hname : request.binding? = some name) :
    ∃ r, records.find? (·.name = name) = some r ∧ r ∈ records ∧ r.name = name := by
  have hmem : name ∈ (Template.mk seen).names := by
    simp only [Template.names, Template.requests, List.mem_filterMap]
    exact ⟨request, ⟨_, hrequest, rfl⟩, hname⟩
  obtain ⟨r, hr, hrname⟩ := h.mem_names.1 hmem
  have hfound : (records.find? (·.name = name)).isSome :=
    List.find?_isSome.2 ⟨r, hr, decide_eq_true hrname⟩
  obtain ⟨q, hq⟩ := Option.isSome_iff_exists.1 hfound
  exact ⟨q, hq, List.mem_of_find?_eq_some hq, by simpa using List.find?_some hq⟩

/-- Another record does not change how earlier requests are written. -/
theorem write_append (h : s.Ran injector seen records) (record : Record injector)
    (hsegment : segment ∈ seen) :
    injector.write (records ++ [record]) segment = injector.write records segment := by
  cases segment with
  | text text => rfl
  | request request =>
    cases hname : request.binding? with
    | none => simp [Injector.write, hname]
    | some name =>
      obtain ⟨r, hr, -, -⟩ := h.exists_record hsegment hname
      simp [Injector.write, hname, List.find?_append, hr]

/-- The first request of a name. -/
theorem extend (h : s.Ran injector seen records) (record : Record injector) {xs ys : List Dim}
    (hs : s.Extends s' record.name record.rendered xs ys)
    (hentries : record.entries = s.newEntries record.name xs ys)
    (hfind : records.find? (·.name = record.name) = none) :
    s'.Ran injector (seen ++ [.request record.request]) (records ++ [record]) where
  accounted := h.accounted.extend hs hentries hfind
  requested r hr := by
    rcases List.mem_append.1 hr with hr | hr
    · exact List.mem_append_left _ (h.requested r hr)
    · obtain rfl := List.mem_singleton.1 hr
      exact List.mem_append_right _ (List.mem_singleton_self _)
  names := by
    have hnew : record.name ∉ (Template.mk seen).names := fun hmem => by
      obtain ⟨r, hr, hname⟩ := h.mem_names.1 hmem
      exact List.find?_eq_none.1 hfind r hr (decide_eq_true hname)
    rw [names_snoc, names_request, record.named, Option.toList_some, eraseDups_snoc, if_neg hnew,
      ← h.names, List.map_append]
    rfl
  texts name := by
    rw [hs.texts, List.lookup_cons, List.find?_append]
    by_cases hname : name = record.name
    · subst hname
      simp [hfind]
    · have hne : (name == record.name) = false := by simp [hname]
      simp [hne, Ne.symm hname, h.texts]
  source := by
    have htext : injector.write (records ++ [record]) (.request record.request) =
        record.rendered.text := by
      simp [Injector.write, record.named, List.find?_append, hfind]
    rw [List.map_append, List.map_singleton, String.join_append, htext, hs.source, h.source,
      List.map_congr_left fun segment hsegment => h.write_append record hsegment]
    simp
  units := by
    rw [hs.bindings, List.filterMap_append, h.units]
    rcases hs.units with ⟨hunit, hunits⟩ | ⟨hunit, hunits⟩
    · simp [hunit, hunits]
    · simp [hunit, hunits, List.range_succ]

/-- Writing a segment out records what it requests. -/
theorem step (h : s.Ran injector seen records) (hstep : s.step injector segment = .ok s') :
    ∃ records, s'.Ran injector (seen ++ [segment]) records := by
  cases Injection.writes_of_step hstep with
  | text => exact ⟨records, h.emit (fun name hname => by cases hname) rfl⟩
  | unbound hname =>
    refine ⟨records, h.emit (fun name hmem => ?_) (by simp [Injector.write, hname])⟩
    rw [names_request, hname] at hmem
    cases hmem
  | @again request name text hname htext =>
    have htexts := (h.texts name).symm.trans htext
    obtain ⟨r, hfind, rfl⟩ := Option.map_eq_some_iff.1 htexts
    refine ⟨records, h.emit (fun other hmem => ?_) (by simp [Injector.write, hname, hfind])⟩
    rw [names_request, hname, Option.toList_some, List.mem_singleton] at hmem
    subst hmem
    exact h.mem_names.2
      ⟨r, List.mem_of_find?_eq_some hfind, by simpa using List.find?_some hfind⟩
  | @first request name b s' hname hnew hb hrender =>
    have hfind := Option.map_eq_none_iff.1 ((h.texts name).symm.trans hnew)
    obtain ⟨r, xs, ys, hs, hform⟩ := render_extends hname hrender
    exact ⟨_, h.extend ⟨request, name, b, r, _, hname, hb, _, _, hform⟩ hs rfl hfind⟩

end Injection.Ran

/-! ## Whole injections -/

/-- The index is one of the range of a table, or the one where a symbolic offset is stored. -/
def Record.Owns (r : Record injector) (index : Nat) : Prop :=
  (∃ offset length, r.rendered.value = .table offset length ∧
    offset ≤ index ∧ index < offset + length) ∨
  ∃ a, r.rendered.value = .buffer a ∧ a.offset.known? = none ∧ ⟨.table index, a.offset⟩ ∈ r.entries

theorem owns_iff (r : Record injector) (index : Nat) :
    r.Owns index ↔ .table index ∈ r.entries.map (·.site) := by
  obtain ⟨request, name, binding, rendered, entries, named, bound, start, unit, form⟩ := r
  have htable : ∀ xs, .table index ∈ (entriesFrom .table start xs).map (·.site) ↔
      start ≤ index ∧ index < start + xs.length := by
    simp [sites_entriesFrom, List.mem_range'_1]
  have huniform : ∀ other xs, .table index ∉ (entriesFrom (.uniform other) 0 xs).map (·.site) := by
    simp [sites_entriesFrom]
  have hoffset : ∀ x, ⟨.table index, x⟩ ∈ entriesFrom .table start [x] ↔
      .table index ∈ (entriesFrom .table start [x]).map (·.site) := by
    simp [entriesFrom]
  cases form with
  | literal => simp [Record.Owns]
  | float => simp [Record.Owns]
  | symbol hd hx => simp [Record.Owns, htable]
  | pointer hd => simp [Record.Owns, htable]
  | index hd => simp [Record.Owns, htable]
  | region hd hn => simp [Record.Owns]
  | address hd hn => simp [Record.Owns]
  | symbolicRegion hd hn => simp [Record.Owns, hn, hoffset]
  | symbolicAddress hd hn => simp [Record.Owns, hn, hoffset]
  | uniformInt hd => simpa [Record.Owns] using huniform _ _
  | uniformInts hd => simpa [Record.Owns] using huniform _ _
  | uniformFloat => simp [Record.Owns]
  | sampler => simp [Record.Owns]

variable {t : Template} {injected : Injected α}

/-- A successful injection has run through all segments. -/
theorem exists_ran_of_inject (h : injector.inject t = .ok injected) :
    injector.nameFault? t = none ∧ ∃ (s : Injection α) (records : List (Record injector)),
      s.Ran injector t.segments records ∧ injected = s.result := by
  obtain ⟨hfault, s, hs, rfl⟩ := inject_ok h
  obtain ⟨records, hran⟩ := foldlM_ok_processed
    (P := fun seen s => ∃ records, Injection.Ran injector seen s records) hs ⟨[], .empty⟩
    fun seen segment rest s s' _ ⟨records, hran⟩ hstep => hran.step hstep
  exact ⟨hfault, s, records, hran, rfl⟩

/-- The bindings are provided once for each name, in the order of the first requests, and the
samplers among them have the units from zero on. Whatever is stored belongs to one of them. If all
patches have values, filling the sites gives every entry the value of its dimension. -/
theorem inject_accounted (h : injector.inject t = .ok injected) :
    ∃ records : List (Record injector), injected.Accounted records ∧
      records.map (·.name) = t.names.eraseDups ∧
      (∀ name, (injector.bindings.get? name).isSome ↔ name ∈ records.map (·.name)) ∧
      (∀ index < injected.table.entries.length, ∃! r, r ∈ records ∧ r.Owns index) ∧
      injected.source = String.join (t.segments.map (injector.write records)) ∧
      (∃ units, injected.bindings.filterMap (·.value.unit?) = List.range units) ∧
      ∀ env, (∀ p ∈ injected.patches, ∃ n, p.dim.resolve env = some n) →
        ∃ filled, injected.fill? env = some filled ∧
          (∀ site, (filled.cell? site).isSome = (injected.cell? site).isSome) ∧
          ∀ r ∈ records, ∀ e ∈ r.entries, filled.cell? e.site = e.dim.resolve env := by
  obtain ⟨hfault, s, records, hran, rfl⟩ := exists_ran_of_inject h
  refine ⟨records, hran.accounted, hran.names, fun name => ?_, fun index hindex => ?_,
    hran.source, ⟨s.units, hran.units⟩, fun env hresolve => ?_⟩
  · constructor
    · intro hbound
      obtain ⟨b, hb⟩ := Option.isSome_iff_exists.1 hbound
      rw [hran.names, List.mem_eraseDups]
      exact mem_names_of_bound hfault hb
    · intro hname
      obtain ⟨r, hr, rfl⟩ := List.mem_map.1 hname
      rw [r.bound]
      rfl
  · simp only [owns_iff]
    have hlt : index < s.table.entries.length := hindex
    have hcell : s.table.entries[index]?.isSome := by simp [hlt]
    exact hran.accounted.owned (.table index) hcell
  · obtain ⟨filled, hfilled, hsome, hvalues⟩ := exists_fill? hran.accounted.patched hresolve
    exact ⟨filled, hfilled, hsome, fun r hr e he => hvalues e (hran.accounted.stored r hr e he)⟩

end

/-- A region at a symbolic offset, read twice, and a table with the same symbol. -/
def readsBatch : Template :=
  ⟨[.request (.loadBuffer "y"), " ", .request (.loadBuffer "shape"), " ",
    .request (.loadBuffer "y")]⟩

def batchSize : Dim := .free ⟨0, "batch"⟩

def writesBatch : Injector ℚ where
  dialect := .wgsl 100
  name := "k"
  bindings := .ofList [("y", .buffer ⟨.dynamic, batchSize, .known 4⟩),
    ("shape", .ints [batchSize, .known 4])]

def batchWritten : Injected ℚ where
  source := "(100 + meta_buffer[0]) 1 (100 + meta_buffer[0])"
  table :=
    { entries := [0, 0, 4]
      patches := [⟨batchSize, .table 0⟩, ⟨batchSize, .table 1⟩] }
  bindings := [⟨"y", .buffer ⟨.dynamic, batchSize, .known 4⟩⟩, ⟨"shape", .table 1 2⟩]
  patches := [⟨batchSize, .table 0⟩, ⟨batchSize, .table 1⟩]

/-- With a batch of eight, the table is that of the offset and of both sizes. -/
theorem batch_accounted : writesBatch.inject readsBatch = .ok batchWritten ∧
    ∃ records : List (Record writesBatch), batchWritten.Accounted records ∧
      records.map (·.name) = ["y", "shape"] ∧
      ∃ filled, batchWritten.fill? ⟨[(0, 8)]⟩ = some filled ∧ filled.table.entries = [8, 8, 4] ∧
        ∀ r ∈ records, ∀ e ∈ r.entries, filled.cell? e.site = e.dim.resolve ⟨[(0, 8)]⟩ := by
  have hinject : writesBatch.inject readsBatch = .ok batchWritten := by cbv
  obtain ⟨records, haccounted, hnames, -, -, -, -, hfill⟩ := inject_accounted hinject
  have hresolve : ∀ p ∈ batchWritten.patches, ∃ n, p.dim.resolve ⟨[(0, 8)]⟩ = some n := by
    simp [batchWritten, batchSize, Dim.resolve, Valuation.value?]
  obtain ⟨filled, hfilled, -, hvalues⟩ := hfill _ hresolve
  have htable : filled.table.entries = [8, 8, 4] := by
    cases hfilled
    rfl
  exact ⟨hinject, records, haccounted, hnames, filled, hfilled, htable, hvalues⟩

end TensorCompiler
