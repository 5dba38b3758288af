import TensorCompiler.Proofs.Execution
import TensorCompiler.Proofs.Outcome
/-!
# What injection provides

A template is written out segment by segment, and a binding is recorded at its first request. This
module shows that a successful injection has recorded every binding, and that the loader reads the
bound value back under its name. A symbolic integer is stored as zero until it is patched.

* `Binding.Stored`: a recorded value stands for a binding.
* `stored_load`, `stored_uniform`: every way to render a binding records a value that does.
* `Injection.Keeps`: a relation between values and bindings that injection establishes.
* `inject_provides`: after a successful injection, every binding is stored under its name.
* `inject_ok_of_loads`: in C, a template of loads is written out if all that it loads fits.
-/

namespace TensorCompiler

/-- An integer as it is stored. -/
def Dim.stored (x : Dim) : Nat := x.known?.getD 0

/-- The integer is stored as a signed word. -/
def Dim.Fits (x : Dim) : Prop := x.stored < 0x80000000

instance (x : Dim) : Decidable x.Fits := inferInstanceAs (Decidable (_ < _))

/-- The value that the loader provides stands for this binding. -/
def Binding.Stored {α : Type} (table : MetaTable) (value : BoundValue α) : Binding α → Prop
  | .buffer a => value.buffer? = some a
  | .int x => value.ints? table = some [x.stored] ∧ x.Fits
  | .ints xs => value.ints? table = some (xs.map Dim.stored) ∧ ∀ x ∈ xs, x.Fits
  | .float x => value.float? = some x
  | .sampler v => value.sampler? = some v

/-! ## The meta table -/

section

variable {t t' : MetaTable}

/-- The second table has the entries of the first one in front. -/
def MetaTable.Continues (t t' : MetaTable) : Prop := ∃ more, t'.entries = t.entries ++ more

theorem MetaTable.Continues.refl (t : MetaTable) : t.Continues t := ⟨[], by simp⟩

theorem MetaTable.Continues.trans {t'' : MetaTable} (h : t.Continues t')
    (h' : t'.Continues t'') : t.Continues t'' := by
  obtain ⟨xs, hx⟩ := h
  obtain ⟨ys, hy⟩ := h'
  exact ⟨xs ++ ys, by rw [hy, hx, List.append_assoc]⟩

theorem fitInt32_ok_iff {n m : Nat} : fitInt32 n = .ok m ↔ m = n ∧ n < 0x80000000 := by
  unfold fitInt32
  split
  · next h => simp [h, eq_comm]
  · next h => simp [h]

theorem stored_known {x : Dim} {n : Nat} (h : x.known? = some n) : x.stored = n := by
  simp [Dim.stored, h]

theorem stored_symbolic {x : Dim} (h : x.known? = none) : x.stored = 0 := by
  simp [Dim.stored, h]

theorem fits_known {x : Dim} {n : Nat} (h : x.known? = some n) (hn : n < 0x80000000) : x.Fits := by
  rwa [Dim.Fits, stored_known h]

theorem fits_symbolic {x : Dim} (h : x.known? = none) : x.Fits := by
  rw [Dim.Fits, stored_symbolic h]
  decide

/-- A pushed value is stored behind the others. -/
theorem push_ok {x : Dim} {index : Nat} (h : t.push x = .ok (index, t')) :
    index = t.entries.length ∧ t'.entries = t.entries ++ [x.stored] ∧ x.Fits := by
  unfold MetaTable.push at h
  simp only [] at h
  split at h
  · next n hn =>
    simp only [bind_ok_iff, pure_ok_iff] at h
    obtain ⟨m, hm, h⟩ := h
    obtain ⟨rfl, hlt⟩ := fitInt32_ok_iff.1 hm
    cases h
    exact ⟨rfl, by rw [stored_known hn], fits_known hn hlt⟩
  · next hn =>
    cases h
    exact ⟨rfl, by rw [stored_symbolic hn], fits_symbolic hn⟩

theorem extend_ok {xs : List Dim} {offset : Nat} (h : t.extend xs = (.ok offset, t')) :
    offset = t.entries.length ∧ t'.entries = t.entries ++ xs.map Dim.stored ∧
      ∀ x ∈ xs, x.Fits := by
  induction xs generalizing t offset with
  | nil =>
    cases h
    simp
  | cons x xs ih =>
    unfold MetaTable.extend at h
    split at h
    · cases h
    · next index t₁ hx =>
      obtain ⟨rfl, ht₁, hfit⟩ := push_ok hx
      cases hrest : t₁.extend xs with
      | mk result t₂ =>
        rw [hrest] at h
        cases result with
        | error e => cases h
        | ok offset' =>
          cases h
          obtain ⟨-, ht₂, hfits⟩ := ih hrest
          exact ⟨rfl, by rw [ht₂, ht₁]; simp, List.forall_mem_cons.2 ⟨hfit, hfits⟩⟩

/-- A range that has just been appended is read back. -/
theorem ints?_of_appended {α : Type} {xs : List Nat} (h : t'.entries = t.entries ++ xs) :
    (BoundValue.table t.entries.length xs.length : BoundValue α).ints? t' = some xs := by
  simp [BoundValue.ints?, h]

theorem ints?_of_continues {α : Type} {value : BoundValue α} {ns : List Nat} (h : t.Continues t')
    (hv : value.ints? t = some ns) : value.ints? t' = some ns := by
  obtain ⟨more, hmore⟩ := h
  cases value with
  | table offset length =>
    simp only [BoundValue.ints?, Option.ite_none_right_eq_some, Option.some.injEq] at hv ⊢
    obtain ⟨hle, rfl⟩ := hv
    rw [hmore, List.length_append]
    refine ⟨by omega, ?_⟩
    rw [List.drop_append_of_le_length (by omega), List.take_append_of_le_length]
    rw [List.length_drop]
    omega
  | literal n => exact hv
  | float x => exact hv
  | buffer a => exact hv
  | uniform type v => cases v <;> exact hv
  | sampler v unit => exact hv

theorem Binding.Stored.continues {α : Type} {value : BoundValue α} {b : Binding α}
    (h : t.Continues t') (hb : b.Stored t value) : b.Stored t' value := by
  cases b with
  | int x => exact ⟨ints?_of_continues h hb.1, hb.2⟩
  | ints xs => exact ⟨ints?_of_continues h hb.1, hb.2⟩
  | buffer a => exact hb
  | float x => exact hb
  | sampler v => exact hb

end

/-! ## Rendering -/

section

variable {α : Type} {d : Dialect} {name : String} {t t' : MetaTable} {r : Rendered α}

theorem stored_loadInt {x : Dim} (h : d.loadInt name x t = .ok (r, t')) :
    t.Continues t' ∧ (Binding.int x).Stored t' r.value := by
  unfold Dialect.loadInt at h
  split at h
  · next n hn =>
    simp only [bind_ok_iff, pure_ok_iff] at h
    obtain ⟨m, hm, h⟩ := h
    cases h
    refine ⟨.refl t, ?_, fits_known hn (fitInt32_ok_iff.1 hm).2⟩
    rw [stored_known hn]
    rfl
  · split at h
    · cases h
    · simp only [bind_ok_iff, pure_ok_iff] at h
      obtain ⟨⟨index, t₁⟩, hpush, h⟩ := h
      cases h
      obtain ⟨rfl, ht, hfit⟩ := push_ok hpush
      exact ⟨⟨_, ht⟩, ints?_of_appended ht, hfit⟩

theorem stored_loadInts {xs : List Dim} (h : d.loadInts name xs t = .ok (r, t')) :
    t.Continues t' ∧ (Binding.ints xs).Stored t' r.value := by
  unfold Dialect.loadInts at h
  split at h
  · cases h
  · simp only [bind_ok_iff, pure_ok_iff] at h
    obtain ⟨offset, hoffset, h⟩ := h
    cases h
    obtain ⟨rfl, ht, hfits⟩ := extend_ok (Prod.ext hoffset rfl)
    refine ⟨⟨_, ht⟩, ?_, hfits⟩
    have hread := ints?_of_appended (α := α) ht
    rwa [List.length_map] at hread

theorem stored_loadRegion {a : Allocation} (h : d.loadRegion name a t = .ok (r, t')) :
    t.Continues t' ∧ (Binding.buffer a).Stored t' r.value := by
  unfold Dialect.loadRegion at h
  split at h
  · cases h
    exact ⟨.refl t, rfl⟩
  · simp only [bind_ok_iff, pure_ok_iff] at h
    obtain ⟨⟨index, t₁⟩, hpush, h⟩ := h
    cases h
    exact ⟨⟨_, (push_ok hpush).2.1⟩, rfl⟩
  · simp only [bind_ok_iff, pure_ok_iff] at h
    obtain ⟨address, -, h⟩ := h
    cases h
    exact ⟨.refl t, rfl⟩
  · simp only [bind_ok_iff, pure_ok_iff] at h
    obtain ⟨base, -, ⟨index, t₁⟩, hpush, h⟩ := h
    cases h
    exact ⟨⟨_, (push_ok hpush).2.1⟩, rfl⟩
  · cases h

variable [ScalarText α]

theorem stored_load {b : Binding α} (h : d.load name b t = .ok (r, t')) :
    t.Continues t' ∧ b.Stored t' r.value := by
  cases b with
  | int x => exact stored_loadInt h
  | ints xs => exact stored_loadInts h
  | buffer a => exact stored_loadRegion h
  | float x =>
    simp only [Dialect.load, bind_ok_iff, pure_ok_iff] at h
    obtain ⟨text, -, h⟩ := h
    cases h
    exact ⟨.refl t, rfl⟩
  | sampler v => cases h

omit [ScalarText α] in
theorem uniformInts_ok {component : Nat} {xs : List Dim} {ns : List Nat} {patches : List Patch}
    (h : uniformInts name component xs = .ok (ns, patches)) :
    ns = xs.map Dim.stored ∧ ∀ x ∈ xs, x.Fits := by
  induction xs generalizing component ns patches with
  | nil =>
    cases h
    exact ⟨rfl, fun x hx => by cases hx⟩
  | cons x xs ih =>
    have hx : ∃ rest, uniformInts name (component + 1) xs = .ok rest ∧
        ns = x.stored :: rest.1 ∧ x.Fits := by
      unfold uniformInts at h
      cases hn : x.known? with
      | some n =>
        simp only [hn, bind_ok_iff, pure_ok_iff] at h
        obtain ⟨m, hm, rest, hrest, h⟩ := h
        cases h
        obtain ⟨rfl, hlt⟩ := fitInt32_ok_iff.1 hm
        exact ⟨rest, hrest, by rw [stored_known hn], fits_known hn hlt⟩
      | none =>
        simp only [hn, bind_ok_iff, pure_ok_iff] at h
        obtain ⟨m, rfl, rest, hrest, h⟩ := h
        cases h
        exact ⟨rest, hrest, by rw [stored_symbolic hn], fits_symbolic hn⟩
    obtain ⟨⟨ns', patches'⟩, hrest, rfl, hfit⟩ := hx
    obtain ⟨rfl, hfits⟩ := ih hrest
    exact ⟨rfl, List.forall_mem_cons.2 ⟨hfit, hfits⟩⟩

theorem stored_uniform {type : String} {b : Binding α} {unit : Nat} {patches : List Patch}
    (h : d.uniform type name b unit = .ok (r, patches)) : b.Stored t r.value := by
  unfold Dialect.uniform at h
  split at h
  · cases h
  · simp only [] at h
    split at h
    · simp only [bind_ok_iff, pure_ok_iff] at h
      obtain ⟨⟨ns, ps⟩, hns, h⟩ := h
      cases h
      obtain ⟨rfl, hfits⟩ := uniformInts_ok hns
      exact ⟨rfl, List.forall_mem_singleton.1 hfits⟩
    · simp only [bind_ok_iff, pure_ok_iff] at h
      obtain ⟨⟨ns, ps⟩, hns, h⟩ := h
      cases h
      obtain ⟨rfl, hfits⟩ := uniformInts_ok hns
      exact ⟨rfl, hfits⟩
    · simp only [bind_ok_iff, pure_ok_iff] at h
      obtain ⟨text, -, h⟩ := h
      cases h
      rfl
    · cases h
      rfl
    · cases h

end

/-! ## Segments -/

namespace Injection

variable {α : Type} {injector : Injector α} {s s' : Injection α}

/-- What writing a segment out comes to: text, the name of the kernel, the text that a name was given
before, or the first rendering of a name. -/
inductive Writes [ScalarText α] (injector : Injector α) (s : Injection α) :
    Segment → Injection α → Prop
  | text {text : String} : Writes injector s (.text text) (s.emit text)
  | unbound {request : Request} : request.binding? = none →
      Writes injector s (.request request) (s.emit injector.name)
  | again {request : Request} {name text : String} : request.binding? = some name →
      s.texts.lookup name = some text → Writes injector s (.request request) (s.emit text)
  | first {request : Request} {name : String} {b : Binding α} {s' : Injection α} :
      request.binding? = some name → s.texts.lookup name = none →
      injector.bindings.get? name = some b → s.render injector request name b = .ok s' →
      Writes injector s (.request request) s'

theorem writes_of_step [ScalarText α] {segment : Segment}
    (h : s.step injector segment = .ok s') : s.Writes injector segment s' := by
  cases segment with
  | text text =>
    cases h
    exact .text
  | request request =>
    simp only [step] at h
    split at h
    · next hname =>
      cases h
      exact .unbound hname
    · next name hname =>
      split at h
      · next htext =>
        cases h
        exact .again hname htext
      · next htext hb => exact .first hname htext hb h
      · cases h

/-- The number of samplers once a binding is declared. -/
def unitsAfter (units : Nat) : Binding α → Nat
  | .sampler _ => units + 1
  | _ => units

/-- The first request of a name is a load, which may add to the meta table, or the declaration of a
uniform, which may add patches. -/
theorem render_cases [ScalarText α] {request : Request} {name : String} {b : Binding α}
    (hname : request.binding? = some name) (h : s.render injector request name b = .ok s') :
    (∃ r table, request = .loadBuffer name ∧
      injector.dialect.load name b s.table = .ok (r, table) ∧
      s' = { s.record name r with table }) ∨
    ∃ type r patches, request = .uniform type name ∧
      injector.dialect.uniform type name b s.units = .ok (r, patches) ∧
      s' = { s.record name r with
        uniformPatches := s.uniformPatches ++ patches, units := unitsAfter s.units b } := by
  cases request with
  | loadBuffer x =>
    obtain rfl : x = name := Option.some.inj hname
    simp only [render, bind_ok_iff, pure_ok_iff] at h
    obtain ⟨⟨r, table⟩, hload, rfl⟩ := h
    exact .inl ⟨r, table, rfl, hload, rfl⟩
  | uniform type x =>
    obtain rfl : x = name := Option.some.inj hname
    simp only [render, bind_ok_iff, pure_ok_iff] at h
    obtain ⟨⟨r, patches⟩, huniform, rfl⟩ := h
    exact .inr ⟨type, r, patches, rfl, huniform, by cases b <;> rfl⟩
  | funcName => cases hname

/-- The value recorded under a name. -/
def value? (s : Injection α) (name : String) : Option (BoundValue α) :=
  (s.bindings.find? (·.name = name)).map (·.value)

/-- Everything written out has been recorded with a value that stands for its binding, and nothing
else has been recorded. -/
structure Recorded (injector : Injector α) (T : MetaTable → Prop)
    (Q : MetaTable → BoundValue α → Binding α → Prop) (s : Injection α) : Prop where
  table : T s.table
  stored : ∀ name text, s.texts.lookup name = some text → ∃ b value,
    injector.bindings.get? name = some b ∧ s.value? name = some value ∧ Q s.table value b
  written : ∀ entry ∈ s.bindings, ∃ text, s.texts.lookup entry.name = some text
  bound : ∀ entry ∈ s.bindings, ∃ b, injector.bindings.get? entry.name = some b ∧
    Q s.table entry.value b

variable {T : MetaTable → Prop} {Q : MetaTable → BoundValue α → Binding α → Prop}

theorem recorded_empty (hT : T {}) : Recorded injector T Q {} where
  table := hT
  stored name text h := by cases h
  written entry h := by cases h
  bound entry h := by cases h

/-- The first request of a name. -/
theorem Recorded.record (h : s.Recorded injector T Q) {name : String} {b : Binding α}
    {r : Rendered α} {table : MetaTable} (hnew : s.texts.lookup name = none)
    (hb : injector.bindings.get? name = some b) (hT : T table)
    (ht : ∀ value b, Q s.table value b → Q table value b) (hr : Q table r.value b)
    (htexts : s'.texts = (name, r.text) :: s.texts)
    (hbindings : s'.bindings = s.bindings ++ [⟨name, r.value⟩]) (htable : s'.table = table) :
    s'.Recorded injector T Q where
  table := htable ▸ hT
  stored other text hother := by
    unfold value?
    rw [htexts, List.lookup_cons] at hother
    rw [hbindings, List.find?_append, htable]
    by_cases he : other = name
    · subst he
      have hnone : s.bindings.find? (·.name = other) = none := by
        rw [List.find?_eq_none]
        intro entry hentry hname
        obtain ⟨text, htext⟩ := h.written entry hentry
        rw [of_decide_eq_true hname, hnew] at htext
        cases htext
      exact ⟨b, r.value, hb, by simp [hnone], hr⟩
    · have hne : (other == name) = false := by simp [he]
      rw [hne] at hother
      obtain ⟨c, value, hc, hvalue, hstored⟩ := h.stored other text hother
      obtain ⟨entry, hentry, rfl⟩ := Option.map_eq_some_iff.1 hvalue
      exact ⟨c, entry.value, hc, by simp [hentry], ht _ _ hstored⟩
  written entry hentry := by
    rw [htexts, List.lookup_cons]
    rw [hbindings, List.mem_append] at hentry
    split
    · exact ⟨r.text, rfl⟩
    · next hne =>
      rcases hentry with hentry | hentry
      · exact h.written entry hentry
      · rw [List.mem_singleton.1 hentry] at hne
        simp at hne
  bound entry hentry := by
    rw [hbindings, List.mem_append] at hentry
    rw [htable]
    rcases hentry with hentry | hentry
    · obtain ⟨c, hc, hstored⟩ := h.bound entry hentry
      exact ⟨c, hc, ht _ _ hstored⟩
    · obtain rfl := List.mem_singleton.1 hentry
      exact ⟨b, hb, hr⟩

variable [ScalarText α]

/-- A relation between values and their bindings that every rendering establishes, and that stays
as the meta table grows. -/
structure Keeps (injector : Injector α) (T : MetaTable → Prop)
    (Q : MetaTable → BoundValue α → Binding α → Prop) : Prop where
  empty : T {}
  load : ∀ {name b t r t'}, injector.bindings.get? name = some b → T t →
    injector.dialect.load name b t = .ok (r, t') →
    T t' ∧ Q t' r.value b ∧ ∀ value b, Q t value b → Q t' value b
  uniform : ∀ {type name b t unit r patches}, injector.bindings.get? name = some b → T t →
    injector.dialect.uniform type name b unit = .ok (r, patches) → Q t r.value b

/-- Rendering the first request of a name records a value that stands for the binding. -/
theorem render_ok (k : Keeps injector T Q) {request : Request} {name : String} {b : Binding α}
    (hT : T s.table) (hb : injector.bindings.get? name = some b)
    (hname : request.binding? = some name) (h : s.render injector request name b = .ok s') :
    ∃ r : Rendered α, T s'.table ∧ Q s'.table r.value b ∧
      (∀ value b, Q s.table value b → Q s'.table value b) ∧
      s'.texts = (name, r.text) :: s.texts ∧ s'.bindings = s.bindings ++ [⟨name, r.value⟩] := by
  rcases render_cases hname h with ⟨r, table, -, hload, rfl⟩ | ⟨type, r, patches, -, huniform, rfl⟩
  · obtain ⟨hT', hr, ht⟩ := k.load hb hT hload
    exact ⟨r, hT', hr, ht, rfl, rfl⟩
  · exact ⟨r, hT, k.uniform hb hT huniform, fun _ _ h => h, rfl, rfl⟩

/-- Writing a segment out keeps what is recorded, and records what the segment requests. -/
theorem recorded_step (k : Keeps injector T Q) {segment : Segment} (h : s.Recorded injector T Q)
    (hstep : s.step injector segment = .ok s') : s'.Recorded injector T Q ∧
      (∀ name text, s.texts.lookup name = some text → ∃ text', s'.texts.lookup name = some text') ∧
      ∀ request name, segment = .request request → request.binding? = some name →
        ∃ text, s'.texts.lookup name = some text := by
  have emitted : ∀ text, (s.emit text).Recorded injector T Q := fun text =>
    ⟨h.table, h.stored, h.written, h.bound⟩
  have kept : ∀ name text, s.texts.lookup name = some text →
      ∃ text', s.texts.lookup name = some text' := fun name text h => ⟨text, h⟩
  cases writes_of_step hstep with
  | text => exact ⟨emitted _, kept, fun request name h => by cases h⟩
  | unbound hnone =>
    refine ⟨emitted _, kept, fun r name e hr => ?_⟩
    cases e
    rw [hnone] at hr
    cases hr
  | again hname htext =>
    refine ⟨emitted _, kept, fun r other e hother => ?_⟩
    cases e
    obtain rfl := Option.some.inj (hother.symm.trans hname)
    exact ⟨_, htext⟩
  | first hname hnew hb hrender =>
    obtain ⟨r, hT, hr, ht, htexts, hbindings⟩ := render_ok k h.table hb hname hrender
    refine ⟨h.record hnew hb hT ht hr htexts hbindings rfl, fun other text hother => ?_,
      fun q other e hother => ?_⟩
    · rw [htexts, List.lookup_cons]
      split
      · exact ⟨r.text, rfl⟩
      · exact ⟨text, hother⟩
    · cases e
      obtain rfl := Option.some.inj (hother.symm.trans hname)
      rw [htexts, List.lookup_cons_self]
      exact ⟨r.text, rfl⟩

end Injection

section

variable {α : Type} {injector : Injector α} {t : Template}

/-- Without a fault, every bound name is requested. -/
theorem mem_names_of_bound (h : injector.nameFault? t = none) {name : String} {b : Binding α}
    (hb : injector.bindings.get? name = some b) : name ∈ t.names := by
  unfold Injector.nameFault? at h
  split at h
  · cases h
  · rw [Option.map_eq_none_iff, List.find?_eq_none] at h
    have hmem : name ∈ injector.bindings.names := by
      obtain ⟨pre, post, e, -⟩ := List.lookup_eq_some_iff.1 hb
      rw [Bindings.names, List.mem_mergeSort, e]
      simp
    simpa using h name hmem

section

variable [ScalarText α] {T : MetaTable → Prop} {Q : MetaTable → BoundValue α → Binding α → Prop}
  {injected : Injected α}

/-- A successful injection has found no fault among the names and written all segments out. -/
theorem inject_ok (h : injector.inject t = .ok injected) :
    injector.nameFault? t = none ∧ ∃ s : Injection α,
      t.segments.foldlM (Injection.step injector) {} = .ok s ∧
      injected = {
        source := s.source
        table := s.table
        bindings := s.bindings
        patches := s.table.patches ++ s.uniformPatches } := by
  unfold Injector.inject at h
  cases hfault : injector.nameFault? t with
  | some fault =>
    rw [hfault] at h
    cases h
  | none =>
    rw [hfault] at h
    simp only [bind_ok_iff, pure_ok_iff] at h
    obtain ⟨s, hs, rfl⟩ := h
    exact ⟨rfl, s, hs, rfl⟩

/-- A successful injection has recorded whatever was bound, and nothing else. -/
theorem inject_recorded (k : Injection.Keeps injector T Q)
    (h : injector.inject t = .ok injected) : ∃ s : Injection α, s.Recorded injector T Q ∧
      s.table = injected.table ∧ s.bindings = injected.bindings ∧
      ∀ name b, injector.bindings.get? name = some b →
        ∃ text, s.texts.lookup name = some text := by
  obtain ⟨hfault, s, hs, rfl⟩ := inject_ok h
  obtain ⟨hrecorded, hrequested⟩ := foldlM_ok_processed
    (P := fun seen s => Injection.Recorded injector T Q s ∧ ∀ request name,
      Segment.request request ∈ seen → request.binding? = some name →
        ∃ text, s.texts.lookup name = some text) hs
    ⟨Injection.recorded_empty k.empty, fun _ _ h => by cases h⟩ (by
      rintro seen segment rest s s' - ⟨hrec, hseen⟩ hstep
      obtain ⟨hrec', hkeep, hnew⟩ := Injection.recorded_step k hrec hstep
      refine ⟨hrec', fun request name hmem hname => ?_⟩
      rcases List.mem_append.1 hmem with hmem | hmem
      · obtain ⟨text, htext⟩ := hseen request name hmem hname
        exact hkeep name text htext
      · exact hnew request name (List.mem_singleton.1 hmem).symm hname)
  refine ⟨s, hrecorded, rfl, rfl, fun name b hb => ?_⟩
  obtain ⟨request, hmem, hname⟩ := List.mem_filterMap.1 (mem_names_of_bound hfault hb)
  have hsegment : .request request ∈ t.segments := by
    obtain ⟨segment, hsegment, e⟩ := List.mem_filterMap.1 hmem
    cases segment with
    | text text => cases e
    | request r =>
      cases e
      exact hsegment
  exact hrequested request name hsegment hname

/-- Under its name, every binding has a value in relation to it after a successful injection. -/
theorem exists_of_inject (k : Injection.Keeps injector T Q)
    (h : injector.inject t = .ok injected) {name : String} {b : Binding α}
    (hb : injector.bindings.get? name = some b) : ∃ value,
      (injected.bindings.find? (·.name = name)).map (·.value) = some value ∧
        Q injected.table value b := by
  obtain ⟨s, hrecorded, htable, hbindings, hwritten⟩ := inject_recorded k h
  obtain ⟨text, htext⟩ := hwritten name b hb
  obtain ⟨b', value, hb', hvalue, hstored⟩ := hrecorded.stored name text htext
  obtain rfl := Option.some.inj (hb.symm.trans hb')
  exact ⟨value, hbindings ▸ hvalue, htable ▸ hstored⟩

/-- Values stand for their bindings. -/
theorem Injection.keeps_stored (injector : Injector α) :
    Injection.Keeps injector (fun _ => True) fun table value b => b.Stored table value where
  empty := trivial
  load _ _ h := by
    obtain ⟨ht, hr⟩ := stored_load h
    exact ⟨trivial, hr, fun _ _ hb => hb.continues ht⟩
  uniform _ _ h := stored_uniform h

/-- Every binding is stored under its name after a successful injection. -/
theorem inject_provides (h : injector.inject t = .ok injected) {name : String} {b : Binding α}
    (hb : injector.bindings.get? name = some b) : ∃ value,
      (injected.bindings.find? (·.name = name)).map (·.value) = some value ∧
        b.Stored injected.table value :=
  exists_of_inject (Injection.keeps_stored injector) h hb

/-- Whatever the runtime has to provide after a successful injection stands for a binding. -/
theorem inject_bound (h : injector.inject t = .ok injected) {entry : KernelBinding α}
    (he : entry ∈ injected.bindings) : ∃ b, injector.bindings.get? entry.name = some b ∧
      b.Stored injected.table entry.value := by
  obtain ⟨s, hrecorded, htable, hbindings, -⟩ :=
    inject_recorded (Injection.keeps_stored injector) h
  exact htable ▸ hrecorded.bound entry (hbindings ▸ he)

end

/-- There is no fault if the requested names are exactly the bound ones. -/
theorem nameFault?_eq_none (hbound : ∀ name ∈ t.names, ∃ b, injector.bindings.get? name = some b)
    (hrequested : ∀ e ∈ injector.bindings.entries, e.1 ∈ t.names) :
    injector.nameFault? t = none := by
  have hfind : t.names.find? (fun name => (injector.bindings.get? name).isNone) = none := by
    rw [List.find?_eq_none]
    intro name hname
    obtain ⟨b, hb⟩ := hbound name hname
    simp [hb]
  unfold Injector.nameFault?
  rw [hfind]
  simp only [Option.map_eq_none_iff, List.find?_eq_none, Bindings.names, List.mem_mergeSort]
  intro name hname
  obtain ⟨e, he, rfl⟩ := List.mem_map.1 hname
  simpa using hrequested e he

end

/-! ## Success -/

section

variable {α : Type} {t : Template}

theorem push_ok_of_fits {x : Dim} (h : x.Fits) (table : MetaTable) : ∃ r, table.push x = .ok r := by
  unfold MetaTable.push
  cases hx : x.known? with
  | none => exact ⟨_, rfl⟩
  | some n =>
    rw [Dim.Fits, stored_known hx] at h
    simp only [fitInt32, if_pos h]
    exact ⟨_, rfl⟩

theorem extend_ok_of_fits {xs : List Dim} (h : ∀ x ∈ xs, x.Fits) (table : MetaTable) :
    ∃ offset table', table.extend xs = (.ok offset, table') := by
  induction xs generalizing table with
  | nil => exact ⟨_, _, rfl⟩
  | cons x xs ih =>
    obtain ⟨hx, hxs⟩ := List.forall_mem_cons.1 h
    obtain ⟨⟨index, table₁⟩, hpush⟩ := push_ok_of_fits hx table
    obtain ⟨offset, table₂, hrest⟩ := ih hxs table₁
    refine ⟨index, table₂, ?_⟩
    simp only [MetaTable.extend, hpush, hrest]
    rfl

variable [ScalarText α]

/-- A binding whose integers fit and whose scalar has a literal. -/
def Binding.Writes : Binding α → Prop
  | .buffer a => a.offset.Fits
  | .int x => x.Fits
  | .ints xs => ∀ x ∈ xs, x.Fits
  | .float x => ScalarText.isFinite x = true
  | .sampler _ => False

theorem load_ok_of_writes {name : String} {b : Binding α} (h : b.Writes) (table : MetaTable) :
    ∃ r, Dialect.c.load name b table = .ok r := by
  cases b with
  | buffer a =>
    obtain ⟨r, hr⟩ := push_ok_of_fits h table
    cases ha : a.offset.known? with
    | none => simp only [Dialect.load, Dialect.loadRegion, ha, hr]; exact ⟨_, rfl⟩
    | some n => simp only [Dialect.load, Dialect.loadRegion, ha]; exact ⟨_, rfl⟩
  | int x =>
    obtain ⟨r, hr⟩ := push_ok_of_fits h table
    cases hx : x.known? with
    | none =>
      simp only [Dialect.load, Dialect.loadInt, hx, hr]
      exact ⟨_, rfl⟩
    | some n =>
      have hn : x.stored < 0x80000000 := h
      rw [stored_known hx] at hn
      simp only [Dialect.load, Dialect.loadInt, hx, fitInt32, if_pos hn]
      exact ⟨_, rfl⟩
  | ints xs =>
    obtain ⟨offset, table', hx⟩ := extend_ok_of_fits h table
    simp only [Dialect.load, Dialect.loadInts, hx]
    exact ⟨_, rfl⟩
  | float x =>
    have hx : ScalarText.isFinite x = true := h
    simp only [Dialect.load, Dialect.floatText, if_pos hx]
    exact ⟨_, rfl⟩
  | sampler v => exact h.elim

/-- In C, a template of loads is written out if its names are those that are bound, and if the
values fit. -/
theorem inject_ok_of_loads (name : String) {bindings : Bindings α}
    (hload : ∀ name b, bindings.get? name = some b → ∀ table, ∃ r, Dialect.c.load name b table = .ok r)
    (hloads : ∀ r ∈ t.requests, r = .funcName ∨ ∃ name, r = .loadBuffer name)
    (hbound : ∀ name ∈ t.names, ∃ b, bindings.get? name = some b)
    (hrequested : ∀ e ∈ bindings.entries, e.1 ∈ t.names) :
    ∃ injected, (Injector.mk .c name bindings).inject t = .ok injected := by
  have hstep : ∀ (s : Injection α) (segment : Segment), segment ∈ t.segments →
      ∃ s', s.step ⟨.c, name, bindings⟩ segment = .ok s' := by
    intro s segment hsegment
    cases segment with
    | text text => exact ⟨_, rfl⟩
    | request request =>
      have hmem : request ∈ t.requests := List.mem_filterMap.2 ⟨_, hsegment, rfl⟩
      rcases hloads request hmem with rfl | ⟨name', rfl⟩
      · exact ⟨_, rfl⟩
      · obtain ⟨b, hb⟩ := hbound name' (List.mem_filterMap.2 ⟨_, hmem, rfl⟩)
        obtain ⟨r, hr⟩ := hload name' b hb s.table
        cases htext : s.texts.lookup name' with
        | some text =>
          simp only [Injection.step, Request.binding?, htext]
          exact ⟨_, rfl⟩
        | none =>
          simp only [Injection.step, Request.binding?, htext, hb, Injection.render, hr]
          exact ⟨_, rfl⟩
  obtain ⟨s', hs', -⟩ := foldlM_ok_of_steps (P := fun _ => True) (c := ({} : Injection α)) trivial
    fun s segment hsegment _ => (hstep s segment hsegment).imp fun _ h => ⟨h, trivial⟩
  have hfault : (Injector.mk .c name bindings).nameFault? t = none :=
    nameFault?_eq_none hbound hrequested
  refine ⟨⟨s'.source, s'.table, s'.bindings, s'.table.patches ++ s'.uniformPatches⟩, ?_⟩
  simp only [Injector.inject, hfault, hs']
  rfl

end

end TensorCompiler
