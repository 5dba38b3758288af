import TensorCompiler.Proofs.Accounting
import TensorCompiler.Proofs.InjectionErrors
import TensorCompiler.Proofs.TemplateText
/-!
# Requests and their texts

A binding is written out at the first request of its name, and the text is repeated at the later
ones. So a later request gets what it asks for only if it asks for the same as the first one. The
templates of the kernels never ask for a name in two ways. In other templates, a name that is both
declared and loaded has the declaration in place of its value, or the other way round.

* `Dialect.requestText?`: the text that a request asks for.
* `Template.Consistent`: all requests of a name ask for the same.
* `requestText?_of_renders`, `serves_of_renders`: the first request of a name gets this text, and
  the dialect can write it.
* `BackendKind.consistent_template`: the templates of the kernels are consistent.
* `inject_requestTexts`: a consistent template is written out as it asks.
* `mixed_requests`: one that is not.
-/

namespace TensorCompiler

/-! ## Texts -/

section

variable {α : Type}

/-- The integers that are stored for a binding that is loaded. -/
def Binding.loadedDims : Binding α → List Dim
  | .int x => if x.isKnown then [] else [x]
  | .ints xs => xs
  | .buffer a => if a.offset.isKnown then [] else [a.offset]
  | .float _ => []
  | .sampler _ => []

variable [ScalarText α]

/-- The expression that accesses a binding, or its literal. The integers stored for the binding are
those of the meta table from `start` on. -/
def Dialect.loadText? (d : Dialect) (start : Nat) : Binding α → Option String
  | .int x =>
    match x.known? with
    | some n => some (toString n)
    | none => if d = .glsl then none else some s!"meta_buffer[{start}]"
  | .float x => (d.floatText x).toOption
  | .ints _ =>
    match d with
    | .c => some s!"(meta_buffer + {start})"
    | .wgsl _ => some (toString start)
    | .glsl => none
  | .buffer a =>
    match d, a.offset.known? with
    | .c, some offset => some ("(" ++ a.space.pointer ++ s!" + {offset})")
    | .c, none => some ("(" ++ a.space.pointer ++ s!" + meta_buffer[{start}])")
    | .wgsl dynamicBase, some offset => some (toString (a.space.base dynamicBase + offset))
    | .wgsl dynamicBase, none => some s!"({a.space.base dynamicBase} + meta_buffer[{start}])"
    | .glsl, _ => none
  | .sampler _ => none

/-- The text that a request of a binding asks for. -/
def Dialect.requestText? (d : Dialect) (start : Nat) : Request → Binding α → Option String
  | .loadBuffer _, b => d.loadText? start b
  | .uniform .., .buffer _ => none
  | .uniform type name, _ =>
    if d = .glsl then some ("uniform " ++ type ++ " " ++ name ++ ";") else none
  | .funcName, _ => none

/-- The text that a segment asks for, where `start` tells from which entry of the meta table on the
integers of a binding are stored. -/
def Injector.segmentText? (injector : Injector α) (start : String → Nat) : Segment → Option String
  | .text text => some text
  | .request request =>
    match request.binding? with
    | none => some injector.name
    | some name => do
      injector.dialect.requestText? (start name) request (← injector.bindings.get? name)

variable {d : Dialect} {start unit : Nat} {request : Request} {b : Binding α} {r : Rendered α}
  {entries : List Entry}

/-- The first request of a name is written as what it asks for. -/
theorem requestText?_of_renders (h : d.Renders start unit request b r entries) :
    d.requestText? start request b = some r.text := by
  cases h with
  | literal => rfl
  | symbol hd hx => simp [Dialect.requestText?, Dialect.loadText?, hd, hx]
  | float htext => simp [Dialect.requestText?, Dialect.loadText?, htext, Except.toOption]
  | pointer hd => simp [Dialect.requestText?, Dialect.loadText?, hd]
  | index hd => simp [Dialect.requestText?, Dialect.loadText?, hd]
  | region hd hn => simp [Dialect.requestText?, Dialect.loadText?, hd, hn]
  | symbolicRegion hd hn => simp [Dialect.requestText?, Dialect.loadText?, hd, hn]
  | address hd hn _ => simp [Dialect.requestText?, Dialect.loadText?, hd, hn]
  | symbolicAddress hd hn _ => simp [Dialect.requestText?, Dialect.loadText?, hd, hn]
  | uniformInt hd => exact if_pos hd
  | uniformInts hd => exact if_pos hd
  | uniformFloat hd _ => exact if_pos hd
  | sampler hd => exact if_pos hd

/-- The dialect can write what has been written. -/
theorem serves_of_renders (h : d.Renders start unit request b r entries) : b.Serves d request := by
  cases h with
  | literal => exact fun _ => rfl
  | symbol hd _ => exact fun h => absurd h hd
  | float => trivial
  | pointer hd => simp [Binding.Serves, hd]
  | index hd => simp [Binding.Serves, hd]
  | region hd _ => simp [Binding.Serves, hd]
  | symbolicRegion hd _ => simp [Binding.Serves, hd]
  | address hd _ _ => simp [Binding.Serves, hd]
  | symbolicAddress hd _ _ => simp [Binding.Serves, hd]
  | uniformInt hd => exact hd
  | uniformInts hd => exact hd
  | uniformFloat hd _ => exact hd
  | sampler hd => exact hd

/-- A binding that is loaded has its integers in the meta table. -/
theorem entries_of_renders {name : String}
    (h : d.Renders start unit (.loadBuffer name) b r entries) :
    entries = entriesFrom .table start b.loadedDims := by
  cases h with
  | literal => rfl
  | symbol _ hx => simp [Binding.loadedDims, Dim.isKnown, hx]
  | float => rfl
  | pointer => rfl
  | index => rfl
  | region _ hn => simp [Binding.loadedDims, Dim.isKnown, hn, entriesFrom]
  | symbolicRegion _ hn => simp [Binding.loadedDims, Dim.isKnown, hn]
  | address _ hn _ => simp [Binding.loadedDims, Dim.isKnown, hn, entriesFrom]
  | symbolicAddress _ hn _ => simp [Binding.loadedDims, Dim.isKnown, hn]

end

/-! ## Consistent templates -/

/-- All requests of a name ask for the same. -/
def Template.Consistent (t : Template) : Prop :=
  ∀ r ∈ t.requests, ∀ r' ∈ t.requests, r.binding? = r'.binding? → r = r'

instance (t : Template) : Decidable t.Consistent :=
  inferInstanceAs (Decidable (∀ r ∈ t.requests, ∀ r' ∈ t.requests,
    r.binding? = r'.binding? → r = r'))

theorem eq_of_nodup_filterMap {β γ : Type} {f : β → Option γ} {xs : List β}
    (h : (xs.filterMap f).Nodup) {x y : β} (hx : x ∈ xs) (hy : y ∈ xs) {c : γ} (hfx : f x = some c)
    (hfy : f y = some c) : x = y := by
  induction xs with
  | nil => cases hx
  | cons z xs ih =>
    have later : ∀ {w}, w ∈ xs → f w = some c → c ∈ xs.filterMap f :=
      fun hw hfw => List.mem_filterMap.2 ⟨_, hw, hfw⟩
    rcases List.mem_cons.1 hx with rfl | hx' <;> rcases List.mem_cons.1 hy with rfl | hy'
    · rfl
    · rw [List.filterMap_cons_some hfx, List.nodup_cons] at h
      exact absurd (later hy' hfy) h.1
    · rw [List.filterMap_cons_some hfy, List.nodup_cons] at h
      exact absurd (later hx' hfx) h.1
    · exact ih (((List.sublist_cons_self z xs).filterMap f).nodup h) hx' hy'

theorem Request.eq_funcName {request : Request} (h : request.binding? = none) :
    request = .funcName := by
  cases request with
  | funcName => rfl
  | _ => cases h

theorem Template.consistent_of_nodup {t : Template} (h : t.names.Nodup) : t.Consistent := by
  intro r hr r' hr' hname
  cases hb : r.binding? with
  | none => exact (Request.eq_funcName hb).trans (Request.eq_funcName (hname.symm.trans hb)).symm
  | some name => exact eq_of_nodup_filterMap h hr hr' hb (hname ▸ hb)

theorem Template.consistent_of_loads {t : Template}
    (h : ∀ r ∈ t.requests, r = .funcName ∨ ∃ name, r = .loadBuffer name) : t.Consistent := by
  intro r hr r' hr' hname
  rcases h r hr with rfl | ⟨name, rfl⟩ <;> rcases h r' hr' with rfl | ⟨name', rfl⟩
  · rfl
  · cases hname
  · cases hname
  · rw [Option.some.inj hname]

/-- The kernels of all backends ask for each name in one way. -/
theorem BackendKind.consistent_template {α : Type} (kind : BackendKind) (op : Operator α) :
    (kind.template op).Consistent := by
  by_cases hkind : kind = .webGl
  · subst hkind
    apply Template.consistent_of_nodup
    cases op with
    | pointwise f =>
      show (Glsl.pointwiseTemplate f).names.Nodup
      rw [Glsl.names_pointwiseTemplate]
      cases f <;> simp [Pointwise.kind, OpKind.inputNames, Pointwise.parameterBindings,
        Glsl.textureName, strideName]
    | _ =>
      show (Glsl.movementTemplate _).names.Nodup
      rw [Glsl.names_movementTemplate]
      simp [Operator.movementNames, Glsl.textureName]
  · exact Template.consistent_of_loads (Linear.requests_template hkind op)

/-! ## Whole templates -/

section

variable {α : Type} [ScalarText α] {injector : Injector α} {t : Template}

omit [ScalarText α] in
theorem Template.mem_requests {request : Request} :
    request ∈ t.requests ↔ .request request ∈ t.segments := by
  simp only [Template.requests, List.mem_filterMap]
  constructor
  · rintro ⟨segment, hsegment, h⟩
    cases segment with
    | text text => cases h
    | request request' => exact Option.some.inj h ▸ hsegment
  · exact fun h => ⟨_, h, rfl⟩

/-- The record of a requested name is one of the request, if there are no others of the name. -/
theorem Injection.Ran.exists_consistent {s : Injection α} {records : List (Record injector)}
    (h : s.Ran injector t.segments records) (hc : t.Consistent) {request : Request} {name : String}
    (hrequest : request ∈ t.requests) (hname : request.binding? = some name) :
    ∃ r ∈ records, records.find? (·.name = name) = some r ∧ r.request = request ∧
      injector.bindings.get? name = some r.binding := by
  obtain ⟨r, hfind, hr, rfl⟩ := h.exists_record (Template.mem_requests.1 hrequest) hname
  exact ⟨r, hr, hfind, hc _ (Template.mem_requests.2 (h.requested r hr)) _ hrequest
    (r.named.trans hname.symm), r.bound⟩

/-- If all requests of a name ask for the same, the source has for each segment the text that it
asks for, and the integers that are loaded are where this text looks for them. Injection fails
unless the dialect can write every binding in the way that is asked for. -/
theorem inject_requestTexts (hc : t.Consistent) :
    (∀ injected, injector.inject t = .ok injected → ∃ start texts,
      List.Forall₂ (fun segment text => injector.segmentText? start segment = some text) t.segments
        texts ∧ injected.source = String.join texts ∧
      ∀ name b, .loadBuffer name ∈ t.requests → injector.bindings.get? name = some b →
        ∀ e ∈ entriesFrom .table (start name) b.loadedDims, injected.Stores e) ∧
    ∀ request ∈ t.requests, ∀ name b, request.binding? = some name →
      injector.bindings.get? name = some b → ¬b.Serves injector.dialect request →
      ∀ injected, injector.inject t ≠ .ok injected := by
  constructor
  · intro injected h
    obtain ⟨-, s, records, hran, rfl⟩ := exists_ran_of_inject h
    -- Where the record of a name has its integers.
    have hform : ∀ name, ∃ start, ∀ r, records.find? (·.name = name) = some r →
        ∃ unit, injector.dialect.Renders start unit r.request r.binding r.rendered r.entries := by
      intro name
      cases records.find? (·.name = name) with
      | none => exact ⟨0, fun r hr => by cases hr⟩
      | some r =>
        obtain ⟨start, unit, hform⟩ := r.form
        exact ⟨start, fun r' hr => Option.some.inj hr ▸ ⟨unit, hform⟩⟩
    choose start hstart using hform
    refine ⟨start, t.segments.map (injector.write records), List.forall₂_map_right_iff.2
      (List.forall₂_same.2 fun segment hsegment => ?_), hran.source, fun name b hload hb e he => ?_⟩
    · cases segment with
      | text text => rfl
      | request request =>
        cases hname : request.binding? with
        | none => simp [Injector.segmentText?, Injector.write, hname]
        | some name =>
          obtain ⟨r, -, hfind, rfl, hbound⟩ :=
            hran.exists_consistent hc (Template.mem_requests.2 hsegment) hname
          obtain ⟨unit, hform⟩ := hstart name r hfind
          simp [Injector.segmentText?, Injector.write, hname, hbound, hfind,
            requestText?_of_renders hform]
    · obtain ⟨r, hr, hfind, hrequest, hbound⟩ := hran.exists_consistent hc hload rfl
      obtain rfl := Option.some.inj (hb.symm.trans hbound)
      obtain ⟨unit, hform⟩ := hstart name r hfind
      exact hran.accounted.stored r hr e (entries_of_renders (hrequest ▸ hform) ▸ he)
  · intro request hrequest name b hname hb hserves injected h
    obtain ⟨-, s, records, hran, rfl⟩ := exists_ran_of_inject h
    obtain ⟨r, -, -, rfl, hbound⟩ := hran.exists_consistent hc hrequest hname
    obtain rfl := Option.some.inj (hb.symm.trans hbound)
    obtain ⟨start, unit, hform⟩ := r.form
    exact hserves (serves_of_renders hform)

end

/-- In a consistent template, the integer of a region is where the expression reads it. No kernel in
C has a uniform. -/
theorem batch_requestTexts : readsBatch.Consistent ∧
    writesBatch.inject readsBatch = .ok batchWritten ∧
    (∃ start texts, List.Forall₂ (fun segment text => writesBatch.segmentText? start segment =
      some text) readsBatch.segments texts ∧ batchWritten.source = String.join texts ∧
      batchWritten.Stores ⟨.table (start "y"), batchSize⟩) ∧
    ∀ injected, (Injector.mk .c "k" (.ofList [("n", .int (.known 4))]) : Injector ℚ).inject
      ⟨[.request (.uniform "int" "n")]⟩ ≠ .ok injected := by
  have hc : readsBatch.Consistent := by decide
  have hinject : writesBatch.inject readsBatch = .ok batchWritten := by cbv
  refine ⟨hc, hinject, ?_, ?_⟩
  · obtain ⟨start, texts, htexts, hsource, hstores⟩ := (inject_requestTexts hc).1 _ hinject
    exact ⟨start, texts, htexts, hsource, hstores "y" _ (.head _) rfl _ (.head _)⟩
  · exact (inject_requestTexts (by decide)).2 _ (.head _) "n" _ rfl rfl (fun h => by cases h)

/-- An integer under the name `n`. -/
def bindsFour (d : Dialect) : Injector ℚ where
  dialect := d
  name := "k"
  bindings := .ofList [("n", .int (.known 4))]

def declaresThenLoads : Template :=
  ⟨[.request (.uniform "int" "n"), " ", .request (.loadBuffer "n")]⟩

def loadsThenDeclares : Template :=
  ⟨[.request (.loadBuffer "n"), " ", .request (.uniform "int" "n")]⟩

theorem parse_declaresThenLoads :
    Template.parse "%%UNIFORM(int, n)%% %%LOAD_BUFFER(n)%%" = .ok declaresThenLoads := by
  have hwell : declaresThenLoads.WellFormed :=
    List.forall_mem_cons.2 ⟨⟨by decide, by decide⟩, List.forall_mem_cons.2
      ⟨show isPlain " ".toList = true by decide,
        List.forall_mem_singleton.2 (show isName "n".toList = true by decide)⟩⟩
  have hsource : declaresThenLoads.source = "%%UNIFORM(int, n)%% %%LOAD_BUFFER(n)%%" := by decide
  rw [← hsource, Template.parse_source hwell]
  exact congrArg Except.ok (by decide)

theorem parse_loadsThenDeclares :
    Template.parse "%%LOAD_BUFFER(n)%% %%UNIFORM(int, n)%%" = .ok loadsThenDeclares := by
  have hwell : loadsThenDeclares.WellFormed :=
    List.forall_mem_cons.2 ⟨show isName "n".toList = true by decide, List.forall_mem_cons.2
      ⟨show isPlain " ".toList = true by decide,
        List.forall_mem_singleton.2 ⟨by decide, by decide⟩⟩⟩
  have hsource : loadsThenDeclares.source = "%%LOAD_BUFFER(n)%% %%UNIFORM(int, n)%%" := by decide
  rw [← hsource, Template.parse_source hwell]
  exact congrArg Except.ok (by decide)

/-- A name that is declared and then loaded is declared twice. One that is loaded first is not
declared at all, even where the dialect has no declarations. -/
theorem mixed_requests :
    (Template.parse "%%UNIFORM(int, n)%% %%LOAD_BUFFER(n)%%" = .ok declaresThenLoads ∧
      ∃ injected, (bindsFour .glsl).inject declaresThenLoads = .ok injected ∧
        injected.source = "uniform int n; uniform int n;" ∧
        ∀ start texts, List.Forall₂ (fun segment text => (bindsFour .glsl).segmentText? start
          segment = some text) declaresThenLoads.segments texts →
          injected.source ≠ String.join texts) ∧
    Template.parse "%%LOAD_BUFFER(n)%% %%UNIFORM(int, n)%%" = .ok loadsThenDeclares ∧
      ∃ injected, (bindsFour .c).inject loadsThenDeclares = .ok injected ∧
        injected.source = "4 4" ∧
        ¬(Binding.int (.known 4) : Binding ℚ).Serves .c (.uniform "int" "n") := by
  refine ⟨⟨parse_declaresThenLoads, ⟨_, _, _, _⟩, by cbv, rfl, fun start texts h => ?_⟩,
    parse_loadsThenDeclares, ⟨_, _, _, _⟩, by cbv, rfl, fun h => by cases h⟩
  have htexts : texts = ["uniform int n;", " ", "4"] := by
    obtain _ | ⟨ha, _ | ⟨hb, _ | ⟨hc, _ | _⟩⟩⟩ := (h : List.Forall₂ _ [_, _, _] texts)
    cases ha
    cases hb
    cases hc
    rfl
  rw [htexts]
  decide

end TensorCompiler
