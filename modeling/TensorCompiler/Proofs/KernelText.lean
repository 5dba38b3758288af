import TensorCompiler.Proofs.Emission
import TensorCompiler.Proofs.ExactScalars
import TensorCompiler.Proofs.TemplateText
import TensorCompiler.Scalar.Single
/-!
# The text of kernels

A kernel's source is a template with everything filled in. Whatever is filled in is plain text, so
no delimiter is left over. A kernel is named after its operator, and the handle of the operator can
be read off the name.

* `index_of_name_eq`: kernels of different operators have different names.
* `PlainText`: scalars whose literals are plain; singles and fractions are.
* `isPlain_inject`: filling a well-formed template gives plain text.
* `CLike.isPlain_kernel`, `Wgsl.isPlain_kernel`, `Glsl.isPlain_kernel`: the sources of kernels.
-/

namespace TensorCompiler

/-! ## Names -/

theorem not_mem_toDigits {c : Char} (hc : c.isDigit = false) (n : Nat) : c ∉ Nat.toDigits 10 n := by
  intro h
  rw [Nat.isDigit_of_mem_toDigits (by decide) (by decide) h] at hc
  cases hc

/-- The number behind the last underscore of a name is that of the operator. -/
theorem index_of_name_eq {x y : String} {i j : Nat} (h : x ++ s!"_{i}" = y ++ s!"_{j}") : i = j := by
  have cut : ∀ (x : String) (i : Nat), Text.cut? '_' (x ++ s!"_{i}").toList.reverse =
      some ((Nat.toDigits 10 i).reverse, x.toList.reverse) := by
    intro x i
    have hlist : (x ++ s!"_{i}").toList = x.toList ++ '_' :: Nat.toDigits 10 i := by
      simp [toString, Nat.repr]
    rw [hlist, List.reverse_append, List.reverse_cons, List.append_assoc]
    exact Text.cut?_append (by simp [not_mem_toDigits]) _
  have hcut := (cut x i).symm.trans (h ▸ cut y j)
  rw [Option.some.injEq, Prod.mk.injEq, List.reverse_inj] at hcut
  have hdigits := congrArg (fun digits => Nat.ofDigitChars 10 digits 0) hcut.1
  simpa using hdigits

theorem isName_kindText (kind : OpKind) : isName kind.text.toList = true := by
  cases kind <;> exact isName_literal (by decide)

namespace KernelContext

variable {α τ : Type}

theorem isPlain_name (c : KernelContext α τ) : IsPlain c.name :=
  .append (isPlain_isName (isName_kindText _)) (.append (.literal (by decide)) (isPlain_toString _))

end KernelContext

/-! ## Scalars -/

/-- The literals of scalars are plain text. -/
class PlainText (α : Type) [ScalarText α] : Prop where
  plain : ∀ x : α, ScalarText.isFinite x = true → IsPlain (ScalarText.text x)

theorem isPlain_int (i : Int) : IsPlain (toString i) := by
  cases i with
  | ofNat n => exact isPlain_toString n
  | negSucc n => exact .append (.literal (by decide)) (isPlain_toString (n + 1))

theorem not_percent_toString (n : Nat) : '%' ∉ (toString n).toList := by
  rw [Nat.toString_eq_ofList_toDigits, String.toList_ofList]
  exact not_mem_toDigits (by decide) n

namespace Decimal

theorem isPlain_zeros (n : Nat) : IsPlain (zeros n) := by
  show IsPlain (Nat.repeat (fun text => text.push '0') n "")
  induction n with
  | zero => exact .literal (by decide)
  | succ n ih =>
    unfold IsPlain at ih ⊢
    rw [Nat.repeat, String.toList_push, isPlain_append _ ih]
    decide

/-- Some of the digits of a number. -/
theorem isPlain_part {n : Nat} {cs : List Char} (h : cs ⊆ (toString n).toList) :
    IsPlain (String.ofList cs) := .literal (isPlain_of_not_mem fun hc => not_percent_toString n (h hc))

theorem isPlain_layout (d : Digits) : IsPlain d.layout := by
  have take : ∀ n, IsPlain (String.ofList ((toString d.digits).toList.take n)) := fun n =>
    isPlain_part (List.take_subset n _)
  have drop : ∀ n, IsPlain (String.ofList ((toString d.digits).toList.drop n)) := fun n =>
    isPlain_part (List.drop_subset n _)
  unfold Digits.layout
  simp only []
  split
  · split
    · exact .append (.append (isPlain_toString _) (isPlain_zeros _)) (.literal (by decide))
    · split
      · exact .append (.append (take _) (.literal (by decide))) (drop _)
      · exact .append (.append (.literal (by decide)) (isPlain_zeros _)) (isPlain_toString _)
  · refine .append (.append (.append (take 1) ?_) (.literal (by decide))) (isPlain_int _)
    split
    · exact .literal (by decide)
    · exact .append (.literal (by decide)) (drop 1)

theorem isPlain_singleText (bits : Nat) : IsPlain (singleText bits) := by
  have sign : ∀ b : Bool, IsPlain (if b then "-" else "") := fun b => by
    cases b <;> exact .literal (by decide)
  unfold singleText
  simp only []
  split
  · exact .append (sign _) (.literal (by decide))
  · split
    · exact .append (sign _) (isPlain_layout _)
    · split
      · exact .append (sign _) (.literal (by decide))
      · exact .literal (by decide)

end Decimal

instance : PlainText Float32 where
  plain x _ := Decimal.isPlain_singleText x.toBits.toNat

instance : PlainText ℚ where
  plain x _ := by
    show IsPlain (if x.den = 1 then toString x.num else s!"{x.num}/{x.den}")
    split
    · exact isPlain_int _
    · exact .append (.append (isPlain_int _) (.literal (by decide))) (isPlain_toString _)

/-! ## Injection -/

section

variable {α : Type} [ScalarText α] {d : Dialect} {name type : String} {t t' : MetaTable}
  {r : Rendered α}

omit [ScalarText α] in
theorem isPlain_loadInt {x : Dim} (h : d.loadInt name x t = .ok (r, t')) : IsPlain r.text := by
  unfold Dialect.loadInt at h
  split at h
  · simp only [bind_ok_iff, pure_ok_iff] at h
    obtain ⟨m, -, h⟩ := h
    cases h
    exact isPlain_toString m
  · split at h
    · cases h
    · simp only [bind_ok_iff, pure_ok_iff] at h
      obtain ⟨⟨index, t₁⟩, -, h⟩ := h
      cases h
      exact .insert (.literal (by decide)) (isPlain_toString index) (.literal (by decide))

omit [ScalarText α] in
theorem isPlain_loadInts {xs : List Dim} (h : d.loadInts name xs t = .ok (r, t')) :
    IsPlain r.text := by
  unfold Dialect.loadInts at h
  split at h
  · cases h
  · simp only [bind_ok_iff, pure_ok_iff] at h
    obtain ⟨offset, -, h⟩ := h
    cases h
    split
    · exact .insert (.literal (by decide)) (isPlain_toString offset) (.literal (by decide))
    · exact isPlain_toString offset

omit [ScalarText α] in
theorem isPlain_loadRegion {a : Allocation} (h : d.loadRegion name a t = .ok (r, t')) :
    IsPlain r.text := by
  have hpointer : IsPlain ("(" ++ a.space.pointer) :=
    .append (.literal (by decide)) (by cases a.space <;> exact .literal (by decide))
  unfold Dialect.loadRegion at h
  split at h
  · cases h
    exact .append hpointer
      (.insert (.literal (by decide)) (isPlain_toString _) (.literal (by decide)))
  · simp only [bind_ok_iff, pure_ok_iff] at h
    obtain ⟨⟨index, t₁⟩, -, h⟩ := h
    cases h
    exact .append hpointer
      (.insert (.literal (by decide)) (isPlain_toString index) (.literal (by decide)))
  · simp only [bind_ok_iff, pure_ok_iff] at h
    obtain ⟨address, -, h⟩ := h
    cases h
    exact isPlain_toString address
  · simp only [bind_ok_iff, pure_ok_iff] at h
    obtain ⟨base, -, ⟨index, t₁⟩, -, h⟩ := h
    cases h
    exact .append (.append (.append (.append (.literal (by decide)) (isPlain_toString base))
      (.literal (by decide))) (isPlain_toString index)) (.literal (by decide))
  · cases h

theorem isPlain_uniform {b : Binding α} {unit : Nat} {patches : List Patch}
    (htype : isName type.toList = true) (hname : isName name.toList = true)
    (h : d.uniform type name b unit = .ok (r, patches)) : IsPlain r.text := by
  have htext : IsPlain ("uniform " ++ type ++ " " ++ name ++ ";") :=
    .append (.append (.append (.append (.literal (by decide)) (isPlain_isName htype))
      (.literal (by decide))) (isPlain_isName hname)) (.literal (by decide))
  have : r.text = "uniform " ++ type ++ " " ++ name ++ ";" := by
    unfold Dialect.uniform at h
    split at h
    · cases h
    · cases b
      all_goals simp only [bind_ok_iff, pure_ok_iff] at h
      · cases h
      · obtain ⟨_, -, h⟩ := h
        cases h
        rfl
      · obtain ⟨_, -, h⟩ := h
        cases h
        rfl
      · obtain ⟨_, -, h⟩ := h
        cases h
        rfl
      · cases h
        rfl
  rwa [this]

variable [PlainText α]

theorem isPlain_load {b : Binding α} (h : d.load name b t = .ok (r, t')) : IsPlain r.text := by
  cases b with
  | int x => exact isPlain_loadInt h
  | ints xs => exact isPlain_loadInts h
  | buffer a => exact isPlain_loadRegion h
  | float x =>
    simp only [Dialect.load, bind_ok_iff, pure_ok_iff] at h
    obtain ⟨text, htext, h⟩ := h
    cases h
    unfold Dialect.floatText at htext
    split at htext
    · next hx =>
      cases htext
      exact .append (PlainText.plain x hx) (by split <;> exact .literal (by decide))
    · cases htext
  | sampler v => cases h

/-- What has been written out, and what later requests repeat, is plain text. -/
structure Injection.Plain (s : Injection α) : Prop where
  source : IsPlain s.source
  texts : ∀ name text, s.texts.lookup name = some text → IsPlain text

omit [ScalarText α] [PlainText α] in
theorem Injection.Plain.emit {s : Injection α} (h : s.Plain) {text : String} (ht : IsPlain text) :
    (s.emit text).Plain := ⟨.append h.source ht, h.texts⟩

omit [ScalarText α] [PlainText α] in
/-- A request is written out and its text is kept. -/
theorem Injection.Plain.record {s s' : Injection α} (h : s.Plain) {r : Rendered α}
    (hr : IsPlain r.text) (hsource : s'.source = s.source ++ r.text)
    (htexts : s'.texts = (name, r.text) :: s.texts) : s'.Plain where
  source := hsource ▸ .append h.source hr
  texts other text hother := by
    rw [htexts, List.lookup_cons] at hother
    split at hother
    · cases hother
      exact hr
    · exact h.texts other text hother

variable {injector : Injector α}

theorem Injection.plain_step {s s' : Injection α} {segment : Segment} (h : s.Plain)
    (hname : IsPlain injector.name) (hsegment : segment.WellFormed)
    (hstep : s.step injector segment = .ok s') : s'.Plain := by
  cases writes_of_step hstep with
  | text => exact h.emit hsegment
  | unbound => exact h.emit hname
  | again _ htext => exact h.emit (h.texts _ _ htext)
  | first hbinding _ _ hrender =>
    rcases render_cases hbinding hrender with
      ⟨r, table, rfl, hload, rfl⟩ | ⟨type, r, patches, rfl, huniform, rfl⟩
    · exact h.record (isPlain_load hload) rfl rfl
    · exact h.record (isPlain_uniform hsegment.1 hsegment.2 huniform) rfl rfl

/-- Nothing but plain text is written out for a well-formed template. -/
theorem isPlain_inject {template : Template} {injected : Injected α} (ht : template.WellFormed)
    (hname : IsPlain injector.name) (h : injector.inject template = .ok injected) :
    IsPlain injected.source := by
  obtain ⟨-, s, hs, rfl⟩ := inject_ok h
  have hempty : ({} : Injection α).Plain := ⟨.literal (by decide), fun _ _ h => by cases h⟩
  exact (foldlM_ok_induction hs hempty fun s segment s' hmem hs hstep =>
    Injection.plain_step hs hname (ht segment hmem) hstep).source

/-! ## Kernels -/

variable {template : Template} {entries : List (String × Binding α)} {k : Kernel α}
  {s s' : Supply}

theorem CLike.isPlain_kernel {c : KernelContext α MemoryLayout} (ht : template.WellFormed)
    (h : CLike.kernel c template entries = .ok k) : IsPlain k.source := by
  simp only [CLike.kernel, bind_ok_iff, pure_ok_iff] at h
  obtain ⟨injected, hinjected, rfl⟩ := h
  exact isPlain_inject ht c.isPlain_name hinjected

theorem Wgsl.isPlain_kernel {c : KernelContext α Target} (ht : template.WellFormed)
    (h : Wgsl.kernel c template entries = .ok k) : IsPlain k.source := by
  simp only [Wgsl.kernel, bind_ok_iff, mapError_ok_iff, pure_ok_iff] at h
  obtain ⟨injected, hinjected, rfl⟩ := h
  exact isPlain_inject ht c.isPlain_name hinjected

theorem Glsl.isPlain_kernel {c : KernelContext α Target} (ht : template.WellFormed)
    (h : Gives (Glsl.kernel c template entries) s k s') : IsPlain k.source := by
  simp only [Glsl.kernel, gives_bind_iff, generates_graph_iff, generates_except_iff,
    generates_template_iff, gives_pure_iff] at h
  obtain ⟨y, _, ⟨hy, rfl⟩, t, _, ⟨ht', rfl⟩, injected, _, ⟨hinjected, rfl⟩, rfl, rfl⟩ := h
  exact isPlain_inject ht c.isPlain_name hinjected

end

/-- The templates of the kernels are well-formed. -/
theorem BackendKind.wellFormed_template {α : Type} (kind : BackendKind) (op : Operator α) :
    (kind.template op).WellFormed := by
  cases kind with
  | webAssembly =>
    cases op with
    | pointwise f => exact CLike.wellFormed_pointwiseTemplate f
    | _ => exact CLike.wellFormed_movementTemplate _
  | webGpu =>
    cases op with
    | pointwise f => exact Wgsl.wellFormed_pointwiseTemplate f
    | _ => exact Wgsl.wellFormed_movementTemplate _
  | webGl =>
    cases op with
    | pointwise f => exact Glsl.wellFormed_pointwiseTemplate f
    | _ => exact Glsl.wellFormed_movementTemplate _

end TensorCompiler
