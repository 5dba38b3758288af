import TensorCompiler.Layout.Memory
import TensorCompiler.Proofs.Session
import TensorCompiler.Proofs.Valuations
/-!
# Regions of linear memory

A placement gives each variable a region of linear memory and uses the regions of dead variables
again. Sizes may be symbolic, so where a region lies is known only under a valuation. This module
says what every operation on a placement keeps.

* `Allocation.Within`, `Allocation.Apart`: a region lies below an extent, two regions share nothing.
* `alloc_cases`: a new region is a free one of the same size, or lies behind all others.
* `Placement.Tidy`: the invariant. As soon as the extent of the dynamic space has a value, all
  regions lie below it, and those of variables not freed and the free ones are apart.
* `tidy_place`, `tidy_release`: placing and freeing keep it.
-/

namespace TensorCompiler

/-- Under a valuation, the region takes up `n` elements from `o` on. -/
structure Allocation.Spans (val : Dim → Option Nat) (a : Allocation) (o n : Nat) : Prop where
  offset : val a.offset = some o
  size : val a.size = some n

/-- The region has its place below an extent. -/
def Allocation.Within (val : Dim → Option Nat) (a : Allocation) (extent : Nat) : Prop :=
  ∃ o n, a.Spans val o n ∧ o + n ≤ extent

/-- The regions share no element: they lie in different spaces, or one behind the other. -/
def Allocation.Apart (val : Dim → Option Nat) (a b : Allocation) : Prop :=
  a.space ≠ b.space ∨
    ∃ o n o' n', a.Spans val o n ∧ b.Spans val o' n' ∧ (o + n ≤ o' ∨ o' + n' ≤ o)

namespace Allocation

variable {val : Dim → Option Nat} {a b : Allocation} {extent extent' : Nat}

theorem Within.mono (h : a.Within val extent) (hle : extent ≤ extent') : a.Within val extent' := by
  obtain ⟨o, n, hs, hlt⟩ := h
  exact ⟨o, n, hs, by omega⟩

theorem Apart.symm (h : a.Apart val b) : b.Apart val a := by
  rcases h with h | ⟨o, n, o', n', ha, hb, h⟩
  · exact .inl h.symm
  · exact .inr ⟨o', n', o, n, hb, ha, h.symm⟩

/-- What starts at the extent is apart from everything below it. -/
theorem Within.apart (h : a.Within val extent) {n : Nat} (hb : b.Spans val extent n) :
    a.Apart val b := by
  obtain ⟨o, m, ha, hle⟩ := h
  exact .inr ⟨o, m, extent, n, ha, hb, .inl hle⟩

end Allocation

/-- A new region is the first free one of this size, or a new one at the top. -/
theorem DynamicSpace.alloc_cases {space space' : DynamicSpace} {size : Dim} {a : Allocation}
    {s s' : Supply} (h : Makes (space.alloc size) s (a, space') s') :
    (∃ r pre post, space.free = pre ++ r :: post ∧ (r.size == size) = true ∧
      a = ⟨.dynamic, r.offset, size⟩ ∧ space'.top = space.top ∧ space'.free = pre ++ post ∧
      s = s') ∨
    (a = ⟨.dynamic, space.top, size⟩ ∧ Makes (Dim.combine .add space.top size) s space'.top s' ∧
      space'.free = space.free) := by
  unfold alloc at h
  split at h
  · next r hr =>
    obtain ⟨he, rfl⟩ := makes_pure_iff.1 h
    cases he
    obtain ⟨hsize, pre, post, hfree, hpre⟩ := List.find?_eq_some_iff_append.1 hr
    refine .inl ⟨r, pre, post, hfree, hsize, rfl, rfl, ?_, rfl⟩
    have hpre' : ∀ x ∈ pre, ¬(x.size == size) = true := by
      intro x hx
      simpa using hpre x hx
    show space.free.eraseP (·.size == size) = _
    rw [hfree, List.eraseP_append_right _ hpre']
    simp [hsize]
  · rw [makes_bind_iff] at h
    obtain ⟨top, s₁, htop, h⟩ := h
    obtain ⟨he, rfl⟩ := makes_pure_iff.1 h
    cases he
    exact .inr ⟨rfl, htop, rfl⟩

namespace Placement

variable {α : Type} {g : Graph α} {val : Dim → Option Nat} {p p' : Placement} {gone : List VarId}
  {s s' : Supply} {extent extent' : Nat}

/-- The regions of a placement lie below the extent of the dynamic space. No element belongs to
two variables that are not freed, to such a variable and a free region, or to two free regions. -/
structure Fits (val : Dim → Option Nat) (p : Placement) (gone : List VarId) (extent : Nat) : Prop where
  within : ∀ e ∈ p.table, e.2.space = .dynamic → e.2.Within val extent
  freeWithin : ∀ r ∈ p.space.free, r.space = .dynamic ∧ r.Within val extent
  held : ∀ v w a b, v ≠ w → v ∉ gone → w ∉ gone → p.get? v = some a → p.get? w = some b →
    a.space = .dynamic → a.Apart val b
  idle : ∀ v a, v ∉ gone → p.get? v = some a → ∀ r ∈ p.space.free, a.Apart val r
  free : p.space.free.Pairwise (Allocation.Apart val)

/-- The invariant of a placement: its dimensions have names in the table of the graph, regions have
the sizes of their variables, the freed variables are placed, and the regions fit as soon as the
extent has a value. -/
structure Tidy (g : Graph α) (val : Dim → Option Nat) (s : Supply) (p : Placement) (gone : List VarId) :
    Prop where
  named : ∃ σ ds, Covers σ s ds g ∧ p.space.top ∈ ds ∧ (∀ r ∈ p.space.free, r.size ∈ ds) ∧
    ∀ e ∈ p.table, e.2.space = .dynamic → e.2.size ∈ ds
  measured : ∀ e ∈ p.table, e.2.space = .dynamic → ∃ t s₁ s₂, g.tensor e.1 = .ok t ∧
    Makes t.type.size s₁ e.2.size s₂
  placed : ∀ v ∈ gone, ∃ a, p.get? v = some a
  fits : ∀ extent, val p.space.top = some extent → p.Fits val gone extent

theorem mem_table_of_get? {v : VarId} {a : Allocation} (h : p.get? v = some a) :
    (v, a) ∈ p.table := by
  obtain ⟨pre, post, e, -⟩ := List.lookup_eq_some_iff.1 h
  rw [e]
  exact List.mem_append_right _ (List.mem_cons_self ..)

theorem get?_append {v : VarId} {a : Allocation} (hp : p'.table = p.table ++ [(v, a)])
    (hv : p.get? v = none) (w : VarId) :
    p'.get? w = if w = v then some a else p.get? w := by
  unfold get? at hv ⊢
  rw [hp, List.lookup_append]
  by_cases h : w = v
  · simp [h, hv]
  · have hne : (w == v) = false := by simp [h]
    simp [h, List.lookup_cons, hne]

theorem place_gives_iff {v : VarId} : Gives (place g p v) s p' s' ↔
    (∃ a, p.get? v = some a) ∧ p = p' ∧ s = s' ∨
    p.get? v = none ∧ ∃ t size s₁ a space, g.tensor v = .ok t ∧ Makes t.type.size s size s₁ ∧
      Makes (p.space.alloc size) s₁ (a, space) s' ∧ p' = ⟨p.table ++ [(v, a)], space⟩ := by
  unfold place
  cases hv : p.get? v with
  | some a => simp [gives_pure_iff, eq_comm]
  | none =>
    simp only [Option.isSome_none, Bool.false_eq_true, if_false, gives_bind_iff, gives_except_iff,
      gives_fresh_iff, gives_pure_iff]
    constructor
    · rintro ⟨t, _, ⟨ht, rfl⟩, size, s₁, hsize, ⟨a, space⟩, s₂, ha, rfl, rfl⟩
      exact .inr ⟨trivial, t, size, s₁, a, space, ht, hsize, ha, rfl⟩
    · rintro (⟨⟨a, ha⟩, -⟩ | ⟨-, t, size, s₁, a, space, ht, hsize, ha, rfl⟩)
      · cases ha
      · exact ⟨t, s, ⟨ht, rfl⟩, size, s₁, hsize, (a, space), s', ha, rfl, rfl⟩

/-! ## Placing -/

/-- A region put in the table next to a tidy rest, taken from the free regions or from above. -/
theorem fits_snoc {v : VarId} {a : Allocation} (h : p.Fits val gone extent)
    (hle : extent ≤ extent') (hv : p.get? v = none) (hp : p'.table = p.table ++ [(v, a)])
    (hin : a.Within val extent') (hfree : p'.space.free.Sublist p.space.free)
    (hheld : ∀ w b, w ∉ gone → p.get? w = some b → b.Apart val a)
    (hidle : ∀ r ∈ p'.space.free, a.Apart val r) : p'.Fits val gone extent' where
  within e he hd := by
    rw [hp, List.mem_append, List.mem_singleton] at he
    rcases he with he | rfl
    · exact (h.within e he hd).mono hle
    · exact hin
  freeWithin r hr := by
    obtain ⟨hd, hr⟩ := h.freeWithin r (hfree.mem hr)
    exact ⟨hd, hr.mono hle⟩
  held u w x y hne hu hw hx hy hd := by
    rw [get?_append hp hv] at hx hy
    split at hx
    · next huv =>
      rw [if_neg (fun e => hne (huv.trans e.symm))] at hy
      cases hx
      exact (hheld w y hw hy).symm
    · split at hy
      · cases hy
        exact hheld u x hu hx
      · exact h.held u w x y hne hu hw hx hy hd
  idle u x hu hx r hr := by
    rw [get?_append hp hv] at hx
    split at hx
    · cases hx
      exact hidle r hr
    · exact h.idle u x hu hx r (hfree.mem hr)
  free := h.free.sublist hfree

/-- Placing a variable keeps the regions apart: it gets the region of a freed variable, or a new
one above all others. -/
theorem fits_place (hval : Dim.Reads val) {v : VarId} {a : Allocation} {size : Dim}
    {space : DynamicSpace}
    (h : ∀ extent, val p.space.top = some extent → p.Fits val gone extent)
    (hsame : ∀ r ∈ p.space.free, (r.size == size) = true → r.size = size)
    (hv : p.get? v = none) (ha : Makes (p.space.alloc size) s (a, space) s')
    (htop : val space.top = some extent) :
    Fits val ⟨p.table ++ [(v, a)], space⟩ gone extent := by
  rcases DynamicSpace.alloc_cases ha with
    ⟨r, pre, post, hfree, hsize, rfl, htop', hfree', -⟩ | ⟨rfl, hsum, hfree'⟩
  · -- The region of a freed variable is apart from everything but itself.
    have hf := h extent (htop' ▸ htop)
    have hr : r ∈ p.space.free := by simp [hfree]
    obtain ⟨hd, hin⟩ := hf.freeWithin r hr
    have hsub : (pre ++ post).Sublist p.space.free := by
      rw [hfree]
      exact List.Sublist.append_left (List.sublist_cons_self ..) pre
    have e : (⟨.dynamic, r.offset, size⟩ : Allocation) = r := by
      rw [← hsame r hr hsize, ← hd]
    rw [e]
    refine fits_snoc hf (Nat.le_refl _) hv rfl hin (hfree' ▸ hsub) ?_ ?_
    · intro w b hw hb
      exact hf.idle w b hw hb r hr
    · intro x hx
      have hx : x ∈ pre ++ post := hfree' ▸ hx
      have hpair := hf.free
      rw [hfree, List.pairwise_append, List.pairwise_cons] at hpair
      rcases List.mem_append.1 hx with hx | hx
      · exact (hpair.2.2 x hx r (List.mem_cons_self ..)).symm
      · exact hpair.2.1.1 x hx
  · -- A new region starts where the extent has been.
    obtain ⟨top, n, htop', hn, rfl⟩ := hval.sum hsum htop
    have hf := h top htop'
    have hspan : Allocation.Spans val ⟨.dynamic, p.space.top, size⟩ top n := ⟨htop', hn⟩
    refine fits_snoc hf (Nat.le_add_right ..) hv rfl ⟨top, n, hspan, Nat.le_refl _⟩
      (hfree' ▸ List.Sublist.refl _) ?_ ?_
    · intro w b _ hb
      have hmem := mem_table_of_get? hb
      by_cases hd : b.space = .dynamic
      · exact (hf.within (w, b) hmem hd).apart hspan
      · exact .inl hd
    · intro x hx
      exact ((hf.freeWithin x (hfree' ▸ hx)).2.apart hspan).symm

/-- What a placement knows, a later one knows too; it may know more of the dynamic space. -/
structure Follows (val : Dim → Option Nat) (p p' : Placement) : Prop where
  keeps : ∀ v a, p.get? v = some a → p'.get? v = some a
  added : ∀ e ∈ p'.table, e ∈ p.table ∨ e.2.space = .dynamic
  top : ∀ extent, val p'.space.top = some extent →
    ∃ extent', val p.space.top = some extent'

theorem Follows.refl (val : Dim → Option Nat) (p : Placement) : Follows val p p :=
  ⟨fun _ _ h => h, fun _ h => .inl h, fun extent h => ⟨extent, h⟩⟩

theorem Follows.trans {p'' : Placement} (h : Follows val p p') (h' : Follows val p' p'') :
    Follows val p p'' where
  keeps v a hv := h'.keeps v a (h.keeps v a hv)
  added e he := by
    rcases h'.added e he with he | he
    · exact h.added e he
    · exact .inr he
  top extent hx := by
    obtain ⟨extent', hx⟩ := h'.top extent hx
    exact h.top extent' hx

/-- Taking a region makes no dimension without a name. -/
theorem named_alloc (hval : Dim.Reads val) {σ : Names} {ds : List Dim}
    {space space' : DynamicSpace} {size : Dim} {a : Allocation} (hσ : Covers σ s ds g)
    (hsize : size ∈ ds) (htop : space.top ∈ ds) (hfree : ∀ r ∈ space.free, r.size ∈ ds)
    (h : Makes (space.alloc size) s (a, space') s') :
    a.space = .dynamic ∧ a.size = size ∧ (∀ extent, val space'.top = some extent →
      ∃ extent', val space.top = some extent') ∧
    ∃ τ, Covers τ s' (space'.top :: ds) g ∧ ∀ r ∈ space'.free, r.size ∈ ds := by
  rcases DynamicSpace.alloc_cases h with
    ⟨r, pre, post, hsplit, -, rfl, htop', hfree', rfl⟩ | ⟨rfl, hsum, hfree'⟩
  · refine ⟨rfl, rfl, fun extent hx => ⟨extent, htop' ▸ hx⟩, σ, ?_, ?_⟩
    · exact hσ.cons (htop' ▸ hσ.dims _ htop)
    · intro x hx
      rw [hfree'] at hx
      exact hfree x (by rw [hsplit]; simp only [List.mem_append, List.mem_cons] at hx ⊢; tauto)
  · obtain ⟨τ, k, hn⟩ := named_combine (hσ.dims _ htop) (hσ.dims _ hsize) hsum
    refine ⟨rfl, rfl, fun extent hx => ?_, τ, (hσ.grow k).cons hn, hfree' ▸ hfree⟩
    obtain ⟨top, _, hx, -⟩ := hval.sum hsum hx
    exact ⟨top, hx⟩

/-- Placing a variable keeps the invariant, and afterwards the variable has its place. -/
theorem tidy_place (hval : Dim.Reads val) {v : VarId} (h : p.Tidy g val s gone)
    (hp : Gives (place g p v) s p' s') :
    p'.Tidy g val s' gone ∧ Follows val p p' ∧ ∃ a, p'.get? v = some a := by
  rcases place_gives_iff.1 hp with
    ⟨hv, rfl, rfl⟩ | ⟨hv, t, size, s₁, a, space, ht, hsize, ha, rfl⟩
  · exact ⟨h, .refl val p, hv⟩
  obtain ⟨σ, ds, hσ, htop, hfree, htable⟩ := h.named
  obtain ⟨q, hslot⟩ := Graph.tensor_ok_iff.1 ht
  obtain ⟨τ, k, hn⟩ := named_product (hσ.tensors v t q hslot) hsize
  have hτ := (hσ.grow k).cons hn
  have hsame : ∀ r ∈ p.space.free, (r.size == size) = true → r.size = size := by
    intro r hr he
    exact Dim.eq_of_same (hτ.dims _ (List.mem_cons_of_mem _ (hfree r hr))) hn he
  obtain ⟨hdyn, hsz, hext, ρ, hρ, hfree'⟩ := named_alloc hval hτ (List.mem_cons_self ..)
    (List.mem_cons_of_mem _ htop) (fun r hr => List.mem_cons_of_mem _ (hfree r hr)) ha
  have hget : ∀ w, Placement.get? ⟨p.table ++ [(v, a)], space⟩ w =
      if w = v then some a else p.get? w := get?_append rfl hv
  have hkeeps : ∀ w b, p.get? w = some b →
      Placement.get? ⟨p.table ++ [(v, a)], space⟩ w = some b := by
    intro w b hw
    rw [hget, if_neg, hw]
    rintro rfl
    rw [hv] at hw
    cases hw
  refine ⟨⟨⟨ρ, _, hρ, List.mem_cons_self .., ?_, ?_⟩, ?_, ?_, ?_⟩, ⟨hkeeps, ?_, hext⟩, a, ?_⟩
  · exact fun r hr => List.mem_cons_of_mem _ (hfree' r hr)
  · intro e he hd
    rcases List.mem_append.1 he with he | he
    · exact List.mem_cons_of_mem _ (List.mem_cons_of_mem _ (htable e he hd))
    · rw [List.mem_singleton.1 he, hsz]
      simp
  · intro e he hd
    rcases List.mem_append.1 he with he | he
    · exact h.measured e he hd
    · rw [List.mem_singleton.1 he, hsz]
      exact ⟨t, s, s₁, ht, hsize⟩
  · intro w hw
    obtain ⟨b, hb⟩ := h.placed w hw
    exact ⟨b, hkeeps w b hb⟩
  · exact fun extent hx => fits_place hval h.fits hsame hv ha hx
  · intro e he
    rcases List.mem_append.1 he with he | he
    · exact .inl he
    · rw [List.mem_singleton.1 he]
      exact .inr hdyn
  · rw [hget, if_pos rfl]

theorem tidy_places (hval : Dim.Reads val) {vs : List VarId} (h : p.Tidy g val s gone)
    (hp : Gives (vs.foldlM (place g) p) s p' s') :
    p'.Tidy g val s' gone ∧ Follows val p p' ∧ ∀ v ∈ vs, ∃ a, p'.get? v = some a := by
  induction vs generalizing p s with
  | nil =>
    obtain ⟨rfl, rfl⟩ := gives_foldlM_nil_iff.1 hp
    exact ⟨h, .refl val p, fun v hv => by cases hv⟩
  | cons v vs ih =>
    obtain ⟨p₁, s₁, hv, hp⟩ := gives_foldlM_cons_iff.1 hp
    obtain ⟨h₁, hf, a, ha⟩ := tidy_place hval h hv
    obtain ⟨h', hf', hvs⟩ := ih h₁ hp
    refine ⟨h', hf.trans hf', fun w hw => ?_⟩
    rcases List.mem_cons.1 hw with rfl | hw
    · exact ⟨a, hf'.keeps w a ha⟩
    · exact hvs w hw

/-! ## Freeing -/

@[simp] theorem release_table (p : Placement) (v : VarId) : (p.release v).table = p.table := by
  unfold release
  split
  · split <;> rfl
  · rfl

@[simp] theorem release_get? (p : Placement) (v w : VarId) :
    (p.release v).get? w = p.get? w := by
  unfold get?
  rw [release_table]

@[simp] theorem release_top (p : Placement) (v : VarId) :
    (p.release v).space.top = p.space.top := by
  unfold release
  split
  · split <;> rfl
  · rfl

theorem fits_release {v : VarId} {a : Allocation} (h : p.Fits val gone extent) (hv : v ∉ gone)
    (ha : p.get? v = some a) (hd : a.space = .dynamic) :
    Fits val { p with space := p.space.release a } (v :: gone) extent where
  within := h.within
  freeWithin r hr := by
    rcases List.mem_append.1 hr with hr | hr
    · exact h.freeWithin r hr
    · rw [List.mem_singleton.1 hr]
      exact ⟨hd, h.within (v, a) (mem_table_of_get? ha) hd⟩
  held u w x y hne hu hw hx hy :=
    h.held u w x y hne (fun hm => hu (List.mem_cons_of_mem _ hm))
      (fun hm => hw (List.mem_cons_of_mem _ hm)) hx hy
  idle u x hu hx r hr := by
    rw [List.mem_cons, not_or] at hu
    rcases List.mem_append.1 hr with hr | hr
    · exact h.idle u x hu.2 hx r hr
    · rw [List.mem_singleton.1 hr]
      exact (h.held v u a x (Ne.symm hu.1) hv hu.2 ha hx hd).symm
  free := by
    show (p.space.free ++ [a]).Pairwise _
    refine List.pairwise_append.2 ⟨h.free, List.pairwise_singleton _ a, fun r hr x hx => ?_⟩
    rw [List.mem_singleton.1 hx]
    exact (h.idle v a hv ha r hr).symm

/-- Freeing a variable that is not yet freed keeps the invariant. -/
theorem tidy_release {v : VarId} (h : p.Tidy g val s gone) (hv : v ∉ gone) :
    ∃ gone', (p.release v).Tidy g val s gone' ∧ ∀ w ∈ gone', w = v ∨ w ∈ gone := by
  unfold release
  split
  · next a ha =>
    split
    · next hd =>
      obtain ⟨σ, ds, hσ, htop, hfree, htable⟩ := h.named
      refine ⟨v :: gone, ⟨⟨σ, ds, hσ, htop, ?_, htable⟩, h.measured, ?_, ?_⟩,
        fun w hw => List.mem_cons.1 hw⟩
      · intro r hr
        rcases List.mem_append.1 hr with hr | hr
        · exact hfree r hr
        · rw [List.mem_singleton.1 hr]
          exact htable (v, a) (mem_table_of_get? ha) hd
      · intro w hw
        rcases List.mem_cons.1 hw with rfl | hw
        · exact ⟨a, ha⟩
        · exact h.placed w hw
      · exact fun extent hx => fits_release (h.fits extent hx) hv ha hd
    · exact ⟨gone, h, fun w hw => .inr hw⟩
  · exact ⟨gone, h, fun w hw => .inr hw⟩

theorem tidy_releases {vs : List VarId} (h : p.Tidy g val s gone) (hn : vs.Nodup)
    (hvs : ∀ v ∈ vs, v ∉ gone) : ∃ gone', (vs.foldl release p).Tidy g val s gone' ∧
      ∀ w ∈ gone', w ∈ vs ∨ w ∈ gone := by
  induction vs generalizing p gone with
  | nil => exact ⟨gone, h, fun w hw => .inr hw⟩
  | cons v vs ih =>
    rw [List.nodup_cons] at hn
    obtain ⟨gone₁, h₁, hg₁⟩ := tidy_release h (hvs v (List.mem_cons_self ..))
    have hvs₁ : ∀ w ∈ vs, w ∉ gone₁ := by
      intro w hw hm
      rcases hg₁ w hm with rfl | hm
      · exact hn.1 hw
      · exact hvs w (List.mem_cons_of_mem _ hw) hm
    obtain ⟨gone', h', hg'⟩ := ih h₁ hn.2 hvs₁
    refine ⟨gone', h', fun w hw => ?_⟩
    rcases hg' w hw with hw | hw
    · exact .inl (List.mem_cons_of_mem _ hw)
    · rcases hg₁ w hw with rfl | hw
      · exact .inl (List.mem_cons_self ..)
      · exact .inr hw

theorem foldl_release_table (p : Placement) (vs : List VarId) :
    (vs.foldl release p).table = p.table := by
  induction vs generalizing p with
  | nil => rfl
  | cons v vs ih => rw [List.foldl_cons, ih, release_table]

theorem foldl_release_top (p : Placement) (vs : List VarId) :
    (vs.foldl release p).space.top = p.space.top := by
  induction vs generalizing p with
  | nil => rfl
  | cons v vs ih => rw [List.foldl_cons, ih, release_top]

theorem follows_releases (val : Dim → Option Nat) (p : Placement) (vs : List VarId) :
    Follows val p (vs.foldl release p) where
  keeps v a hv := by
    unfold get? at hv ⊢
    rw [foldl_release_table, hv]
  added e he := .inl (foldl_release_table p vs ▸ he)
  top extent hx := ⟨extent, foldl_release_top p vs ▸ hx⟩

end Placement

end TensorCompiler
