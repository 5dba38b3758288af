import Mathlib
import TensorCompiler.Proofs.ExactScalars
import TensorCompiler.Proofs.MovementKernel
import TensorCompiler.Proofs.StaticSpace
/-!
# Index arithmetic in signed words

A kernel computes indices in signed words of 32 bits, which wrap around. Generation checks that the
entries of the tables and the number of elements fit such words. It does not check the products that
a kernel forms from them: a strided slice multiplies a coordinate by a step, a resize multiplies
every coordinate by a size, and the index adds up products with strides.

* `Kernel.wordIndex?`: the index at which a kernel reads, in signed words.
* `wordWalk_of_axisWalk`: a loop in words that computes each part exactly arrives at the word of the
  exact index.
* `Operator.FitsWords`: signed words hold what the kernel multiplies and the index it arrives at.
* `exists_wordIndex_of_generate`: then a generated kernel reads at the index of the interpreter.
-/

namespace TensorCompiler

/-! ## Words -/

/-- A signed word. -/
abbrev Word := BitVec 32

namespace Word

/-- The remainder of a division, with the sign of the dividend. -/
def rem? (x y : Word) : Option Word := if y = 0 then none else some (x.srem y)

/-- Division, rounded towards zero. -/
def div? (x y : Word) : Option Word := if y = 0 then none else some (x.sdiv y)

variable {m n : Nat}

theorem toNat_ofNat (h : n < 0x80000000) : (BitVec.ofNat 32 n).toNat = n := by
  rw [BitVec.toNat_ofNat]
  omega

theorem msb_ofNat (h : n < 0x80000000) : (BitVec.ofNat 32 n).msb = false := by
  rw [BitVec.msb_eq_decide, toNat_ofNat h]
  simpa using h

theorem ofNat_ne_zero (h : n < 0x80000000) (hpos : 0 < n) : (BitVec.ofNat 32 n : Word) ≠ 0 := by
  intro e
  have := congrArg BitVec.toNat e
  rw [toNat_ofNat h] at this
  simp at this
  omega

/-- A natural number below the sign bit is the value of its word. -/
theorem toInt_ofNat (h : n < 0x80000000) : (BitVec.ofNat 32 n).toInt = n := by
  rw [BitVec.toInt_eq_msb_cond, msb_ofNat h, toNat_ofNat h]
  rfl

theorem rem?_ofNat (hm : m < 0x80000000) (hn : n < 0x80000000) (hpos : 0 < n) :
    rem? (BitVec.ofNat 32 m) (BitVec.ofNat 32 n) = some (BitVec.ofNat 32 (m % n)) := by
  unfold rem?
  rw [if_neg (ofNat_ne_zero hn hpos), BitVec.srem_eq, msb_ofNat hm, msb_ofNat hn]
  refine congrArg some (BitVec.eq_of_toNat_eq ?_)
  have hlt : m % n < 0x80000000 := (Nat.mod_lt m hpos).trans hn
  show (BitVec.ofNat 32 m % BitVec.ofNat 32 n).toNat = _
  rw [BitVec.toNat_umod, toNat_ofNat hm, toNat_ofNat hn, toNat_ofNat hlt]

theorem div?_ofNat (hm : m < 0x80000000) (hn : n < 0x80000000) (hpos : 0 < n) :
    div? (BitVec.ofNat 32 m) (BitVec.ofNat 32 n) = some (BitVec.ofNat 32 (m / n)) := by
  unfold div?
  rw [if_neg (ofNat_ne_zero hn hpos), BitVec.sdiv_eq, msb_ofNat hm, msb_ofNat hn]
  refine congrArg some (BitVec.eq_of_toNat_eq ?_)
  have hlt : m / n < 0x80000000 := Nat.lt_of_le_of_lt (Nat.div_le_self m n) hm
  show (BitVec.ofNat 32 m / BitVec.ofNat 32 n).toNat = _
  rw [BitVec.toNat_udiv, toNat_ofNat hm, toNat_ofNat hn, toNat_ofNat hlt]

end Word

/-! ## The loop in words -/

/-- The loop over the axes, in words. -/
def wordWalk (shape : List Nat) (part : (axis : Nat) → Word → Option Word) :
    (axes : Nat) → (rem index : Word) → Option Word
  | 0, _, index => some index
  | d + 1, rem, index => do
    let n := BitVec.ofNat 32 (← shape[d]?)
    let c ← Word.rem? rem n
    wordWalk shape part d (← Word.div? rem n) (index + (← part d c))

/-- The value of a coordinate rule in words, as its text spells it out. -/
def CoordinateRule.word? (entry : String → Option Word) (c : Word) : CoordinateRule → Option Word
  | same => some c
  | wrap => do Word.rem? c (← entry "x_shape")
  | range => do return (← entry "slice_begin") + c * (← entry "slice_step")
  | scale => do Word.div? (c * (← entry "x_shape")) (← entry "y_shape")

namespace Kernel

variable {α : Type}

/-- What a data movement adds to the index of its input along an axis, in words. -/
def wordPart (k : Kernel α) (strides : List Nat) (d : Nat) (c : Word) : Option Word := do
  let entry (name : String) : Option Word := do return BitVec.ofNat 32 (← (← k.ints? name)[d]?)
  return (← (CoordinateRule.ofKind k.kind).word? entry c) * BitVec.ofNat 32 (← strides[d]?)

/-- The index at which the kernel of a data movement reads for a position of the output. -/
def wordIndex? (k : Kernel α) (i : Nat) : Option Word := do
  let shape ← k.ints? "y_shape"
  let strides ← k.ints? "x_stride"
  wordWalk shape (k.wordPart strides) (← k.loopRank?) (BitVec.ofNat 32 i) 0

end Kernel

/-- A loop in words that computes every part exactly arrives at the word of the exact index, since
sums wrap around consistently. -/
theorem wordWalk_of_axisWalk {shape : List Nat} {part : Nat → Nat → Option Nat}
    {part' : Nat → Word → Option Word} {axes i index j : Nat}
    (hshape : ∀ n ∈ shape, n < 0x80000000) (hi : i < 0x80000000)
    (hpart : ∀ d c p : Nat, (unravel (shape.take axes) i)[d]? = some c → part d c = some p →
      part' d (BitVec.ofNat 32 c) = some (BitVec.ofNat 32 p))
    (h : axisWalk shape part axes i index = some j) :
    wordWalk shape part' axes (BitVec.ofNat 32 i) (BitVec.ofNat 32 index) =
      some (BitVec.ofNat 32 j) := by
  induction axes generalizing i index with
  | zero =>
    cases h
    rfl
  | succ d ih =>
    simp only [axisWalk, bind, Option.bind_eq_some_iff] at h
    obtain ⟨n, hn, h⟩ := h
    split at h
    · cases h
    · next hzero =>
      obtain ⟨p, hp, h⟩ := Option.bind_eq_some_iff.1 h
      have hpos : 0 < n := Nat.pos_of_ne_zero hzero
      have hfits := hshape n (List.mem_of_getElem? hn)
      have hd : d < shape.length := (List.getElem?_eq_some_iff.1 hn).1
      have htake : shape.take (d + 1) = shape.take d ++ [n] := by
        rw [List.take_add_one, hn]
        rfl
      have hcoordinates : unravel (shape.take (d + 1)) i =
          unravel (shape.take d) (i / n) ++ [i % n] := by
        rw [htake, unravel_concat]
      have hlen : (unravel (shape.take d) (i / n)).length = d := by
        rw [length_unravel, List.length_take, Nat.min_eq_left hd.le]
      have hlast : (unravel (shape.take (d + 1)) i)[d]? = some (i % n) := by
        rw [hcoordinates, List.getElem?_append_right hlen.le, hlen, Nat.sub_self]
        rfl
      have hinner : ∀ e c : Nat, (unravel (shape.take d) (i / n))[e]? = some c →
          (unravel (shape.take (d + 1)) i)[e]? = some c := by
        intro e c he
        rw [hcoordinates, List.getElem?_append_left (List.getElem?_eq_some_iff.1 he).1, he]
      have hrest := ih (Nat.lt_of_le_of_lt (Nat.div_le_self i n) hi)
        (fun e c q he hq => hpart e c q (hinner e c he) hq) h
      simp only [wordWalk, hn, bind, Option.bind_some, Word.rem?_ofNat hi hfits hpos,
        Word.div?_ofNat hi hfits hpos, hpart d (i % n) p hlast hp]
      rw [← BitVec.ofNat_add]
      exact hrest

/-! ## Parts in words -/

/-- A rule that multiplies within words has the same value in words. -/
theorem CoordinateRule.word?_ofNat {rule : CoordinateRule} {entry : String → Option Nat}
    {c q : Nat} (h : rule.coordinate? entry c = some q) (hc : c < 0x80000000)
    (hwrap : rule = .wrap → ∀ x, entry "x_shape" = some x → x < 0x80000000)
    (hscale : rule = .scale → ∀ x y, entry "x_shape" = some x → entry "y_shape" = some y →
      c * x < 0x80000000 ∧ y < 0x80000000) :
    rule.word? (fun name => (entry name).map (BitVec.ofNat 32)) (BitVec.ofNat 32 c) =
      some (BitVec.ofNat 32 q) := by
  cases rule with
  | same =>
    cases h
    rfl
  | wrap =>
    simp only [coordinate?, bind, Option.bind_eq_some_iff, Arith.apply,
      Option.ite_none_left_eq_some, Option.some.injEq] at h
    obtain ⟨x, hx, hpos, rfl⟩ := h
    simp only [word?, hx, Option.map_some, bind, Option.bind_some,
      Word.rem?_ofNat hc (hwrap rfl x hx) (Nat.pos_of_ne_zero hpos)]
  | range =>
    simp only [coordinate?, bind, pure, Option.bind_eq_some_iff, Option.some.injEq] at h
    obtain ⟨b, hb, k, hk, rfl⟩ := h
    simp only [word?, hb, hk, Option.map_some, bind, pure, Option.bind_some]
    rw [BitVec.ofNat_add, BitVec.ofNat_mul]
  | scale =>
    simp only [coordinate?, bind, Option.bind_eq_some_iff, Arith.apply,
      Option.ite_none_left_eq_some, Option.some.injEq] at h
    obtain ⟨x, hx, y, hy, hpos, rfl⟩ := h
    obtain ⟨hmul, hlt⟩ := hscale rfl x y hx hy
    simp only [word?, hx, hy, Option.map_some, bind, Option.bind_some]
    rw [← BitVec.ofNat_mul, Word.div?_ofNat hmul hlt (Nat.pos_of_ne_zero hpos)]

/-- Signed words hold what a kernel multiplies for a position of the output, and the index that it
arrives at. Tiles and reinterpretations need no condition, because their output is not smaller than
their input. -/
def Operator.FitsWords {α : Type} (op : Operator α) (xs ys : List Nat) (i : Nat) : Prop :=
  match op with
  | .slice .. => op.sourceIndexOf xs ys i < 0x80000000
  | .resize .. => op.sourceIndexOf xs ys i < 0x80000000 ∧ ∀ d c x : Nat,
      (unravel ys i)[d]? = some c → xs[d]? = some x → c * x < 0x80000000
  | _ => True

namespace Kernel

variable {α : Type} {k : Kernel α} {op : Operator α} {xs ys : List Nat} {axes : List Axis}
  {m i : Nat}

theorem lt_of_coordinate {sizes : List Nat} {d c : Nat} (hpos : ∀ n ∈ sizes, 0 < n)
    (hfits : ∀ n ∈ sizes, n < 0x80000000) (hc : (unravel sizes i)[d]? = some c) :
    c < 0x80000000 := by
  obtain ⟨hd, -⟩ := List.getElem?_eq_some_iff.1 hc
  rw [length_unravel] at hd
  exact (forall₂_getElem? (unravel_lt hpos i) hc (List.getElem?_eq_getElem hd)).trans
    (hfits _ (List.getElem_mem hd))

/-- What the kernel of a resize multiplies fits a word, also along the axes that fill the tables
up. -/
theorem MovementTables.scaled_lt (h : k.MovementTables op xs ys m) (hlen : ys.length = xs.length)
    (hfits : op.FitsWords xs ys i) (hrule : op.coordinateRule = .scale) {d c x : Nat}
    (hc : (unravel (ys ++ List.replicate m 1) i)[d]? = some c)
    (hx : (k.ints? "x_shape").bind (·[d]?) = some x) : c * x < 0x80000000 := by
  cases op with
  | resize a₁ s₁ a₂ s₂ =>
    have htable := h.tables ("x_shape", xs) (by simp [Operator.tablesOf])
    rw [htable, Option.bind_some] at hx
    rw [unravel_ones] at hc
    by_cases hd : d < xs.length
    · rw [List.getElem?_append_left (by rwa [length_unravel, hlen])] at hc
      rw [List.getElem?_append_left hd] at hx
      exact hfits.2 d c x hc hx
    · rw [List.getElem?_append_right (by rw [length_unravel, hlen]; omega)] at hc
      obtain rfl : c = 0 := (List.mem_replicate.1 (List.mem_of_getElem? hc)).2
      simp
  | _ => cases hrule

/-- The sizes of the input fit a word where they are in a table. -/
theorem MovementTables.input_lt (h : k.MovementTables op xs ys m) (hkind : op.kind = .resize2d) :
    ∀ n ∈ xs, n < 0x80000000 := by
  intro n hn
  cases op with
  | resize a₁ s₁ a₂ s₂ =>
    exact h.fits "x_shape" (by simp [Operator.movementNames]) _
      (h.tables ("x_shape", xs) (by simp [Operator.tablesOf])) n (List.mem_append_left _ hn)
  | pointwise f => cases f <;> cases hkind
  | _ => cases hkind

/-- The part of an axis in words is that of the exact loop. -/
theorem MovementTables.wordPart_eq (h : k.MovementTables op xs ys m) (hlen : ys.length = xs.length)
    (hy : ∀ n ∈ ys, 0 < n) (hfits : op.FitsWords xs ys i) {strides : List Nat} {d c p : Nat}
    (hc : (unravel (ys ++ List.replicate m 1) i)[d]? = some c)
    (hp : k.movementPart strides d c = some p) :
    k.wordPart strides d (BitVec.ofNat 32 c) = some (BitVec.ofNat 32 p) := by
  have hentry : ∀ name ∈ "y_shape" :: "x_stride" :: op.movementNames, ∀ n,
      ((k.ints? name).bind (·[d]?)) = some n → n < 0x80000000 := by
    intro name hname n hn
    obtain ⟨ns, hns, hn⟩ := Option.bind_eq_some_iff.1 hn
    exact h.fits name hname ns hns n (List.mem_of_getElem? hn)
  have hcword : c < 0x80000000 := by
    refine lt_of_coordinate ?_ (h.fits "y_shape" (by simp) _ h.shape) hc
    intro n hn
    rcases List.mem_append.1 hn with hn | hn
    · exact hy n hn
    · rw [(List.mem_replicate.1 hn).2]
      exact Nat.one_pos
  simp only [movementPart, bind, pure, Option.bind_eq_some_iff, Option.some.injEq] at hp
  obtain ⟨q, hq, t, ht, rfl⟩ := hp
  rw [h.kind, ofKind_kind] at hq
  have hwrap : op.coordinateRule = .wrap → ∀ x, ((k.ints? "x_shape").bind (·[d]?)) = some x →
      x < 0x80000000 := by
    intro hrule x hx
    refine hentry "x_shape" ?_ x hx
    cases op with
    | tile _ => simp [Operator.movementNames]
    | _ => cases hrule
  have hscale : op.coordinateRule = .scale → ∀ x y, ((k.ints? "x_shape").bind (·[d]?)) = some x →
      ((k.ints? "y_shape").bind (·[d]?)) = some y → c * x < 0x80000000 ∧ y < 0x80000000 := by
    intro hrule x y hx hy
    exact ⟨h.scaled_lt hlen hfits hrule hc hx, hentry "y_shape" (by simp) y hy⟩
  have hword := CoordinateRule.word?_ofNat hq hcword hwrap hscale
  have hread : (fun name => (k.ints? name).bind fun ns =>
      (ns[d]?).bind fun n => some (BitVec.ofNat 32 n)) = fun name =>
        ((k.ints? name).bind (·[d]?)).map (BitVec.ofNat 32) := by
    funext name
    cases k.ints? name with
    | none => rfl
    | some ns => cases hn : ns[d]? <;> simp [hn]
  unfold wordPart
  rw [h.kind, ofKind_kind]
  simp only [bind, pure, ht, Option.bind_some]
  rw [hread, hword, Option.bind_some, BitVec.ofNat_mul]

theorem wordIndex?_eq_walk {shape strides : List Nat} {n : Nat}
    (hshape : k.ints? "y_shape" = some shape) (hstrides : k.ints? "x_stride" = some strides)
    (hrank : k.loopRank? = some n) :
    k.wordIndex? i = wordWalk shape (k.wordPart strides) n (BitVec.ofNat 32 i) 0 := by
  simp only [wordIndex?, hshape, hstrides, hrank, bind, Option.bind_some]

/-- The kernel reads at the source index, if signed words hold what it multiplies. -/
theorem MovementTables.wordIndex?_eq (h : k.MovementTables op xs ys m)
    (hmove : op.Moves axes xs ys) (hrank : k.loopRank? = some (ys.length + m))
    (hx : ∀ n ∈ xs, 0 < n) (hy : ∀ n ∈ ys, 0 < n) (hi : i < 0x80000000)
    (hfits : op.FitsWords xs ys i) :
    k.wordIndex? i = some (BitVec.ofNat 32 (op.sourceIndexOf xs ys i)) := by
  have hwalk := h.axisWalk_eq hmove hx hy i
  have hall : ys.length + m = (ys ++ List.replicate m 1).length := by simp
  rw [wordIndex?_eq_walk h.shape h.strides hrank]
  refine wordWalk_of_axisWalk (h.fits "y_shape" (by simp) _ h.shape) hi (fun d c p hc hp => ?_) hwalk
  rw [hall, List.take_length] at hc
  exact h.wordPart_eq hmove.length hy hfits hc hp

end Kernel

/-! ## Generated kernels -/

namespace Operator

variable {α : Type} {op : Operator α} {axes : List Axis} {xs ys : List Nat} {i : Nat}

/-- An output that is at least as long along every axis has at least as many elements. -/
theorem Moves.prod_le (h : op.Moves axes xs ys)
    (hle : ∀ a d x y, op.MovesAt a d x y → 0 < y → x ≤ y) (hy : ∀ n ∈ ys, 0 < n) :
    xs.prod ≤ ys.prod := by
  refine List.Forall₂.prod_le_prod' (List.forall₂_iff_get.2 ⟨h.length.symm, fun d hd hd' => ?_⟩)
  obtain ⟨a, x, y, -, -, ha, hx, hy', -, -⟩ := h.exists_axis 0 hd
  rw [List.get_eq_getElem, List.get_eq_getElem, (List.getElem?_eq_some_iff.1 hx).2,
    (List.getElem?_eq_some_iff.1 hy').2]
  exact hle a d x y (h.sizes d a x y ha hx hy') (hy y (List.mem_of_getElem? hy'))

/-- The index that a kernel arrives at is the value of its word. -/
theorem FitsWords.sourceIndexOf_lt (hfits : op.FitsWords xs ys i) (h : op.Moves axes xs ys)
    (hx : ∀ n ∈ xs, 0 < n) (hy : ∀ n ∈ ys, 0 < n) (hsize : ys.prod < 0x80000000) :
    op.sourceIndexOf xs ys i < 0x80000000 := by
  have hlt := h.sourceIndexOf_lt hx hy i
  cases op with
  | pointwise f =>
    cases xs with
    | nil => exact hlt.trans (by decide)
    | cons x xs =>
      obtain ⟨a, x', y, -, -, ha, hx', hy', -, -⟩ := h.exists_axis 0 (Nat.zero_lt_succ xs.length)
      exact (h.sizes 0 a x' y ha hx' hy').elim
  | tile m =>
    refine (hlt.trans_le (h.prod_le ?_ hy)).trans hsize
    rintro a d x y ⟨k, -, rfl⟩ hpos
    exact Nat.le_mul_of_pos_right x (Nat.pos_of_mul_pos_left hpos)
  | slice start stop step => exact hfits
  | reinterpret source target =>
    refine (hlt.trans_le (h.prod_le ?_ hy)).trans hsize
    rintro a d x y rfl -
    exact Nat.le_refl _
  | resize a₁ s₁ a₂ s₂ => exact hfits.1

/-- The condition on a position follows from one on the sizes. -/
theorem fitsWords_of_sizes (h : op.Moves axes xs ys) (hx : ∀ n ∈ xs, 0 < n) (hy : ∀ n ∈ ys, 0 < n)
    (hsize : xs.prod ≤ 0x80000000)
    (hscale : op.kind = .resize2d → ∀ d x y : Nat, xs[d]? = some x → ys[d]? = some y →
      (y - 1) * x < 0x80000000) : op.FitsWords xs ys i := by
  have hlt := (h.sourceIndexOf_lt hx hy i).trans_le hsize
  cases op with
  | pointwise f => trivial
  | tile m => trivial
  | slice start stop step => exact hlt
  | reinterpret source target => trivial
  | resize a₁ s₁ a₂ s₂ =>
    refine ⟨hlt, fun d c x hc hxd => ?_⟩
    have hd : d < ys.length := h.length ▸ (List.getElem?_eq_some_iff.1 hxd).1
    have hyd := List.getElem?_eq_getElem hd
    have hcy : c ≤ ys[d] - 1 := Nat.le_sub_one_of_lt (forall₂_getElem? (unravel_lt hy i) hc hyd)
    exact Nat.lt_of_le_of_lt (Nat.mul_le_mul_right x hcy) (hscale rfl d x _ hxd hyd)

end Operator

/-- The kernel emitted for an operator that moves data, whatever the backend. -/
theorem Graph.MovesAt.exists_kernel {α : Type} [Scalar α] [ScalarText α] {g : Graph α} {o : OpId}
    {n : Node α} {x : VarId} {tx ty : Tensor α} {xs ys : List Nat} (h : g.MovesAt o n x tx ty xs ys)
    {kind : BackendKind} {config : Config} {d : Descriptor α} {s s' : Supply} {ops : List OpId}
    (hgen : Gives (g.generate kind config) s d s') (hops : g.topologicalOrder = .ok ops)
    (ho : o ∈ ops) : ∃ k ∈ d.kernels, k.name = n.op.kind.text ++ s!"_{o.index}" ∧ ∃ m,
      k.MovementTables n.op xs ys m ∧ k.loopRank? = some (ys.length + m) ∧
        k.loopSize? = some ys.prod ∧ ys.prod < 0x80000000 := by
  have named : ∀ {τ : Type} {c : KernelContext α τ}, c.id = o → g.node? o = some c.node →
      c.name = n.op.kind.text ++ s!"_{o.index}" := by
    intro τ c hid hnode
    rw [KernelContext.name, hid, Option.some.inj (hnode.symm.trans h.node)]
  by_cases hkind : kind = .webGl
  · subst hkind
    obtain ⟨layout, ops', -, -, hops', hall, -, -⟩ := generate_texture hgen
    obtain rfl := Except.ok.inj (hops'.symm.trans hops)
    obtain ⟨k, hk, hemitted⟩ := exists_of_forall₂_left hall ho
    obtain ⟨m, htables, hrank, hsize, hlt, -⟩ := hemitted.movement h
    obtain ⟨c, _, _, _, _, _, -, hid, hnode, -, -, -, hname, -⟩ := hemitted
    exact ⟨k, hk, hname.trans (named hid hnode), m, htables, hrank, hsize, hlt⟩
  · obtain ⟨layout, ops', s₁, -, hops', hall, -, -⟩ := generate_linear hkind hgen
    obtain rfl := Except.ok.inj (hops'.symm.trans hops)
    obtain ⟨k, hk, hemitted⟩ := exists_of_forall₂_left hall ho
    obtain ⟨htables, hrank, hsize, hlt, -⟩ := hemitted.movement h
    obtain ⟨τ, c, _, _, _, -, hid, hnode, -, -, hname, -⟩ := hemitted.emitted
    exact ⟨k, hk, hname.trans (named hid hnode), 0, htables, hrank, hsize, hlt⟩

section

variable {α : Type} [Scalar α] [ScalarText α] {s s₁ s₂ : Supply} {g : Graph α} {kind : BackendKind}
  {config : Config} {d : Descriptor α} {ops : List OpId} {o : OpId} {n : Node α} {x : VarId}
  {tx ty : Tensor α} {xs ys : List Nat}

/-- A generated kernel that moves data reads every element of its output at the index of the
interpreter, whatever the backend, as long as signed words hold what it multiplies. -/
theorem Graph.exists_wordIndex_of_generate (hg : Built s g)
    (hgen : Gives (g.generate kind config) s₁ d s₂) (hops : g.topologicalOrder = .ok ops)
    (ho : o ∈ ops) (hn : g.operator o = .ok n) (hop : ∀ f, n.op ≠ .pointwise f)
    (hins : g.inputsOf o = .ok [x]) (hx : g.tensor x = .ok tx) (hy : g.tensor n.output = .ok ty)
    (hxs : tx.type.shape = xs.map .known) (hys : ty.type.shape = ys.map .known)
    (hposx : ∀ n ∈ xs, 0 < n) (hposy : ∀ n ∈ ys, 0 < n) :
    ∃ k ∈ d.kernels, k.name = n.op.kind.text ++ s!"_{o.index}" ∧ k.loopSize? = some ys.prod ∧
      ∀ i < ys.prod, n.op.FitsWords xs ys i → ∃ (w : Word) (j : Nat), k.wordIndex? i = some w ∧
        w.toInt = j ∧ n.op.readIndex? tx.type ty.type i = some j ∧ j < xs.prod ∧
        ∀ data : Array α, data.size = xs.prod →
          ∃ r, n.op.evaluate [(tx.type, data)] ty.type = .ok r ∧ r[i]? = data[j]? := by
  have h := movesAt_of_built hg (operator_ok_iff.1 hn) hop hins hx hy hxs hys hposx hposy
  obtain ⟨k, hk, hname, m, htables, hrank, hsize, hlt⟩ := h.exists_kernel hgen hops ho
  -- The tables of a resize hold both sizes, so that the interpreter multiplies within its words.
  have hscales : ∀ (d : Nat) (c : Axis) (a b : Nat), tx.type.order.axes[d]? = some c →
      xs[d]? = some a → ys[d]? = some b → n.op.ScalesAt c a b := by
    intro d c a b _ ha hb
    refine Operator.scalesAt_of_mul_lt (hposx a (List.mem_of_getElem? ha)) fun hresize => ?_
    have hlta := htables.input_lt hresize a (List.mem_of_getElem? ha)
    have hltb : b < 0x80000000 := htables.fits "y_shape" (by simp) _ htables.shape b
      (List.mem_append_left _ (List.mem_of_getElem? hb))
    exact Nat.lt_trans (Nat.mul_lt_mul'' hlta hltb) (by decide)
  refine ⟨k, hk, hname, hsize, fun i hi hfits => ⟨_, n.op.sourceIndexOf xs ys i,
    htables.wordIndex?_eq h.moves hrank hposx hposy (hi.trans hlt) hfits,
    Word.toInt_ofNat (hfits.sourceIndexOf_lt h.moves hposx hposy hlt),
    h.moves.readIndex?_eq hop hxs hys h.fits hposx hposy h.inputSized hscales hi,
    h.moves.sourceIndexOf_lt hposx hposy i, fun data hdata => ?_⟩⟩
  obtain ⟨r, hr, hread⟩ :=
    h.moves.exists_evaluate hop hxs hys h.fits hposx hposy h.inputSized hscales hdata
  exact ⟨r, hr, hread i hi⟩

end

/-! ### A resize along no axis -/

namespace Graph

/-- An image of one pixel with many channels. -/
def pixel : TensorType :=
  ⟨[.known 1, .known 1, .known 50000], ⟨[.height, .width, .channel], by decide⟩, rfl⟩

/-- A pixel that is resized to its own size. -/
def resized : Graph ℚ where
  slots := #[.live { type := pixel, marks := [.input] } none,
    .live { type := pixel, marks := [.tensorwise .channel, .output] } (some ⟨0⟩)]
  nodes := #[some ⟨.resize .height 1 .width 1, [⟨0⟩], ⟨1⟩⟩]
  declaredInputs := [⟨0⟩]
  declaredOutputs := [⟨1⟩]

/-- Calls that succeed lead to this graph. -/
theorem built_resized : Built ⟨0⟩ resized := by
  have words : Session true ⟨0⟩ [.known 1, .known 50000] ({} : Graph ℚ) :=
    .word (.word (.empty ⟨0⟩) (by decide)) (by decide)
  have made : (⟨pixel, [], none⟩ : Tensor ℚ).MadeFrom [.known 1, .known 50000] ⟨0⟩ ⟨0⟩ :=
    ⟨by simp [pixel], rfl, fun _ hx => by cases hx⟩
  have computed : Gives ((({} : Graph ℚ).addInput ⟨pixel, [], none⟩).1.addOp
    (.resize .height 1 .width 1) [⟨0⟩]) ⟨0⟩ (_, ⟨1⟩) ⟨0⟩ := rfl
  exact ⟨_, .markOutput (.addOp (.addInput words made) computed)
    (rfl : Graph.markOutput _ ⟨1⟩ = .ok resized)⟩

/-- The output behind the input. -/
def resizedLayout : MemoryLayout where
  allocations := [(⟨0⟩, ⟨.dynamic, .known 0, .known 50000⟩),
    (⟨1⟩, ⟨.dynamic, .known 50000, .known 50000⟩)]
  staticSize := 0
  dynamicSize := .known 100000

/-- What the only kernel is bound to. -/
def resizedBindings : List (String × Binding ℚ) :=
  [("y", .buffer ⟨.dynamic, .known 50000, .known 50000⟩),
    ("x", .buffer ⟨.dynamic, .known 0, .known 50000⟩),
    ("y_shape", .ints pixel.shape),
    ("x_stride", .ints [.known 50000, .known 50000, .known 1]),
    ("size", .int (.known 50000)),
    ("rank", .int (.known 3)),
    ("x_shape", .ints pixel.shape)]

theorem topologicalOrder_resized : resized.topologicalOrder = .ok [⟨0⟩] := rfl

/-- All integers of the kernel fit words, so that generation accepts the graph. -/
theorem generates_resized : ∃ d, Gives (resized.generate .webAssembly {}) ⟨0⟩ d ⟨0⟩ := by
  have hlayout : Gives (MemoryLayout.allocate resized) ⟨0⟩ resizedLayout ⟨0⟩ := by
    unfold Gives
    cbv
  have hentries : Gives (Linear.movementBindings resizedLayout (⟨resizedLayout, resized, {}, ⟨0⟩,
      ⟨.resize .height 1 .width 1, [⟨0⟩], ⟨1⟩⟩⟩ : KernelContext ℚ MemoryLayout)) ⟨0⟩
      resizedBindings ⟨0⟩ := rfl
  have hwrites : ∀ e ∈ resizedBindings, e.2.Writes := by
    simp [resizedBindings, pixel, Binding.Writes, Dim.Fits, Dim.stored, Dim.known?]
  have hconstants : resizedLayout.constants resized = .ok #[] :=
    MemoryLayout.constants_of_dynamic (by simp [resizedLayout]) rfl
  obtain ⟨k, -, hk⟩ := CLike.generates_movement (g := resized) rfl (fun _ h => by cases h)
    topologicalOrder_resized hlayout hentries hwrites hconstants
  exact ⟨_, hk⟩

theorem movesAt_resized : resized.MovesAt ⟨0⟩ ⟨.resize .height 1 .width 1, [⟨0⟩], ⟨1⟩⟩ ⟨0⟩
    { type := pixel, marks := [.input] }
    { type := pixel, marks := [.tensorwise .channel, .output] } [1, 1, 50000] [1, 1, 50000] :=
  movesAt_of_built built_resized rfl (fun _ h => by cases h) rfl rfl rfl rfl rfl (by decide)
    (by decide)

/-- At a channel whose number can still be multiplied, the kernel reads that channel. -/
theorem resized_wordIndex : ∃ d, Gives (resized.generate .webAssembly {}) ⟨0⟩ d ⟨0⟩ ∧
    ∃ k ∈ d.kernels, ∃ w : Word, k.wordIndex? 42949 = some w ∧ w.toInt = 42949 := by
  have h := movesAt_resized
  have hfits : (Operator.resize .height 1 .width 1 : Operator ℚ).FitsWords [1, 1, 50000]
      [1, 1, 50000] 42949 := by
    refine ⟨by decide, fun d c x hc hx => ?_⟩
    have hc : [0, 0, 42949][d]? = some c := hc
    have hle : c ≤ 42949 := by
      have := List.mem_of_getElem? hc
      simp only [List.mem_cons, List.not_mem_nil, or_false] at this
      omega
    have hx : x ≤ 50000 := by
      have := List.mem_of_getElem? hx
      simp only [List.mem_cons, List.not_mem_nil, or_false] at this
      omega
    exact Nat.lt_of_le_of_lt (Nat.mul_le_mul hle hx) (by decide)
  obtain ⟨d, hd⟩ := generates_resized
  obtain ⟨k, hk, -, -, hread⟩ := exists_wordIndex_of_generate built_resized hd
    topologicalOrder_resized (List.mem_singleton_self _) (operator_ok_iff.2 h.node) h.notPointwise
    h.reads h.input h.output h.inputShape h.outputShape h.inputPos h.outputPos
  obtain ⟨w, j, hw, hj, hindex, -⟩ := hread 42949 (by decide) hfits
  have hchannel : (Operator.resize .height 1 .width 1 : Operator ℚ).readIndex? pixel pixel 42949 =
      some 42949 := by decide
  obtain rfl := Option.some.inj (hchannel.symm.trans hindex)
  exact ⟨d, hd, k, hk, w, hw, hj⟩

/-- The kernel rescales the channels too, although they keep their size. For the last channel, the
product wraps around, and the kernel reads in front of the input. -/
theorem resized_wordIndex_wraps : Built ⟨0⟩ resized ∧
    ∃ d, Gives (resized.generate .webAssembly {}) ⟨0⟩ d ⟨0⟩ ∧ ∃ k ∈ d.kernels,
      k.name = OpKind.resize2d.text ++ s!"_{0}" ∧ k.loopSize? = some 50000 ∧
      (∃ w : Word, k.wordIndex? 49999 = some w ∧ w.toInt = -35900) ∧
      (Operator.resize .height 1 .width 1 : Operator ℚ).readIndex? pixel pixel 49999 =
        some 49999 := by
  obtain ⟨d, hd⟩ := generates_resized
  obtain ⟨layout, ops, s₁, -, hops, hall, -, -⟩ := generate_linear (by decide) hd
  obtain rfl := Except.ok.inj (topologicalOrder_resized.symm.trans hops)
  obtain ⟨k, hk, hemitted⟩ := exists_of_forall₂_left hall (List.mem_singleton_self _)
  obtain ⟨htables, hrank, hsize, -, -⟩ := hemitted.movement movesAt_resized
  obtain ⟨τ, c, _, _, _, -, hid, hnode, -, -, hname, -⟩ := hemitted.emitted
  have hkind : k.kind = .resize2d := htables.kind
  have hx : k.ints? "x_shape" = some [1, 1, 50000] :=
    htables.tables ("x_shape", [1, 1, 50000]) (List.mem_singleton_self _)
  have hy : k.ints? "y_shape" = some [1, 1, 50000] := htables.shape
  have hstride : k.ints? "x_stride" = some [50000, 50000, 1] := htables.strides.trans (by decide)
  refine ⟨built_resized, d, hd, k, hk, ?_, hsize.trans (by decide), ⟨-35900, ?_, by decide⟩, by decide⟩
  · rw [hname, KernelContext.name, hid, ← Option.some.inj (movesAt_resized.node.symm.trans hnode)]
    rfl
  · have hpart : k.wordPart [50000, 50000, 1] = fun d c => do
        let x := BitVec.ofNat 32 (← ([1, 1, 50000] : List Nat)[d]?)
        return (← Word.div? (c * x) x) *
          BitVec.ofNat 32 (← ([50000, 50000, 1] : List Nat)[d]?) := by
      funext d c
      simp only [Kernel.wordPart, hkind, CoordinateRule.ofKind, CoordinateRule.word?, hx, hy, bind,
        pure, Option.bind_some]
      cases ([1, 1, 50000] : List Nat)[d]? <;> rfl
    rw [Kernel.wordIndex?_eq_walk hy hstride hrank, hpart]
    decide

end Graph

end TensorCompiler
