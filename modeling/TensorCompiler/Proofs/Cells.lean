import TensorCompiler.Proofs.Bounds
import TensorCompiler.Proofs.Execution
/-!
# Cells of memory

What a kernel over linear memory does to the cells. Its rounds write the cells of one region, each
round another cell, and the value that a round writes does not depend on the cells of this region.
So the rounds may come in any order, and the threads may interleave in any way.

* `exists_interleaving`, `Interleaves.mem_iff`: an order of the rounds takes those of all threads.
* `Kernel.Fills`: every round writes its element of an array.
* `Kernel.Fills.runs`: a run of such a kernel exists, and any run fills the region.
-/

namespace TensorCompiler

/-! ## Orders of the rounds -/

section

variable {β : Type} {threads : List (List β)} {order : List β}

theorem Interleaves.mem_iff (h : Interleaves threads order) {x : β} :
    x ∈ order ↔ ∃ t ∈ threads, x ∈ t := by
  induction h with
  | done hall =>
    simp only [List.not_mem_nil, false_iff, not_exists, not_and]
    intro t ht hx
    rw [hall t ht] at hx
    cases hx
  | step _ ih =>
    rw [List.mem_cons, ih]
    constructor
    · rintro (rfl | ⟨t, ht, hx⟩)
      · exact ⟨_, List.mem_append_right _ (.head _), .head _⟩
      · rcases List.mem_append.1 ht with ht | ht
        · exact ⟨t, List.mem_append_left _ ht, hx⟩
        rcases List.mem_cons.1 ht with rfl | ht
        · exact ⟨_, List.mem_append_right _ (.head _), .tail _ hx⟩
        · exact ⟨t, List.mem_append_right _ (.tail _ ht), hx⟩
    · rintro ⟨t, ht, hx⟩
      rcases List.mem_append.1 ht with ht | ht
      · exact .inr ⟨t, List.mem_append_left _ ht, hx⟩
      rcases List.mem_cons.1 ht with rfl | ht
      · rcases List.mem_cons.1 hx with rfl | hx
        · exact .inl rfl
        · exact .inr ⟨_, List.mem_append_right _ (.head _), hx⟩
      · exact .inr ⟨t, List.mem_append_right _ (.tail _ ht), hx⟩

/-- Threads can be run one after the other. -/
theorem exists_interleaving (threads : List (List β)) : ∃ order, Interleaves threads order := by
  suffices gen : ∀ pre post : List (List β), (∀ t ∈ pre, t = []) →
      ∃ order, Interleaves (pre ++ post) order from gen [] threads (by simp)
  intro pre post
  induction post generalizing pre with
  | nil => exact fun hpre => ⟨[], .done (by simpa using hpre)⟩
  | cons t post ih =>
    induction t with
    | nil =>
      intro hpre
      obtain ⟨order, h⟩ := ih (pre ++ [[]]) fun t ht => (List.mem_append.1 ht).elim (hpre t)
        List.mem_singleton.1
      exact ⟨order, by simpa using h⟩
    | cons x rest ih' =>
      intro hpre
      obtain ⟨order, h⟩ := ih' hpre
      exact ⟨x :: order, .step h⟩

end

/-! ## Runs of a kernel -/

namespace Kernel

variable {α : Type} {k : Kernel α}

theorem mem_visits {step size i j : Nat} (hstep : 0 < step) (hj : j < size)
    (hle : i ≤ j) (hmod : step ∣ j - i) : j ∈ visits step size i := by
  induction h : size - i using Nat.strong_induction_on generalizing i with
  | _ n ih =>
    subst h
    rw [visits, if_pos ⟨hstep, by omega⟩]
    by_cases heq : j = i
    · exact heq ▸ List.mem_cons_self
    · have hge : step ≤ j - i := Nat.le_of_dvd (by omega) hmod
      refine List.mem_cons_of_mem _ (ih (size - (i + step)) (by omega) (by omega) ?_ rfl)
      rw [Nat.sub_add_eq]
      exact Nat.dvd_sub hmod (dvd_refl step)

/-- The threads of a kernel visit all positions below the size, and no others. -/
theorem StartsLinear.threads (h : k.StartsLinear) (size : Nat) :
    ∃ threads, k.threads size = some threads ∧ ∀ i, i < size ↔ ∃ t ∈ threads, i ∈ t := by
  cases h with
  | serial hlaunch =>
    refine ⟨[List.range size], by simp [Kernel.threads, hlaunch], fun i => ?_⟩
    simp
  | @compute workgroups groupSize hlaunch hgroups hsize hint =>
    have hthreads : k.threads size = some ((List.range (workgroups * groupSize)).map
        (visits (workgroups * groupSize) size)) := by
      simp [Kernel.threads, hlaunch, hint]
    refine ⟨_, hthreads, fun i => ⟨fun hi => ?_, ?_⟩⟩
    · have hpos : 0 < workgroups * groupSize := Nat.mul_pos hgroups hsize
      exact ⟨_, List.mem_map_of_mem (List.mem_range.2 (Nat.mod_lt i hpos)),
        mem_visits hpos hi (Nat.mod_le i _) (Nat.dvd_sub_mod i)⟩
    · rintro ⟨t, ht, hi⟩
      exact lt_of_mem_threads hthreads t ht i hi

/-- On every memory that differs from the given one at most in the region, the round at each
position writes the element at this position to the region. -/
def Fills [Scalar α] (k : Kernel α) (staticSize start : Nat) (data cells : Array α) : Prop :=
  ∀ cells', AgreeOutside start data.size cells cells' → ∀ i v, data[i]? = some v →
    k.round? staticSize cells' i = store? cells' (start + i) #[v]

/-- Rounds that write their elements, in any order. -/
theorem Fills.rounds [Scalar α] {staticSize start : Nat} {data cells : Array α}
    (h : k.Fills staticSize start data cells) (hfit : start + data.size ≤ cells.size)
    {order : List Nat} (horder : ∀ i ∈ order, i < data.size) :
    ∃ cells', order.foldlM (k.round? staticSize) cells = some cells' ∧
      AgreeOutside start data.size cells cells' ∧
      ∀ i < data.size, cells'[start + i]? = if i ∈ order then data[i]? else cells[start + i]? := by
  induction order using List.reverseRecOn with
  | nil => exact ⟨cells, rfl, .refl _ _ _, by simp⟩
  | append_singleton order i ih =>
    obtain ⟨c, hc, hagree, hcells⟩ := ih fun j hj => horder j (List.mem_append_left _ hj)
    have hi : i < data.size := horder i (by simp)
    have hround := h c hagree i data[i] (Array.getElem?_eq_getElem hi)
    have hroom : start + i + #[data[i]].size ≤ c.size := by
      rw [hagree.size, List.size_toArray, List.length_singleton]
      omega
    obtain ⟨c', hc', hone, hcell⟩ := exists_store hroom
    refine ⟨c', ?_, hagree.trans (hone.mono (by omega) (by simp; omega)), fun j hj => ?_⟩
    · rw [List.foldlM_append, hc]
      simp only [List.foldlM_cons, List.foldlM_nil, Option.bind_eq_bind, Option.bind_some, hround,
        hc']
      rfl
    · by_cases hji : j = i
      · subst hji
        have := hcell 0 (by simp)
        rw [Nat.add_zero] at this
        rw [this, if_pos (by simp)]
        exact (Array.getElem?_eq_getElem hj).symm
      · rw [hone.cell _ (by simp; omega), hcells j hj]
        simp [hji]

/-- A run exists, and every run fills the region and leaves the other cells as they are. -/
theorem Fills.runs [Scalar α] {staticSize start : Nat} {data cells : Array α}
    (h : k.Fills staticSize start data cells) (hfit : start + data.size ≤ cells.size)
    (hstarts : k.StartsLinear) (hsize : k.int? "size" = some data.size) :
    (∃ cells', k.RunsInMemory staticSize cells cells') ∧
      ∀ cells', k.RunsInMemory staticSize cells cells' →
        AgreeOutside start data.size cells cells' ∧ load? cells' start data.size = some data := by
  obtain ⟨threads, hthreads, hvisits⟩ := hstarts.threads data.size
  have covers : ∀ {order}, Interleaves threads order → ∀ i, i ∈ order ↔ i < data.size :=
    fun ho i => ho.mem_iff.trans (hvisits i).symm
  constructor
  · obtain ⟨order, horder⟩ := exists_interleaving threads
    obtain ⟨cells', hrun, -⟩ := h.rounds hfit fun i hi => (covers horder i).1 hi
    exact ⟨cells', data.size, threads, order, hsize, hthreads, horder, hrun⟩
  · rintro cells' ⟨size, threads', order, hsize', hthreads', horder, hrun⟩
    obtain rfl := Option.some.inj (hsize.symm.trans hsize')
    obtain rfl := Option.some.inj (hthreads.symm.trans hthreads')
    obtain ⟨c, hc, hagree, hcells⟩ := h.rounds hfit fun i hi => (covers horder i).1 hi
    obtain rfl := Option.some.inj (hc.symm.trans hrun)
    refine ⟨hagree, load?_eq_some_iff.2 ⟨hagree.size ▸ hfit, rfl, fun i hi => ?_⟩⟩
    rw [hcells i hi, if_pos ((covers horder i).2 hi)]

end Kernel

end TensorCompiler
