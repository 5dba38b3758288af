import TensorCompiler.Layout.Memory
/-!
# Buffers

What is written to a range of cells is read back from it, and other ranges are left alone.

* `AgreeOutside`: buffers that differ at most in one range.
* `exists_store`: data for which there is room can be written.
* `load?_eq_some_iff`: what is read from a range.
-/

namespace TensorCompiler

/-- Reads some cells. -/
def load? {α : Type} (cells : Array α) (start length : Nat) : Option (Array α) :=
  if start + length ≤ cells.size then some (cells.extract start (start + length)) else none

section

variable {α : Type} {start length : Nat} {cells cells' : Array α}

/-- The second memory has the cells of the first one, but perhaps for a region. -/
structure AgreeOutside (start length : Nat) (cells cells' : Array α) : Prop where
  size : cells'.size = cells.size
  cell : ∀ j, j < start ∨ start + length ≤ j → cells'[j]? = cells[j]?

theorem AgreeOutside.refl (start length : Nat) (cells : Array α) :
    AgreeOutside start length cells cells := ⟨rfl, fun _ _ => rfl⟩

theorem AgreeOutside.trans {cells'' : Array α} (h : AgreeOutside start length cells cells')
    (h' : AgreeOutside start length cells' cells'') : AgreeOutside start length cells cells'' :=
  ⟨h'.size.trans h.size, fun j hj => (h'.cell j hj).trans (h.cell j hj)⟩

theorem AgreeOutside.mono {start' length' : Nat} (h : AgreeOutside start length cells cells')
    (hstart : start' ≤ start) (hend : start + length ≤ start' + length') :
    AgreeOutside start' length' cells cells' :=
  ⟨h.size, fun j hj => h.cell j (by omega)⟩

/-- Data that fit can be written, and only their cells change. -/
theorem exists_store {data : Array α} (h : start + data.size ≤ cells.size) :
    ∃ cells', store? cells start data = some cells' ∧ AgreeOutside start data.size cells cells' ∧
      ∀ i < data.size, cells'[start + i]? = data[i]? := by
  refine ⟨_, if_pos h, ⟨?_, fun j hj => ?_⟩, fun i hi => ?_⟩
  · simp only [Array.size_append, Array.size_extract]
    omega
  · simp only [Array.getElem?_append, Array.getElem?_extract, Array.size_append, Array.size_extract]
    rcases hj with hj | hj
    · rw [if_pos (by omega), if_pos (by omega), if_pos (by omega), Nat.zero_add]
    · rw [if_neg (by omega)]
      by_cases hin : j < cells.size
      · rw [if_pos (by omega)]
        congr 1
        omega
      · rw [if_neg (by omega), Array.getElem?_eq_none (by omega)]
  · simp only [Array.getElem?_append, Array.size_append, Array.size_extract]
    rw [if_pos (by omega), if_neg (by omega)]
    congr 1
    omega

theorem load?_eq_some_iff {data : Array α} : load? cells start length = some data ↔
    start + length ≤ cells.size ∧ data.size = length ∧
      ∀ i < length, cells[start + i]? = data[i]? := by
  unfold load?
  split
  · next h =>
    rw [Option.some.injEq]
    constructor
    · rintro rfl
      refine ⟨h, by rw [Array.size_extract]; omega, fun i hi => ?_⟩
      rw [Array.getElem?_extract, if_pos (by omega)]
    · rintro ⟨-, hsize, heq⟩
      refine Array.ext_getElem? fun i => ?_
      rw [Array.getElem?_extract]
      split
      · exact heq i (by omega)
      · rw [Array.getElem?_eq_none (by omega)]
  · next h => simp [h]

/-- What lies elsewhere is read as before. -/
theorem AgreeOutside.load? {start' length' : Nat} (h : AgreeOutside start length cells cells')
    (hapart : start' + length' ≤ start ∨ start + length ≤ start') :
    load? cells' start' length' = TensorCompiler.load? cells start' length' := by
  refine Option.ext fun data => ?_
  simp only [load?_eq_some_iff, h.size]
  refine and_congr_right fun _ => and_congr_right fun _ => forall₂_congr fun i hi => ?_
  rw [h.cell _ (by omega)]

end

end TensorCompiler
