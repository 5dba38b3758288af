import Mathlib.Data.List.Forall2
import TensorCompiler.Pass.Basic
import TensorCompiler.Kernel.Error
/-!
# Outcomes of computations

The library computes in three monads: graphs are read in `Except`, symbols are created in `FreshM`,
and passes edit a graph in `PassM`. This module says what it means that such a computation
succeeds with a value, and takes successful computations apart: a sequence of steps succeeded
exactly if each of them did.

* `bind_ok_iff`, `mapM_ok_iff`: computations that only read.
* `Gives`, `Raises`, `RaisesOnly`: computations that may create symbols.
* `PassM.Edits`: computations that also change a graph.
-/

namespace TensorCompiler

/-! ## Lists side by side -/

theorem forall₂_of_zip {β γ : Type} {R : β → γ → Prop} {xs : List β} {ys : List γ}
    (hlen : xs.length = ys.length) (h : ∀ p ∈ xs.zip ys, R p.1 p.2) : List.Forall₂ R xs ys :=
  List.forall₂_iff_zip.2 ⟨hlen, fun {a b} hab => h (a, b) hab⟩

theorem zip_of_forall₂ {β γ : Type} {R : β → γ → Prop} {xs : List β} {ys : List γ}
    (h : List.Forall₂ R xs ys) : xs.length = ys.length ∧ ∀ p ∈ xs.zip ys, R p.1 p.2 := by
  obtain ⟨hlen, h⟩ := List.forall₂_iff_zip.1 h
  exact ⟨hlen, fun p hp => h (show (p.1, p.2) ∈ _ from hp)⟩

theorem exists_mem_zip {β γ : Type} {xs : List β} {ys : List γ} (hlen : xs.length = ys.length)
    {x : β} (hx : x ∈ xs) : ∃ y, (x, y) ∈ xs.zip ys := by
  rw [← List.unzip_zip_left (Nat.le_of_eq hlen)] at hx
  rw [List.unzip_fst, List.mem_map] at hx
  obtain ⟨⟨x', y⟩, h, rfl⟩ := hx
  exact ⟨y, h⟩

theorem exists_forall₂ {β γ : Type} {R : β → γ → Prop} {xs : List β} (h : ∀ x ∈ xs, ∃ y, R x y) :
    ∃ ys, List.Forall₂ R xs ys := by
  induction xs with
  | nil => exact ⟨[], .nil⟩
  | cons x xs ih =>
    obtain ⟨⟨y, hy⟩, h⟩ := List.forall_mem_cons.1 h
    obtain ⟨ys, hys⟩ := ih h
    exact ⟨y :: ys, .cons hy hys⟩

theorem exists_of_forall₂_right {β γ : Type} {R : β → γ → Prop} {xs : List β} {ys : List γ}
    (h : List.Forall₂ R xs ys) {y : γ} (hy : y ∈ ys) : ∃ x ∈ xs, R x y := by
  obtain ⟨hlen, hzip⟩ := zip_of_forall₂ h.flip
  obtain ⟨x, hx⟩ := exists_mem_zip hlen hy
  exact ⟨x, (List.of_mem_zip hx).2, hzip _ hx⟩

theorem exists_of_forall₂_left {β γ : Type} {R : β → γ → Prop} {xs : List β} {ys : List γ}
    (h : List.Forall₂ R xs ys) {x : β} (hx : x ∈ xs) : ∃ y ∈ ys, R x y :=
  exists_of_forall₂_right h.flip hx

theorem forall₂_comp {β γ δ : Type} {R : β → γ → Prop} {S : γ → δ → Prop} {xs : List β}
    {ys : List γ} {zs : List δ} (h : List.Forall₂ R xs ys) (k : List.Forall₂ S ys zs) :
    List.Forall₂ (fun x z => ∃ y, R x y ∧ S y z) xs zs := by
  induction h generalizing zs with
  | nil =>
    cases k
    exact .nil
  | cons hx _ ih =>
    cases k with
    | cons hy k => exact .cons ⟨_, hx, hy⟩ (ih k)

theorem forall₂_getElem? {β γ : Type} {R : β → γ → Prop} {xs : List β} {ys : List γ}
    (h : List.Forall₂ R xs ys) {k : Nat} {x : β} {y : γ} (hx : xs[k]? = some x)
    (hy : ys[k]? = some y) : R x y := by
  obtain ⟨hk, rfl⟩ := List.getElem?_eq_some_iff.1 hx
  obtain ⟨hk', rfl⟩ := List.getElem?_eq_some_iff.1 hy
  exact h.get hk hk'

theorem forall₂_append_left {β γ : Type} {R : β → γ → Prop} {xs xs' : List β} {ys : List γ}
    (h : List.Forall₂ R (xs ++ xs') ys) :
    ∃ zs zs', ys = zs ++ zs' ∧ List.Forall₂ R xs zs ∧ List.Forall₂ R xs' zs' := by
  induction xs generalizing ys with
  | nil => exact ⟨[], ys, rfl, .nil, h⟩
  | cons x xs ih =>
    cases h with
    | cons hx h =>
      obtain ⟨zs, zs', rfl, hzs, hzs'⟩ := ih h
      exact ⟨_ :: zs, zs', rfl, .cons hx hzs, hzs'⟩

theorem eq_map_of_forall₂ {β γ : Type} {f : β → γ} {xs : List β} {ys : List γ}
    (h : List.Forall₂ (fun x y => y = f x) xs ys) : ys = xs.map f := by
  induction h with
  | nil => rfl
  | cons hx _ ih => rw [hx, ih, List.map_cons]

theorem eq_of_forall₂ {β γ : Type} {R : β → γ → Prop} {xs : List β} {ys zs : List γ}
    (hy : List.Forall₂ (fun x y => ∀ z, R x z → y = z) xs ys) (hz : List.Forall₂ R xs zs) :
    ys = zs := by
  induction hy generalizing zs with
  | nil => cases hz; rfl
  | cons hxy _ ih =>
    cases hz with
    | cons hxz hz => rw [hxy _ hxz, ih hz]

/-! ## Reading -/

section Reading

variable {ε β γ : Type}

theorem bind_ok_iff {x : Except ε β} {f : β → Except ε γ} {c : γ} :
    (x >>= f) = .ok c ↔ ∃ b, x = .ok b ∧ f b = .ok c := by
  cases x with
  | error e => simp [bind, Except.bind]
  | ok b => simp [bind, Except.bind]

theorem bind_error_iff {x : Except ε β} {f : β → Except ε γ} {e : ε} :
    (x >>= f) = .error e ↔ x = .error e ∨ ∃ b, x = .ok b ∧ f b = .error e := by
  cases x with
  | error e' => simp [bind, Except.bind]
  | ok b => simp [bind, Except.bind]

theorem pure_ok_iff {b c : β} : (pure b : Except ε β) = .ok c ↔ b = c := by
  simp [pure, Except.pure]

theorem throw_ok_iff {e : ε} {b : β} : (throw e : Except ε β) = .ok b ↔ False := by
  simp [throw, throwThe, MonadExceptOf.throw]

theorem guard_ok_iff {c : Prop} [Decidable c] {e : ε} {x : Except ε β} {b : β} :
    (if c then (throw e : Except ε PUnit) >>= fun _ => x else x) = .ok b ↔ ¬c ∧ x = .ok b := by
  split <;> simp_all [throw, throwThe, MonadExceptOf.throw, bind, Except.bind]

theorem mapError_error_iff {δ : Type} {f : ε → δ} {x : Except ε β} {e : δ} :
    x.mapError f = .error e ↔ ∃ e', x = .error e' ∧ f e' = e := by
  cases x <;> simp [Except.mapError]

theorem map_ok_iff {f : β → γ} {x : Except ε β} {c : γ} :
    x.map f = .ok c ↔ ∃ b, x = .ok b ∧ f b = c := by
  cases x <;> simp [Except.map]

theorem mapError_ok_iff {δ : Type} {f : ε → δ} {x : Except ε β} {b : β} :
    x.mapError f = .ok b ↔ x = .ok b := by
  cases x <;> simp [Except.mapError]

theorem toOption_some_iff {x : Except ε β} {b : β} : x.toOption = some b ↔ x = .ok b := by
  cases x <;> simp [Except.toOption]

theorem mapM_ok_iff {f : β → Except ε γ} {xs : List β} {ys : List γ} :
    xs.mapM f = .ok ys ↔ List.Forall₂ (fun x y => f x = .ok y) xs ys := by
  induction xs generalizing ys with
  | nil => simp [List.mapM_nil, pure, Except.pure, eq_comm]
  | cons x xs ih =>
    simp only [List.mapM_cons, bind_ok_iff, pure_ok_iff, ih]
    constructor
    · rintro ⟨y, hy, ys', hys, rfl⟩
      exact .cons hy hys
    · rintro (_ | ⟨hy, hys⟩)
      exact ⟨_, hy, _, hys, rfl⟩

/-- What holds of the elements processed so far and the state they led to, holds at the end. -/
theorem foldlM_ok_processed {P : List β → γ → Prop} {f : γ → β → Except ε γ} {xs : List β}
    {c d : γ} (h : xs.foldlM f c = .ok d) (h0 : P [] c)
    (step : ∀ done x rest c c', xs = done ++ x :: rest → P done c → f c x = .ok c' →
      P (done ++ [x]) c') : P xs d := by
  suffices gen : ∀ rest done c, xs = done ++ rest → P done c → rest.foldlM f c = .ok d → P xs d from
    gen xs [] c rfl h0 h
  intro rest
  induction rest with
  | nil =>
    intro done c e hc h
    rw [List.foldlM_nil, pure_ok_iff] at h
    rw [e, List.append_nil, ← h]
    exact hc
  | cons x rest ih =>
    intro done c e hc h
    rw [List.foldlM_cons, bind_ok_iff] at h
    obtain ⟨c', hx, h⟩ := h
    exact ih (done ++ [x]) c' (by rw [e, List.append_assoc]; rfl) (step done x rest c c' e hc hx) h

/-- A left fold of steps that all succeed keeps whatever each step keeps. -/
theorem foldlM_ok_induction {P : γ → Prop} {f : γ → β → Except ε γ} {xs : List β} {c d : γ}
    (h : xs.foldlM f c = .ok d) (hc : P c)
    (step : ∀ c x c', x ∈ xs → P c → f c x = .ok c' → P c') : P d :=
  foldlM_ok_processed (P := fun _ => P) h hc fun done x _ c c' e =>
    step c x c' (e ▸ List.mem_append_right done (List.mem_cons_self ..))

/-- A fold succeeds with the same result if each of its steps does. -/
theorem foldlM_ok_mono {δ : Type} {f : γ → β → Except ε γ} {f' : γ → β → Except δ γ} {xs : List β}
    {c d : γ} (h : xs.foldlM f c = .ok d)
    (step : ∀ c x c', x ∈ xs → f c x = .ok c' → f' c x = .ok c') : xs.foldlM f' c = .ok d := by
  induction xs generalizing c with
  | nil =>
    rw [List.foldlM_nil, pure_ok_iff] at h ⊢
    exact h
  | cons x xs ih =>
    rw [List.foldlM_cons, bind_ok_iff] at h ⊢
    obtain ⟨c', hx, h⟩ := h
    exact ⟨c', step c x c' (List.mem_cons_self ..) hx,
      ih h fun c y c' hy => step c y c' (List.mem_cons_of_mem _ hy)⟩

/-- Steps that keep a property and succeed under it make a left fold that succeeds. -/
theorem foldlM_ok_of_steps {P : γ → Prop} {f : γ → β → Except ε γ} {xs : List β} {c : γ} (hc : P c)
    (step : ∀ c x, x ∈ xs → P c → ∃ c', f c x = .ok c' ∧ P c') :
    ∃ d, xs.foldlM f c = .ok d ∧ P d := by
  induction xs generalizing c with
  | nil => exact ⟨c, rfl, hc⟩
  | cons x xs ih =>
    obtain ⟨c', hx, hc'⟩ := step c x (List.mem_cons_self ..) hc
    obtain ⟨d, hd, h⟩ := ih hc' fun c y hy => step c y (List.mem_cons_of_mem _ hy)
    exact ⟨d, by rw [List.foldlM_cons, bind_ok_iff]; exact ⟨c', hx, hd⟩, h⟩

/-- A fold fails in one of its steps. -/
theorem foldlM_error {f : γ → β → Except ε γ} {xs : List β} {c : γ} {e : ε}
    (h : xs.foldlM f c = .error e) : ∃ c' x, x ∈ xs ∧ f c' x = .error e := by
  induction xs generalizing c with
  | nil => cases h
  | cons x xs ih =>
    rw [List.foldlM_cons] at h
    cases hx : f c x with
    | error e' =>
      rw [hx] at h
      cases h
      exact ⟨c, x, List.mem_cons_self .., hx⟩
    | ok c' =>
      rw [hx] at h
      obtain ⟨d, y, hy, he⟩ := ih h
      exact ⟨d, y, List.mem_cons_of_mem _ hy, he⟩

theorem forM_ok_iff {f : β → Except ε Unit} {xs : List β} :
    xs.forM f = .ok () ↔ ∀ x ∈ xs, f x = .ok () := by
  induction xs with
  | nil => simp [pure, Except.pure]
  | cons x xs ih =>
    show (f x >>= fun _ => xs.forM f) = _ ↔ _
    rw [bind_ok_iff, List.forall_mem_cons, ← ih]
    exact ⟨fun ⟨⟨⟩, hx, h⟩ => ⟨hx, h⟩, fun ⟨hx, h⟩ => ⟨⟨⟩, hx, h⟩⟩

theorem exists_of_forM_error {f : β → Except ε Unit} {xs : List β} {e : ε}
    (h : xs.forM f = .error e) : ∃ x ∈ xs, f x = .error e := by
  induction xs with
  | nil => cases h
  | cons x xs ih =>
    replace h : (f x >>= fun _ => xs.forM f) = .error e := h
    rcases bind_error_iff.1 h with h | ⟨-, -, h⟩
    · exact ⟨x, List.mem_cons_self .., h⟩
    · obtain ⟨y, hy, h⟩ := ih h
      exact ⟨y, List.mem_cons_of_mem _ hy, h⟩

theorem exists_of_mapM_error {f : β → Except ε γ} {xs : List β} {e : ε}
    (h : xs.mapM f = .error e) : ∃ x ∈ xs, f x = .error e := by
  induction xs with
  | nil => cases h
  | cons x xs ih =>
    rw [List.mapM_cons] at h
    rcases bind_error_iff.1 h with h | ⟨y, -, h⟩
    · exact ⟨x, List.mem_cons_self .., h⟩
    · rcases bind_error_iff.1 h with h | ⟨ys, -, h⟩
      · obtain ⟨z, hz, h⟩ := ih h
        exact ⟨z, List.mem_cons_of_mem _ hz, h⟩
      · cases h

end Reading

/-! ## Creating symbols -/

section Creating

variable {β γ : Type}

/-- From this supply, the computation makes a value and leaves that supply. -/
def Makes (x : FreshM β) (s : Supply) (b : β) (s' : Supply) : Prop := Id.run (x.run s) = (b, s')

theorem makes_bind_iff {x : FreshM β} {f : β → FreshM γ} {s s' : Supply} {c : γ} :
    Makes (x >>= f) s c s' ↔ ∃ b s₁, Makes x s b s₁ ∧ Makes (f b) s₁ c s' := by
  show Id.run ((f (x.run s).1).run (x.run s).2) = _ ↔ _
  constructor
  · intro h
    exact ⟨_, _, rfl, h⟩
  · rintro ⟨b, s₁, hx, h⟩
    have hx' : x.run s = (b, s₁) := hx
    rw [hx']
    exact h

theorem makes_pure_iff {b c : β} {s s' : Supply} :
    Makes (pure b) s c s' ↔ b = c ∧ s = s' := by
  show (b, s) = (c, s') ↔ _
  simp

theorem makes_mapM_cons_iff {f : β → FreshM γ} {x : β} {xs : List β} {s s' : Supply}
    {ys : List γ} : Makes ((x :: xs).mapM f) s ys s' ↔
      ∃ y s₁ ys', Makes (f x) s y s₁ ∧ Makes (xs.mapM f) s₁ ys' s' ∧ y :: ys' = ys := by
  simp only [List.mapM_cons, makes_bind_iff, makes_pure_iff]
  constructor
  · rintro ⟨y, s₁, hy, ys', s₂, hys, rfl, rfl⟩
    exact ⟨y, s₁, ys', hy, hys, rfl⟩
  · rintro ⟨y, s₁, ys', hy, hys, rfl⟩
    exact ⟨y, s₁, hy, ys', s', hys, rfl, rfl⟩

theorem length_of_makes_mapM {f : β → FreshM γ} {xs : List β} {s s' : Supply} {ys : List γ}
    (h : Makes (xs.mapM f) s ys s') : ys.length = xs.length := by
  induction xs generalizing s ys with
  | nil =>
    obtain ⟨rfl, -⟩ := makes_pure_iff.1 h
    rfl
  | cons x xs ih =>
    obtain ⟨y, s₁, ys', -, hys, rfl⟩ := makes_mapM_cons_iff.1 h
    simp [ih hys]

variable {ε : Type}

/-- From this supply, the computation succeeds with a value and leaves that supply. -/
def Gives (x : ExceptT ε FreshM β) (s : Supply) (b : β) (s' : Supply) : Prop :=
  Id.run (x.run.run s) = (.ok b, s')

theorem run_run_bind {x : ExceptT ε FreshM β} {f : β → ExceptT ε FreshM γ} {s : Supply} :
    Id.run ((x >>= f).run.run s) = match Id.run (x.run.run s) with
      | (.ok b, s₁) => Id.run ((f b).run.run s₁)
      | (.error e, s₁) => (.error e, s₁) := by
  show Id.run (((ExceptT.bindCont f) (Id.run (x.run.run s)).1).run (Id.run (x.run.run s)).2) = _
  rcases Id.run (x.run.run s) with ⟨_ | b, s₁⟩ <;> rfl

theorem gives_bind_iff {x : ExceptT ε FreshM β} {f : β → ExceptT ε FreshM γ} {s s' : Supply}
    {c : γ} : Gives (x >>= f) s c s' ↔ ∃ b s₁, Gives x s b s₁ ∧ Gives (f b) s₁ c s' := by
  unfold Gives
  rw [run_run_bind]
  rcases hx : Id.run (x.run.run s) with ⟨_ | b, s₁⟩
  · simp
  · simp only [Prod.mk.injEq, Except.ok.injEq]
    constructor
    · intro h
      exact ⟨b, s₁, ⟨rfl, rfl⟩, h⟩
    · rintro ⟨b', s₁', ⟨rfl, rfl⟩, h⟩
      exact h

theorem gives_pure_iff {b c : β} {s s' : Supply} :
    Gives (pure b : ExceptT ε FreshM β) s c s' ↔ b = c ∧ s = s' := by
  show ((Except.ok b, s) = (Except.ok c, s')) ↔ _
  simp

theorem gives_throw_iff {e : ε} {b : β} {s s' : Supply} :
    Gives (throw e : ExceptT ε FreshM β) s b s' ↔ False := by
  show ((Except.error e, s) = (Except.ok b, s')) ↔ _
  simp

theorem gives_guard_iff {c : Prop} [Decidable c] {e : ε} {x : ExceptT ε FreshM β} {b : β}
    {s s' : Supply} :
    Gives (if c then (throw e : ExceptT ε FreshM PUnit) >>= fun _ => x else x) s b s' ↔
      ¬c ∧ Gives x s b s' := by
  split
  · simp_all [gives_throw_iff]
  · simp_all

theorem gives_except_iff {x : Except ε β} {b : β} {s s' : Supply} :
    Gives (liftM x : ExceptT ε FreshM β) s b s' ↔ x = .ok b ∧ s = s' := by
  show ((x, s) = (Except.ok b, s')) ↔ _
  simp

theorem gives_fresh_iff {x : FreshM β} {b : β} {s s' : Supply} :
    Gives (liftM x : ExceptT ε FreshM β) s b s' ↔ Makes x s b s' := by
  show ((Except.ok (Id.run (x.run s)).1, (Id.run (x.run s)).2) = (Except.ok b, s')) ↔ _
  unfold Makes
  rcases Id.run (x.run s) with ⟨b', s₁⟩
  simp

theorem gives_mapM_cons_iff {f : β → ExceptT ε FreshM γ} {x : β} {xs : List β} {s s' : Supply}
    {ys : List γ} : Gives ((x :: xs).mapM f) s ys s' ↔
      ∃ y s₁ ys', Gives (f x) s y s₁ ∧ Gives (xs.mapM f) s₁ ys' s' ∧ y :: ys' = ys := by
  simp only [List.mapM_cons, gives_bind_iff, gives_pure_iff]
  constructor
  · rintro ⟨y, s₁, hy, ys', s₂, hys, rfl, rfl⟩
    exact ⟨y, s₁, ys', hy, hys, rfl⟩
  · rintro ⟨y, s₁, ys', hy, hys, rfl⟩
    exact ⟨y, s₁, hy, ys', s', hys, rfl, rfl⟩

theorem gives_mapM_nil_iff {f : β → ExceptT ε FreshM γ} {s s' : Supply} {ys : List γ} :
    Gives (([] : List β).mapM f) s ys s' ↔ ys = [] ∧ s = s' := by
  rw [List.mapM_nil, gives_pure_iff, eq_comm]

/-- Steps that only read make a list that only reads. -/
theorem gives_mapM_iff {f : β → ExceptT ε FreshM γ} {R : β → γ → Prop}
    (hf : ∀ x s y s', Gives (f x) s y s' ↔ R x y ∧ s = s') {xs : List β} {s s' : Supply}
    {ys : List γ} : Gives (xs.mapM f) s ys s' ↔ List.Forall₂ R xs ys ∧ s = s' := by
  induction xs generalizing s ys with
  | nil => rw [gives_mapM_nil_iff, List.forall₂_nil_left_iff]
  | cons x xs ih =>
    simp only [gives_mapM_cons_iff, hf, ih, List.forall₂_cons_left_iff]
    constructor
    · rintro ⟨y, s₁, ys', ⟨hy, rfl⟩, ⟨hys, rfl⟩, rfl⟩
      exact ⟨⟨y, ys', hy, hys, rfl⟩, rfl⟩
    · rintro ⟨⟨y, ys', hy, hys, rfl⟩, rfl⟩
      exact ⟨y, s, ys', ⟨hy, rfl⟩, ⟨hys, rfl⟩, rfl⟩

theorem gives_mapM_fresh_iff {f : β → FreshM γ} {xs : List β} {s s' : Supply} {ys : List γ} :
    Gives (xs.mapM fun x => (liftM (f x) : ExceptT ε FreshM γ)) s ys s' ↔
      Makes (xs.mapM f) s ys s' := by
  induction xs generalizing s ys with
  | nil => rw [List.mapM_nil, List.mapM_nil, gives_pure_iff, makes_pure_iff]
  | cons x xs ih => simp only [gives_mapM_cons_iff, makes_mapM_cons_iff, gives_fresh_iff, ih]

theorem gives_foldlM_cons_iff {f : γ → β → ExceptT ε FreshM γ} {c d : γ} {x : β} {xs : List β}
    {s s' : Supply} : Gives ((x :: xs).foldlM f c) s d s' ↔
      ∃ c' s₁, Gives (f c x) s c' s₁ ∧ Gives (xs.foldlM f c') s₁ d s' := by
  rw [List.foldlM_cons, gives_bind_iff]

theorem gives_foldlM_nil_iff {f : γ → β → ExceptT ε FreshM γ} {c d : γ} {s s' : Supply} :
    Gives (([] : List β).foldlM f c) s d s' ↔ c = d ∧ s = s' := by
  rw [List.foldlM_nil, gives_pure_iff]

/-- From this supply, the computation fails with this error. -/
def Raises (x : ExceptT ε FreshM β) (s : Supply) (e : ε) : Prop :=
  (Id.run (x.run.run s)).1 = .error e

theorem raises_bind_iff {x : ExceptT ε FreshM β} {f : β → ExceptT ε FreshM γ} {s : Supply} {e : ε} :
    Raises (x >>= f) s e ↔ Raises x s e ∨ ∃ b s₁, Gives x s b s₁ ∧ Raises (f b) s₁ e := by
  unfold Raises Gives
  rw [run_run_bind]
  rcases Id.run (x.run.run s) with ⟨_ | b, s₁⟩
  · simp
  · constructor
    · intro h
      exact .inr ⟨b, s₁, rfl, h⟩
    · rintro (h | ⟨b', s₁', h', h⟩)
      · cases h
      · cases h'
        exact h

theorem raises_pure_iff {b : β} {s : Supply} {e : ε} :
    Raises (pure b : ExceptT ε FreshM β) s e ↔ False := by
  show (Except.ok b : Except ε β) = .error e ↔ _
  simp

theorem raises_fresh_iff {x : FreshM β} {s : Supply} {e : ε} :
    Raises (liftM x : ExceptT ε FreshM β) s e ↔ False := by
  show (Except.ok (Id.run (x.run s)).1 : Except ε β) = .error e ↔ _
  simp

/-- A computation fails unless it gives a result. -/
theorem exists_raises_iff {x : ExceptT ε FreshM β} {s : Supply} :
    (∃ e, Raises x s e) ↔ ¬∃ b s', Gives x s b s' := by
  unfold Raises Gives
  rcases Id.run (x.run.run s) with ⟨_ | b, s'⟩ <;> simp

/-- A list of steps fails in one of them, and so does a fold. -/
theorem exists_of_raises_mapM {f : β → ExceptT ε FreshM γ} {xs : List β} {s : Supply} {e : ε}
    (h : Raises (xs.mapM f) s e) : ∃ x ∈ xs, ∃ s₁, Raises (f x) s₁ e := by
  induction xs generalizing s with
  | nil => exact (raises_pure_iff.1 h).elim
  | cons x xs ih =>
    rw [List.mapM_cons, raises_bind_iff] at h
    rcases h with h | ⟨y, s₁, -, h⟩
    · exact ⟨x, List.mem_cons_self .., s, h⟩
    · rw [raises_bind_iff] at h
      rcases h with h | ⟨ys, s₂, -, h⟩
      · obtain ⟨x', hx', h⟩ := ih h
        exact ⟨x', List.mem_cons_of_mem _ hx', h⟩
      · exact (raises_pure_iff.1 h).elim

theorem exists_of_raises_foldlM {f : γ → β → ExceptT ε FreshM γ} {xs : List β} {c : γ} {s : Supply}
    {e : ε} (h : Raises (xs.foldlM f c) s e) : ∃ c' x s₁, x ∈ xs ∧ Raises (f c' x) s₁ e := by
  induction xs generalizing s c with
  | nil => exact (raises_pure_iff.1 h).elim
  | cons x xs ih =>
    rw [List.foldlM_cons, raises_bind_iff] at h
    rcases h with h | ⟨c', s₁, -, h⟩
    · exact ⟨c, x, s, List.mem_cons_self .., h⟩
    · obtain ⟨c', y, s₂, hy, h⟩ := ih h
      exact ⟨c', y, s₂, List.mem_cons_of_mem _ hy, h⟩

/-- Whatever error the computation fails with, it is one of these. -/
def RaisesOnly (x : ExceptT ε FreshM β) (s : Supply) (P : ε → Prop) : Prop := ∀ e, Raises x s e → P e

theorem RaisesOnly.bind {P : ε → Prop} {x : ExceptT ε FreshM β} {f : β → ExceptT ε FreshM γ}
    {s : Supply} (hx : RaisesOnly x s P) (hf : ∀ b s₁, Gives x s b s₁ → RaisesOnly (f b) s₁ P) :
    RaisesOnly (x >>= f) s P := by
  intro e h
  rcases raises_bind_iff.1 h with h | ⟨b, s₁, hb, h⟩
  · exact hx e h
  · exact hf b s₁ hb e h

theorem RaisesOnly.of_gives {P : ε → Prop} {x : ExceptT ε FreshM β} {s s' : Supply} {b : β}
    (h : Gives x s b s') : RaisesOnly x s P := by
  intro e he
  unfold Raises at he
  unfold Gives at h
  rw [h] at he
  cases he

theorem RaisesOnly.pure {P : ε → Prop} {b : β} {s : Supply} :
    RaisesOnly (Pure.pure b : ExceptT ε FreshM β) s P := .of_gives (gives_pure_iff.2 ⟨rfl, rfl⟩)

/-- A step that succeeds is no step to fail in. -/
theorem RaisesOnly.step {P : ε → Prop} {x : ExceptT ε FreshM β} {f : β → ExceptT ε FreshM γ}
    {s s₁ : Supply} {b : β} (hx : Gives x s b s₁) (hf : RaisesOnly (f b) s₁ P) :
    RaisesOnly (x >>= f) s P := by
  refine .bind (.of_gives hx) fun b' s₁' hx' => ?_
  obtain ⟨hb, rfl⟩ := Prod.mk.inj (hx.symm.trans hx')
  obtain rfl := Except.ok.inj hb
  exact hf

theorem RaisesOnly.mapM {P : ε → Prop} {f : β → ExceptT ε FreshM γ} {xs : List β} {s : Supply}
    (h : ∀ x ∈ xs, ∀ s, RaisesOnly (f x) s P) : RaisesOnly (xs.mapM f) s P := by
  intro e he
  obtain ⟨x, hx, s₁, he⟩ := exists_of_raises_mapM he
  exact h x hx s₁ e he

theorem RaisesOnly.foldlM {P : ε → Prop} {f : γ → β → ExceptT ε FreshM γ} {xs : List β} {c : γ}
    {s : Supply} (h : ∀ c, ∀ x ∈ xs, ∀ s, RaisesOnly (f c x) s P) : RaisesOnly (xs.foldlM f c) s P := by
  intro e he
  obtain ⟨c', x, s₁, hx, he⟩ := exists_of_raises_foldlM he
  exact h c' x hx s₁ e he

theorem RaisesOnly.fresh {P : ε → Prop} {x : FreshM β} {f : β → ExceptT ε FreshM γ} {s : Supply}
    (hf : ∀ b s₁, Makes x s b s₁ → RaisesOnly (f b) s₁ P) : RaisesOnly (liftM x >>= f) s P :=
  .bind (fun _ h => (raises_fresh_iff.1 h).elim) fun b s₁ hb => hf b s₁ (gives_fresh_iff.1 hb)

end Creating

/-! ## Editing a graph -/

namespace PassM

variable {α β γ : Type}

/-- On this graph and supply, the computation succeeds with a value and leaves that graph and that
supply. -/
def Edits (x : PassM α β) (g : Graph α) (s : Supply) (b : β) (g' : Graph α) (s' : Supply) : Prop :=
  Id.run ((x.run.run g).run s) = ((.ok b, g'), s')

theorem run_bind {x : PassM α β} {f : β → PassM α γ} {g : Graph α} {s : Supply} :
    Id.run (((x >>= f).run.run g).run s) = match Id.run ((x.run.run g).run s) with
      | ((.ok b, g₁), s₁) => Id.run (((f b).run.run g₁).run s₁)
      | ((.error e, g₁), s₁) => ((.error e, g₁), s₁) := by
  show Id.run ((((ExceptT.bindCont f) (Id.run ((x.run.run g).run s)).1.1).run
    (Id.run ((x.run.run g).run s)).1.2).run (Id.run ((x.run.run g).run s)).2) = _
  rcases Id.run ((x.run.run g).run s) with ⟨⟨_ | b, g₁⟩, s₁⟩ <;> rfl

theorem edits_bind_iff {x : PassM α β} {f : β → PassM α γ} {g g' : Graph α} {s s' : Supply}
    {c : γ} : (x >>= f).Edits g s c g' s' ↔
      ∃ b g₁ s₁, x.Edits g s b g₁ s₁ ∧ (f b).Edits g₁ s₁ c g' s' := by
  unfold Edits
  rw [run_bind]
  rcases hx : Id.run ((x.run.run g).run s) with ⟨⟨_ | b, g₁⟩, s₁⟩
  · simp
  · simp only [Prod.mk.injEq, Except.ok.injEq]
    constructor
    · intro h
      exact ⟨b, g₁, s₁, ⟨⟨rfl, rfl⟩, rfl⟩, h⟩
    · rintro ⟨b', g₁', s₁', ⟨⟨rfl, rfl⟩, rfl⟩, h⟩
      exact h

theorem edits_pure_iff {b c : β} {g g' : Graph α} {s s' : Supply} :
    (pure b : PassM α β).Edits g s c g' s' ↔ b = c ∧ g = g' ∧ s = s' := by
  show (((Except.ok b, g), s) = ((Except.ok c, g'), s')) ↔ _
  simp [and_assoc]

theorem edits_graph_iff {h g g' : Graph α} {s s' : Supply} :
    (graph : PassM α (Graph α)).Edits g s h g' s' ↔ g = h ∧ g = g' ∧ s = s' := by
  show (((Except.ok g, g), s) = ((Except.ok h, g'), s')) ↔ _
  simp [and_assoc]

theorem edits_setGraph_iff {h g g' : Graph α} {s s' : Supply} :
    (setGraph h : PassM α Unit).Edits g s ⟨⟩ g' s' ↔ h = g' ∧ s = s' := by
  show (((Except.ok (), h), s) = ((Except.ok (), g'), s')) ↔ _
  simp

theorem edits_except_iff {x : Except GraphError β} {b : β} {g g' : Graph α} {s s' : Supply} :
    (liftM x : PassM α β).Edits g s b g' s' ↔ x = .ok b ∧ g = g' ∧ s = s' := by
  show (((x.mapError PassError.graph, g), s) = ((Except.ok b, g'), s')) ↔ _
  simp [mapError_ok_iff, and_assoc]

theorem edits_graphM_iff {x : GraphM β} {b : β} {g g' : Graph α} {s s' : Supply} :
    (liftM x : PassM α β).Edits g s b g' s' ↔ Gives x s b s' ∧ g = g' := by
  show ((((Id.run (x.run.run s)).1.mapError PassError.graph, g), (Id.run (x.run.run s)).2) =
    ((Except.ok b, g'), s')) ↔ _
  unfold Gives
  rcases Id.run (x.run.run s) with ⟨r, s₁⟩
  simp only [Prod.mk.injEq, mapError_ok_iff]
  constructor
  · rintro ⟨⟨h, rfl⟩, rfl⟩
    exact ⟨⟨h, rfl⟩, rfl⟩
  · rintro ⟨⟨h, rfl⟩, rfl⟩
    exact ⟨⟨h, rfl⟩, rfl⟩

/-! A step that only reads leaves the graph to the rest of a computation. -/

variable {f : β → PassM α γ} {g g' : Graph α} {s s' : Supply} {c : γ}

theorem edits_graph_bind_iff {f : Graph α → PassM α γ} :
    (graph >>= f).Edits g s c g' s' ↔ (f g).Edits g s c g' s' := by
  simp only [edits_bind_iff, edits_graph_iff]
  constructor
  · rintro ⟨_, _, _, ⟨rfl, rfl, rfl⟩, h⟩
    exact h
  · intro h
    exact ⟨g, g, s, ⟨rfl, rfl, rfl⟩, h⟩

theorem edits_setGraph_bind_iff {h : Graph α} {f : Unit → PassM α γ} :
    (setGraph h >>= f).Edits g s c g' s' ↔ (f ⟨⟩).Edits h s c g' s' := by
  rw [edits_bind_iff]
  constructor
  · rintro ⟨u, _, _, hset, hf⟩
    obtain ⟨rfl, rfl⟩ := edits_setGraph_iff.1 hset
    exact hf
  · intro hf
    exact ⟨⟨⟩, h, s, edits_setGraph_iff.2 ⟨rfl, rfl⟩, hf⟩

theorem edits_except_bind_iff {x : Except GraphError β} :
    ((liftM x : PassM α β) >>= f).Edits g s c g' s' ↔ ∃ b, x = .ok b ∧ (f b).Edits g s c g' s' := by
  simp only [edits_bind_iff, edits_except_iff]
  constructor
  · rintro ⟨b, _, _, ⟨hx, rfl, rfl⟩, h⟩
    exact ⟨b, hx, h⟩
  · rintro ⟨b, hx, h⟩
    exact ⟨b, g, s, ⟨hx, rfl, rfl⟩, h⟩

theorem edits_graphM_bind_iff {x : GraphM β} :
    ((liftM x : PassM α β) >>= f).Edits g s c g' s' ↔
      ∃ b s₁, Gives x s b s₁ ∧ (f b).Edits g s₁ c g' s' := by
  simp only [edits_bind_iff, edits_graphM_iff]
  constructor
  · rintro ⟨b, _, s₁, ⟨hx, rfl⟩, h⟩
    exact ⟨b, s₁, hx, h⟩
  · rintro ⟨b, s₁, hx, h⟩
    exact ⟨b, g, s₁, ⟨hx, rfl⟩, h⟩

theorem edits_addVariable_iff {t : Tensor α} {v : VarId} {g g' : Graph α} {s s' : Supply} :
    (addVariable t : PassM α VarId).Edits g s v g' s' ↔ g.addVariable t = (g', v) ∧ s = s' := by
  show (((Except.ok (g.addVariable t).2, (g.addVariable t).1), s) = ((Except.ok v, g'), s')) ↔ _
  rcases g.addVariable t with ⟨g₁, v₁⟩
  simp only [Prod.mk.injEq, Except.ok.injEq]
  constructor
  · rintro ⟨⟨rfl, rfl⟩, rfl⟩
    exact ⟨⟨rfl, rfl⟩, rfl⟩
  · rintro ⟨⟨rfl, rfl⟩, rfl⟩
    exact ⟨⟨rfl, rfl⟩, rfl⟩

theorem edits_addOp_iff {op : Operator α} {ins : List VarId} {v : VarId} {g g' : Graph α}
    {s s' : Supply} :
    (addOp op ins : PassM α VarId).Edits g s v g' s' ↔ Gives (g.addOp op ins) s (g', v) s' := by
  unfold addOp
  simp only [edits_graph_bind_iff, edits_graphM_bind_iff, edits_setGraph_bind_iff, edits_pure_iff]
  constructor
  · rintro ⟨⟨h, w⟩, _, hop, rfl, rfl, rfl⟩
    exact hop
  · intro h
    exact ⟨_, _, h, rfl, rfl, rfl⟩

theorem edits_removeOperator_iff {o : OpId} {g g' : Graph α} {s s' : Supply} {u : Unit} :
    (removeOperator o : PassM α Unit).Edits g s u g' s' ↔
      (∃ node, g.removeOperator o = .ok (g', node)) ∧ s = s' := by
  unfold removeOperator
  simp only [edits_graph_bind_iff, edits_except_bind_iff]
  constructor
  · rintro ⟨⟨h, node⟩, hop, hset⟩
    obtain ⟨rfl, rfl⟩ := edits_setGraph_iff.1 hset
    exact ⟨⟨node, hop⟩, rfl⟩
  · rintro ⟨⟨node, h⟩, rfl⟩
    exact ⟨_, h, edits_setGraph_iff.2 ⟨rfl, rfl⟩⟩

theorem edits_replaceVariable_iff {old new : VarId} {g g' : Graph α} {s s' : Supply} {u : Unit} :
    (replaceVariable old new : PassM α Unit).Edits g s u g' s' ↔
      g.replaceVariable old new = .ok g' ∧ s = s' := by
  unfold replaceVariable
  simp only [edits_graph_bind_iff, edits_except_bind_iff]
  constructor
  · rintro ⟨h, hop, hset⟩
    obtain ⟨rfl, rfl⟩ := edits_setGraph_iff.1 hset
    exact ⟨hop, rfl⟩
  · rintro ⟨h, rfl⟩
    exact ⟨_, h, edits_setGraph_iff.2 ⟨rfl, rfl⟩⟩

theorem edits_renameAxes_iff [Scalar α] {f : Axis → Axis} {b : Bool} {g g' : Graph α}
    {s s' : Supply} :
    (renameAxes f : PassM α Bool).Edits g s b g' s' ↔ g.renameAxes f = (g', .ok b) ∧ s = s' := by
  unfold renameAxes
  simp only [edits_graph_bind_iff, edits_setGraph_bind_iff, edits_except_iff]
  constructor
  · rintro ⟨hb, rfl, rfl⟩
    exact ⟨Prod.ext rfl hb, rfl⟩
  · rintro ⟨h, rfl⟩
    exact ⟨congrArg Prod.snd h, congrArg Prod.fst h, rfl⟩

/-- Steps that tell whether one of them changed the graph: the first one, and then the others. -/
theorem edits_steps_cons_iff {step : β → PassM α Bool} {b : β} {bs : List β} {c d : Bool}
    {g h : Graph α} {s s' : Supply} :
    ((b :: bs).foldlM (fun changed b => return (← step b) || changed) c).Edits g s d h s' ↔
      ∃ b₁ g₁ s₁, (step b).Edits g s b₁ g₁ s₁ ∧
        (bs.foldlM (fun changed b => return (← step b) || changed) (b₁ || c)).Edits g₁ s₁ d h s' := by
  simp only [List.foldlM_cons, edits_bind_iff, edits_pure_iff]
  constructor
  · rintro ⟨_, _, _, ⟨b₁, g₁, s₁, hstep, rfl, rfl, rfl⟩, hrest⟩
    exact ⟨b₁, g₁, s₁, hstep, hrest⟩
  · rintro ⟨b₁, g₁, s₁, hstep, hrest⟩
    exact ⟨_, _, _, ⟨b₁, g₁, s₁, hstep, rfl, rfl, rfl⟩, hrest⟩

theorem edits_sweep_iff {step : OpId → PassM α Bool} {g h : Graph α} {s s' : Supply} {c : Bool} :
    (sweep step).Edits g s c h s' ↔ ∃ ops, g.topologicalOrder = .ok ops ∧
      (ops.foldlM (fun changed o => return (← step o) || changed) false).Edits g s c h s' := by
  simp only [sweep, edits_graph_bind_iff, edits_except_bind_iff]

/-- A sweep that succeeds visits the operators of the traversal one after the other. What holds of
the operators still to come, the graph and the supply is kept by every visit. -/
theorem sweep_induction {P : List OpId → Graph α → Supply → Prop} {step : OpId → PassM α Bool}
    {g g' : Graph α} {s s' : Supply} {b : Bool} (h : (sweep step).Edits g s b g' s')
    (h0 : ∀ ops, g.topologicalOrder = .ok ops → P ops g s)
    (hstep : ∀ o rest g s b g' s', P (o :: rest) g s → (step o).Edits g s b g' s' → P rest g' s') :
    P [] g' s' := by
  rw [edits_sweep_iff] at h
  obtain ⟨ops, hops, h⟩ := h
  replace h0 := h0 ops hops
  clear hops
  generalize false = c at h
  induction ops generalizing c g s with
  | nil =>
    rw [List.foldlM_nil, edits_pure_iff] at h
    obtain ⟨-, rfl, rfl⟩ := h
    exact h0
  | cons o ops ih =>
    obtain ⟨b₁, g₁, s₁, hb, h⟩ := edits_steps_cons_iff.1 h
    exact ih (hstep o ops g s b₁ _ _ h0 hb) _ h

end PassM

end TensorCompiler
