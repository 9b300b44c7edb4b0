import Mathlib.Algebra.BigOperators.Group.Finset.Basic
import Mathlib.Algebra.Ring.Nat

/-!
# Computations on bounded stores

A load outside its tensor has no result, and a computation with such a load has none either.
So a computation that has a result stayed in bounds. The lemmas give the result when every
part has one.
-/
namespace SparkKit.Lib.Checked

variable {α β : Type*} {a b n : ℕ}

/-- The entry at two computed indices, when both are in range. -/
def load (t : Fin a → Fin b → α) (i j : ℕ) : Option α :=
  if h : i < a ∧ j < b then some (t ⟨i, h.1⟩ ⟨j, h.2⟩) else none

theorem load_of_lt (t : Fin a → Fin b → α) {i j : ℕ} (hi : i < a) (hj : j < b) :
    load t i j = some (t ⟨i, hi⟩ ⟨j, hj⟩) := dif_pos ⟨hi, hj⟩

/-- A family of computations as a computation of the family. -/
def collect (f : Fin n → Option α) : Option (Fin n → α) :=
  if h : ∀ i, (f i).isSome then some fun i => (f i).get (h i) else none

theorem collect_some {f : Fin n → Option α} {g : Fin n → α} (h : ∀ i, f i = some (g i)) :
    collect f = some g := by
  have hsome : ∀ i, (f i).isSome := fun i => by rw [h i]; rfl
  rw [collect, dif_pos hsome]
  refine congrArg some (funext fun i => ?_)
  exact Option.some_injective α ((Option.some_get (hsome i)).trans (h i))

theorem mapM_some {f : α → Option β} {g : α → β} {xs : List α} (h : ∀ x ∈ xs, f x = some (g x)) :
    xs.mapM f = some (xs.map g) := by
  induction xs with
  | nil => rfl
  | cons x xs ih =>
    rw [List.mapM_cons, h x List.mem_cons_self, ih fun y hy => h y (List.mem_cons_of_mem x hy)]
    rfl

/-- Where all parts have results, the list of results has one for every part. -/
theorem mapM_forall₂ {f : α → Option β} {xs : List α} {ys : List β} (h : xs.mapM f = some ys) :
    List.Forall₂ (fun x y => f x = some y) xs ys := by
  induction xs generalizing ys with
  | nil =>
    cases h
    exact .nil
  | cons x xs ih =>
    rw [List.mapM_cons] at h
    obtain ⟨y, hy, h⟩ := Option.bind_eq_some_iff.mp h
    obtain ⟨rest, hrest, h⟩ := Option.bind_eq_some_iff.mp h
    cases h
    exact .cons hy (ih hrest)

/-- A loop that adds a term each turn adds them all. -/
theorem foldlM_add [AddCommMonoid α] {f : α → ℕ → Option α} {g : ℕ → α} {n : ℕ} (start : α)
    (h : ∀ acc, ∀ i < n, f acc i = some (acc + g i)) :
    (List.range n).foldlM f start = some (start + ∑ i ∈ Finset.range n, g i) := by
  induction n with
  | zero => rw [Finset.sum_range_zero, add_zero]; rfl
  | succ n ih =>
    rw [List.range_succ, List.foldlM_append, ih fun acc i hi => h acc i (Nat.lt_succ_of_lt hi),
      Finset.sum_range_succ, ← add_assoc]
    show (List.foldlM f _ [n]) = _
    rw [List.foldlM_cons, h _ n (Nat.lt_succ_self n)]
    rfl

end SparkKit.Lib.Checked
