import Mathlib.Data.List.OfFn
import Mathlib.Logic.Equiv.Fin.Basic
import Mathlib.Tactic.Ring

/-!
# Row-major indices

A block of `m` rows of `n` entries stored one row after the other, and the three index
changes on such blocks: rows joined, a flat block cut into rows, and the same entries under
an equal length.
-/
namespace SparkKit.Lib.RowMajor

variable {α : Type*} {a b c m n : ℕ}

/-- The rows one after the other. -/
def flatten (x : Fin m → Fin n → α) : Fin (m * n) → α := fun k => x k.divNat k.modNat

/-- A flat block cut into `m` rows of `n`. -/
def split (y : Fin (m * n) → α) : Fin m → Fin n → α := fun i j => y (finProdFinEquiv (i, j))

/-- The same entries under an equal length. -/
def view (h : m = n) (x : Fin m → α) : Fin n → α := fun k => x (k.cast h.symm)

@[simp] theorem flatten_apply (x : Fin m → Fin n → α) (i : Fin m) (j : Fin n) :
    flatten x (finProdFinEquiv (i, j)) = x i j := by
  have h := finProdFinEquiv.symm_apply_apply (i, j)
  rw [finProdFinEquiv_symm_apply, Prod.mk.injEq] at h
  rw [flatten, h.1, h.2]

@[simp] theorem split_flatten (x : Fin m → Fin n → α) : split (flatten x) = x := by
  funext i j
  exact flatten_apply x i j

/-- Every flat index is an entry of some row. -/
theorem exists_row (k : Fin (m * n)) : ∃ i j, k = finProdFinEquiv ((i, j) : Fin m × Fin n) :=
  ⟨k.divNat, k.modNat, (finProdFinEquiv.apply_symm_apply k).symm⟩

/-- Joining rows that are themselves joined does not depend on the order of the joins. -/
theorem view_flatten_flatten (x : Fin a → Fin b → Fin c → α) :
    view (Nat.mul_assoc a b c).symm (flatten fun i => flatten (x i)) = flatten (flatten x) := by
  funext k
  obtain ⟨ij, l, rfl⟩ := exists_row k
  obtain ⟨i, j, rfl⟩ := exists_row ij
  have hindex : (finProdFinEquiv (finProdFinEquiv (i, j), l)).cast (Nat.mul_assoc a b c) =
      finProdFinEquiv (i, finProdFinEquiv (j, l)) := by
    apply Fin.ext
    simp only [Fin.val_cast, finProdFinEquiv_apply_val]
    ring
  rw [view, hindex]
  simp only [flatten_apply]

/-- Cutting joined groups of rows into longer rows joins each row's own groups. -/
theorem split_view_flatten (x : Fin (a * b) → Fin c → α) :
    split (view (Nat.mul_assoc a b c) (flatten x)) = fun i => flatten (split x i) := by
  funext i k
  obtain ⟨j, l, rfl⟩ := exists_row k
  have hindex : (finProdFinEquiv (i, finProdFinEquiv (j, l))).cast (Nat.mul_assoc a b c).symm =
      finProdFinEquiv (finProdFinEquiv (i, j), l) := by
    apply Fin.ext
    simp only [Fin.val_cast, finProdFinEquiv_apply_val]
    ring
  rw [split, view, hindex, flatten_apply, flatten_apply, split]

/-- The flat block as a list is the rows' lists in order. -/
theorem ofFn_flatten (x : Fin m → Fin n → α) :
    List.ofFn (flatten x) = (List.ofFn fun i => List.ofFn (x i)).flatten := by
  rw [List.ofFn_mul]
  refine congrArg List.flatten (congrArg List.ofFn (funext fun i => congrArg List.ofFn ?_))
  funext j
  rw [← flatten_apply x i j]
  refine congrArg (flatten x) (Fin.ext ?_)
  rw [finProdFinEquiv_apply_val]
  ring

end SparkKit.Lib.RowMajor
