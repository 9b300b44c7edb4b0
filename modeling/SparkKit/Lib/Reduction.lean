import Mathlib.Algebra.BigOperators.Group.Finset.Basic
import Mathlib.Algebra.BigOperators.Intervals
import Mathlib.Algebra.Ring.Nat

/-!
# Sums split over threads

Sums over a mixed-radix index, and the butterfly: lanes that each add the value of the lane
at an offset, for the offsets `2 ^ (n - 1), ..., 2, 1`, end with the sum of all `2 ^ n`.
-/
namespace SparkKit.Lib.Reduction

variable {R : Type*} [AddCommMonoid R]

/-- A sum over `a * b` positions, `b` at a time. -/
theorem sum_range_mul (f : ℕ → R) (a b : ℕ) : ∑ k ∈ Finset.range (a * b), f k =
    ∑ i ∈ Finset.range a, ∑ j ∈ Finset.range b, f (i * b + j) := by
  induction a with
  | zero => rw [Nat.zero_mul, Finset.sum_range_zero, Finset.sum_range_zero]
  | succ a ih => rw [Nat.add_one_mul, Finset.sum_range_add, ih, Finset.sum_range_succ]

/-- `v + shuffle_sync_bfly(v, offset)` at every lane. -/
def shuffleAdd (offset : ℕ) (v : ℕ → R) : ℕ → R := fun lane => v lane + v (lane ^^^ offset)

/-- The `n` steps with offsets `1 << (n - 1 - off)`. -/
def butterfly (n : ℕ) (v : ℕ → R) : ℕ → R :=
  (List.range n).foldl (fun v off => shuffleAdd (1 <<< (n - 1 - off)) v) v

/-- The first step halves the work of the others. -/
theorem butterfly_succ (n : ℕ) (v : ℕ → R) :
    butterfly (n + 1) v = butterfly n (shuffleAdd (2 ^ n) v) := by
  rw [butterfly, List.range_succ_eq_map, List.foldl_cons, List.foldl_map, Nat.one_shiftLeft]
  rw [show n + 1 - 1 - 0 = n by omega, butterfly]
  refine congrFun (congrFun (congrArg List.foldl ?_) _) _
  funext v off
  rw [show n + 1 - 1 - off.succ = n - 1 - off by omega]

theorem butterfly_apply (n : ℕ) (v : ℕ → R) (lane : ℕ) :
    butterfly n v lane = ∑ i ∈ Finset.range (2 ^ n), v (lane ^^^ i) := by
  induction n generalizing v with
  | zero =>
    rw [Nat.pow_zero, Finset.sum_range_one, Nat.xor_zero]
    rfl
  | succ n ih =>
    have hupper : ∀ i ∈ Finset.range (2 ^ n), v (lane ^^^ i ^^^ 2 ^ n) = v (lane ^^^ (2 ^ n + i)) := by
      intro i hi
      have hor : 2 ^ n + i = 2 ^ n ^^^ i := by
        have hlt := Finset.mem_range.mp hi
        have h := Nat.two_pow_add_eq_or_of_lt hlt 1
        rw [Nat.mul_one] at h
        rw [h]
        apply Nat.eq_of_testBit_eq
        intro j
        rw [Nat.testBit_or, Nat.testBit_xor, Nat.testBit_two_pow]
        by_cases hj : n = j
        · subst hj
          rw [Nat.testBit_lt_two_pow hlt]
          simp
        · simp [hj]
      rw [Nat.xor_assoc, Nat.xor_comm i, hor]
    rw [butterfly_succ, ih, pow_succ, Nat.mul_two, Finset.sum_range_add]
    simp only [shuffleAdd]
    rw [Finset.sum_add_distrib, Finset.sum_congr rfl hupper]

/-- Lane `0` ends with the sum over all lanes. -/
theorem butterfly_zero (n : ℕ) (v : ℕ → R) : butterfly n v 0 = ∑ i ∈ Finset.range (2 ^ n), v i := by
  rw [butterfly_apply]
  exact Finset.sum_congr rfl fun i _ => by rw [Nat.zero_xor]

end SparkKit.Lib.Reduction
