import Mathlib.Algebra.BigOperators.Intervals
import Mathlib.Algebra.Order.BigOperators.Group.Finset
import Mathlib.Algebra.Ring.Nat

/-!
# Numbers from bits

`bitSum f n` is the number whose low `n` bits are `f 0, f 1, ...`, written as the sum a
program forms it by.
-/
namespace SparkKit.Lib.BitSum

/-- The number with bits `f 0 .. f (n - 1)`, lowest first. -/
def bitSum (f : ℕ → Bool) (n : ℕ) : ℕ := ∑ j ∈ Finset.range n, (f j).toNat <<< j

variable {f g : ℕ → Bool} {n m i j k : ℕ}

@[simp] theorem bitSum_zero (f : ℕ → Bool) : bitSum f 0 = 0 := rfl

theorem bitSum_succ (f : ℕ → Bool) (n : ℕ) : bitSum f (n + 1) = bitSum f n + (f n).toNat <<< n :=
  Finset.sum_range_succ _ n

/-- The bits from `m` on form their own number, shifted. -/
theorem bitSum_add (f : ℕ → Bool) (m n : ℕ) :
    bitSum f (m + n) = bitSum f m + ∑ j ∈ Finset.range n, (f (m + j)).toNat <<< (m + j) :=
  Finset.sum_range_add _ m n

theorem bitSum_congr (h : ∀ j < n, f j = g j) : bitSum f n = bitSum g n :=
  Finset.sum_congr rfl fun j hj => by rw [h j (Finset.mem_range.mp hj)]

theorem bitSum_lt (f : ℕ → Bool) (n : ℕ) : bitSum f n < 2 ^ n := by
  induction n with
  | zero => exact Nat.one_pos
  | succ n ih =>
    have hbit : (f n).toNat <<< n ≤ 2 ^ n := by
      rw [Nat.shiftLeft_eq]
      calc (f n).toNat * 2 ^ n ≤ 1 * 2 ^ n := Nat.mul_le_mul_right _ (Bool.toNat_le _)
        _ = 2 ^ n := Nat.one_mul _
    rw [bitSum_succ, pow_succ]
    omega

theorem testBit_bitSum (f : ℕ → Bool) (n i : ℕ) :
    (bitSum f n).testBit i = (decide (i < n) && f i) := by
  induction n with
  | zero => simp
  | succ n ih =>
    rw [bitSum_succ]
    have hsum : bitSum f n + (f n).toNat <<< n = 2 ^ n * (f n).toNat + bitSum f n := by
      rw [Nat.shiftLeft_eq, Nat.mul_comm, Nat.add_comm]
    rw [hsum, Nat.testBit_two_pow_mul_add _ (bitSum_lt f n)]
    by_cases hlt : i < n
    · rw [if_pos hlt, ih, decide_eq_true hlt, decide_eq_true (Nat.lt_succ_of_lt hlt)]
    · rw [if_neg hlt]
      by_cases heq : i = n
      · subst heq
        cases f i <;> simp
      · have hout : ¬ i < n + 1 := by omega
        have hsmall : (f n).toNat < 2 ^ (i - n) := by
          calc (f n).toNat ≤ 1 := Bool.toNat_le _
            _ < 2 ^ (i - n) := Nat.one_lt_two_pow (by omega)
        rw [decide_eq_false hout, Bool.false_and, Nat.testBit_lt_two_pow hsmall]

theorem testBit_bitSum_of_lt (h : i < n) : (bitSum f n).testBit i = f i := by
  rw [testBit_bitSum, decide_eq_true h, Bool.true_and]

/-- A number below `2 ^ n` is the sum of its bits. -/
theorem bitSum_testBit (h : m < 2 ^ n) : bitSum m.testBit n = m := by
  apply Nat.eq_of_testBit_eq
  intro i
  rw [testBit_bitSum]
  by_cases hi : i < n
  · rw [decide_eq_true hi, Bool.true_and]
  · have hzero : m.testBit i = false :=
      Nat.testBit_lt_two_pow (h.trans_le (Nat.pow_le_pow_right Nat.two_pos (by omega)))
    rw [hzero, Bool.and_false]

/-- Or-ing the bits in one by one gives the same number. -/
theorem foldl_or_eq_bitSum (f : ℕ → Bool) (n : ℕ) :
    (List.range n).foldl (fun v b => v ||| (f b).toNat <<< b) 0 = bitSum f n := by
  induction n with
  | zero => rfl
  | succ n ih =>
    rw [List.range_succ, List.foldl_append, ih, bitSum_succ]
    show bitSum f n ||| (f n).toNat <<< n = _
    rw [Nat.or_comm, ← Nat.shiftLeft_add_eq_or_of_lt (bitSum_lt f n), Nat.add_comm]

end SparkKit.Lib.BitSum
