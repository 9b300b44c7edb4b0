import SparkKit.Lib.BitSum
import SparkKit.Lib.RowMajor
import Mathlib.Algebra.Order.Ring.Int
import Mathlib.Data.Fin.Tuple.Basic
import Mathlib.Tactic.IntervalCases
import Mathlib.Tactic.Linarith

/-!
# Unpacking compressed-tensors integers

A row of packed words is a little-endian bit stream. `unpack_from_int32` pads the row to
whole groups of `num_bits` words, which hold 32 fields each, and joins a field that straddles
two words from their signed 64-bit copies.
-/
namespace SparkKit.Tailquant.Unpack

open SparkKit.Lib.BitSum SparkKit.Lib.RowMajor

/-- `(-num_words) % num_bits` -/
def padWords (numWords numBits : ℕ) : ℕ := ((-(numWords : ℤ)) % numBits).toNat

/-- `num_groups`, after padding. -/
def numGroups (numWords numBits : ℕ) : ℕ := (numWords + padWords numWords numBits) / numBits

def wordIdx (numBits e : ℕ) : ℕ := e * numBits / 32

def off (numBits e : ℕ) : ℕ := e * numBits % 32

def loBits (numBits e : ℕ) : ℕ := min (32 - off numBits e) numBits

variable {numBits numWords rows : ℕ}

theorem numGroups_mul (numWords : ℕ) (hbits : 0 < numBits) :
    numGroups numWords numBits * numBits = numWords + padWords numWords numBits := by
  refine Nat.div_mul_cancel ?_
  have hmod := Int.emod_nonneg (-(numWords : ℤ)) (show (numBits : ℤ) ≠ 0 by omega)
  have hdiv := Int.emod_add_mul_ediv (-(numWords : ℤ)) numBits
  have hdvd : (numBits : ℤ) ∣ ((numWords + padWords numWords numBits : ℕ) : ℤ) := by
    refine ⟨-(-(numWords : ℤ) / numBits), ?_⟩
    rw [Nat.cast_add, padWords, Int.toNat_of_nonneg hmod, Int.mul_neg]
    linarith
  exact Int.natCast_dvd_natCast.mp hdvd

theorem wordIdx_lt {e : ℕ} (hbits : 0 < numBits) (he : e < 32) : wordIdx numBits e < numBits :=
  Nat.div_lt_of_lt_mul (Nat.mul_lt_mul_of_pos_right he hbits)

/-- A straddling field still ends within its group. -/
theorem wordIdx_succ_lt {e : ℕ} (he : e < 32) (h : loBits numBits e < numBits) :
    wordIdx numBits e + 1 < numBits := by
  have hdiv := Nat.div_add_mod (e * numBits) 32
  have hle : (e + 1) * numBits ≤ 32 * numBits := Nat.mul_le_mul_right numBits he
  rw [Nat.add_one_mul] at hle
  simp only [loBits, off] at h
  simp only [wordIdx]
  omega

/-- A row padded with zero words to whole groups. -/
def paddedRow (numBits : ℕ) (row : Fin numWords → BitVec 32) :
    Fin (numWords + padWords numWords numBits) → BitVec 32 := Fin.append row fun _ => 0

/-- `vg`, one group of `num_bits` words in each row. -/
def groups (hbits : 0 < numBits) (value : Fin rows → Fin numWords → BitVec 32) :
    Fin (rows * numGroups numWords numBits) → Fin numBits → BitVec 32 :=
  split (view (by rw [Nat.mul_assoc, numGroups_mul numWords hbits])
    (flatten fun r => paddedRow numBits (value r)))

/-- `(1 << n) - 1` -/
def mask (n : ℕ) : BitVec 64 := (1#64 <<< n) - 1#64

/-- `out` at element `e` of a group, with the bits of the next word where the field straddles. -/
def unpackField (hbits : 0 < numBits) (group : Fin numBits → BitVec 32) (e : Fin 32) : BitVec 64 :=
  let lo := loBits numBits e
  let out := ((group ⟨wordIdx numBits e, wordIdx_lt hbits e.isLt⟩).signExtend 64).sshiftRight
    (off numBits e) &&& mask lo
  if h : lo < numBits then
    let next := (group ⟨wordIdx numBits e + 1, wordIdx_succ_lt e.isLt h⟩).signExtend 64
    out ||| (next &&& mask (numBits - lo)) <<< lo
  else out

def unpackFromInt32 (hbits : 0 < numBits) (value : Fin rows → Fin numWords → BitVec 32) (cols : ℕ) :
    Fin rows → Fin (min cols (numGroups numWords numBits * 32)) → BitVec 8 :=
  let out := fun g e => unpackField hbits (groups hbits value g) e
  -- `out.reshape(rows, num_groups * 32)[:, :cols]`
  let res := split (view (Nat.mul_assoc rows _ 32) (flatten out))
  fun r i => (res r (i.castLE (Nat.min_le_right ..)) - 1#64 <<< (numBits - 1)).setWidth 8

/-- Bit `k` of the row's little-endian stream, zero behind its last word. -/
def rowBit (row : Fin numWords → BitVec 32) (k : ℕ) : Bool :=
  if h : k / 32 < numWords then (row ⟨k / 32, h⟩).getLsbD (k % 32) else false

/-! ## One field -/

theorem getLsbD_mask {n : ℕ} (hn : n < 64) (i : ℕ) : (mask n).getLsbD i = decide (i < n) := by
  have hpow : 2 ^ n < 2 ^ 64 := Nat.pow_lt_pow_right (by decide) hn
  have hone := Nat.one_le_two_pow (n := n)
  have hmask : (mask n).toNat = 2 ^ n - 1 := by
    rw [mask, BitVec.toNat_sub, BitVec.toNat_shiftLeft, BitVec.toNat_ofNat, Nat.shiftLeft_eq]
    rw [show 1 % 2 ^ 64 = 1 from rfl, Nat.one_mul, Nat.mod_eq_of_lt hpow]
    omega
  rw [← BitVec.testBit_toNat, hmask, Nat.testBit_two_pow_sub_one]

theorem getLsbD_signExtend_of_lt (w : BitVec 32) {i : ℕ} (hi : i < 32) :
    (w.signExtend 64).getLsbD i = w.getLsbD i := by
  rw [BitVec.getLsbD_signExtend, if_pos hi, decide_eq_true (by omega), Bool.true_and]

theorem rowBit_of_place {row : Fin numWords → BitVec 32} {k i : ℕ} (w : Fin numWords)
    (hword : k / 32 = w) (hbit : k % 32 = i) : rowBit row k = (row w).getLsbD i := by
  subst hbit
  rw [rowBit, dif_pos (by rw [hword]; exact w.isLt)]
  congr 2
  exact Fin.ext hword

/-- The part of a field in its first word. -/
theorem getLsbD_firstPart (hbits : 0 < numBits) (h8 : numBits ≤ 8)
    (group : Fin numBits → BitVec 32) (e : Fin 32) (j : ℕ) :
    (((group ⟨wordIdx numBits e, wordIdx_lt hbits e.isLt⟩).signExtend 64).sshiftRight
        (off numBits e) &&& mask (loBits numBits e)).getLsbD j =
      (decide (j < loBits numBits e) && rowBit group (e * numBits + j)) := by
  rw [BitVec.getLsbD_and, getLsbD_mask (by rw [loBits]; omega), Bool.and_comm]
  by_cases hj : j < loBits numBits e
  · have hdiv := Nat.div_add_mod (e * numBits) 32
    have hmod : e * numBits % 32 < 32 := Nat.mod_lt _ (by decide)
    have hoff : off numBits e + j < 32 := by
      simp only [loBits] at hj
      omega
    have hplace : (e * numBits + j) / 32 = wordIdx numBits e ∧
        (e * numBits + j) % 32 = off numBits e + j := by
      simp only [wordIdx, off] at hoff ⊢
      omega
    -- the shifted word is read below its sign
    rw [rowBit_of_place ⟨_, wordIdx_lt hbits e.isLt⟩ hplace.1 hplace.2, BitVec.getLsbD_sshiftRight,
      if_pos (by omega), getLsbD_signExtend_of_lt _ hoff,
      decide_eq_false (show ¬ 64 ≤ j by omega), Bool.not_false, Bool.true_and]
  · rw [decide_eq_false hj, Bool.false_and, Bool.false_and]

/-- The part of a straddling field in its second word. -/
theorem getLsbD_secondPart (h8 : numBits ≤ 8) (group : Fin numBits → BitVec 32) (e : Fin 32)
    (h : loBits numBits e < numBits) (j : ℕ) :
    (((group ⟨wordIdx numBits e + 1, wordIdx_succ_lt e.isLt h⟩).signExtend 64 &&&
        mask (numBits - loBits numBits e)) <<< loBits numBits e).getLsbD j =
      (decide (loBits numBits e ≤ j ∧ j < numBits) && rowBit group (e * numBits + j)) := by
  rw [BitVec.getLsbD_shiftLeft, BitVec.getLsbD_and, getLsbD_mask (by omega)]
  by_cases hj : loBits numBits e ≤ j ∧ j < numBits
  · have hdiv := Nat.div_add_mod (e * numBits) 32
    have hmod : e * numBits % 32 < 32 := Nat.mod_lt _ (by decide)
    have hplace : (e * numBits + j) / 32 = wordIdx numBits e + 1 ∧
        (e * numBits + j) % 32 = j - loBits numBits e := by
      simp only [loBits, off] at h hj ⊢
      simp only [wordIdx]
      omega
    rw [rowBit_of_place ⟨_, wordIdx_succ_lt e.isLt h⟩ hplace.1 hplace.2,
      getLsbD_signExtend_of_lt _ (by omega), decide_eq_true hj, decide_eq_true (show j < 64 by omega),
      decide_eq_false (show ¬ j < loBits numBits e by omega),
      decide_eq_true (show j - loBits numBits e < numBits - loBits numBits e by omega)]
    simp only [Bool.not_false, Bool.true_and, Bool.and_true]
  · rw [decide_eq_false hj, Bool.false_and]
    rcases Nat.lt_or_ge j (loBits numBits e) with hlt | hge
    · rw [decide_eq_true hlt, Bool.not_true, Bool.and_false, Bool.false_and]
    · rw [decide_eq_false (show ¬ j - loBits numBits e < numBits - loBits numBits e by omega),
        Bool.and_false, Bool.and_false]

/-- Bit `j` of an unpacked field is bit `e * num_bits + j` of its group. -/
theorem getLsbD_unpackField (hbits : 0 < numBits) (h8 : numBits ≤ 8)
    (group : Fin numBits → BitVec 32) (e : Fin 32) (j : ℕ) :
    (unpackField hbits group e).getLsbD j =
      (decide (j < numBits) && rowBit group (e * numBits + j)) := by
  simp only [unpackField]
  split
  · next h =>
    rw [BitVec.getLsbD_or, getLsbD_firstPart hbits h8, getLsbD_secondPart h8 group e h,
      ← Bool.and_or_distrib_right, ← Bool.decide_or]
    congr 2
    exact propext (by omega)
  · next h =>
    have hall : loBits numBits e = numBits := (Nat.min_le_right ..).antisymm (Nat.not_lt.mp h)
    rw [getLsbD_firstPart hbits h8, hall]

theorem toNat_unpackField (hbits : 0 < numBits) (h8 : numBits ≤ 8)
    (group : Fin numBits → BitVec 32) (e : Fin 32) :
    (unpackField hbits group e).toNat = bitSum (fun j => rowBit group (e * numBits + j)) numBits := by
  apply Nat.eq_of_testBit_eq
  intro j
  rw [BitVec.testBit_toNat, getLsbD_unpackField hbits h8, testBit_bitSum]

/-- The centred byte of a field of at most eight bits. -/
theorem toInt_centred (hbits : 0 < numBits) (h8 : numBits ≤ 8) (x : BitVec 64)
    (hx : x.toNat < 2 ^ numBits) :
    ((x - 1#64 <<< (numBits - 1)).setWidth 8).toInt = (x.toNat : ℤ) - 2 ^ (numBits - 1) := by
  have hcases : ∀ n : ℕ, n ≤ 7 → x.toNat < 2 ^ (n + 1) →
      ((x - 1#64 <<< n).setWidth 8).toInt = (x.toNat : ℤ) - 2 ^ n := by
    intro n hn hlt
    rw [BitVec.toInt_eq_toNat_cond, BitVec.toNat_setWidth, BitVec.toNat_sub, BitVec.toNat_shiftLeft,
      BitVec.toNat_ofNat]
    interval_cases n <;> simp only [Nat.shiftLeft_eq] <;> norm_num <;> omega
  have h := hcases (numBits - 1) (by omega) (by rwa [Nat.sub_add_cancel hbits])
  exact h

/-! ## One row -/

theorem paddedRow_apply (row : Fin numWords → BitVec 32) {m : ℕ}
    (hm : m < numWords + padWords numWords numBits) :
    paddedRow numBits row ⟨m, hm⟩ = if h : m < numWords then row ⟨m, h⟩ else 0 := by
  split
  · next h => exact Fin.append_left row (fun _ => 0) ⟨m, h⟩
  · next h =>
    have hplace : (⟨m, hm⟩ : Fin _) = Fin.natAdd numWords ⟨m - numWords, by omega⟩ := by
      apply Fin.ext
      simp only [Fin.val_natAdd]
      omega
    rw [hplace]
    exact Fin.append_right row (fun _ => 0) _

/-- The words of a group are consecutive words of its own padded row. -/
theorem groups_apply (hbits : 0 < numBits) (value : Fin rows → Fin numWords → BitVec 32)
    (r : Fin rows) (g : Fin (numGroups numWords numBits)) (w : Fin numBits)
    (hw : g * numBits + w < numWords + padWords numWords numBits) :
    groups hbits value (finProdFinEquiv (r, g)) w =
      paddedRow numBits (value r) ⟨g * numBits + w, hw⟩ := by
  have hplace : (finProdFinEquiv (finProdFinEquiv (r, g), w)).cast
      (by rw [Nat.mul_assoc, numGroups_mul numWords hbits]) = finProdFinEquiv (r, ⟨g * numBits + w, hw⟩) := by
    apply Fin.ext
    simp only [Fin.val_cast, finProdFinEquiv_apply_val]
    rw [← numGroups_mul numWords hbits]
    ring
  rw [groups, split, view, hplace, flatten_apply]

theorem rowBit_groups (hbits : 0 < numBits) (value : Fin rows → Fin numWords → BitVec 32)
    (r : Fin rows) (g : Fin (numGroups numWords numBits)) {k : ℕ} (hk : k < 32 * numBits) :
    rowBit (groups hbits value (finProdFinEquiv (r, g))) k =
      rowBit (value r) (g * (32 * numBits) + k) := by
  have hword : k / 32 < numBits := Nat.div_lt_of_lt_mul hk
  have hgroup : g * (32 * numBits) = 32 * (g * numBits) := Nat.mul_left_comm ..
  have hplace : (g * (32 * numBits) + k) / 32 = g * numBits + k / 32 ∧
      (g * (32 * numBits) + k) % 32 = k % 32 := by omega
  have hw : g * numBits + k / 32 < numWords + padWords numWords numBits := by
    have hle : (g + 1) * numBits ≤ numGroups numWords numBits * numBits :=
      Nat.mul_le_mul_right numBits g.isLt
    rw [← numGroups_mul numWords hbits]
    rw [Nat.add_one_mul] at hle
    omega
  rw [rowBit, dif_pos hword, groups_apply hbits value r g ⟨k / 32, hword⟩ hw, paddedRow_apply, rowBit]
  simp only [hplace.1, hplace.2]
  split
  · rfl
  · exact BitVec.getLsbD_zero

theorem unpackFromInt32_apply (hbits : 0 < numBits) (h8 : numBits ≤ 8)
    (value : Fin rows → Fin numWords → BitVec 32) (cols : ℕ) (r : Fin rows)
    (i : Fin (min cols (numGroups numWords numBits * 32))) :
    (unpackFromInt32 hbits value cols r i).toInt =
      (bitSum (fun j => rowBit (value r) (i * numBits + j)) numBits : ℤ) - 2 ^ (numBits - 1) := by
  obtain ⟨g, e, hi⟩ := exists_row (i.castLE (Nat.min_le_right cols _))
  have hval : (i : ℕ) = e + 32 * g := by
    have h := congrArg Fin.val hi
    rwa [Fin.val_castLE, finProdFinEquiv_apply_val] at h
  have hfield := toNat_unpackField hbits h8 (groups hbits value (finProdFinEquiv (r, g))) e
  have hstream : bitSum (fun j => rowBit (groups hbits value (finProdFinEquiv (r, g)))
      (e * numBits + j)) numBits = bitSum (fun j => rowBit (value r) (i * numBits + j)) numBits := by
    refine bitSum_congr fun j hj => ?_
    have hle : (e + 1) * numBits ≤ 32 * numBits := Nat.mul_le_mul_right numBits e.isLt
    rw [Nat.add_one_mul] at hle
    rw [rowBit_groups hbits value r g (by omega), hval]
    congr 1
    ring
  have hlt : (unpackField hbits (groups hbits value (finProdFinEquiv (r, g))) e).toNat <
      2 ^ numBits := by
    rw [hfield]
    exact bitSum_lt _ numBits
  simp only [unpackFromInt32, split_view_flatten, hi, flatten_apply]
  rw [split, toInt_centred hbits h8 _ hlt, hfield, hstream]

/-- Each element is its field of the row's bit stream, centred; no other row has a part in it. -/
theorem unpackFromInt32_eq_stream (hbits : 0 < numBits) (h8 : numBits ≤ 8)
    (value : Fin rows → Fin numWords → BitVec 32) (cols : ℕ) (r : Fin rows)
    (i : Fin (min cols (numGroups numWords numBits * 32))) :
    (unpackFromInt32 hbits value cols r i).toInt =
        (bitSum (fun j => rowBit (value r) (i * numBits + j)) numBits : ℤ) - 2 ^ (numBits - 1) ∧
      ∀ value' : Fin rows → Fin numWords → BitVec 32, value' r = value r →
        unpackFromInt32 hbits value' cols r i = unpackFromInt32 hbits value cols r i := by
  refine ⟨unpackFromInt32_apply hbits h8 value cols r i, fun value' hrow => ?_⟩
  apply BitVec.eq_of_toInt_eq
  rw [unpackFromInt32_apply hbits h8, unpackFromInt32_apply hbits h8, hrow]

/-- A field that straddles the two words of its row. -/
theorem unpackFromInt32_eq_stream_three_bits :
    (unpackFromInt32 (show 0 < 3 by decide) (fun _ : Fin 1 => ![0xC0000000#32, 1#32]) 20 0
        ⟨10, by decide⟩).toInt =
      (bitSum (fun j => rowBit ![0xC0000000#32, 1#32] (10 * 3 + j)) 3 : ℤ) - 2 ^ (3 - 1) :=
  (unpackFromInt32_eq_stream (show 0 < 3 by decide) (by decide)
    (fun _ : Fin 1 => ![0xC0000000#32, 1#32]) 20 0 ⟨10, by decide⟩).1

end SparkKit.Tailquant.Unpack
