import SparkKit.Tailquant.Unpack
import Mathlib.Tactic.FinCases

/-!
# The packed weights of the small-M GEMV

The GEMV reads a packed byte as a two's complement number, in the reference by masking and in
the kernel by a pair of shifts on one half of a 64-bit load. The codec reads the same matrix
as unsigned bytes with an offset of 128.
-/
namespace SparkKit.Gemv.Weights

open SparkKit.Lib.BitSum SparkKit.Lib.RowMajor SparkKit.Tailquant.Unpack

variable {N KW KQ : ℕ}

/-- `((wp >> (8 * j)) & 0xFF).to(torch.uint8).view(torch.int8)` for one word. -/
def wordByte (word : BitVec 32) (j : Fin 4) : BitVec 8 :=
  (word.sshiftRight (8 * j) &&& 0xFF#32).setWidth 8

/-- `unpack_int8`: byte `j` of a word is column `4 * word + j`. -/
def unpackInt8 (wp : Fin N → Fin KW → BitVec 32) : Fin N → Fin (KW * 4) → BitVec 8 :=
  fun r => flatten fun word j => wordByte (wp r word) j

/-- `wp.view(torch.int64)`, the even word in the low half. -/
def viewInt64 (wp : Fin N → Fin (KQ * 2) → BitVec 32) : Fin N → Fin KQ → BitVec 64 :=
  fun r i => wp r (finProdFinEquiv (i, 1)) ++ wp r (finProdFinEquiv (i, 0))

/-- Eight of the kernel's `b`, taken from one 64-bit load. -/
def kernelBytes (w : BitVec 64) : Fin 8 → BitVec 32 :=
  let lo := (w &&& 0xFFFFFFFF#64).setWidth 32
  let hi := (w.sshiftRight 32).setWidth 32
  ![(lo <<< 24).sshiftRight 24, (lo <<< 16).sshiftRight 24, (lo <<< 8).sshiftRight 24,
    lo.sshiftRight 24, (hi <<< 24).sshiftRight 24, (hi <<< 16).sshiftRight 24,
    (hi <<< 8).sshiftRight 24, hi.sshiftRight 24]

/-! ## The kernel's bytes are the reference's -/

theorem getLsbD_wordByte (word : BitVec 32) (j : Fin 4) {i : ℕ} (hi : i < 8) :
    (wordByte word j).getLsbD i = word.getLsbD (8 * j + i) := by
  have hmask : (0xFF#32).getLsbD i = true := by
    interval_cases i <;> rfl
  rw [wordByte, BitVec.getLsbD_setWidth, BitVec.getLsbD_and, hmask, Bool.and_true,
    BitVec.getLsbD_sshiftRight, if_pos (by omega), decide_eq_true hi, decide_eq_false (by omega)]
  rfl

/-- Shifting a byte to the top of the word and back extends its sign. -/
theorem shifted_eq_signExtend (word : BitVec 32) (j : Fin 4) :
    (word <<< (24 - 8 * (j : ℕ))).sshiftRight 24 = (wordByte word j).signExtend 32 := by
  apply BitVec.eq_of_getLsbD_eq
  intro i hi
  have hmsb : (word <<< (24 - 8 * (j : ℕ))).msb = word.getLsbD (8 * j + 7) := by
    rw [BitVec.msb_eq_getLsbD_last, BitVec.getLsbD_shiftLeft, decide_eq_true (by decide),
      decide_eq_false (by omega)]
    simp only [Bool.not_false, Bool.true_and]
    congr 1
    omega
  rw [BitVec.getLsbD_sshiftRight, BitVec.getLsbD_signExtend, decide_eq_true hi,
    decide_eq_false (by omega), Bool.not_false]
  by_cases hlow : i < 8
  · rw [if_pos (by omega), if_pos hlow, getLsbD_wordByte word j hlow, BitVec.getLsbD_shiftLeft,
      decide_eq_true (by omega), decide_eq_false (by omega)]
    simp only [Bool.not_false, Bool.true_and]
    congr 1
    omega
  · rw [if_neg (by omega), if_neg hlow, hmsb, BitVec.msb_eq_getLsbD_last,
      getLsbD_wordByte word j (by decide)]

theorem toInt_shifted (word : BitVec 32) (j : Fin 4) :
    ((word <<< (24 - 8 * (j : ℕ))).sshiftRight 24).toInt = (wordByte word j).toInt := by
  rw [shifted_eq_signExtend]
  exact BitVec.toInt_signExtend_of_le (by decide)

theorem lo_append (hi lo : BitVec 32) : ((hi ++ lo) &&& 0xFFFFFFFF#64).setWidth 32 = lo := by
  apply BitVec.eq_of_getLsbD_eq
  intro i h
  have hmask : (0xFFFFFFFF#64).getLsbD i = true := by
    have hbit := Nat.testBit_two_pow_sub_one 32 i
    rw [decide_eq_true h] at hbit
    exact hbit
  rw [BitVec.getLsbD_setWidth, BitVec.getLsbD_and, hmask, BitVec.getLsbD_append, if_pos h,
    decide_eq_true h, Bool.true_and, Bool.and_true]

theorem hi_append (hi lo : BitVec 32) : ((hi ++ lo).sshiftRight 32).setWidth 32 = hi := by
  apply BitVec.eq_of_getLsbD_eq
  intro i h
  rw [BitVec.getLsbD_setWidth, BitVec.getLsbD_sshiftRight, if_pos (by omega), BitVec.getLsbD_append,
    if_neg (by omega), decide_eq_true h, decide_eq_false (by omega), Nat.add_sub_cancel_left]
  rfl

/-- Byte `j` of the even word, then byte `j` of the odd one. -/
theorem toInt_kernelBytes (hi lo : BitVec 32) (half : Fin 2) (j : Fin 4) :
    (kernelBytes (hi ++ lo) (finProdFinEquiv (half, j))).toInt =
      (wordByte (if half = 0 then lo else hi) j).toInt := by
  -- the top byte needs no left shift
  have htop : ∀ word : BitVec 32, word.sshiftRight 24 = (word <<< 0).sshiftRight 24 := by
    intro word
    rw [BitVec.shiftLeft_zero]
  simp only [kernelBytes, lo_append, hi_append]
  rw [← toInt_shifted, htop lo, htop hi]
  fin_cases half <;> fin_cases j <;> rfl

/-! ## The codec's reading of the same bytes -/

theorem unpackInt8_bits (wp : Fin N → Fin KW → BitVec 32) (r : Fin N) (k : Fin (KW * 4)) :
    (unpackInt8 wp r k).toNat = bitSum (fun i => rowBit (wp r) (k * 8 + i)) 8 := by
  obtain ⟨word, j, rfl⟩ := exists_row k
  rw [unpackInt8, flatten_apply]
  apply Nat.eq_of_testBit_eq
  intro i
  rw [BitVec.testBit_toNat, testBit_bitSum]
  by_cases hi : i < 8
  · have hplace : ((finProdFinEquiv (word, j) : ℕ) * 8 + i) / 32 = word ∧
        ((finProdFinEquiv (word, j) : ℕ) * 8 + i) % 32 = 8 * j + i := by
      simp only [finProdFinEquiv_apply_val]
      omega
    rw [getLsbD_wordByte _ _ hi, decide_eq_true hi, Bool.true_and, rowBit,
      dif_pos (by rw [hplace.1]; exact word.isLt)]
    simp only [hplace.1, hplace.2]
  · rw [BitVec.getLsbD_of_ge _ _ (by omega), decide_eq_false hi, Bool.false_and]

/-- All columns of the matrix are within what the codec unpacks. -/
theorem column_lt (k : Fin (KW * 4)) : (k : ℕ) < min (KW * 4) (numGroups KW 8 * 32) := by
  have hgroups := numGroups_mul KW (show 0 < 8 by decide)
  have hk := k.isLt
  omega

/-- `unpack_from_int32(wp, 8, cols)` at column `k`. -/
def codecInt8 (wp : Fin N → Fin KW → BitVec 32) (r : Fin N) (k : Fin (KW * 4)) : BitVec 8 :=
  unpackFromInt32 (show 0 < 8 by decide) wp (KW * 4) r ⟨k, column_lt k⟩

/-- The reference's reader and the codec's give one integer everywhere. -/
def ReadersAgree (wp : Fin N → Fin KW → BitVec 32) : Prop :=
  ∀ r k, (unpackInt8 wp r k).toInt = (codecInt8 wp r k).toInt

/-- The kernel's bytes and the codec's reading are one integer everywhere. -/
def KernelAgrees (wp : Fin N → Fin (KQ * 2) → BitVec 32) : Prop :=
  ∀ r q half j, (kernelBytes (viewInt64 wp r q) (finProdFinEquiv ((half, j) : Fin 2 × Fin 4))).toInt =
    (codecInt8 wp r (finProdFinEquiv (finProdFinEquiv (q, half), j))).toInt

theorem toInt_kernelBytes_viewInt64 (wp : Fin N → Fin (KQ * 2) → BitVec 32) (r : Fin N) (q : Fin KQ)
    (half : Fin 2) (j : Fin 4) :
    (kernelBytes (viewInt64 wp r q) (finProdFinEquiv (half, j))).toInt =
      (unpackInt8 wp r (finProdFinEquiv (finProdFinEquiv (q, half), j))).toInt := by
  rw [viewInt64, toInt_kernelBytes, unpackInt8, flatten_apply]
  fin_cases half <;> rfl

/-- The offset is missing from every byte. -/
theorem unpackInt8_ne_codecInt8 (wp : Fin N → Fin KW → BitVec 32) (r : Fin N) (k : Fin (KW * 4)) :
    (unpackInt8 wp r k).toInt ≠ (codecInt8 wp r k).toInt := by
  have hcodec := unpackFromInt32_apply (show 0 < 8 by decide) (by decide) wp (KW * 4) r
    ⟨k, column_lt k⟩
  rw [← unpackInt8_bits] at hcodec
  rw [codecInt8, hcodec, BitVec.toInt_eq_toNat_cond]
  split <;> omega

theorem readersAgree_iff (wp : Fin N → Fin KW → BitVec 32) : ReadersAgree wp ↔ N = 0 ∨ KW = 0 := by
  constructor
  · intro h
    by_contra hne
    have hcol : 0 < KW * 4 := by omega
    exact unpackInt8_ne_codecInt8 wp ⟨0, by omega⟩ ⟨0, hcol⟩ (h _ _)
  · intro h r k
    have hr := r.isLt
    have hk := k.isLt
    omega

theorem kernelAgrees_iff (wp : Fin N → Fin (KQ * 2) → BitVec 32) :
    KernelAgrees wp ↔ N = 0 ∨ KQ = 0 := by
  constructor
  · intro h
    by_contra hne
    have hbyte := h ⟨0, by omega⟩ ⟨0, by omega⟩ 0 0
    rw [toInt_kernelBytes_viewInt64] at hbyte
    exact unpackInt8_ne_codecInt8 wp _ _ hbyte
  · intro h r q
    have hr := r.isLt
    have hq := q.isLt
    omega

/-- On a zero word the GEMV reads `0` and the codec `-128`. -/
theorem readers_differ_on_zero : ¬ ReadersAgree fun (_ : Fin 1) (_ : Fin 1) => 0#32 := by
  intro h
  exact unpackInt8_ne_codecInt8 _ 0 0 (h 0 0)

/-- Neither of the GEMV's readers agrees with the codec on a matrix that has an element. -/
theorem readers_agree_iff_empty (wp : Fin N → Fin KW → BitVec 32)
    (wq : Fin N → Fin (KQ * 2) → BitVec 32) :
    (ReadersAgree wp ↔ N = 0 ∨ KW = 0) ∧ (KernelAgrees wq ↔ N = 0 ∨ KQ = 0) :=
  ⟨readersAgree_iff wp, kernelAgrees_iff wq⟩

end SparkKit.Gemv.Weights
