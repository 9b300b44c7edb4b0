import SparkKit.Tailquant.RingCodec
import Mathlib.Algebra.BigOperators.Ring.Finset
import Mathlib.Algebra.Order.Field.Rat
import Mathlib.Algebra.Order.Ring.Abs

/-!
# The vectorised tile encoder

`encode_tile_vec` does not write its trials into the ring. It reads the window once, clears
the element's own bits in the number and adds each row of a candidate matrix at their slots.
The matrix has sixteen rows whatever the width, so wider fields are searched only in part.
-/
namespace SparkKit.Tailquant.VectorEncode

open SparkKit.Lib.BitSum SparkKit.Lib.FirstMin SparkKit.Lib.Scatter
open SparkKit.Tailquant.RingCodec

/-- `idx` of element `t`. -/
def window (bits t : ℕ) : List ℕ := (List.range 16).map (windowIndex bits t)

/-- `SLOTS[t, b]`, or `-1` where the own bit is outside the window. -/
def slot (bits t b : ℕ) : ℤ :=
  let fp := (t * bits + b) % totalBits bits
  if fp ∈ window bits t then (window bits t).idxOf fp else -1

variable {V : Type*} [AddCommGroup V] [LinearOrder V] (bits : ℕ) (lut : ℕ → V) (flat : ℕ → V)

/-- `s`, the slots of element `t` once the assertion on `SLOTS` has passed. -/
def s (bits t b : ℕ) : ℕ := (slot bits t b).toNat

/-- `cleared`, the window's number without the own bits. -/
def cleared (bits : ℕ) (ring : Ring) (t : ℕ) : ℕ :=
  let w0 := codeword bits ring t
  w0 - ∑ b ∈ Finset.range bits, (w0.testBit (s bits t b)).toNat <<< s bits t b

/-- Entry `c` of `cands`; bit `b` of `c` is `BITS_MAT[c, b]`. -/
def cands (bits : ℕ) (ring : Ring) (t c : ℕ) : ℕ :=
  cleared bits ring t + ∑ b ∈ Finset.range bits, (c.testBit b).toNat <<< s bits t b

/-- `best`, over the sixteen rows of `BITS_MAT`. -/
def best (ring : Ring) (t : ℕ) : ℕ := argmin (fun c => |lut (cands bits ring t c) - flat t|) 16

def encodeElementVec (ring : Ring) (t : ℕ) : Ring :=
  scatter ((List.range bits).map fun b =>
    (windowIndex bits t (s bits t b), (best bits lut flat ring t).testBit b)) ring

/-- `encode_tile_vec` after the elements below `n`. -/
def encodeVecUpTo (ring : Ring) (n : ℕ) : Ring :=
  (List.range n).foldl (encodeElementVec bits lut flat) ring

def encodeTileVec (ring : Ring) : Ring := encodeVecUpTo bits lut flat ring 256

/-- From a zero ring the two encoders emit one bit stream. -/
def StreamsAgree : Prop := ∀ i < totalBits bits,
  encodeTileVec bits lut flat zeroRing i = wordBit (encodeTile bits lut flat) i

/-! ## The slots -/

section
variable {bits} {t b j j' : ℕ}

theorem windowIndex_own (hbits : bits ≤ 16) (ht : t < 256) (hb : b < bits) :
    windowIndex bits t (16 - bits + b) = t * bits + b := by
  have hsucc : (t + 1) * bits = t * bits + bits := Nat.succ_mul t bits
  rw [windowIndex_of_le ht (by omega) (by omega)]
  omega

/-- The rest of the window lies outside the own field, before it or wrapped to the end. -/
theorem windowIndex_context (hpos : 0 < bits) (ht : t < 256) (hj : j < 16 - bits) :
    windowIndex bits t j < t * bits ∨ (t + 1) * bits ≤ windowIndex bits t j := by
  have hsucc : (t + 1) * bits = t * bits + bits := Nat.succ_mul t bits
  have htotal : totalBits bits = bits * 256 := rfl
  rcases Nat.lt_or_ge ((t + 1) * bits + j) 16 with hlt | hge
  · rw [windowIndex_wrap hpos hlt]
    omega
  · rw [windowIndex_of_le ht (by omega) hge]
    omega

theorem windowIndex_injective (hpos : 0 < bits) (ht : t < 256) (hj : j < 16) (hj' : j' < 16)
    (h : windowIndex bits t j = windowIndex bits t j') : j = j' := by
  have hle := succ_mul_bits_le bits ht
  have htotal : totalBits bits = bits * 256 := rfl
  rcases Nat.lt_or_ge ((t + 1) * bits + j) 16 with hlt | hge <;>
    rcases Nat.lt_or_ge ((t + 1) * bits + j') 16 with hlt' | hge'
  · rw [windowIndex_wrap hpos hlt, windowIndex_wrap hpos hlt'] at h
    omega
  · rw [windowIndex_wrap hpos hlt, windowIndex_of_le ht hj' hge'] at h
    omega
  · rw [windowIndex_of_le ht hj hge, windowIndex_wrap hpos hlt'] at h
    omega
  · rw [windowIndex_of_le ht hj hge, windowIndex_of_le ht hj' hge'] at h
    omega

theorem window_nodup (hpos : 0 < bits) (ht : t < 256) : (window bits t).Nodup := by
  refine List.Nodup.map_on (fun j hj j' hj' h => ?_) List.nodup_range
  exact windowIndex_injective hpos ht (List.mem_range.mp hj) (List.mem_range.mp hj') h

/-- The assertion on `SLOTS` passes at every width: the own field ends the window. -/
theorem slot_eq (hpos : 0 < bits) (hbits : bits ≤ 16) (ht : t < 256) (hb : b < bits) :
    slot bits t b = (16 - bits + b : ℕ) := by
  have hsucc : (t + 1) * bits = t * bits + bits := Nat.succ_mul t bits
  have hle := succ_mul_bits_le bits ht
  have hlength : (window bits t).length = 16 := by rw [window, List.length_map, List.length_range]
  have hslot : 16 - bits + b < (window bits t).length := by omega
  have hplace : (window bits t)[16 - bits + b] = (t * bits + b) % totalBits bits := by
    rw [Nat.mod_eq_of_lt (by omega), ← windowIndex_own hbits ht hb]
    simp only [window, List.getElem_map, List.getElem_range]
  simp only [slot]
  rw [← hplace, if_pos (List.getElem_mem _), (window_nodup hpos ht).idxOf_getElem]

theorem s_eq (hpos : 0 < bits) (hbits : bits ≤ 16) (ht : t < 256) (hb : b < bits) :
    s bits t b = 16 - bits + b := by
  rw [s, slot_eq hpos hbits ht hb, Int.toNat_natCast]

end

/-! ## One element -/

section
variable {bits lut flat} {t : ℕ}

theorem cleared_eq (hpos : 0 < bits) (hbits : bits ≤ 16) (ring : Ring) (ht : t < 256) :
    cleared bits ring t = bitSum (fun j => ring (windowIndex bits t j)) (16 - bits) := by
  have hsplit := bitSum_add (fun j => ring (windowIndex bits t j)) (16 - bits) bits
  rw [show 16 - bits + bits = 16 by omega] at hsplit
  have hown : ∑ b ∈ Finset.range bits,
        ((codeword bits ring t).testBit (s bits t b)).toNat <<< s bits t b =
      ∑ b ∈ Finset.range bits, (ring (windowIndex bits t (16 - bits + b))).toNat <<< (16 - bits + b) := by
    refine Finset.sum_congr rfl fun b hb => ?_
    have hb := Finset.mem_range.mp hb
    rw [s_eq hpos hbits ht hb, codeword, testBit_bitSum_of_lt (by omega)]
  rw [cleared, hown, codeword, hsplit, Nat.add_sub_cancel]

/-- A candidate is the window's number after its choice is written into the ring. -/
theorem cands_eq (hpos : 0 < bits) (hbits : bits ≤ 16) (ring : Ring) (ht : t < 256) (c : ℕ) :
    cands bits ring t c = codeword bits (writeField bits ring t c) t := by
  have hsplit := bitSum_add (fun j => writeField bits ring t c (windowIndex bits t j)) (16 - bits) bits
  rw [show 16 - bits + bits = 16 by omega] at hsplit
  have hcontext : bitSum (fun j => writeField bits ring t c (windowIndex bits t j)) (16 - bits) =
      cleared bits ring t := by
    rw [cleared_eq hpos hbits ring ht]
    exact bitSum_congr fun j hj => writeField_other _ ht (windowIndex_context hpos ht hj)
  rw [codeword, hsplit, hcontext, cands]
  refine congrArg (cleared bits ring t + ·) (Finset.sum_congr rfl fun b hb => ?_)
  have hb := Finset.mem_range.mp hb
  rw [s_eq hpos hbits ht hb, windowIndex_own hbits ht hb, writeField_own _ ht hb]

theorem best_eq (hpos : 0 < bits) (hbits : bits ≤ 16) (ring : Ring) (ht : t < 256) :
    best bits lut flat ring t = argmin (trialError bits lut flat ring t) 16 := by
  simp only [best, cands_eq hpos hbits ring ht]
  rfl

theorem encodeElementVec_eq (hpos : 0 < bits) (hbits : bits ≤ 16) (ring : Ring) (ht : t < 256) :
    encodeElementVec bits lut flat ring t =
      writeField bits ring t (argmin (trialError bits lut flat ring t) 16) := by
  rw [encodeElementVec, writeField, best_eq hpos hbits ring ht]
  refine congrArg (scatter · ring) (List.map_congr_left fun b hb => ?_)
  have hb := List.mem_range.mp hb
  rw [s_eq hpos hbits ht hb, windowIndex_own hbits ht hb, fieldIndex_eq ht hb]

/-- Only the low bits of a choice are written. -/
theorem trialError_mod (ring : Ring) (c : ℕ) :
    trialError bits lut flat ring t (c % 2 ^ bits) = trialError bits lut flat ring t c := by
  have hwrite : writeField bits ring t (c % 2 ^ bits) = writeField bits ring t c := by
    refine congrArg (scatter · ring) (List.map_congr_left fun b hb => ?_)
    rw [Nat.testBit_mod_two_pow, decide_eq_true (List.mem_range.mp hb), Bool.true_and]
  rw [trialError, trialError, hwrite]

/-- No choice beyond the matrix is strictly closer than every row of it. -/
def SixteenSuffice (bits : ℕ) (lut flat : ℕ → V) (ring : Ring) (t : ℕ) : Prop :=
  ∀ choice < 2 ^ bits, ∃ c < 16,
    trialError bits lut flat ring t c ≤ trialError bits lut flat ring t choice

theorem sixteenSuffice_of_le (hbits : bits ≤ 4) (ring : Ring) :
    SixteenSuffice bits lut flat ring t := by
  intro choice hchoice
  have hpow : 2 ^ bits ≤ 2 ^ 4 := Nat.pow_le_pow_right Nat.two_pos hbits
  exact ⟨choice, by omega, le_refl _⟩

theorem bestBits_isFirstMin (bits : ℕ) (lut flat : ℕ → V) (t : ℕ) (ring : Ring) :
    IsFirstMin (trialError bits lut flat ring t) (2 ^ bits) (bestBits bits lut flat ring t) := by
  rw [bestBits, Nat.one_shiftLeft]
  exact argmin_isFirstMin _ (Nat.two_pow_pos bits)

theorem vec_isFirstMin (bits : ℕ) (lut flat : ℕ → V) (t : ℕ) (ring : Ring) : IsFirstMin (trialError bits lut flat ring t) 16
    (argmin (trialError bits lut flat ring t) 16) :=
  argmin_isFirstMin _ (by decide)

/-- Where the matrix holds a best choice the two searches end at the same row. -/
theorem argmin_eq_bestBits (ring : Ring) (h : SixteenSuffice bits lut flat ring t) :
    argmin (trialError bits lut flat ring t) 16 = bestBits bits lut flat ring t := by
  have hscalar := bestBits_isFirstMin bits lut flat t ring
  have hlt : bestBits bits lut flat ring t < 16 := by
    by_contra hge
    obtain ⟨c, hc, hle⟩ := h _ hscalar.lt
    exact absurd (hscalar.first c (by omega)) (not_lt.mpr hle)
  refine (vec_isFirstMin bits lut flat t ring).unique ⟨hlt, fun j _ => ?_, hscalar.first⟩
  rw [← trialError_mod ring j]
  exact hscalar.le _ (Nat.mod_lt j (Nat.two_pow_pos bits))

theorem argmin_ne_bestBits (ring : Ring) (h : ¬ SixteenSuffice bits lut flat ring t) :
    argmin (trialError bits lut flat ring t) 16 < 2 ^ bits ∧
      16 ≤ bestBits bits lut flat ring t := by
  have hscalar := bestBits_isFirstMin bits lut flat t ring
  have hbits : 4 < bits := by
    by_contra hle
    exact h (sixteenSuffice_of_le (by omega) ring)
  have hpow : 2 ^ 4 ≤ 2 ^ bits := Nat.pow_le_pow_right Nat.two_pos hbits.le
  refine ⟨(vec_isFirstMin bits lut flat t ring).lt.trans_le hpow, ?_⟩
  by_contra hlt
  exact h fun choice hchoice => ⟨_, by omega, hscalar.le choice hchoice⟩

end

/-! ## The whole tile -/

section
variable {bits lut flat} {t n : ℕ}

theorem encodeVecUpTo_eq (hpos : 0 < bits) (hbits : bits ≤ 16) (ring : Ring) (hn : n ≤ 256) :
    encodeVecUpTo bits lut flat ring n = (List.range n).foldl
      (fun ring t => writeField bits ring t (argmin (trialError bits lut flat ring t) 16)) ring := by
  refine List.foldl_ext _ _ ring fun ring t ht => ?_
  exact encodeElementVec_eq hpos hbits ring ((List.mem_range.mp ht).trans_le hn)

theorem encodeVecUpTo_succ (hpos : 0 < bits) (hbits : bits ≤ 16) (ring : Ring) (hn : n < 256) :
    encodeVecUpTo bits lut flat ring (n + 1) = writeField bits (encodeVecUpTo bits lut flat ring n) n
      (argmin (trialError bits lut flat (encodeVecUpTo bits lut flat ring n) n) 16) := by
  rw [encodeVecUpTo, List.range_succ, List.foldl_append]
  exact encodeElementVec_eq hpos hbits _ hn

theorem encodeTileUpTo_succ (hn : n < 256) :
    encodeTileUpTo bits lut flat (n + 1) = writeField bits (encodeTileUpTo bits lut flat n) n
      (bestBits bits lut flat (encodeTileUpTo bits lut flat n) n) := by
  rw [encodeTileUpTo, List.range_succ, List.foldl_append]
  exact encodeTileElement_eq _ hn

/-- The two rings stay equal while the sixteen rows suffice. -/
theorem encodeVecUpTo_eq_scalar (hpos : 0 < bits) (hbits : bits ≤ 16) (hn : n ≤ 256)
    (h : ∀ t < n, SixteenSuffice bits lut flat (encodeTileUpTo bits lut flat t) t) :
    encodeVecUpTo bits lut flat zeroRing n = encodeTileUpTo bits lut flat n := by
  induction n with
  | zero => rfl
  | succ n ih =>
    have hprev := ih (by omega) fun t ht => h t (by omega)
    rw [encodeVecUpTo_succ hpos hbits _ hn, encodeTileUpTo_succ hn, hprev,
      argmin_eq_bestBits _ (h n (Nat.lt_succ_self n))]

/-- The first element where they do not suffice leaves the two streams different for good. -/
theorem not_streamsAgree (hpos : 0 < bits) (hbits : bits ≤ 16) (ht : t < 256)
    (hbefore : ∀ m < t, SixteenSuffice bits lut flat (encodeTileUpTo bits lut flat m) m)
    (hnot : ¬ SixteenSuffice bits lut flat (encodeTileUpTo bits lut flat t) t) :
    ¬ StreamsAgree bits lut flat := by
  have hle := succ_mul_bits_le bits ht
  have hsucc : (t + 1) * bits = t * bits + bits := Nat.succ_mul t bits
  have hsame := encodeVecUpTo_eq_scalar hpos hbits ht.le hbefore
  obtain ⟨hvec, hscalar⟩ := argmin_ne_bestBits _ hnot
  have hmin := bestBits_isFirstMin bits lut flat t
    (encodeTileUpTo bits lut flat t)
  have hmin16 := vec_isFirstMin bits lut flat t
    (encodeTileUpTo bits lut flat t)
  have hne := (hmin16.lt.trans_le hscalar).ne
  obtain ⟨b, hb, hbit⟩ : ∃ b < bits,
      (argmin (trialError bits lut flat (encodeTileUpTo bits lut flat t) t) 16).testBit b ≠
        (bestBits bits lut flat (encodeTileUpTo bits lut flat t) t).testBit b := by
    by_contra hall
    refine hne (Nat.eq_of_testBit_eq fun b => ?_)
    rcases Nat.lt_or_ge b bits with hlt | hge
    · by_contra hbit
      exact hall ⟨b, hlt, hbit⟩
    · have hpow : 2 ^ bits ≤ 2 ^ b := Nat.pow_le_pow_right Nat.two_pos hge
      rw [Nat.testBit_lt_two_pow (hvec.trans_le hpow), Nat.testBit_lt_two_pow (hmin.lt.trans_le hpow)]
  have hlt : t * bits + b < (t + 1) * bits := by omega
  intro hagree
  have hbit' := hagree (t * bits + b) (by omega)
  rw [encodeTileVec, encodeVecUpTo_eq hpos hbits _ (Nat.le_refl 256),
    foldl_writeField_final _ _ ht (Nat.le_refl 256) hlt, ← encodeVecUpTo_eq hpos hbits _ ht,
    encodeVecUpTo_succ hpos hbits _ ht, hsame, writeField_own _ ht hb,
    wordBit_encodeTile (by omega), encodeUpTo_final _ ht (Nat.le_refl 256) hlt,
    ← encodeTileUpTo_eq ht, encodeTileUpTo_succ ht, writeField_own _ ht hb] at hbit'
  exact hbit hbit'

/-- The two streams agree exactly when the sixteen rows suffice at every element, with the
ring as it stands there. -/
theorem streams_agree_iff (hpos : 0 < bits) (hbits : bits ≤ 16) :
    StreamsAgree bits lut flat ↔
      ∀ t < 256, SixteenSuffice bits lut flat (encodeTileUpTo bits lut flat t) t := by
  constructor
  · intro hagree t
    induction t using Nat.strong_induction_on with
    | _ t ih =>
      intro ht
      by_contra hnot
      exact not_streamsAgree hpos hbits ht (fun m hm => ih m hm (hm.trans ht)) hnot hagree
  · intro h i hi
    rw [wordBit_encodeTile hi, ← encodeTileUpTo_eq (Nat.le_refl 256),
      ← encodeVecUpTo_eq_scalar hpos hbits (Nat.le_refl 256) h]
    rfl

end

/-! ## Widths above four -/

/-- A table whose only zero is the codeword that choice `16` gives the first element. -/
def spikeLut (bits w : ℕ) : ℚ := if w = 16 <<< (16 - bits) then 0 else 1

theorem codeword_zeroRing {bits c : ℕ} (hpos : 0 < bits) (hbits : bits ≤ 16) (hc : c < 2 ^ bits) :
    codeword bits (writeField bits zeroRing 0 c) 0 = c <<< (16 - bits) := by
  have hcleared : cleared bits zeroRing 0 = 0 := by
    rw [cleared_eq hpos hbits zeroRing (by decide)]
    exact Finset.sum_eq_zero fun j _ => Nat.zero_shiftLeft j
  have hshift : ∀ b ∈ Finset.range bits, (c.testBit b).toNat <<< s bits 0 b =
      ((c.testBit b).toNat <<< b) * 2 ^ (16 - bits) := by
    intro b hb
    rw [s_eq hpos hbits (by decide) (Finset.mem_range.mp hb), Nat.add_comm, Nat.shiftLeft_add,
      Nat.shiftLeft_eq _ (16 - bits)]
  rw [← cands_eq hpos hbits zeroRing (by decide), cands, hcleared, Nat.zero_add,
    Finset.sum_congr rfl hshift, ← Finset.sum_mul, Nat.shiftLeft_eq]
  exact congrArg (· * 2 ^ (16 - bits)) (bitSum_testBit hc)

theorem trialError_spike {bits c : ℕ} (hpos : 0 < bits) (hbits : bits ≤ 16) (hc : c < 2 ^ bits) :
    trialError bits (spikeLut bits) (fun _ => 0) zeroRing 0 c = if c = 16 then 0 else 1 := by
  have hinj : c <<< (16 - bits) = 16 <<< (16 - bits) ↔ c = 16 := by
    rw [Nat.shiftLeft_eq, Nat.shiftLeft_eq]
    exact Nat.mul_left_inj (Nat.two_pow_pos _).ne'
  rw [trialError, codeword_zeroRing hpos hbits hc, spikeLut]
  simp only [hinj, sub_zero]
  split
  · exact abs_zero
  · exact abs_one

theorem not_sixteenSuffice_spike {bits : ℕ} (hbits : 4 < bits) (hbits' : bits ≤ 16) :
    ¬ SixteenSuffice bits (spikeLut bits) (fun _ => 0) zeroRing 0 := by
  intro h
  have hpow : 2 ^ 5 ≤ 2 ^ bits := Nat.pow_le_pow_right Nat.two_pos hbits
  obtain ⟨c, hc, hle⟩ := h 16 (by omega)
  rw [trialError_spike (by omega) hbits' (by omega), trialError_spike (by omega) hbits' (by omega),
    if_neg (by omega), if_pos rfl] at hle
  exact absurd hle (by decide)

theorem not_streamsAgree_spike {bits : ℕ} (hbits : 4 < bits) (hbits' : bits ≤ 16) :
    ¬ StreamsAgree bits (spikeLut bits) fun _ => 0 :=
  not_streamsAgree (by omega) hbits' (by decide) (fun m hm => absurd hm (Nat.not_lt_zero m))
    (not_sixteenSuffice_spike hbits hbits')

/-- At five bits the sixteen rows miss the only exact choice of the first element. -/
theorem streams_differ_at_five_bits : ¬ StreamsAgree 5 (spikeLut 5) fun _ => 0 :=
  not_streamsAgree (by decide) (by decide) (by decide) (fun m hm => absurd hm (Nat.not_lt_zero m))
    (not_sixteenSuffice_spike (by decide) (by decide))

/-- For each table and tile the streams agree exactly when sixteen candidates suffice at every
element, given the bits before it; for all tables and tiles, exactly up to four bits. -/
theorem encodeTileVec_eq_scalar_iff (hpos : 0 < bits) (hbits : bits ≤ 16) :
    (StreamsAgree bits lut flat ↔
      ∀ t < 256, SixteenSuffice bits lut flat (encodeTileUpTo bits lut flat t) t) ∧
    ((∀ lut flat : ℕ → ℚ, StreamsAgree bits lut flat) ↔ bits ≤ 4) := by
  refine ⟨streams_agree_iff hpos hbits, fun hall => ?_, fun hle lut flat => ?_⟩
  · by_contra hlt
    exact not_streamsAgree_spike (by omega) hbits (hall _ _)
  · exact (streams_agree_iff hpos hbits).mpr fun t _ => sixteenSuffice_of_le hle _

/-- Three bits always agree; five bits do on a constant table, where every row is a best one,
and not on the table with the spike. -/
theorem encodeTileVec_eq_scalar_iff_three_bits :
    (∀ lut flat : ℕ → ℚ, StreamsAgree 3 lut flat) ∧
    StreamsAgree 5 (fun _ => (7 : ℚ)) (fun t => t) ∧ ¬ StreamsAgree 5 (spikeLut 5) (fun _ => 0) := by
  have hthree := encodeTileVec_eq_scalar_iff 3 (fun w => (w : ℚ)) (fun _ => 0) (by decide) (by decide)
  have hconstant := encodeTileVec_eq_scalar_iff 5 (fun _ => (7 : ℚ)) (fun t => t)
    (by decide) (by decide)
  have hspike := encodeTileVec_eq_scalar_iff 5 (spikeLut 5) (fun _ => 0) (by decide) (by decide)
  refine ⟨hthree.2.mpr (by decide), hconstant.1.mpr ?_, fun hagree => ?_⟩
  · exact fun t _ choice _ => ⟨0, by decide, le_refl _⟩
  · exact not_sixteenSuffice_spike (by decide) (by decide) (hspike.1.mp hagree 0 (by decide))

end SparkKit.Tailquant.VectorEncode
