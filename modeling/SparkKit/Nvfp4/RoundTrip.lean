import Mathlib.Tactic.IntervalCases
import SparkKit.Nvfp4.Writer

/-!
# What a record gives back

At the byte level unpacking inverts packing. In exact arithmetic a group is quantised with
its rounded scale: rounding the scale moves the largest element past the last grid point by
at most three eighths, and the grid has no gap wider than two.
-/
namespace SparkKit.Nvfp4.RoundTrip

open SparkKit.Lib.Minifloat
open SparkKit.Nvfp4.Scalars SparkKit.Nvfp4.Record SparkKit.Nvfp4.Writer

variable {X F : Type}

/-- `nope` of `unpack_records` at one dimension. -/
def unpackNope (ops : ScalarOps X F) (latentScale : F) (bytes : List UInt8) (d : ℕ) : F :=
  let fields := unpackRecord bytes
  ops.mul (ops.mul (e2m1Decode ops (fields.codes.getD d 0))
    (ops.ofE4m3 (fields.groupScales.getD (d / 16) 0))) latentScale

/-- A scale byte with a nonzero exponent field, no sign, and not the NaN pattern. -/
def NormalScale (b : UInt8) : Prop := 8 ≤ b.toNat ∧ b.toNat < 127

/-! ## Reading a packed record -/

theorem getD_row {n d : ℕ} (h : d < n) (f : ℕ → UInt8) : (row n f).getD d 0 = f d := by
  simp [row, h]

/-- Unpacking sees the quantised codes and scales themselves. -/
theorem unpackNope_packRecord (ops : ScalarOps X F) (latentScale : LatentScale F) (tok : Token X)
    (layout : RecordLayout) (scale : F) {d : ℕ} (hd : d < 512) :
    unpackNope ops scale (packRecord ops latentScale tok layout) d =
      ops.mul (ops.mul (e2m1Decode ops (latentCode ops latentScale tok d))
        (ops.ofE4m3 (groupScaleByte ops latentScale tok (d / 16)))) scale := by
  have hround := unpackRecord_catRecord
    (fun d => ⟨latentCode ops latentScale tok d, e2m1Encode_lt ops _⟩)
    (groupScaleByte ops latentScale tok) (ropePayload ops tok layout)
  have hpack : unpackRecord (packRecord ops latentScale tok layout) =
      unpacked (latentCode ops latentScale tok) (groupScaleByte ops latentScale tok)
        (ropePayload ops tok layout) := hround
  rw [unpackNope, hpack]
  simp only [unpacked, getD_row hd, getD_row (show d / 16 < 32 by omega)]

/-! ## Rounding to the E2M1 grid -/

/-- Where a prefix of a list stops: its elements satisfy the property, the next does not. -/
theorem takeWhile_boundary (p : ℚ → Bool) (l : List ℚ) :
    (∀ i < (l.takeWhile p).length, p (l.getD i 0)) ∧
      ((l.takeWhile p).length < l.length → p (l.getD (l.takeWhile p).length 0) = false) := by
  induction l with
  | nil => simp
  | cons a l ih =>
    cases ha : p a
    · simp [ha]
    · rw [List.takeWhile_cons_of_pos ha]
      constructor
      · intro i hi
        cases i with
        | zero => exact ha
        | succ i => exact ih.1 i (by simpa using hi)
      · intro hlt
        exact ih.2 (by simpa using hlt)

theorem bucket_error {a : ℚ} {idx : ℕ} (hidx : idx ≤ 7)
    (hlow : ∀ i < idx, e2m1Mid.getD i 0 < a) (hhigh : idx < 7 → a ≤ e2m1Mid.getD idx 0)
    (hzero : 0 ≤ a) (hsix : a ≤ 6) : |a - e2m1Grid.getD idx 0| ≤ 1 := by
  rw [e2m1Mid_eq] at hlow hhigh
  rw [abs_le]
  interval_cases idx
  · have hnext := hhigh (by decide)
    simp [e2m1Grid] at *
    constructor <;> linarith
  all_goals
    have hlast := hlow _ (Nat.lt_succ_self _)
    simp [e2m1Grid] at *
    constructor <;> linarith

theorem code_bits : ∀ idx < 8, ∀ negative : Bool,
    let sign : UInt8 := if negative then 1 else 0
    let code : UInt8 := if idx = 0 then 0 else UInt8.ofNat idx ||| sign <<< 3
    (code &&& 0x7).toNat = idx ∧ (code &&& 0x8 ≠ 0 ↔ negative ∧ idx ≠ 0) := by
  decide

section
variable (float32Bytes bfloat16Bytes : ℚ → ℕ → UInt8)

/-- Decoding an encoded number: the grid point of its bucket, with its sign. -/
theorem decode_encode (q : ℚ) :
    ∃ idx ≤ 7, (∀ i < idx, e2m1Mid.getD i 0 < |q|) ∧ (idx < 7 → |q| ≤ e2m1Mid.getD idx 0) ∧
      e2m1Decode (exactOps float32Bytes bfloat16Bytes)
          (e2m1Encode (exactOps float32Bytes bfloat16Bytes) q) =
        if q < 0 then -e2m1Grid.getD idx 0 else e2m1Grid.getD idx 0 := by
  obtain ⟨hlow, hhigh⟩ := takeWhile_boundary (fun m => decide (m < |q|)) e2m1Mid
  have hlen : e2m1Mid.length = 7 := rfl
  have hle : (e2m1Mid.takeWhile fun m => decide (m < |q|)).length ≤ 7 := by
    rw [← hlen]
    exact (List.takeWhile_prefix _).length_le
  rw [hlen] at hhigh
  have hcode : e2m1Encode (exactOps float32Bytes bfloat16Bytes) q =
      let sign : UInt8 := if decide (q < 0) then 1 else 0
      let idx := (e2m1Mid.takeWhile fun m => decide (m < |q|)).length
      (if idx = 0 then 0 else UInt8.ofNat idx ||| sign <<< 3 : UInt8) := by
    simp only [e2m1Encode, exactOps, Nat.min_eq_left hle]
    rfl
  rw [hcode]
  generalize (e2m1Mid.takeWhile fun m => decide (m < |q|)).length = idx at *
  obtain ⟨hmag, hsign⟩ := code_bits idx (by omega) (decide (q < 0))
  refine ⟨idx, hle, fun i hi => of_decide_eq_true (hlow i hi),
    fun h => not_lt.mp (of_decide_eq_false (hhigh h)), ?_⟩
  rw [e2m1Decode, hmag]
  by_cases hneg : q < 0
  · rw [if_pos hneg]
    by_cases hidx : idx = 0
    · subst hidx
      simp [exactOps, e2m1Grid]
    · rw [if_pos (hsign.mpr ⟨decide_eq_true hneg, hidx⟩)]
      rfl
  · rw [if_neg hneg, if_neg fun h => hneg (of_decide_eq_true (hsign.mp h).1)]
    rfl

theorem abs_sub_signed {q m : ℚ} : |q - (if q < 0 then -m else m)| = |(|q| - m)| := by
  split
  · rename_i hneg
    rw [abs_of_neg hneg, ← abs_neg]
    congr 1
    ring
  · rename_i hpos
    rw [abs_of_nonneg (not_lt.mp hpos)]

/-- A clamped number is off by at most one, and by its excess over six when it has one. -/
theorem quantise_error {x : ℚ} (hx : |x| ≤ 51 / 8) :
    |x - e2m1Decode (exactOps float32Bytes bfloat16Bytes)
      (e2m1Encode (exactOps float32Bytes bfloat16Bytes)
        ((exactOps float32Bytes bfloat16Bytes).clamp 6 x))| ≤ 1 := by
  have hclamp : (exactOps float32Bytes bfloat16Bytes).clamp 6 x = min (max x (-6)) 6 := rfl
  obtain ⟨idx, hidx, hlow, hhigh, hdecode⟩ :=
    decode_encode float32Bytes bfloat16Bytes (min (max x (-6)) 6)
  rw [hclamp, hdecode]
  rw [abs_le] at hx
  by_cases hsix : |x| ≤ 6
  · have hin := abs_le.mp hsix
    rw [max_eq_left hin.1, min_eq_left hin.2] at *
    rw [abs_sub_signed]
    exact bucket_error hidx hlow hhigh (abs_nonneg x) hsix
  · -- past the grid: the clamped value is the last grid point itself
    have hlast : |min (max x (-6)) 6| = 6 → idx = 7 := by
      intro habs
      by_contra hne
      have hmid := hhigh (by omega)
      rw [habs, e2m1Mid_eq] at hmid
      have : idx ≤ 6 := by omega
      interval_cases idx <;> norm_num at hmid
    rcases lt_or_ge x 0 with hneg | hpos
    · rw [abs_of_neg hneg] at hsix
      have hval : min (max x (-6)) 6 = -6 := by
        rw [max_eq_right (by linarith), min_eq_left (by norm_num)]
      obtain rfl := hlast (by rw [hval]; norm_num)
      rw [hval, if_pos (by norm_num), abs_le]
      norm_num [e2m1Grid]
      constructor <;> linarith
    · rw [abs_of_nonneg hpos] at hsix
      have hval : min (max x (-6)) 6 = 6 := by
        rw [max_eq_left (by linarith), min_eq_right (by linarith)]
      obtain rfl := hlast (by rw [hval]; norm_num)
      rw [hval, if_neg (by norm_num), abs_le]
      norm_num [e2m1Grid]
      constructor <;> linarith

/-! ## One group -/

variable (latentScale : LatentScale ℚ) (tok : Token ℚ)

/-- The group scale before rounding is positive, so its byte has no sign. -/
theorem toE4m3_of_nonneg {q : ℚ} (h : 0 ≤ q) :
    (toE4m3 q).toNat = min (e4m3.encode q) 127 ∧ ofE4m3 (toE4m3 q) =
      e4m3.value (min (e4m3.encode q) 127) := by
  have hbyte : (toE4m3 q).toNat = min (e4m3.encode q) 127 := by
    rw [toE4m3, if_neg (not_lt.mpr h), Nat.zero_add, abs_of_nonneg h, UInt8.toNat_ofNat']
    exact Nat.mod_eq_of_lt (by omega)
  refine ⟨hbyte, ?_⟩
  rw [ofE4m3, hbyte, if_neg (by omega), Nat.mod_eq_of_lt (by omega)]

/-- A normal scale that is not the NaN pattern is within a sixteenth of what it rounds. -/
theorem e4m3_error {q : ℚ} (h : 0 ≤ q) (hnormal : NormalScale (toE4m3 q)) :
    0 < ofE4m3 (toE4m3 q) ∧ 16 * |q - ofE4m3 (toE4m3 q)| ≤ ofE4m3 (toE4m3 q) := by
  obtain ⟨hbyte, hvalue⟩ := toE4m3_of_nonneg h
  obtain ⟨hnormal, hfinite⟩ := hnormal
  rw [hbyte] at hnormal hfinite
  have hmin : min (e4m3.encode q) 127 = e4m3.encode q := by omega
  rw [hmin] at hnormal hvalue
  have htop : q < e4m3.top := by
    by_contra hge
    have hencode := Format.le_encode_of_top_le (f := e4m3) (by decide) (not_lt.mp hge)
    have hpast : (e4m3.binades + 1) * 2 ^ e4m3.mantissaBits = 128 := rfl
    omega
  have herror := Format.abs_sub_le_of_normal h htop hnormal
  have hsixteen : (2 * 2 ^ e4m3.mantissaBits : ℚ) = 16 := by norm_num [e4m3]
  rw [hsixteen] at herror
  rw [hvalue]
  exact ⟨Format.value_pos (by omega), herror⟩

theorem le_reduceMax {x : ℚ} {xs : List ℚ} (h : x ∈ xs) :
    x ≤ (exactOps float32Bytes bfloat16Bytes).reduceMax xs := by
  induction xs using List.reverseRecOn with
  | nil => cases h
  | append_singleton xs y ih =>
    by_cases hempty : xs = []
    · subst hempty
      exact le_of_eq (List.mem_singleton.mp h)
    · rw [ScalarOps.reduceMax_concat hempty]
      rcases List.mem_append.mp h with h | h
      · exact (ih h).trans (le_max_left _ _)
      · exact (le_of_eq (List.mem_singleton.mp h)).trans (le_max_right _ _)

/-- Every element of a group is at most six times the scale before rounding. -/
theorem abs_latent_le (d : ℕ) : ∃ q, 0 ≤ q ∧
    groupScaleByte (exactOps float32Bytes bfloat16Bytes) latentScale tok (d / 16) = toE4m3 q ∧
    |latent (exactOps float32Bytes bfloat16Bytes) latentScale tok d| ≤ 6 * q := by
  have hmem : |latent (exactOps float32Bytes bfloat16Bytes) latentScale tok d| ≤
      groupAmax (exactOps float32Bytes bfloat16Bytes) latentScale tok (d / 16) := by
    refine le_reduceMax _ _ (List.mem_map.mpr ⟨d % 16, List.mem_range.mpr (Nat.mod_lt d (by decide)), ?_⟩)
    rw [Nat.mul_comm, Nat.div_add_mod]
    rfl
  generalize hamax : groupAmax (exactOps float32Bytes bfloat16Bytes) latentScale tok (d / 16) = amax
    at hmem
  refine ⟨if 0 < amax * (1 / 6) then amax * (1 / 6) else 1 / 10 ^ 8, ?_, ?_, ?_⟩
  · split
    · linarith
    · norm_num
  · rw [groupScaleByte, hamax]
    simp only [ScalarOps.orTiny, ScalarOps.divScalar, exactOps, decide_eq_true_eq]
  · split
    · linarith
    · norm_num
      linarith

/-- In the units of the latent scale the error is at most the stored scale. -/
theorem latent_error {d : ℕ} (hnormal : NormalScale
      (groupScaleByte (exactOps float32Bytes bfloat16Bytes) latentScale tok (d / 16))) :
    |latent (exactOps float32Bytes bfloat16Bytes) latentScale tok d -
        e2m1Decode (exactOps float32Bytes bfloat16Bytes)
          (latentCode (exactOps float32Bytes bfloat16Bytes) latentScale tok d) *
        ofE4m3 (groupScaleByte (exactOps float32Bytes bfloat16Bytes) latentScale tok (d / 16))| ≤
      ofE4m3 (groupScaleByte (exactOps float32Bytes bfloat16Bytes) latentScale tok (d / 16)) := by
  obtain ⟨q, hq, hbyte, hle⟩ := abs_latent_le float32Bytes bfloat16Bytes latentScale tok d
  rw [hbyte] at hnormal
  obtain ⟨hpos, herror⟩ := e4m3_error hq hnormal
  have hused : groupScaleUsed (exactOps float32Bytes bfloat16Bytes) latentScale tok (d / 16) =
      ofE4m3 (toE4m3 q) := by
    rw [groupScaleUsed, hbyte]
    exact if_pos (decide_eq_true hpos)
  rw [latentCode, hused, hbyte]
  generalize ofE4m3 (toE4m3 q) = s at *
  generalize latent (exactOps float32Bytes bfloat16Bytes) latentScale tok d = x at *
  change |x - e2m1Decode _ (e2m1Encode _ (ScalarOps.clamp _ 6 (x / s))) * s| ≤ s
  have hratio : |x / s| ≤ 51 / 8 := by
    have hq' : q ≤ s + s / 16 := by
      have := le_abs_self (q - s)
      linarith
    rw [abs_div, abs_of_pos hpos, div_le_iff₀ hpos]
    linarith
  have hgrid := quantise_error float32Bytes bfloat16Bytes hratio
  have hscale : ∀ v : ℚ, x - v * s = (x / s - v) * s := by
    intro v
    have := hpos.ne'
    field_simp
  rw [hscale, abs_mul, abs_of_pos hpos]
  exact mul_le_of_le_one_left hpos.le hgrid

/-- A group whose scale byte is zero reads back as zeros, whatever its codes are. -/
theorem unpackNope_of_zero_scale {layout : RecordLayout} {d : ℕ} (hd : d < 512)
    (hzero : groupScaleByte (exactOps float32Bytes bfloat16Bytes) latentScale tok (d / 16) = 0)
    (scale : ℚ) : unpackNope (exactOps float32Bytes bfloat16Bytes) scale
      (packRecord (exactOps float32Bytes bfloat16Bytes) latentScale tok layout) d = 0 := by
  rw [unpackNope_packRecord _ _ _ _ _ hd, hzero]
  have hvalue : ofE4m3 0 = 0 := by simp [ofE4m3]
  change e2m1Decode _ _ * ofE4m3 0 * scale = 0
  rw [hvalue, mul_zero, zero_mul]

theorem kvC_eq_latent_mul (hscale : latentScale.value ≠ 0) (d : ℕ) :
    tok.kvC d = latent (exactOps float32Bytes bfloat16Bytes) latentScale tok d *
      latentScale.value := by
  cases latentScale with
  | tensor scale => exact (div_mul_cancel₀ _ hscale).symm
  | python scale =>
    change tok.kvC d = tok.kvC d * (1 / scale) * scale
    rw [mul_assoc, one_div_mul_cancel (show scale ≠ 0 from hscale), mul_one]

end

/-! ## The round trip -/

/-- Records give back their fields, the packer puts each field into its own byte range and
these lie apart inside the record, and in exact arithmetic an element with a normal group
scale comes back within that scale, in the units of the latent scale, while a zero group
scale gives exact zeros. -/
theorem record_roundTrip :
    (∀ (codes : ℕ → E2m1Code) (groupScales : ℕ → UInt8) (rope : RopePayload),
      (catRecord (fun d => (codes d).val) groupScales rope).length = recordBytes rope.layout ∧
      (∀ field, slice (catRecord (fun d => (codes d).val) groupScales rope)
        (fieldRange rope.layout field) = fieldBytes (fun d => (codes d).val) groupScales rope field) ∧
      unpackRecord (catRecord (fun d => (codes d).val) groupScales rope) =
        unpacked (fun d => (codes d).val) groupScales rope) ∧
    (∀ (layout : RecordLayout) (a b : Field),
      (fieldRange layout a).1 ≤ (fieldRange layout a).2 ∧
      (fieldRange layout a).2 ≤ recordBytes layout ∧
      (a ≠ b → (fieldRange layout a).2 ≤ (fieldRange layout b).1 ∨
        (fieldRange layout b).2 ≤ (fieldRange layout a).1)) ∧
    ∀ (float32Bytes bfloat16Bytes : ℚ → ℕ → UInt8) (latentScale : LatentScale ℚ) (tok : Token ℚ)
      (layout : RecordLayout), latentScale.value ≠ 0 → ∀ d < 512,
      let ops := exactOps float32Bytes bfloat16Bytes
      let stored := groupScaleByte ops latentScale tok (d / 16)
      let nope := unpackNope ops latentScale.value (packRecord ops latentScale tok layout) d
      (NormalScale stored →
        |tok.kvC d / latentScale.value - nope / latentScale.value| ≤ ofE4m3 stored ∧
        |tok.kvC d - nope| ≤ |latentScale.value| * ofE4m3 stored) ∧
      (stored = 0 → nope = 0) := by
  refine ⟨fun codes groupScales rope => ⟨length_catRecord _ _ _, slice_fieldRange _ _ _,
      unpackRecord_catRecord _ _ _⟩,
    fun layout a b => ⟨(fieldRange_le layout a).1, (fieldRange_le layout a).2,
      fieldRange_disjoint layout⟩, ?_⟩
  intro float32Bytes bfloat16Bytes latentScale tok layout hscale d hd ops stored nope
  refine ⟨fun hnormal => ?_, fun hzero =>
    unpackNope_of_zero_scale float32Bytes bfloat16Bytes latentScale tok hd hzero _⟩
  have herror := latent_error float32Bytes bfloat16Bytes latentScale tok hnormal
  have hkv := kvC_eq_latent_mul float32Bytes bfloat16Bytes latentScale tok hscale d
  have hnope : nope = e2m1Decode ops (latentCode ops latentScale tok d) * ofE4m3 stored *
      latentScale.value := unpackNope_packRecord _ _ _ _ _ hd
  rw [hkv, hnope, mul_div_cancel_right₀ _ hscale, mul_div_cancel_right₀ _ hscale, ← sub_mul,
    abs_mul, mul_comm |latentScale.value|]
  exact ⟨herror, mul_le_mul_of_nonneg_right herror (abs_nonneg _)⟩

/-- A token whose groups all have the scale one. -/
theorem unit_scale_roundTrip :
    |(6 : ℚ) - unpackNope (exactOps (fun _ _ => 0) fun _ _ => 0) 1
      (packRecord (exactOps (fun _ _ => 0) fun _ _ => 0) (.tensor 1) ⟨fun _ => 6, fun _ => 0, 3⟩
        .fp8Rope) 0| ≤ |1| * ofE4m3 56 := by
  have hstored : groupScaleByte (exactOps (fun _ _ => 0) fun _ _ => 0) (.tensor 1)
      ⟨fun _ => 6, fun _ => 0, 3⟩ 0 = 56 := by decide +kernel
  have herror := ((record_roundTrip.2.2 (fun _ _ => 0) (fun _ _ => 0) (.tensor 1)
    ⟨fun _ => 6, fun _ => 0, 3⟩ .fp8Rope one_ne_zero 0 (by decide)).1
      (by rw [hstored]; exact ⟨by decide, by decide⟩)).2
  rw [hstored] at herror
  exact herror

end SparkKit.Nvfp4.RoundTrip
