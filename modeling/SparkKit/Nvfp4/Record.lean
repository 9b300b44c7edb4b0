import Mathlib.Data.List.Range
import Mathlib.Tactic.Common

/-!
# The byte layout of a KV record

A record holds the nibble-packed latent codes, their group scales and the RoPE part. The
compact layout stores RoPE as a float32 scale and E4M3 bytes, the other one as bfloat16.
-/
namespace SparkKit.Nvfp4.Record

inductive RecordLayout
  | fp8Rope
  | bf16Rope
  deriving DecidableEq

/-- `RECORD_FP8_ROPE`, `RECORD_BF16_ROPE` -/
def recordBytes : RecordLayout → ℕ
  | .fp8Rope => 368
  | .bf16Rope => 432

inductive Field
  | nope
  | groupScales
  | ropeScale
  | pad
  | rope
  deriving DecidableEq

/-- The bytes `[start, stop)` of a field. The layout without a RoPE scale pads instead. -/
def fieldRange : RecordLayout → Field → ℕ × ℕ
  | _, .nope => (0, 256)
  | _, .groupScales => (256, 288)
  | .fp8Rope, .ropeScale => (288, 292)
  | .bf16Rope, .ropeScale => (288, 288)
  | .fp8Rope, .pad => (292, 304)
  | .bf16Rope, .pad => (288, 304)
  | .fp8Rope, .rope => (304, 368)
  | .bf16Rope, .rope => (304, 432)

/-- A four-bit code in a byte of its own. -/
abbrev E2m1Code := {code : UInt8 // code < 16}

/-- The RoPE part: the bytes of its scale and its E4M3 values, or its bfloat16 bytes. -/
inductive RopePayload
  | fp8 (scale values : ℕ → UInt8)
  | bf16 (values : ℕ → UInt8)

namespace RopePayload

def layout : RopePayload → RecordLayout
  | .fp8 _ _ => .fp8Rope
  | .bf16 _ => .bf16Rope

end RopePayload

def row (n : ℕ) (f : ℕ → UInt8) : List UInt8 := (List.range n).map f

/-! ## Packing and unpacking -/

/-- `codes[:, 0::2] | (codes[:, 1::2] << 4)` at one byte. -/
def packedByte (codes : ℕ → UInt8) (k : ℕ) : UInt8 := codes (2 * k) ||| codes (2 * k + 1) <<< 4

/-- `nope_bytes`: the packed codes and the group scales. -/
def nopeBytes (codes groupScales : ℕ → UInt8) : List UInt8 :=
  row 256 (packedByte codes) ++ row 32 groupScales

/-- `rec` of `pack_records`. -/
def catRecord (codes groupScales : ℕ → UInt8) : RopePayload → List UInt8
  | .fp8 scale values =>
      nopeBytes codes groupScales ++ row 4 scale ++ row 12 (fun _ => 0) ++ row 64 values
  | .bf16 values => nopeBytes codes groupScales ++ row 16 (fun _ => 0) ++ row 128 values

def slice (bytes : List UInt8) (range : ℕ × ℕ) : List UInt8 :=
  (bytes.take range.2).drop range.1

structure Unpacked where
  codes : List UInt8
  groupScales : List UInt8
  ropeScale : List UInt8
  rope : List UInt8

/-- The byte-level part of `unpack_records`; the layout is read off the record's width. -/
def unpackRecord (bytes : List UInt8) : Unpacked :=
  let fp8Rope := bytes.length = recordBytes .fp8Rope
  { codes := (slice bytes (0, 256)).flatMap fun packed => [packed &&& 0x0F, packed >>> 4]
    groupScales := slice bytes (256, 288)
    ropeScale := if fp8Rope then slice bytes (288, 292) else []
    rope := if fp8Rope then slice bytes (304, 368) else slice bytes (304, 432) }

/-- What a record should give back. -/
def unpacked (codes groupScales : ℕ → UInt8) (rope : RopePayload) : Unpacked where
  codes := row 512 codes
  groupScales := row 32 groupScales
  ropeScale := match rope with
    | .fp8 scale _ => row 4 scale
    | .bf16 _ => []
  rope := match rope with
    | .fp8 _ values => row 64 values
    | .bf16 values => row 128 values

/-! ## The round trip -/

@[simp] theorem length_row (n : ℕ) (f : ℕ → UInt8) : (row n f).length = n := by simp [row]

@[simp] theorem length_nopeBytes (codes groupScales : ℕ → UInt8) :
    (nopeBytes codes groupScales).length = 288 := by
  simp [nopeBytes]

theorem length_catRecord (codes groupScales : ℕ → UInt8) (rope : RopePayload) :
    (catRecord codes groupScales rope).length = recordBytes rope.layout := by
  cases rope <;> simp [catRecord, recordBytes, RopePayload.layout]

theorem slice_of_append (front rest : List UInt8) {bytes field : List UInt8} {start stop : ℕ}
    (h : bytes = front ++ (field ++ rest)) (hfront : front.length = start)
    (hfield : start + field.length = stop) : slice bytes (start, stop) = field := by
  subst h hfront hfield
  rw [slice, List.take_length_add_append, List.drop_left', List.take_left']
  · rfl
  · rfl

/-- The bytes a record carries in each of its fields. -/
def fieldBytes (codes groupScales : ℕ → UInt8) : RopePayload → Field → List UInt8
  | _, .nope => row 256 (packedByte codes)
  | _, .groupScales => row 32 groupScales
  | .fp8 scale _, .ropeScale => row 4 scale
  | .bf16 _, .ropeScale => []
  | .fp8 _ _, .pad => row 12 fun _ => 0
  | .bf16 _, .pad => row 16 fun _ => 0
  | .fp8 _ values, .rope => row 64 values
  | .bf16 values, .rope => row 128 values

theorem catRecord_eq_fields (codes groupScales : ℕ → UInt8) (rope : RopePayload) :
    catRecord codes groupScales rope =
      fieldBytes codes groupScales rope .nope ++ (fieldBytes codes groupScales rope .groupScales ++
        (fieldBytes codes groupScales rope .ropeScale ++
          (fieldBytes codes groupScales rope .pad ++ fieldBytes codes groupScales rope .rope))) := by
  cases rope <;>
    simp only [catRecord, nopeBytes, fieldBytes, List.append_assoc, List.nil_append]

theorem length_fieldBytes (codes groupScales : ℕ → UInt8) (rope : RopePayload) (field : Field) :
    (fieldRange rope.layout field).1 + (fieldBytes codes groupScales rope field).length =
      (fieldRange rope.layout field).2 := by
  cases rope <;> cases field <;> simp [fieldBytes, fieldRange, RopePayload.layout]

/-- Every field of a record is read back from its own byte range. -/
theorem slice_fieldRange (codes groupScales : ℕ → UInt8) (rope : RopePayload) (field : Field) :
    slice (catRecord codes groupScales rope) (fieldRange rope.layout field) =
      fieldBytes codes groupScales rope field := by
  have hlen := length_fieldBytes codes groupScales rope field
  have hcat := catRecord_eq_fields codes groupScales rope
  generalize hbytes : catRecord codes groupScales rope = bytes at *
  cases field with
  | nope => exact slice_of_append [] _ (by simpa using hcat) rfl hlen
  | groupScales =>
    refine slice_of_append (fieldBytes codes groupScales rope .nope) _ hcat ?_ hlen
    simp [fieldBytes]
  | ropeScale =>
    refine slice_of_append (fieldBytes codes groupScales rope .nope ++
      fieldBytes codes groupScales rope .groupScales) _ (by rw [hcat, List.append_assoc]) ?_ hlen
    cases rope <;> simp [fieldBytes, RopePayload.layout]
  | pad =>
    refine slice_of_append (fieldBytes codes groupScales rope .nope ++
      (fieldBytes codes groupScales rope .groupScales ++
        fieldBytes codes groupScales rope .ropeScale)) _
      (by rw [hcat, List.append_assoc, List.append_assoc]) ?_ hlen
    cases rope <;> simp [fieldBytes, RopePayload.layout]
  | rope =>
    refine slice_of_append (fieldBytes codes groupScales rope .nope ++
      (fieldBytes codes groupScales rope .groupScales ++
        (fieldBytes codes groupScales rope .ropeScale ++
          fieldBytes codes groupScales rope .pad))) [] ?_ ?_ hlen
    · rw [hcat, List.append_nil, List.append_assoc, List.append_assoc, List.append_assoc]
    · cases rope <;> simp [fieldBytes, RopePayload.layout]

theorem low_high_packed : ∀ lo < 16, ∀ hi < 16,
    (UInt8.ofNat lo ||| UInt8.ofNat hi <<< 4) &&& 0x0F = UInt8.ofNat lo ∧
      (UInt8.ofNat lo ||| UInt8.ofNat hi <<< 4) >>> 4 = UInt8.ofNat hi := by
  decide

theorem unpack_packedByte (codes : ℕ → E2m1Code) (k : ℕ) :
    packedByte (fun d => (codes d).val) k &&& 0x0F = (codes (2 * k)).val ∧
      packedByte (fun d => (codes d).val) k >>> 4 = (codes (2 * k + 1)).val := by
  have h := low_high_packed _ (UInt8.lt_iff_toNat_lt.mp (codes (2 * k)).2) _
    (UInt8.lt_iff_toNat_lt.mp (codes (2 * k + 1)).2)
  simpa only [UInt8.ofNat_toNat, packedByte] using h

theorem flatMap_pairs (f : ℕ → UInt8) (n : ℕ) :
    (List.range n).flatMap (fun k => [f (2 * k), f (2 * k + 1)]) = row (2 * n) f := by
  induction n with
  | zero => rfl
  | succ n ih =>
    rw [List.range_succ, List.flatMap_append, ih, row, row, Nat.mul_succ, List.range_succ,
      List.range_succ]
    simp

theorem unpack_nope (codes : ℕ → E2m1Code) :
    (row 256 (packedByte fun d => (codes d).val)).flatMap
        (fun packed : UInt8 => [packed &&& 0x0F, packed >>> 4]) = row 512 fun d => (codes d).val := by
  rw [row, List.flatMap_map, ← flatMap_pairs _ 256]
  refine List.flatMap_congr fun k _ => ?_
  rw [(unpack_packedByte codes k).1, (unpack_packedByte codes k).2]

theorem unpackRecord_catRecord (codes : ℕ → E2m1Code) (groupScales : ℕ → UInt8)
    (rope : RopePayload) :
    unpackRecord (catRecord (fun d => (codes d).val) groupScales rope) =
      unpacked (fun d => (codes d).val) groupScales rope := by
  have hlen := length_catRecord (fun d => (codes d).val) groupScales rope
  have hfield := slice_fieldRange (fun d => (codes d).val) groupScales rope
  have hnope := hfield .nope
  have hscales := hfield .groupScales
  have hropeScale := hfield .ropeScale
  have hrope := hfield .rope
  rw [unpackRecord, hlen]
  cases rope with
  | fp8 scale values =>
    simp only [fieldRange, RopePayload.layout, fieldBytes] at hnope hscales hropeScale hrope
    simp only [RopePayload.layout, if_true, hnope, hscales, hropeScale, hrope, unpack_nope,
      unpacked]
  | bf16 values =>
    have hwidth : recordBytes .bf16Rope ≠ recordBytes .fp8Rope := by decide
    simp only [fieldRange, RopePayload.layout, fieldBytes] at hnope hscales hrope
    simp only [RopePayload.layout, hwidth, if_false, hnope, hscales, hrope, unpack_nope, unpacked]

/-! ## The fields tile the record -/

theorem fieldRange_disjoint (layout : RecordLayout) {a b : Field} (h : a ≠ b) :
    (fieldRange layout a).2 ≤ (fieldRange layout b).1 ∨
      (fieldRange layout b).2 ≤ (fieldRange layout a).1 := by
  cases layout <;> cases a <;> cases b <;> first | exact absurd rfl h | decide

theorem fieldRange_le (layout : RecordLayout) (field : Field) :
    (fieldRange layout field).1 ≤ (fieldRange layout field).2 ∧
      (fieldRange layout field).2 ≤ recordBytes layout := by
  cases layout <;> cases field <;> decide

end SparkKit.Nvfp4.Record
