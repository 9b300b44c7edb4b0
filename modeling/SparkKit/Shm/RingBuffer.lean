import Mathlib.Algebra.Order.Ring.Nat
import Mathlib.Logic.Function.Basic
import Mathlib.Tactic.Common

/-!
# The shared-memory ring buffer

`max_chunks` chunks of data, then for each chunk the written flag and one flag for every
reader. The addresses of the cells are those of `get_data` and `get_metadata`.
-/
namespace SparkKit.Shm.RingBuffer

/-- `ShmRingBuffer`, at least one chunk of at least one byte. -/
structure ShmRingBuffer where
  nReader : ℕ
  maxChunkBytes : ℕ
  maxChunks : ℕ
  bytes_pos : 0 < maxChunkBytes
  chunks_pos : 0 < maxChunks

/-- The shared segment. -/
abbrev Memory := ℕ → UInt8

namespace ShmRingBuffer

variable (b : ShmRingBuffer)

def metadataSize : ℕ := 1 + b.nReader
def totalBytesOfBuffer : ℕ := (b.maxChunkBytes + b.metadataSize) * b.maxChunks
def dataOffset : ℕ := 0
def metadataOffset : ℕ := b.maxChunkBytes * b.maxChunks

/-- Byte `j` of `get_data(idx)`. -/
def dataAt (idx j : ℕ) : ℕ := dataOffset + idx * b.maxChunkBytes + j

/-- Byte `j` of `get_metadata(idx)`: the written flag is byte 0, the flag of reader `r` byte `r + 1`. -/
def metadataAt (idx j : ℕ) : ℕ := b.metadataOffset + idx * b.metadataSize + j

variable {b}

/-- Two cells of a table of rows coincide only when row and column do. -/
theorem row_eq {w i j x y : ℕ} (hx : x < w) (hy : y < w) (h : i * w + x = j * w + y) :
    i = j ∧ x = y := by
  have hrow := congrArg (· / w) h
  simp only [Nat.mul_comm _ w, Nat.mul_add_div (Nat.zero_lt_of_lt hx),
    Nat.div_eq_of_lt hx, Nat.div_eq_of_lt hy, Nat.add_zero] at hrow
  subst hrow
  exact ⟨rfl, Nat.add_left_cancel h⟩

theorem dataAt_inj {i j x y : ℕ} (hx : x < b.maxChunkBytes) (hy : y < b.maxChunkBytes)
    (h : b.dataAt i x = b.dataAt j y) : i = j ∧ x = y := by
  simp only [dataAt, dataOffset, Nat.zero_add] at h
  exact row_eq hx hy h

theorem metadataAt_inj {i j x y : ℕ} (hx : x < b.metadataSize) (hy : y < b.metadataSize)
    (h : b.metadataAt i x = b.metadataAt j y) : i = j ∧ x = y := by
  simp only [metadataAt, Nat.add_assoc] at h
  exact row_eq hx hy (Nat.add_left_cancel h)

theorem row_lt {w n i x : ℕ} (hi : i < n) (hx : x < w) : i * w + x < n * w := by
  have h := Nat.mul_le_mul_right w (Nat.succ_le_of_lt hi)
  rw [Nat.succ_mul] at h
  omega

theorem dataAt_lt {i x : ℕ} (hi : i < b.maxChunks) (hx : x < b.maxChunkBytes) :
    b.dataAt i x < b.metadataOffset := by
  have h := row_lt hi hx
  rw [Nat.mul_comm b.maxChunks] at h
  simpa only [dataAt, dataOffset, metadataOffset, Nat.zero_add] using h

theorem metadataAt_lt {i x : ℕ} (hi : i < b.maxChunks) (hx : x < b.metadataSize) :
    b.metadataAt i x < b.totalBytesOfBuffer := by
  have h := row_lt hi hx
  simp only [metadataAt, metadataOffset, totalBytesOfBuffer, Nat.add_mul, Nat.add_assoc]
  rw [Nat.mul_comm b.metadataSize]
  omega

/-- No data byte is a flag. -/
theorem dataAt_ne_metadataAt {i j x y : ℕ} (hi : i < b.maxChunks) (hx : x < b.maxChunkBytes) :
    b.dataAt i x ≠ b.metadataAt j y := by
  have h := dataAt_lt hi hx
  simp only [metadataAt]
  omega

/-! ## Reading the segment -/

variable (b)

def data (m : Memory) (idx j : ℕ) : UInt8 := m (b.dataAt idx j)

def written (m : Memory) (idx : ℕ) : UInt8 := m (b.metadataAt idx 0)

def readFlag (m : Memory) (idx r : ℕ) : UInt8 := m (b.metadataAt idx (r + 1))

variable {b} {m : Memory} {i j x y r p : ℕ} {v : UInt8}

theorem data_store_data (hx : x < b.maxChunkBytes) (hy : y < b.maxChunkBytes) :
    b.data (Function.update m (b.dataAt i x) v) j y =
      if j = i ∧ y = x then v else b.data m j y := by
  unfold data
  by_cases h : j = i ∧ y = x
  · obtain ⟨rfl, rfl⟩ := h
    simp
  · rw [if_neg h, Function.update_of_ne fun heq => h (dataAt_inj hy hx heq)]

theorem written_store_data (hi : i < b.maxChunks) (hx : x < b.maxChunkBytes) :
    b.written (Function.update m (b.dataAt i x) v) j = b.written m j :=
  Function.update_of_ne (dataAt_ne_metadataAt hi hx).symm _ _

theorem readFlag_store_data (hi : i < b.maxChunks) (hx : x < b.maxChunkBytes) :
    b.readFlag (Function.update m (b.dataAt i x) v) j p = b.readFlag m j p :=
  Function.update_of_ne (dataAt_ne_metadataAt hi hx).symm _ _

theorem data_store_metadata (hj : j < b.maxChunks) (hy : y < b.maxChunkBytes) :
    b.data (Function.update m (b.metadataAt i x) v) j y = b.data m j y :=
  Function.update_of_ne (dataAt_ne_metadataAt hj hy) _ _

theorem written_store_written :
    b.written (Function.update m (b.metadataAt i 0) v) j = if j = i then v else b.written m j := by
  unfold written
  by_cases h : j = i
  · subst h
    simp
  · have hpos : 0 < b.metadataSize := Nat.lt_add_right _ Nat.one_pos
    rw [if_neg h, Function.update_of_ne fun heq => h (metadataAt_inj hpos hpos heq).1]

theorem flag_column_lt (hr : r < b.nReader) : r + 1 < b.metadataSize := by
  unfold metadataSize
  omega

theorem written_store_readFlag (hr : r < b.nReader) :
    b.written (Function.update m (b.metadataAt i (r + 1)) v) j = b.written m j := by
  have hpos : 0 < b.metadataSize := Nat.lt_add_right _ Nat.one_pos
  refine Function.update_of_ne (fun heq => ?_) _ _
  have h := (metadataAt_inj hpos (flag_column_lt hr) heq).2
  omega

theorem readFlag_store_written (hp : p < b.nReader) :
    b.readFlag (Function.update m (b.metadataAt i 0) v) j p = b.readFlag m j p := by
  have hpos : 0 < b.metadataSize := Nat.lt_add_right _ Nat.one_pos
  refine Function.update_of_ne (fun heq => ?_) _ _
  have h := (metadataAt_inj (flag_column_lt hp) hpos heq).2
  omega

theorem readFlag_store_readFlag (hr : r < b.nReader) (hp : p < b.nReader) :
    b.readFlag (Function.update m (b.metadataAt i (r + 1)) v) j p =
      if j = i ∧ p = r then v else b.readFlag m j p := by
  unfold readFlag
  by_cases h : j = i ∧ p = r
  · obtain ⟨rfl, rfl⟩ := h
    simp
  · rw [if_neg h]
    refine Function.update_of_ne (fun heq => h ?_) _ _
    obtain ⟨hrow, hcol⟩ := metadataAt_inj (flag_column_lt hp) (flag_column_lt hr) heq
    exact ⟨hrow, by omega⟩

end ShmRingBuffer

end SparkKit.Shm.RingBuffer
