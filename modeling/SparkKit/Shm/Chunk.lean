import SparkKit.Lib.BigEndian
import SparkKit.Shm.RingBuffer
import Mathlib.Algebra.Order.BigOperators.Group.List

/-!
# One message in one chunk

`enqueue` writes the buffers of a pickled object one after the other, each behind its length,
or only sets the overflow byte when they do not fit. `dequeue` reads from the start of the
chunk and stops by itself where the message ends.
-/
namespace SparkKit.Shm.Chunk

open SparkKit.Lib.BigEndian SparkKit.Shm.RingBuffer

abbrev Bytes := List UInt8

/-- A pickled object: the stream of the pickler, and the buffers its callback kept out of it. -/
structure Message where
  main : Bytes
  oob : List Bytes
deriving DecidableEq

/-- `all_buffers` -/
def Message.allBuffers (m : Message) : List Bytes := m.main :: m.oob

/-- `total_bytes`, counted up by `oob_callback`. -/
def Message.totalBytes (m : Message) : ℕ :=
  m.oob.foldl (fun total raw => total + (raw.length + 4)) 6

/-- The message does not go through the ring but through the socket. -/
def overflows (b : ShmRingBuffer) (m : Message) : Bool :=
  decide (b.maxChunkBytes ≤ m.totalBytes + m.main.length)

/-- The bytes stored into the chunk, from offset 0 upward, and whether `to_bytes_big` raises
after them. -/
structure ChunkStores where
  bytes : Bytes
  raises : Bool

def bufferStores : List Bytes → ChunkStores
  | [] => ⟨[], false⟩
  | buffer :: rest =>
    match toBytes 4 buffer.length with
    | none => ⟨[], true⟩
    | some bufLen =>
      let tail := bufferStores rest
      ⟨bufLen ++ (buffer ++ tail.bytes), tail.raises⟩

/-- The body of `acquire_write` in `enqueue`. -/
def chunkStores (b : ShmRingBuffer) (m : Message) : ChunkStores :=
  if overflows b m then ⟨[1], false⟩
  else match toBytes 2 m.allBuffers.length with
    | none => ⟨[0], true⟩
    | some count =>
      let body := bufferStores m.allBuffers
      ⟨0 :: (count ++ body.bytes), body.raises⟩

/-- The `for` loop of `dequeue`; nothing yet while the bytes read do not reach the end. -/
def readBuffers : ℕ → Bytes → Option (List Bytes)
  | 0, _ => some []
  | bufCount + 1, buf =>
    if 4 ≤ buf.length then
      let bufLen := fromBytes (buf.take 4)
      if 4 + bufLen ≤ buf.length then
        (readBuffers bufCount (buf.drop (4 + bufLen))).map ((buf.drop 4).take bufLen :: ·)
      else none
    else none

/-- The body of `acquire_read` in `dequeue` on the bytes read so far: nothing yet, an overflow,
or the buffers. -/
def dequeueChunk : Bytes → Option (Option (List Bytes))
  | [] => none
  | flag :: rest =>
    if flag = 1 then some none
    else if 2 ≤ rest.length then
      (readBuffers (fromBytes (rest.take 2)) (rest.drop 2)).map some
    else none

/-- What a reader is to take from the chunk of a message. -/
def chunkResult (b : ShmRingBuffer) (m : Message) : Option (List Bytes) :=
  if overflows b m then none else some m.allBuffers

/-! ## The message fits -/

theorem totalBytes_eq (oob : List Bytes) (start : ℕ) :
    oob.foldl (fun total raw => total + (raw.length + 4)) start =
      start + (oob.map fun raw => raw.length + 4).sum := by
  induction oob generalizing start with
  | nil => rfl
  | cons raw oob ih =>
    rw [List.foldl_cons, ih, List.map_cons, List.sum_cons, Nat.add_assoc]

theorem length_bufferStores_le (buffers : List Bytes) :
    (bufferStores buffers).bytes.length ≤ (buffers.map fun raw => raw.length + 4).sum := by
  induction buffers with
  | nil => exact Nat.le_refl 0
  | cons buffer rest ih =>
    rw [bufferStores]
    cases hlen : toBytes 4 buffer.length with
    | none => exact Nat.zero_le _
    | some bufLen =>
      have h4 := length_toBytes hlen
      simp only [List.length_append, List.map_cons, List.sum_cons]
      omega

/-- `total_bytes` leaves one byte out of account, and the strict comparison makes up for it. -/
theorem length_chunkStores_le (b : ShmRingBuffer) (m : Message) :
    (chunkStores b m).bytes.length ≤ b.maxChunkBytes := by
  have hpos := b.bytes_pos
  unfold chunkStores
  by_cases hover : overflows b m
  · rw [if_pos hover]
    exact hpos
  · rw [if_neg hover]
    cases hcount : toBytes 2 m.allBuffers.length with
    | none => exact hpos
    | some count =>
      have h2 := length_toBytes hcount
      have hbody := length_bufferStores_le m.allBuffers
      have hfit : m.totalBytes + m.main.length < b.maxChunkBytes := by
        simpa [overflows] using hover
      rw [Message.totalBytes, totalBytes_eq] at hfit
      simp only [Message.allBuffers, List.map_cons, List.sum_cons] at hbody
      simp only [List.length_cons, List.length_append, Message.allBuffers]
      omega

/-! ## Reading back -/

theorem readBuffers_bufferStores (buffers : List Bytes) (h : (bufferStores buffers).raises = false) :
    readBuffers buffers.length (bufferStores buffers).bytes = some buffers := by
  induction buffers with
  | nil => rfl
  | cons buffer rest ih =>
    rw [bufferStores] at h ⊢
    cases hlen : toBytes 4 buffer.length with
    | none => simp [hlen] at h
    | some bufLen =>
      simp only [hlen] at h ⊢
      have h4 := length_toBytes hlen
      have hread := fromBytes_toBytes hlen
      rw [List.length_cons, readBuffers, if_pos (by simp [h4]),
        List.take_left' h4]
      simp only [hread]
      rw [if_pos (by simp [h4]), ← List.drop_drop, List.drop_left' h4, List.drop_left' rfl,
        List.take_left' rfl, ih h]
      rfl

/-- A proper beginning of the stored buffers is not taken for the whole. -/
theorem readBuffers_take (buffers : List Bytes) {k : ℕ}
    (hk : k < (bufferStores buffers).bytes.length) (h : (bufferStores buffers).raises = false) :
    readBuffers buffers.length ((bufferStores buffers).bytes.take k) = none := by
  induction buffers generalizing k with
  | nil => exact absurd hk (Nat.not_lt_zero k)
  | cons buffer rest ih =>
    rw [bufferStores] at h hk ⊢
    cases hlen : toBytes 4 buffer.length with
    | none => simp [hlen] at h
    | some bufLen =>
      simp only [hlen] at h hk ⊢
      have h4 := length_toBytes hlen
      have hread := fromBytes_toBytes hlen
      have hlength : ((bufLen ++ (buffer ++ (bufferStores rest).bytes)).take k).length = k := by
        rw [List.length_take, Nat.min_eq_left hk.le]
      rw [List.length_cons, readBuffers, hlength]
      by_cases hshort : 4 ≤ k
      · rw [if_pos hshort, List.take_take, Nat.min_eq_left hshort, List.take_left' h4]
        simp only [hread]
        by_cases hbody : 4 + buffer.length ≤ k
        · have hrest : ((bufLen ++ (buffer ++ (bufferStores rest).bytes)).take k).drop
              (4 + buffer.length) = (bufferStores rest).bytes.take (k - (4 + buffer.length)) := by
            rw [List.drop_take, ← List.drop_drop, List.drop_left' h4, List.drop_left' rfl]
          simp only [List.length_append, h4] at hk
          rw [if_pos hbody, hrest, ih (by omega) h, Option.map_none]
        · rw [if_neg hbody]
      · rw [if_neg hshort]

theorem dequeueChunk_chunkStores (b : ShmRingBuffer) (m : Message)
    (h : (chunkStores b m).raises = false) :
    dequeueChunk (chunkStores b m).bytes = some (chunkResult b m) := by
  unfold chunkStores chunkResult at *
  by_cases hover : overflows b m
  · simp only [if_pos hover]
    rfl
  · simp only [if_neg hover] at h ⊢
    cases hcount : toBytes 2 m.allBuffers.length with
    | none => simp [hcount] at h
    | some count =>
      simp only [hcount] at h ⊢
      have h2 := length_toBytes hcount
      rw [dequeueChunk, if_neg (by decide), if_pos (by simp [h2]), List.take_left' h2,
        List.drop_left' h2, fromBytes_toBytes hcount, readBuffers_bufferStores _ h]
      rfl

/-- The message tells its own end: no shorter beginning of it is read as a message. -/
theorem dequeueChunk_take (b : ShmRingBuffer) (m : Message) {k : ℕ}
    (hk : k < (chunkStores b m).bytes.length) (h : (chunkStores b m).raises = false) :
    dequeueChunk ((chunkStores b m).bytes.take k) = none := by
  unfold chunkStores at *
  by_cases hover : overflows b m
  · simp only [if_pos hover, List.length_singleton] at hk
    obtain rfl : k = 0 := by omega
    rfl
  · simp only [if_neg hover] at h hk ⊢
    cases hcount : toBytes 2 m.allBuffers.length with
    | none => simp [hcount] at h
    | some count =>
      simp only [hcount] at h hk ⊢
      have h2 := length_toBytes hcount
      cases k with
      | zero => rfl
      | succ k =>
        rw [List.take_succ_cons, dequeueChunk, if_neg (by decide)]
        simp only [List.length_cons, List.length_append, h2] at hk
        have hlength : ((count ++ (bufferStores m.allBuffers).bytes).take k).length = k := by
          rw [List.length_take, List.length_append, h2, Nat.min_eq_left (by omega)]
        rw [hlength]
        by_cases hshort : 2 ≤ k
        · rw [if_pos hshort, List.take_take, Nat.min_eq_left hshort, List.take_left' h2,
            List.drop_take, List.drop_left' h2, fromBytes_toBytes hcount,
            readBuffers_take _ (by omega) h, Option.map_none]
        · rw [if_neg hshort]

/-! ## When a length does not fit -/

theorem bufferStores_raises (buffers : List Bytes) :
    (bufferStores buffers).raises = true ↔ ∃ buffer ∈ buffers, 256 ^ 4 ≤ buffer.length := by
  induction buffers with
  | nil => simp [bufferStores]
  | cons buffer rest ih =>
    rw [bufferStores, List.exists_mem_cons_iff, ← ih]
    cases hlen : toBytes 4 buffer.length with
    | none => exact ⟨fun _ => .inl (toBytes_eq_none_iff.mp hlen), fun _ => rfl⟩
    | some bufLen =>
      have hfit : ¬256 ^ 4 ≤ buffer.length := fun hbig => by
        rw [toBytes_eq_none_iff.mpr hbig] at hlen
        exact nomatch hlen
      exact ⟨fun h => .inr h, fun h => h.resolve_left hfit⟩

/-- `enqueue` fails exactly for a message that would go into the chunk with a count of two
bytes too many, or a length of four. -/
theorem chunkStores_raises (b : ShmRingBuffer) (m : Message) :
    (chunkStores b m).raises = true ↔ ¬overflows b m ∧
      (256 ^ 2 ≤ m.allBuffers.length ∨ ∃ buffer ∈ m.allBuffers, 256 ^ 4 ≤ buffer.length) := by
  unfold chunkStores
  by_cases hover : overflows b m
  · rw [if_pos hover]
    exact ⟨nofun, fun h => absurd hover h.1⟩
  · rw [if_neg hover, ← bufferStores_raises]
    cases hcount : toBytes 2 m.allBuffers.length with
    | none => exact ⟨fun _ => ⟨hover, .inl (toBytes_eq_none_iff.mp hcount)⟩, fun _ => rfl⟩
    | some count =>
      have hfit : ¬256 ^ 2 ≤ m.allBuffers.length := fun hbig => by
        rw [toBytes_eq_none_iff.mpr hbig] at hcount
        exact nomatch hcount
      exact ⟨fun h => ⟨hover, .inr h⟩, fun h => h.2.resolve_left hfit⟩

/-- Into a ring whose chunks are no longer than a four-byte length can say, every message of
fewer than 65536 buffers goes without an exception, within its chunk, and reads back as itself
and not before its end. -/
theorem chunk_roundtrip (b : ShmRingBuffer) (m : Message) (hbytes : b.maxChunkBytes ≤ 256 ^ 4)
    (hcount : m.allBuffers.length < 256 ^ 2) :
    (chunkStores b m).raises = false ∧ (chunkStores b m).bytes.length ≤ b.maxChunkBytes ∧
      ∀ k, dequeueChunk ((chunkStores b m).bytes.take k) =
        if (chunkStores b m).bytes.length ≤ k then some (chunkResult b m) else none := by
  have hsend : (chunkStores b m).raises = false := by
    refine Bool.eq_false_iff.mpr fun hraise => ?_
    obtain ⟨hover, hlong | ⟨buffer, hin, hlong⟩⟩ := (chunkStores_raises b m).mp hraise
    · omega
    · have hfit : m.totalBytes + m.main.length < b.maxChunkBytes := by
        simpa [overflows] using hover
      rw [Message.totalBytes, totalBytes_eq] at hfit
      have hle : buffer.length ≤ (m.oob.map fun raw => raw.length + 4).sum + m.main.length := by
        rcases List.mem_cons.mp hin with rfl | hoob
        · exact Nat.le_add_left _ _
        · have hsum := List.le_sum_of_mem (List.mem_map_of_mem (f := fun raw => raw.length + 4) hoob)
          omega
      omega
  refine ⟨hsend, length_chunkStores_le b m, fun k => ?_⟩
  split
  · rename_i hk
    rw [List.take_of_length_le hk, dequeueChunk_chunkStores b m hsend]
  · rename_i hk
    exact dequeueChunk_take b m (by omega) hsend

/-! One reader, one chunk of 16 bytes, and a message of one byte. -/

def tinyRing : ShmRingBuffer := ⟨1, 16, 1, Nat.zero_lt_succ _, Nat.zero_lt_succ _⟩

def tinyMessage : Message := ⟨[7], []⟩

/-- Two bytes of pickle and a buffer of three kept out of it, in a chunk of 32 bytes. -/
theorem chunk_roundtrip_tiny :
    let b : ShmRingBuffer := ⟨1, 32, 1, Nat.zero_lt_succ _, Nat.zero_lt_succ _⟩
    let m : Message := ⟨[7, 8], [[1, 2, 3]]⟩
    chunkResult b m = some [[7, 8], [1, 2, 3]] ∧ (chunkStores b m).raises = false ∧
      (chunkStores b m).bytes.length ≤ b.maxChunkBytes ∧
      ∀ k, dequeueChunk ((chunkStores b m).bytes.take k) =
        if (chunkStores b m).bytes.length ≤ k then some (chunkResult b m) else none := by
  refine ⟨by decide, ?_⟩
  apply chunk_roundtrip
  · decide
  · decide

end SparkKit.Shm.Chunk
