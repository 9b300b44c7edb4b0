import SparkKit.Shm.Broadcast
import Mathlib.Logic.Function.Iterate

/-!
# Who can go on

A process that runs its check alone is let through exactly when it has something to do: a
reader when a message it has not marked is in the ring, the writer when every reader is past
the message it overwrites. So the processes never all wait for one another.
-/
namespace SparkKit.Shm.Progress

open SparkKit.Lib.History SparkKit.Lib.BroadcastQueue
open SparkKit.Shm.RingBuffer SparkKit.Shm.RingBuffer.ShmRingBuffer SparkKit.Shm.Chunk
open SparkKit.Shm.MessageQueue SparkKit.Shm.FlagProtocol SparkKit.Shm.Broadcast

variable {b : ShmRingBuffer} {nRemote : ℕ} {w : World b nRemote} {r : Fin b.nReader}

/-! ## A reader's check -/

theorem readFlag_behind (h : Protocol w) (hlt : (w.reader r).marked < w.enqueued.length) :
    b.readFlag w.memory ((w.reader r).marked % b.maxChunks) r = 0 := by
  rw [h.used _ hlt (within h r) r, if_neg fun hc => Nat.lt_irrefl _ hc.1]

theorem written_behind (h : Protocol w) (hlt : (w.reader r).marked < w.enqueued.length) :
    b.written w.memory ((w.reader r).marked % b.maxChunks) ≠ 0 := by
  rcases Nat.lt_or_ge w.enqueued.length ((w.reader r).marked + b.maxChunks) with hin | hfull
  · rw [h.written _ hlt hin]
    decide
  · intro hzero
    have hold : (w.reader r).marked + b.maxChunks = w.enqueued.length :=
      Nat.le_antisymm hfull (within h r)
    rw [(mod_eq_slot_iff hlt (within h r)).mpr hold] at hzero
    have hroom := h.room hzero r
    omega

/-- Both flags read at once tell a reader exactly whether it has a message to read. -/
theorem mayRead_iff (h : Protocol w) (r : Fin b.nReader) :
    mayRead (b.readFlag w.memory (w.reader r).currentIdx r)
      (b.written w.memory (w.reader r).currentIdx) = true ↔
        (w.reader r).marked < w.enqueued.length := by
  constructor
  · intro hmay
    refine behind_of_mayRead h (fun hzero => ?_) hmay
    rw [h.readerIdx] at hzero
    exact slotFlag_of_readFlag h r hzero
  · intro hlt
    rw [h.readerIdx]
    simp [mayRead, readFlag_behind h hlt, written_behind h hlt]

theorem reader_setReader_self (w : World b nRemote) (r : Fin b.nReader) (me : Reader) :
    (w.setReader r me).reader r = me := by rw [reader_setReader, if_pos rfl]

theorem memory_setReader (w : World b nRemote) (r : Fin b.nReader) (me : Reader) :
    (w.setReader r me).memory = w.memory := rfl

/-- The two steps of a reader's check, run without another process in between. -/
theorem reader_check (h : Protocol w) (hpc : (w.reader r).pc = .testing) :
    ((readerStep (readerStep w r) r).reader r).pc =
      if (w.reader r).marked < w.enqueued.length then .reading [] else .waiting := by
  have hfirst : readerStep w r = w.setReader r { w.reader r with
      pc := .testingWritten (b.readFlag w.memory (w.reader r).currentIdx r) } := by
    simp only [readerStep, hpc]
  rw [hfirst, readerStep]
  simp only [reader_setReader_self, memory_setReader]
  by_cases hlt : (w.reader r).marked < w.enqueued.length
  · rw [if_pos hlt]
    rw [if_pos ((mayRead_iff h r).mpr hlt), reader_setReader_self]
  · rw [if_neg hlt]
    rw [if_neg fun hc => hlt ((mayRead_iff h r).mp hc), reader_setReader_self]

/-! ## The writer's check -/

/-- `sum(metadata_buffer[1:])`, the first flags only. -/
def readCount (w : World b nRemote) (flags : ℕ) : ℕ :=
  ((List.range flags).map fun i => (b.readFlag w.memory w.currentIdx i).toNat).sum

theorem writer_count {message : Message} (hx : w.writer = .counting message 0 0) {flags : ℕ}
    (hflags : flags ≤ b.nReader) :
    writerStep^[flags] w = { w with writer := .counting message flags (readCount w flags) } := by
  induction flags with
  | zero =>
    rw [Function.iterate_zero, id]
    cases w
    obtain rfl := hx
    rfl
  | succ flags ih =>
    rw [Function.iterate_succ_apply', ih (by omega)]
    simp only [writerStep, if_pos (show flags < b.nReader by omega), readCount, List.range_succ,
      List.map_append, List.sum_append, List.map_singleton, List.sum_singleton]

/-- With room in the ring, the writer finds its chunk unwritten or all its flags set. -/
theorem mayWrite_of_room (h : Protocol w) {message : Message}
    (hx : w.writer = .counting message 0 0) (hroom : Room w) :
    mayWrite b (b.written w.memory w.currentIdx) (readCount w b.nReader) = true := by
  by_cases hdown : b.written w.memory w.currentIdx = 0
  · simp [mayWrite, hdown]
  · have hlap : b.maxChunks ≤ w.enqueued.length := by
      by_contra hlt
      refine hdown ?_
      rw [h.currentIdx]
      exact (h.unused _ (slot_lt w) (by rw [Nat.mod_eq_of_lt (by omega)])).1
    have hone : ∀ i ∈ List.range b.nReader, (b.readFlag w.memory w.currentIdx i).toNat = 1 := by
      intro i hi
      have hval := readFlag_slot h ⟨i, List.mem_range.mp hi⟩
      rw [hx, if_pos ⟨hlap, hroom _, Bool.false_ne_true⟩] at hval
      rw [h.currentIdx, hval]
      rfl
    have hcount : readCount w b.nReader = b.nReader := by
      rw [readCount, List.map_congr_left hone, List.map_const', List.sum_replicate_nat,
        List.length_range, Nat.mul_one]
    simp [mayWrite, hcount]

/-- The writer's check, run without another process in between. -/
theorem writer_check (h : Protocol w) {message : Message}
    (hx : w.writer = .counting message 0 0) :
    (Room w → (writerStep^[b.nReader + 2] w).writer = .claiming message) ∧
      (¬Room w → (writerStep^[b.nReader + 2] w).writer = .waiting message) := by
  have hrun : writerStep^[b.nReader + 1] w =
      { w with writer := .testing message (readCount w b.nReader) } := by
    rw [Function.iterate_succ_apply', writer_count hx (Nat.le_refl _)]
    simp only [writerStep, Nat.lt_irrefl, if_false]
  have hprotocol : Protocol (writerStep^[b.nReader + 1] w) := by
    clear hrun
    induction b.nReader + 1 with
    | zero => exact h
    | succ n ih =>
      rw [Function.iterate_succ_apply']
      exact writerStep_protocol ih
  rw [Function.iterate_succ_apply', hrun]
  constructor
  · intro hroom
    simp only [writerStep, if_pos (mayWrite_of_room h hx hroom)]
  · intro hfull
    rw [hrun] at hprotocol
    have hnext := writerStep_protocol hprotocol
    by_cases hmay : mayWrite b (b.written w.memory w.currentIdx) (readCount w b.nReader) = true
    · refine absurd ?_ hfull
      have hknows := hnext.writer
      simp only [writerStep, if_pos hmay] at hknows
      exact hknows
    · simp only [writerStep, if_neg hmay]

/-- When the writer and every reader wait, the check of one of them would now succeed. -/
theorem never_all_wait (b : ShmRingBuffer) (nRemote : ℕ) (actions : List (Action b nRemote))
    (message : Message) :
    let w := runFrom step (start b nRemote) actions
    w.writer = .waiting message → (∀ r, (w.reader r).pc = .waiting) →
      (writerStep^[b.nReader + 3] w).writer = .claiming message ∨
        ∃ r, ((runFrom step w (List.replicate 3 (.readerStep r))).reader r).pc = .reading [] := by
  intro w hx hpc
  have h : Protocol w := (run_sound b nRemote actions).protocol
  by_cases hroom : Room w
  · left
    have hstart : writerStep w = { w with writer := .counting message 0 0 } := by
      simp only [writerStep, hx]
    have hprotocol := writerStep_protocol h
    rw [show b.nReader + 3 = b.nReader + 2 + 1 from rfl, Function.iterate_succ_apply]
    rw [hstart] at hprotocol ⊢
    exact (writer_check hprotocol rfl).1 hroom
  · right
    obtain ⟨r, hr⟩ := not_forall.mp hroom
    have hpos := b.chunks_pos
    have hlt : (w.reader r).marked < w.enqueued.length := by omega
    refine ⟨r, ?_⟩
    have hstart : readerStep w r = w.setReader r { w.reader r with pc := .testing } := by
      simp only [readerStep, hpc r]
    have hprotocol := readerStep_protocol h r
    show ((readerStep (readerStep (readerStep w r) r) r).reader r).pc = .reading []
    rw [hstart] at hprotocol ⊢
    rw [reader_check hprotocol (by rw [reader_setReader_self]), reader_setReader_self]
    exact if_pos hlt

/-- The reader found nothing and waits; two messages later the writer waits for it. -/
theorem never_all_wait_tiny :
    let w := runFrom step (start tinyRing 0) (.dequeue tinyReader :: List.replicate 2 (.readerStep tinyReader) ++
      tinyEnqueue 0 ++ .enqueue tinyMessage :: List.replicate 3 .writerStep)
    (writerStep^[tinyRing.nReader + 3] w).writer = .claiming tinyMessage ∨
      ∃ r, ((runFrom step w (List.replicate 3 (.readerStep r))).reader r).pc = .reading [] :=
  never_all_wait tinyRing 0 _ tinyMessage (by decide +kernel) (by decide +kernel)

end SparkKit.Shm.Progress
