import SparkKit.Lib.BroadcastQueue
import SparkKit.Lib.RingWindow
import SparkKit.Shm.MessageQueue

/-!
# The flags of the ring

Chunk `k % max_chunks` holds message `k` until the writer claims it for message
`k + max_chunks`. The flags say which readers have marked it, and a chunk whose written flag
is down has no reader that still needs it. The two reads of a reader's check are apart in
time; the order in which it makes them is what keeps it out of a chunk being rewritten.
-/
namespace SparkKit.Shm.FlagProtocol

open SparkKit.Lib.BroadcastQueue SparkKit.Lib.RingWindow
open SparkKit.Shm.RingBuffer SparkKit.Shm.RingBuffer.ShmRingBuffer SparkKit.Shm.Chunk
open SparkKit.Shm.MessageQueue

variable {b : ShmRingBuffer} {nRemote : ℕ} {w w' : World b nRemote}

/-- The ring seen as a queue: what was published, and how many chunks each reader has marked. -/
def queue (w : World b nRemote) : Queue Message (Fin b.nReader) :=
  ⟨w.enqueued, fun r => (w.reader r).marked⟩

/-- Every reader is past the message that the next one overwrites. -/
def Room (w : World b nRemote) : Prop :=
  ∀ r, w.enqueued.length < (w.reader r).marked + b.maxChunks

/-- The written flag of the chunk the next message goes to. -/
def slotFlag (w : World b nRemote) : UInt8 := b.written w.memory (w.enqueued.length % b.maxChunks)

/-- The written flag is reset and not set again. -/
def claimed : WriterAt → Bool
  | .filling _ _ | .clearing _ _ | .publishing _ => true
  | _ => false

/-- The flag of this reader is reset for the message being written. -/
def cleared : WriterAt → ℕ → Bool
  | .clearing _ flag, r => decide (r < flag)
  | .publishing _, _ => true
  | _, _ => false

theorem claimed_of_cleared {x : WriterAt} {r : ℕ} (h : cleared x r = true) : claimed x = true := by
  cases x <;> first | rfl | exact absurd h (by simp [cleared])

/-- What the writer knows: the flags it has counted as set stay set. -/
def WriterKnows (w : World b nRemote) : WriterAt → Prop
  | .counting _ flag readCount => flag ≤ b.nReader ∧ readCount ≤ flag ∧ (readCount = flag →
      ∀ r : Fin b.nReader, r < flag → w.enqueued.length < (w.reader r).marked + b.maxChunks)
  | .testing _ readCount => readCount ≤ b.nReader ∧ (readCount = b.nReader → Room w)
  | .claiming _ | .filling _ _ | .clearing _ _ | .publishing _ => Room w
  | _ => True

/-- What a reader knows: a flag it has read as down was down for the message it waits for. -/
def ReaderKnows (w : World b nRemote) (r : Fin b.nReader) : ReaderAt → Prop
  | .testingWritten readFlag => readFlag = 0 →
      (w.reader r).marked < w.enqueued.length ∨ slotFlag w = 0
  | .reading _ | .marking _ => (w.reader r).marked < w.enqueued.length
  | _ => True

structure Protocol (w : World b nRemote) : Prop where
  bounded : Bounded b.maxChunks (queue w)
  currentIdx : w.currentIdx = w.enqueued.length % b.maxChunks
  readerIdx : ∀ r, (w.reader r).currentIdx = (w.reader r).marked % b.maxChunks
  used : ∀ k, k < w.enqueued.length → w.enqueued.length ≤ k + b.maxChunks → ∀ r : Fin b.nReader,
    b.readFlag w.memory (k % b.maxChunks) r =
      if k < (w.reader r).marked ∧ ¬(k + b.maxChunks = w.enqueued.length ∧ cleared w.writer r)
      then 1 else 0
  unused : ∀ i, i < b.maxChunks → w.enqueued.length ≤ i →
    b.written w.memory i = 0 ∧ ∀ r : Fin b.nReader, b.readFlag w.memory i r = 0
  written : ∀ k, k < w.enqueued.length → w.enqueued.length < k + b.maxChunks →
    b.written w.memory (k % b.maxChunks) = 1
  claimed : claimed w.writer → slotFlag w = 0
  room : slotFlag w = 0 → Room w
  writer : WriterKnows w w.writer
  reader : ∀ r, ReaderKnows w r (w.reader r).pc

/-! ## Chunks and message numbers -/

theorem slot_lt (w : World b nRemote) : w.enqueued.length % b.maxChunks < b.maxChunks :=
  Nat.mod_lt _ b.chunks_pos

/-- In the window of the ring only the oldest message shares the writer's chunk. -/
theorem mod_eq_slot_iff {m k W : ℕ} (hk : k < W) (hw : W ≤ k + m) : k % m = W % m ↔ k + m = W := by
  constructor
  · intro h
    by_contra hne
    exact mod_ne_of_lt_add hk (by omega) h
  · rintro rfl
    rw [Nat.add_mod_right]

/-- Two messages of the window share a chunk only when they are the same. -/
theorem mod_eq_iff {m k k' W : ℕ} (hk : k < W) (hw : W ≤ k + m) (hk' : k' < W) (hw' : W ≤ k' + m) :
    k % m = k' % m ↔ k = k' :=
  ⟨fun h => eq_of_mod_eq h (by omega) (by omega), fun h => h ▸ rfl⟩

theorem marked_le (h : Protocol w) (r : Fin b.nReader) :
    (w.reader r).marked ≤ w.enqueued.length := h.bounded.behind r

theorem within (h : Protocol w) (r : Fin b.nReader) :
    w.enqueued.length ≤ (w.reader r).marked + b.maxChunks := h.bounded.within r

/-- The flags of the chunk the next message goes to, in the first lap and after. -/
theorem readFlag_slot (h : Protocol w) (r : Fin b.nReader) :
    b.readFlag w.memory (w.enqueued.length % b.maxChunks) r =
      if b.maxChunks ≤ w.enqueued.length ∧
          w.enqueued.length < (w.reader r).marked + b.maxChunks ∧ ¬cleared w.writer r
      then 1 else 0 := by
  have hpos := b.chunks_pos
  by_cases hlap : w.enqueued.length < b.maxChunks
  · rw [(h.unused _ (slot_lt w) (by rw [Nat.mod_eq_of_lt hlap])).2 r, if_neg (by omega)]
  · have hslot : (w.enqueued.length - b.maxChunks) % b.maxChunks =
        w.enqueued.length % b.maxChunks := (Nat.mod_eq_sub_mod (by omega)).symm
    have hval := h.used (w.enqueued.length - b.maxChunks) (by omega) (by omega) r
    rw [hslot] at hval
    rw [hval]
    refine if_congr ⟨fun hc => ⟨by omega, by omega, fun hcl => hc.2 ⟨by omega, hcl⟩⟩,
      fun hc => ⟨by omega, fun hcl => hc.2.2 hcl.2⟩⟩ rfl rfl

/-- A set flag of the writer's chunk belongs to a reader that no longer needs it. -/
theorem room_of_readFlag (h : Protocol w) (r : Fin b.nReader)
    (hflag : b.readFlag w.memory (w.enqueued.length % b.maxChunks) r ≠ 0) :
    w.enqueued.length < (w.reader r).marked + b.maxChunks := by
  rw [readFlag_slot h r] at hflag
  exact (ite_ne_right_iff.mp hflag).1.2.1

theorem readFlag_le_one (h : Protocol w) (r : Fin b.nReader) :
    (b.readFlag w.memory (w.enqueued.length % b.maxChunks) r).toNat ≤ 1 := by
  rw [readFlag_slot h r]
  split <;> decide

/-- A reader that has caught up finds its flag down only when the written flag is down too. -/
theorem slotFlag_of_readFlag (h : Protocol w) (r : Fin b.nReader)
    (hflag : b.readFlag w.memory ((w.reader r).marked % b.maxChunks) r = 0) :
    (w.reader r).marked < w.enqueued.length ∨ slotFlag w = 0 := by
  rcases Nat.lt_or_ge (w.reader r).marked w.enqueued.length with hlt | hge
  · exact .inl hlt
  · right
    have hpos := b.chunks_pos
    have heq : (w.reader r).marked = w.enqueued.length := Nat.le_antisymm (marked_le h r) hge
    rw [heq, readFlag_slot h r] at hflag
    by_cases hlap : w.enqueued.length < b.maxChunks
    · exact (h.unused _ (slot_lt w) (by rw [Nat.mod_eq_of_lt hlap])).1
    · by_contra hslot
      have hnot : ¬cleared w.writer r = true := fun hc =>
        hslot (h.claimed (claimed_of_cleared hc))
      rw [if_pos ⟨by omega, by omega, hnot⟩] at hflag
      exact absurd hflag (by decide)

/-! ## Steps that leave the segment alone -/

/-- The parts of the world the protocol is about, and the rest free. -/
theorem Protocol.frame (h : Protocol w) (hm : w'.memory = w.memory) (he : w'.enqueued = w.enqueued)
    (hi : w'.currentIdx = w.currentIdx)
    (hr : ∀ r, (w'.reader r).marked = (w.reader r).marked ∧
      (w'.reader r).currentIdx = (w.reader r).currentIdx)
    (hclear : ∀ r : Fin b.nReader, cleared w'.writer r = cleared w.writer r)
    (hclaim : FlagProtocol.claimed w'.writer → slotFlag w = 0)
    (hwriter : WriterKnows w' w'.writer) (hreader : ∀ r, ReaderKnows w' r (w'.reader r).pc) :
    Protocol w' := by
  have hq : queue w' = queue w := by
    simp only [queue, he, Queue.mk.injEq, true_and]
    exact funext fun r => (hr r).1
  have hslot : slotFlag w' = slotFlag w := by rw [slotFlag, slotFlag, hm, he]
  refine ⟨hq ▸ h.bounded, ?_, ?_, ?_, ?_, ?_, ?_, ?_, hwriter, hreader⟩
  · rw [hi, he]
    exact h.currentIdx
  · intro r
    rw [(hr r).1, (hr r).2]
    exact h.readerIdx r
  · intro k hk hw r
    rw [he] at hk hw ⊢
    rw [hm, (hr r).1, hclear r]
    exact h.used k hk hw r
  · rw [hm, he]
    exact h.unused
  · rw [hm, he]
    exact h.written
  · rw [hslot]
    exact hclaim
  · intro hzero r
    rw [hslot] at hzero
    rw [he, (hr r).1]
    exact h.room hzero r

/-- Only the writer's place in its call changes. -/
theorem Protocol.setWriter (h : Protocol w) (x : WriterAt)
    (hclear : ∀ r : Fin b.nReader, cleared x r = cleared w.writer r)
    (hclaim : FlagProtocol.claimed x → slotFlag w = 0) (hknows : WriterKnows w x) :
    Protocol { w with writer := x } := by
  refine h.frame rfl rfl rfl (fun _ => ⟨rfl, rfl⟩) hclear hclaim ?_ ?_
  · cases x <;> exact hknows
  · intro r
    have hr := h.reader r
    show ReaderKnows { w with writer := x } r (w.reader r).pc
    cases hpc : (w.reader r).pc <;> rw [hpc] at hr <;> exact hr

theorem reader_setReader (rank r : Fin b.nReader) (me : Reader) :
    (w.setReader rank me).reader r = if r = rank then me else w.reader r :=
  Function.update_apply w.reader rank me r

/-- Only one reader's place in its call changes. -/
theorem Protocol.setReader (h : Protocol w) (rank : Fin b.nReader) (pc : ReaderAt)
    (dequeued : List (List Bytes)) (hknows : ReaderKnows w rank pc) :
    Protocol (w.setReader rank { w.reader rank with pc := pc, dequeued := dequeued }) := by
  have hsame : ∀ r, ((w.setReader rank { w.reader rank with pc := pc, dequeued := dequeued }).reader
      r).marked = (w.reader r).marked ∧ ((w.setReader rank
        { w.reader rank with pc := pc, dequeued := dequeued }).reader r).currentIdx =
      (w.reader r).currentIdx := by
    intro r
    rw [reader_setReader]
    by_cases hr : r = rank
    · subst hr
      rw [if_pos rfl]
      exact ⟨rfl, rfl⟩
    · rw [if_neg hr]
      exact ⟨rfl, rfl⟩
  refine h.frame rfl rfl rfl hsame (fun _ => rfl) (fun hc => h.claimed hc) ?_ ?_
  · have hw := h.writer
    show WriterKnows (w.setReader rank _) w.writer
    cases hx : w.writer <;> rw [hx] at hw <;>
      simp only [WriterKnows, Room, (hsame _).1] at hw ⊢ <;> exact hw
  · intro r
    by_cases hr : r = rank
    · subst hr
      rw [reader_setReader, if_pos rfl]
      cases pc <;> simp only [ReaderKnows, (hsame _).1] at hknows ⊢ <;> exact hknows
    · rw [reader_setReader, if_neg hr]
      have hold := h.reader r
      cases hpc : (w.reader r).pc <;> rw [hpc] at hold <;>
        simp only [ReaderKnows, (hsame _).1] at hold ⊢ <;> exact hold

/-- The sockets are no part of the protocol. -/
theorem Protocol.setSockets (h : Protocol w) (localSocket : Fin b.nReader → List (List Bytes))
    (remoteSocket received : Fin nRemote → List (List Bytes)) :
    Protocol { w with
      localSocket := localSocket
      remoteSocket := remoteSocket
      received := received } := by
  refine h.frame rfl rfl rfl (fun _ => ⟨rfl, rfl⟩) (fun _ => rfl) h.claimed ?_ fun r => ?_
  · have hw := h.writer
    show WriterKnows _ w.writer
    cases hx : w.writer <;> rw [hx] at hw <;> exact hw
  · have hr := h.reader r
    show ReaderKnows _ r (w.reader r).pc
    cases hpc : (w.reader r).pc <;> rw [hpc] at hr <;> exact hr

/-! ## The stores of the writer -/

/-- While the written flag is down a reader knows what it knew. -/
theorem readerKnows_slot_down {r : Fin b.nReader} {pc : ReaderAt} (h : ReaderKnows w r pc)
    (hr : w'.reader = w.reader) (he : w'.enqueued = w.enqueued) (hslot : slotFlag w' = 0) :
    ReaderKnows w' r pc := by
  cases pc with
  | testingWritten readFlag => exact fun _ => .inr hslot
  | reading _ | marking _ =>
    show (w'.reader r).marked < w'.enqueued.length
    rw [hr, he]
    exact h
  | _ => exact trivial

/-- A reader with a message to read knows all it needs. -/
theorem readerKnows_of_behind {r : Fin b.nReader} (pc : ReaderAt)
    (h : (w.reader r).marked < w.enqueued.length) : ReaderKnows w r pc := by
  cases pc with
  | testingWritten readFlag => exact fun _ => .inl h
  | reading _ | marking _ => exact h
  | _ => exact trivial

/-- The written flag goes down: the chunk is the writer's, since every reader is past it. -/
theorem Protocol.claim (h : Protocol w) {message : Message} (hx : w.writer = .claiming message) :
    Protocol { w with
      memory := Function.update w.memory (b.metadataAt w.currentIdx 0) 0
      writer := .filling message 0 } := by
  have hroom : Room w := by
    have hw := h.writer
    rw [hx] at hw
    exact hw
  have hslot : b.written (Function.update w.memory (b.metadataAt w.currentIdx 0) 0)
      (w.enqueued.length % b.maxChunks) = 0 := by
    rw [written_store_written, h.currentIdx, if_pos rfl]
  refine ⟨h.bounded, h.currentIdx, h.readerIdx, ?_, ?_, ?_, fun _ => hslot, fun _ => hroom, hroom,
    ?_⟩
  · intro k hk hw r
    rw [readFlag_store_written r.isLt, h.used k hk hw r]
    rw [hx]
    rfl
  · intro i hi hle
    have hunused := h.unused i hi hle
    refine ⟨?_, fun r => ?_⟩
    · rw [written_store_written]
      split
      · rfl
      · exact hunused.1
    · rw [readFlag_store_written r.isLt]
      exact hunused.2 r
  · intro k hk hw
    have hne : k % b.maxChunks ≠ w.currentIdx := by
      rw [h.currentIdx]
      exact mod_ne_of_lt_add hk hw
    rw [written_store_written, if_neg hne]
    exact h.written k hk hw
  · exact fun r => readerKnows_slot_down (h.reader r) rfl rfl hslot

/-- A byte of the message is stored; no flag changes. -/
theorem Protocol.fill (h : Protocol w) {message : Message} {stored : ℕ} (byte : UInt8)
    (hx : w.writer = .filling message stored) (hfit : stored < b.maxChunkBytes) :
    Protocol { w with
      memory := Function.update w.memory (b.dataAt w.currentIdx stored) byte
      writer := .filling message (stored + 1) } := by
  have hidx : w.currentIdx < b.maxChunks := by
    rw [h.currentIdx]
    exact slot_lt w
  have hw := h.writer
  have hclaimed := h.claimed
  rw [hx] at hw hclaimed
  have hslot : b.written (Function.update w.memory (b.dataAt w.currentIdx stored) byte)
      (w.enqueued.length % b.maxChunks) = slotFlag w := written_store_data hidx hfit
  refine ⟨h.bounded, h.currentIdx, h.readerIdx, ?_, ?_, ?_, fun _ => hslot.trans (hclaimed rfl),
    fun _ => hw, hw, ?_⟩
  · intro k hk hle r
    rw [readFlag_store_data hidx hfit, h.used k hk hle r, hx]
    rfl
  · intro i hi hle
    rw [written_store_data hidx hfit]
    refine ⟨(h.unused i hi hle).1, fun r => ?_⟩
    rw [readFlag_store_data hidx hfit]
    exact (h.unused i hi hle).2 r
  · intro k hk hle
    rw [written_store_data hidx hfit]
    exact h.written k hk hle
  · exact fun r => readerKnows_slot_down (h.reader r) rfl rfl (hslot.trans (hclaimed rfl))

/-- The flag of one reader is reset; the reader has no message to find in this chunk. -/
theorem Protocol.clear (h : Protocol w) {message : Message} {flag : ℕ}
    (hx : w.writer = .clearing message flag) (hflag : flag < b.nReader) :
    Protocol { w with
      memory := Function.update w.memory (b.metadataAt w.currentIdx (flag + 1)) 0
      writer := .clearing message (flag + 1) } := by
  have hw := h.writer
  have hclaimed := h.claimed
  rw [hx] at hw hclaimed
  have hslot : b.written (Function.update w.memory (b.metadataAt w.currentIdx (flag + 1)) 0)
      (w.enqueued.length % b.maxChunks) = slotFlag w := written_store_readFlag hflag
  refine ⟨h.bounded, h.currentIdx, h.readerIdx, ?_, ?_, ?_, fun _ => hslot.trans (hclaimed rfl),
    fun _ => hw, hw, ?_⟩
  · intro k hk hle r
    have hstore : b.readFlag (Function.update w.memory (b.metadataAt w.currentIdx (flag + 1)) 0)
        (k % b.maxChunks) r = if k + b.maxChunks = w.enqueued.length ∧ r.val = flag then 0
          else b.readFlag w.memory (k % b.maxChunks) r := by
      rw [readFlag_store_readFlag hflag r.isLt, h.currentIdx]
      exact if_congr (and_congr_left' (mod_eq_slot_iff hk hle)) rfl rfl
    rw [hstore, h.used k hk hle r, hx]
    simp only [cleared, decide_eq_true_eq]
    by_cases hold : k + b.maxChunks = w.enqueued.length
    · by_cases hr : r.val = flag
      · rw [if_pos ⟨hold, hr⟩, if_neg fun hc => hc.2 ⟨hold, by omega⟩]
      · rw [if_neg fun hc => hr hc.2]
        exact if_congr (and_congr_right fun _ => not_congr (and_congr_right fun _ =>
          ⟨fun hlt => by omega, fun hlt => by omega⟩)) rfl rfl
    · simp only [hold, false_and, if_false]
  · intro i hi hle
    have hunused := h.unused i hi hle
    rw [written_store_readFlag hflag]
    refine ⟨hunused.1, fun r => ?_⟩
    rw [readFlag_store_readFlag hflag r.isLt]
    split
    · rfl
    · exact hunused.2 r
  · intro k hk hle
    rw [written_store_readFlag hflag]
    exact h.written k hk hle
  · exact fun r => readerKnows_slot_down (h.reader r) rfl rfl (hslot.trans (hclaimed rfl))

/-- The written flag goes up: one more message, which no reader has marked. -/
theorem Protocol.publish (h : Protocol w) {message : Message} (x : WriterAt)
    (hx : w.writer = .publishing message) (hafter : x = .sending message ∨ x = .sendingRemote message) :
    Protocol { w with
      memory := Function.update w.memory (b.metadataAt w.currentIdx 0) 1
      currentIdx := (w.currentIdx + 1) % b.maxChunks
      writer := x
      enqueued := w.enqueued ++ [message] } := by
  have hroom := h.writer
  rw [hx] at hroom
  have hlen : (w.enqueued ++ [message]).length = w.enqueued.length + 1 := by simp
  have hcleared : ∀ r : ℕ, cleared x r = false := by
    rcases hafter with rfl | rfl <;> exact fun _ => rfl
  have hwritten : ∀ i, b.written (Function.update w.memory (b.metadataAt w.currentIdx 0) 1) i =
      if i = w.enqueued.length % b.maxChunks then 1 else b.written w.memory i := by
    intro i
    rw [written_store_written, h.currentIdx]
  have hstep : Step b.maxChunks (queue w) ⟨w.enqueued ++ [message], (queue w).read⟩ :=
    .write (queue w) message hroom
  refine ⟨hstep.bounded h.bounded, ?_, h.readerIdx, ?_, ?_, ?_, ?_, ?_, ?_, ?_⟩
  · rw [hlen, h.currentIdx, Nat.mod_add_mod]
  · intro k hk hle r
    rw [hlen] at hk hle
    rw [readFlag_store_written r.isLt]
    simp only [hcleared, Bool.false_eq_true, and_false, not_false_iff, and_true]
    rcases Nat.lt_succ_iff_lt_or_eq.mp hk with hlt | rfl
    · rw [h.used k hlt (by omega) r]
      exact if_congr ⟨fun hc => hc.1, fun hc => ⟨hc, fun hc' => by omega⟩⟩ rfl rfl
    · rw [readFlag_slot h r, hx, if_neg fun hc => hc.2.2 rfl]
      exact (if_neg (Nat.not_lt.mpr (marked_le h r))).symm
  · intro i hi hle
    rw [hlen] at hle
    have hunused := h.unused i hi (by omega)
    refine ⟨?_, fun r => ?_⟩
    · rw [hwritten, Nat.mod_eq_of_lt (by omega), if_neg (by omega)]
      exact hunused.1
    · rw [readFlag_store_written r.isLt]
      exact hunused.2 r
  · intro k hk hle
    rw [hlen] at hk hle
    rw [hwritten]
    rcases Nat.lt_succ_iff_lt_or_eq.mp hk with hlt | rfl
    · rw [if_neg (mod_ne_of_lt_add hlt (by omega))]
      exact h.written k hlt (by omega)
    · exact if_pos rfl
  · intro hc
    rcases hafter with rfl | rfl <;> exact nomatch hc
  · intro hzero r
    have hpos := b.chunks_pos
    have hbehind := marked_le h r
    have hmarked := hroom r
    have hnext : b.written (Function.update w.memory (b.metadataAt w.currentIdx 0) 1)
        ((w.enqueued.length + 1) % b.maxChunks) = 0 := by
      rw [← hlen]
      exact hzero
    rw [hwritten] at hnext
    show (w.enqueued ++ [message]).length < (w.reader r).marked + b.maxChunks
    rw [hlen]
    by_contra hfull
    have hlap : b.maxChunks ≤ w.enqueued.length + 1 := by omega
    have hslot : (w.enqueued.length + 1 - b.maxChunks) % b.maxChunks =
        (w.enqueued.length + 1) % b.maxChunks := (Nat.mod_eq_sub_mod hlap).symm
    rw [← hslot] at hnext
    rcases Nat.lt_or_ge (w.enqueued.length + 1 - b.maxChunks) w.enqueued.length with hlt | hge
    · rw [if_neg (mod_ne_of_lt_add hlt (by omega)), h.written _ hlt (by omega)] at hnext
      exact absurd hnext (by decide)
    · have heq : w.enqueued.length + 1 - b.maxChunks = w.enqueued.length := by omega
      rw [heq, if_pos rfl] at hnext
      exact absurd hnext (by decide)
  · rcases hafter with rfl | rfl <;> exact trivial
  · intro r
    refine readerKnows_of_behind _ ?_
    show (w.reader r).marked < (w.enqueued ++ [message]).length
    rw [hlen]
    exact Nat.lt_succ_of_le (marked_le h r)

/-! ## The store of a reader -/

theorem queue_mark (w : World b nRemote) (rank : Fin b.nReader) (result : Option (List Bytes))
    (m : Memory) :
    queue { w.setReader rank ((w.reader rank).mark b result) with memory := m } =
      ⟨w.enqueued, Function.update (queue w).read rank ((queue w).read rank + 1)⟩ := by
  refine congrArg (Queue.mk w.enqueued) (funext fun r => ?_)
  show ((w.setReader rank _).reader r).marked = _
  rw [reader_setReader]
  by_cases hr : r = rank
  · subst hr
    rw [if_pos rfl, Function.update_self]
    rfl
  · rw [if_neg hr, Function.update_of_ne hr]
    rfl

/-- A reader sets its flag: it is done with the oldest message it had not marked. -/
theorem Protocol.mark (h : Protocol w) {rank : Fin b.nReader} {result : Option (List Bytes)}
    (hpc : (w.reader rank).pc = .marking result) :
    Protocol { w.setReader rank ((w.reader rank).mark b result) with
      memory := Function.update w.memory (b.metadataAt (w.reader rank).currentIdx (rank + 1)) 1 } := by
  have hbehind := h.reader rank
  rw [hpc] at hbehind
  have hbehind : (w.reader rank).marked < w.enqueued.length := hbehind
  have hwithin := within h rank
  have hstep : Step b.maxChunks (queue w) _ := .read (queue w) rank hbehind
  -- no reader goes back, so what the writer knows stays true
  have hgrow : ∀ r, (w.reader r).marked ≤
      ((w.setReader rank ((w.reader rank).mark b result)).reader r).marked := by
    intro r
    rw [reader_setReader]
    by_cases hr : r = rank
    · subst hr
      rw [if_pos rfl]
      exact Nat.le_succ _
    · rw [if_neg hr]
  have hroom : Room w → Room (w.setReader rank ((w.reader rank).mark b result)) :=
    fun hall r => (hall r).trans_le (Nat.add_le_add_right (hgrow r) _)
  have hslot : b.written (Function.update w.memory
      (b.metadataAt (w.reader rank).currentIdx (rank + 1)) 1)
      (w.enqueued.length % b.maxChunks) = slotFlag w := written_store_readFlag rank.isLt
  refine ⟨?_, h.currentIdx, ?_, ?_, ?_, ?_, fun hc => hslot.trans (h.claimed hc),
    fun hzero => hroom (h.room (hslot.symm.trans hzero)), ?_, ?_⟩
  · rw [queue_mark]
    exact hstep.bounded h.bounded
  · intro r
    show ((w.setReader rank _).reader r).currentIdx = ((w.setReader rank _).reader r).marked % _
    rw [reader_setReader]
    by_cases hr : r = rank
    · subst hr
      rw [if_pos rfl, Reader.mark, h.readerIdx r, Nat.mod_add_mod]
    · rw [if_neg hr]
      exact h.readerIdx r
  · intro k hk hle r
    have hstore : b.readFlag (Function.update w.memory
        (b.metadataAt (w.reader rank).currentIdx (rank + 1)) 1) (k % b.maxChunks) r =
        if k = (w.reader rank).marked ∧ r = rank then 1
        else b.readFlag w.memory (k % b.maxChunks) r := by
      rw [readFlag_store_readFlag rank.isLt r.isLt, h.readerIdx]
      exact if_congr (and_congr (mod_eq_iff hk hle hbehind hwithin) Fin.val_inj) rfl rfl
    show b.readFlag _ _ _ = if k < ((w.setReader rank _).reader r).marked ∧ _ then 1 else 0
    rw [hstore, h.used k hk hle r, reader_setReader]
    by_cases hr : r = rank
    · subst hr
      rw [if_pos rfl]
      by_cases hsame : k = (w.reader r).marked
      · have hnot : ¬(k + b.maxChunks = w.enqueued.length ∧ cleared w.writer r = true) := by
          rintro ⟨hold, hc⟩
          have := h.room (h.claimed (claimed_of_cleared hc)) r
          omega
        rw [if_pos ⟨hsame, rfl⟩]
        exact (if_pos ⟨hsame ▸ Nat.lt_succ_self _, hnot⟩).symm
      · rw [if_neg fun hc => hsame hc.1]
        exact if_congr (and_congr_left' ⟨fun hlt => Nat.lt_succ_of_lt hlt,
          fun hlt => Nat.lt_of_le_of_ne (Nat.le_of_lt_succ hlt) hsame⟩) rfl rfl
    · rw [if_neg hr, if_neg fun hc => hr hc.2]
      rfl
  · intro i hi hle
    have hne : i ≠ (w.reader rank).currentIdx := by
      rw [h.readerIdx, Nat.mod_eq_of_lt (hbehind.trans_le (hle.trans hi.le))]
      have : w.enqueued.length ≤ i := hle
      omega
    refine ⟨(written_store_readFlag rank.isLt).trans (h.unused i hi hle).1, fun r => ?_⟩
    rw [readFlag_store_readFlag rank.isLt r.isLt, if_neg fun hc => hne hc.1]
    exact (h.unused i hi hle).2 r
  · intro k hk hle
    exact (written_store_readFlag rank.isLt).trans (h.written k hk hle)
  · have hw := h.writer
    show WriterKnows _ w.writer
    cases hx : w.writer <;> rw [hx] at hw
    case counting message flag readCount =>
      exact ⟨hw.1, hw.2.1, fun heq r hr =>
        (hw.2.2 heq r hr).trans_le (Nat.add_le_add_right (hgrow r) _)⟩
    case testing message readCount => exact ⟨hw.1, fun heq => hroom (hw.2 heq)⟩
    case claiming | filling | clearing | publishing => exact hroom hw
    all_goals exact trivial
  · intro r
    show ReaderKnows _ r ((w.setReader rank _).reader r).pc
    rw [reader_setReader]
    by_cases hr : r = rank
    · subst hr
      rw [if_pos rfl]
      cases result <;> exact trivial
    · rw [if_neg hr]
      have hold := h.reader r
      have hsame : ((w.setReader rank ((w.reader rank).mark b result)).reader r) =
          w.reader r := by rw [reader_setReader, if_neg hr]
      cases hpc' : (w.reader r).pc <;> rw [hpc'] at hold
      case testingWritten readFlag =>
        intro hzero
        refine (hold hzero).imp (fun hlt => ?_) fun hs => hslot.trans hs
        rw [show ((w.setReader rank ((w.reader rank).mark b result)).reader r).marked =
          (w.reader r).marked from congrArg Reader.marked hsame]
        exact hlt
      case reading | marking =>
        show ((w.setReader rank ((w.reader rank).mark b result)).reader r).marked < _
        rw [hsame]
        exact hold
      all_goals exact trivial

/-! ## Every step keeps the protocol -/

theorem protocol_start (b : ShmRingBuffer) (nRemote : ℕ) : Protocol (start b nRemote) where
  bounded := bounded_empty b.maxChunks
  currentIdx := (Nat.zero_mod _).symm
  readerIdx _ := (Nat.zero_mod _).symm
  used k hk := absurd hk (Nat.not_lt_zero k)
  unused _ _ _ := ⟨rfl, fun _ => rfl⟩
  written k hk := absurd hk (Nat.not_lt_zero k)
  claimed hc := nomatch hc
  room _ _ := Nat.lt_add_left _ b.chunks_pos
  writer := trivial
  reader _ := trivial

theorem writerStep_protocol (h : Protocol w) : Protocol (writerStep w) := by
  have hw := h.writer
  have hclaim := h.claimed
  unfold writerStep
  cases hx : w.writer with rw [hx] at hw hclaim
  | idle => exact h
  | counting message flag readCount =>
    obtain ⟨hbound, hle, hfull⟩ := hw
    by_cases hflag : flag < b.nReader
    · simp only [if_pos hflag]
      have hone : (b.readFlag w.memory w.currentIdx flag).toNat ≤ 1 := by
        rw [h.currentIdx]
        exact readFlag_le_one h ⟨flag, hflag⟩
      refine h.setWriter _ (fun r => by rw [hx]; rfl) (fun hc => nomatch hc)
        ⟨hflag, Nat.add_le_add hle hone, fun heq r hr => ?_⟩
      -- a full count means that every flag read so far was set
      rcases Nat.lt_succ_iff_lt_or_eq.mp hr with hlt | hlast
      · exact hfull (by omega) r hlt
      · refine room_of_readFlag h r fun hzero => ?_
        rw [← h.currentIdx, hlast] at hzero
        rw [hzero, UInt8.toNat_zero] at heq
        omega
    · simp only [if_neg hflag]
      have hall : flag = b.nReader := by omega
      subst hall
      exact h.setWriter _ (fun r => by rw [hx]; rfl) (fun hc => nomatch hc)
        ⟨hle, fun heq r => hfull heq r r.isLt⟩
  | testing message readCount =>
    by_cases hmay : mayWrite b (b.written w.memory w.currentIdx) readCount
    · simp only [if_pos hmay]
      refine h.setWriter _ (fun r => by rw [hx]; rfl) (fun hc => nomatch hc) ?_
      show Room w
      rw [h.currentIdx] at hmay
      by_cases hdown : slotFlag w = 0
      · exact h.room hdown
      · have hup : b.written w.memory (w.enqueued.length % b.maxChunks) ≠ 0 := hdown
        apply hw.2
        simpa [mayWrite, hup] using hmay
    · simp only [if_neg hmay]
      exact h.setWriter _ (fun r => by rw [hx]; rfl) (fun hc => nomatch hc) trivial
  | waiting message =>
    refine h.setWriter _ (fun r => by rw [hx]; rfl) (fun hc => nomatch hc)
      ⟨Nat.zero_le _, Nat.le_refl 0, fun _ r hr => absurd hr (Nat.not_lt_zero r)⟩
  | claiming message => exact h.claim hx
  | filling message stored =>
    cases hbyte : (chunkStores b message).bytes[stored]? with
    | some byte =>
      simp only [hbyte]
      have hlen := (List.getElem?_eq_some_iff.mp hbyte).1
      exact h.fill byte hx (hlen.trans_le (length_chunkStores_le b message))
    | none =>
      simp only [hbyte]
      by_cases hraise : (chunkStores b message).raises
      · rw [if_pos hraise]
        exact h.setWriter _ (fun r => by rw [hx]; rfl) (fun hc => nomatch hc) trivial
      · rw [if_neg hraise]
        exact h.setWriter _ (fun r => by rw [hx]; rfl) (fun _ => hclaim rfl) hw
  | clearing message flag =>
    by_cases hflag : flag < b.nReader
    · simp only [if_pos hflag]
      exact h.clear hx hflag
    · simp only [if_neg hflag]
      refine h.setWriter _ (fun r => ?_) (fun _ => hclaim rfl) hw
      rw [hx]
      exact (decide_eq_true (by omega)).symm
  | publishing message =>
    refine h.publish _ hx ?_
    by_cases hover : overflows b message
    · exact .inl (if_pos hover)
    · exact .inr (if_neg hover)
  | sending message =>
    exact (h.setWriter (.sendingRemote message) (fun r => by rw [hx]; rfl) (fun hc => nomatch hc)
      trivial).setSockets _ w.remoteSocket w.received
  | sendingRemote message =>
    exact (h.setWriter .idle (fun r => by rw [hx]; rfl) (fun hc => nomatch hc)
      trivial).setSockets w.localSocket _ w.received

/-- A check that succeeds has found a message, although its two flags were read apart. -/
theorem behind_of_mayRead (h : Protocol w) {rank : Fin b.nReader} {readFlag : UInt8}
    (hknows : ReaderKnows w rank (.testingWritten readFlag))
    (hmay : mayRead readFlag (b.written w.memory (w.reader rank).currentIdx)) :
    (w.reader rank).marked < w.enqueued.length := by
  have hup : readFlag = 0 ∧ b.written w.memory (w.reader rank).currentIdx ≠ 0 := by
    simpa [mayRead, and_comm] using hmay
  rcases hknows hup.1 with hbehind | hdown
  · exact hbehind
  · -- the written flag was up, so it is not the writer's chunk
    refine lt_of_le_of_ne (marked_le h rank) fun heq => hup.2 ?_
    rw [h.readerIdx, heq]
    exact hdown

theorem readerStep_protocol (h : Protocol w) (rank : Fin b.nReader) :
    Protocol (readerStep w rank) := by
  have hme := h.reader rank
  unfold readerStep
  cases hpc : (w.reader rank).pc with rw [hpc] at hme
  | idle =>
    simp only [hpc]
    exact h
  | testing =>
    simp only [hpc]
    refine h.setReader rank (.testingWritten _) (w.reader rank).dequeued fun hzero => ?_
    rw [h.readerIdx] at hzero
    exact slotFlag_of_readFlag h rank hzero
  | testingWritten readFlag =>
    simp only [hpc]
    by_cases hmay : mayRead readFlag (b.written w.memory (w.reader rank).currentIdx)
    · rw [if_pos hmay]
      exact h.setReader rank (.reading []) (w.reader rank).dequeued (behind_of_mayRead h hme hmay)
    · rw [if_neg hmay]
      exact h.setReader rank .waiting (w.reader rank).dequeued trivial
  | waiting =>
    simp only [hpc]
    exact h.setReader rank .testing (w.reader rank).dequeued trivial
  | reading seen =>
    simp only [hpc]
    cases hread : dequeueChunk seen with
    | some result => exact h.setReader rank (.marking result) (w.reader rank).dequeued hme
    | none =>
      by_cases hlen : seen.length < b.maxChunkBytes
      · simp only [if_pos hlen]
        exact h.setReader rank (.reading _) (w.reader rank).dequeued hme
      · simp only [if_neg hlen]
        exact h
  | marking result =>
    simp only [hpc]
    exact h.mark hpc
  | receiving =>
    simp only [hpc]
    cases hsocket : w.localSocket rank with
    | nil => exact h
    | cons buffers rest =>
      exact (h.setReader rank .idle _ trivial).setSockets _ w.remoteSocket w.received

theorem readerRaises_protocol (h : Protocol w) (rank : Fin b.nReader) :
    Protocol (readerRaises w rank) := by
  have hafter := readerStep_protocol h rank
  exact hafter.setReader rank _ _ (hafter.reader rank)

theorem step_protocol (h : Protocol w) (a : Action b nRemote) : Protocol (step w a) := by
  cases a with
  | enqueue message =>
    by_cases hidle : w.writer = .idle
    · simp only [step, if_pos hidle]
      exact h.setWriter _ (fun r => by rw [hidle]; rfl) (fun hc => nomatch hc)
        ⟨Nat.zero_le _, Nat.le_refl 0, fun _ r hr => absurd hr (Nat.not_lt_zero r)⟩
    · simp only [step, if_neg hidle]
      exact h
  | writerStep => exact writerStep_protocol h
  | writerTimeout =>
    cases hx : w.writer with
    | waiting message =>
      simp only [step, hx]
      exact h.setWriter .idle (fun r => by rw [hx]; rfl) (fun hc => nomatch hc) trivial
    | _ =>
      simp only [step, hx]
      exact h
  | dequeue rank =>
    simp only [step]
    split
    · exact h.setReader rank .testing (w.reader rank).dequeued trivial
    · exact h
  | readerStep rank => exact readerStep_protocol h rank
  | readerTimeout rank =>
    simp only [step]
    split
    · exact h.setReader rank .idle (w.reader rank).dequeued trivial
    · exact h
  | recvTimeout rank =>
    simp only [step]
    split
    · exact h.setReader rank .idle (w.reader rank).dequeued trivial
    · exact h
  | recvRemote rank =>
    simp only [step]
    cases hsocket : w.remoteSocket rank with
    | nil => exact h
    | cons buffers rest => exact h.setSockets w.localSocket _ _
  | loadsError rank =>
    simp only [step]
    split
    · exact readerRaises_protocol h rank
    · exact readerRaises_protocol h rank
    · exact h
  | loadsErrorRemote rank => exact h.setSockets w.localSocket _ w.received
  | socketFault rank pending => exact h.setSockets _ w.remoteSocket w.received
  | socketFaultRemote rank pending => exact h.setSockets w.localSocket _ w.received

/-! ## The ring is a bounded queue -/

theorem queue_setReader {rank : Fin b.nReader} {me : Reader}
    (hm : me.marked = (w.reader rank).marked) : queue (w.setReader rank me) = queue w := by
  refine congrArg (Queue.mk w.enqueued) (funext fun r => ?_)
  rw [reader_setReader]
  by_cases hr : r = rank
  · subst hr
    rw [if_pos rfl, hm]
  · rw [if_neg hr]

theorem stay_setReader {rank : Fin b.nReader} {me : Reader}
    (hm : me.marked = (w.reader rank).marked) :
    Step b.maxChunks (queue w) (queue (w.setReader rank me)) := by
  rw [queue_setReader hm]
  exact .stay (queue w)

theorem queue_writerStep (h : Protocol w) :
    Step b.maxChunks (queue w) (queue (writerStep w)) := by
  have hw := h.writer
  unfold writerStep
  cases hx : w.writer with rw [hx] at hw
  | publishing message => exact .write (queue w) message hw
  | counting message flag readCount =>
    simp only
    split <;> exact .stay (queue w)
  | testing message readCount =>
    simp only
    split <;> exact .stay (queue w)
  | filling message stored =>
    simp only
    split <;> exact .stay (queue w)
  | clearing message flag =>
    simp only
    split <;> exact .stay (queue w)
  | _ => exact .stay (queue w)

theorem queue_readerStep (h : Protocol w) (rank : Fin b.nReader) :
    Step b.maxChunks (queue w) (queue (readerStep w rank)) := by
  have hme := h.reader rank
  unfold readerStep
  cases hpc : (w.reader rank).pc with rw [hpc] at hme
  | marking result =>
    simp only [hpc]
    exact Eq.mp (congrArg (Step b.maxChunks (queue w)) (queue_mark w rank result _).symm)
      (.read (queue w) rank hme)
  | idle =>
    simp only [hpc]
    exact .stay (queue w)
  | testing =>
    simp only [hpc]
    exact stay_setReader rfl
  | testingWritten readFlag =>
    simp only [hpc]
    split
    · exact stay_setReader rfl
    · exact stay_setReader rfl
  | waiting =>
    simp only [hpc]
    exact stay_setReader rfl
  | reading seen =>
    simp only [hpc]
    split
    · exact stay_setReader rfl
    · split
      · exact stay_setReader rfl
      · exact .stay (queue w)
  | receiving =>
    simp only [hpc]
    split
    · exact .stay (queue w)
    · exact stay_setReader rfl

theorem queue_readerRaises (h : Protocol w) (rank : Fin b.nReader) :
    Step b.maxChunks (queue w) (queue (readerRaises w rank)) := by
  have hsame : queue (readerRaises w rank) = queue (readerStep w rank) := queue_setReader rfl
  rw [hsame]
  exact queue_readerStep h rank

/-- Every step of the code leaves the queue as it is, appends one message when there is room,
or gives one reader its next message. -/
theorem queue_step (h : Protocol w) (a : Action b nRemote) :
    Step b.maxChunks (queue w) (queue (step w a)) := by
  cases a with
  | writerStep => exact queue_writerStep h
  | readerStep rank => exact queue_readerStep h rank
  | enqueue message =>
    simp only [step]
    split <;> exact .stay (queue w)
  | writerTimeout =>
    simp only [step]
    split <;> exact .stay (queue w)
  | dequeue rank | readerTimeout rank | recvTimeout rank =>
    simp only [step]
    split
    · exact stay_setReader rfl
    · exact .stay (queue w)
  | recvRemote rank =>
    simp only [step]
    split <;> exact .stay (queue w)
  | loadsError rank =>
    simp only [step]
    split
    · exact queue_readerRaises h rank
    · exact queue_readerRaises h rank
    · exact .stay (queue w)
  | loadsErrorRemote rank | socketFault rank pending | socketFaultRemote rank pending =>
    exact .stay (queue w)

end SparkKit.Shm.FlagProtocol
