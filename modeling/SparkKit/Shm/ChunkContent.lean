import SparkKit.Shm.FlagProtocol

/-!
# What a reader sees in a chunk

The bytes of a published message stay in its chunk until every reader has marked it, so what
a reader collects byte by byte is a beginning of the message, and it stops at its end.
-/
namespace SparkKit.Shm.ChunkContent

open SparkKit.Lib.BroadcastQueue SparkKit.Lib.RingWindow
open SparkKit.Shm.RingBuffer SparkKit.Shm.RingBuffer.ShmRingBuffer SparkKit.Shm.Chunk
open SparkKit.Shm.MessageQueue SparkKit.Shm.FlagProtocol

variable {b : ShmRingBuffer} {nRemote : ℕ} {w w' : World b nRemote}

/-- The chunk starts with these bytes. -/
def StartsWith (b : ShmRingBuffer) (m : Memory) (idx : ℕ) (bytes : Bytes) : Prop :=
  ∀ j byte, bytes[j]? = some byte → b.data m idx j = byte

/-- The next message's own chunk, as far as the writer has got. -/
def WriterFilled (w : World b nRemote) : WriterAt → Prop
  | .filling message stored =>
    StartsWith b w.memory (w.enqueued.length % b.maxChunks)
      ((chunkStores b message).bytes.take stored)
  | .clearing message _ | .publishing message => (chunkStores b message).raises = false ∧
      StartsWith b w.memory (w.enqueued.length % b.maxChunks) (chunkStores b message).bytes
  | _ => True

/-- What a reader has in hand of the message it has not marked yet. -/
def ReaderSaw (w : World b nRemote) (r : Fin b.nReader) : ReaderAt → Prop
  | .reading seen => ∃ message, w.enqueued[(w.reader r).marked]? = some message ∧
      seen <+: (chunkStores b message).bytes
  | .marking result => ∃ message, w.enqueued[(w.reader r).marked]? = some message ∧
      result = chunkResult b message
  | _ => True

structure Content (w : World b nRemote) : Prop where
  sendable : ∀ message ∈ w.enqueued, (chunkStores b message).raises = false
  stored : ∀ k message, w.enqueued[k]? = some message → w.enqueued.length ≤ k + b.maxChunks →
    (k + b.maxChunks = w.enqueued.length → slotFlag w ≠ 0) →
    StartsWith b w.memory (k % b.maxChunks) (chunkStores b message).bytes
  writer : WriterFilled w w.writer
  reader : ∀ r, ReaderSaw w r (w.reader r).pc

/-! ## Stores and chunks -/

theorem length_take_le (b : ShmRingBuffer) (message : Message) (n : ℕ) :
    ((chunkStores b message).bytes.take n).length ≤ b.maxChunkBytes :=
  (List.length_take_le' n _).trans (length_chunkStores_le b message)

theorem StartsWith.store_metadata {m : Memory} {idx i x : ℕ} {v : UInt8} {bytes : Bytes}
    (h : StartsWith b m idx bytes) (hidx : idx < b.maxChunks) (hlen : bytes.length ≤ b.maxChunkBytes) :
    StartsWith b (Function.update m (b.metadataAt i x) v) idx bytes := by
  intro j byte hj
  have hlt := (List.getElem?_eq_some_iff.mp hj).1
  rw [data_store_metadata hidx (hlt.trans_le hlen)]
  exact h j byte hj

theorem StartsWith.store_other {m : Memory} {idx i x : ℕ} {v : UInt8} {bytes : Bytes}
    (h : StartsWith b m idx bytes) (hne : idx ≠ i) (hx : x < b.maxChunkBytes)
    (hlen : bytes.length ≤ b.maxChunkBytes) :
    StartsWith b (Function.update m (b.dataAt i x) v) idx bytes := by
  intro j byte hj
  have hlt := (List.getElem?_eq_some_iff.mp hj).1
  rw [data_store_data hx (hlt.trans_le hlen), if_neg fun hc => hne hc.1]
  exact h j byte hj

/-- Storing the next byte of a message extends what the chunk starts with. -/
theorem StartsWith.store_next {m : Memory} {idx n : ℕ} {v : UInt8} {bytes : Bytes}
    (h : StartsWith b m idx (bytes.take n)) (hv : bytes[n]? = some v)
    (hlen : bytes.length ≤ b.maxChunkBytes) :
    StartsWith b (Function.update m (b.dataAt idx n) v) idx (bytes.take (n + 1)) := by
  have hn := (List.getElem?_eq_some_iff.mp hv).1
  intro j byte hj
  rw [List.getElem?_take] at hj
  obtain ⟨hjn, hj⟩ := Option.ite_none_right_eq_some.mp hj
  rw [data_store_data (hn.trans_le hlen) (by omega)]
  by_cases hlast : j = n
  · rw [if_pos ⟨rfl, hlast⟩]
    rw [hlast, hv] at hj
    exact Option.some.inj hj
  · rw [if_neg fun hc => hlast hc.2]
    exact h j byte (by rw [List.getElem?_take, if_pos (by omega), hj])

/-! ## Steps -/

/-- Nothing published and no reader moves on; the chunks in use keep their bytes. -/
theorem Content.frame (h : Content w) (he : w'.enqueued = w.enqueued)
    (hr : ∀ r, (w'.reader r).marked = (w.reader r).marked)
    (hstored : ∀ k message, w.enqueued[k]? = some message →
      w.enqueued.length ≤ k + b.maxChunks → (k + b.maxChunks = w.enqueued.length → slotFlag w' ≠ 0) →
      StartsWith b w'.memory (k % b.maxChunks) (chunkStores b message).bytes)
    (hwriter : WriterFilled w' w'.writer)
    (hreader : ∀ r, ReaderSaw w r (w'.reader r).pc) : Content w' := by
  refine ⟨?_, ?_, hwriter, fun r => ?_⟩
  · rw [he]
    exact h.sendable
  · rw [he]
    exact hstored
  · have hsaw := hreader r
    cases hpc : (w'.reader r).pc <;> rw [hpc] at hsaw <;>
      simp only [ReaderSaw, he, hr] at hsaw ⊢ <;> exact hsaw

theorem Content.setWriter (h : Content w) (x : WriterAt) (hfilled : WriterFilled w x) :
    Content { w with writer := x } :=
  h.frame rfl (fun _ => rfl) h.stored (by cases x <;> exact hfilled) h.reader

theorem Content.setSockets (h : Content w) (localSocket : Fin b.nReader → List (List Bytes))
    (remoteSocket received : Fin nRemote → List (List Bytes)) :
    Content { w with
      localSocket := localSocket
      remoteSocket := remoteSocket
      received := received } := by
  refine h.frame rfl (fun _ => rfl) h.stored ?_ h.reader
  have hw := h.writer
  show WriterFilled _ w.writer
  cases hx : w.writer <;> rw [hx] at hw <;> exact hw

theorem Content.setReader (h : Content w) (rank : Fin b.nReader) (pc : ReaderAt)
    (dequeued : List (List Bytes)) (hsaw : ReaderSaw w rank pc) :
    Content (w.setReader rank { w.reader rank with pc := pc, dequeued := dequeued }) := by
  refine h.frame rfl (fun r => ?_) h.stored ?_ fun r => ?_
  · rw [reader_setReader]
    by_cases hr : r = rank
    · subst hr
      rw [if_pos rfl]
    · rw [if_neg hr]
  · have hw := h.writer
    show WriterFilled _ w.writer
    cases hx : w.writer <;> rw [hx] at hw <;> exact hw
  · rw [reader_setReader]
    by_cases hr : r = rank
    · subst hr
      rw [if_pos rfl]
      exact hsaw
    · rw [if_neg hr]
      exact h.reader r

theorem getElem?_lt {α : Type*} {xs : List α} {k : ℕ} {x : α} (h : xs[k]? = some x) :
    k < xs.length := (List.getElem?_eq_some_iff.mp h).1

theorem getElem?_concat_cases {α : Type*} {xs : List α} {x y : α} {k : ℕ}
    (h : (xs ++ [x])[k]? = some y) : xs[k]? = some y ∨ k = xs.length ∧ y = x := by
  have hk := getElem?_lt h
  rw [List.length_append, List.length_singleton] at hk
  rcases Nat.lt_succ_iff_lt_or_eq.mp hk with hlt | rfl
  · exact .inl (List.getElem?_append_left hlt ▸ h)
  · rw [List.getElem?_concat_length] at h
    exact .inr ⟨rfl, (Option.some.inj h).symm⟩

/-- The old message of the claimed chunk is given up; no reader needs it. -/
theorem Content.claim (hp : Protocol w) (h : Content w) (message : Message) :
    Content { w with
      memory := Function.update w.memory (b.metadataAt w.currentIdx 0) 0
      writer := .filling message 0 } := by
  refine h.frame rfl (fun _ => rfl) (fun k m hk hle hup => ?_) ?_ h.reader
  · have hnot : k + b.maxChunks ≠ w.enqueued.length := by
      intro hold
      refine hup hold ?_
      show b.written _ _ = 0
      rw [written_store_written, hp.currentIdx, if_pos rfl]
    exact (h.stored k m hk hle fun hold => absurd hold hnot).store_metadata
      (Nat.mod_lt _ b.chunks_pos) (length_chunkStores_le b m)
  · intro j byte hj
    simp at hj

theorem Content.fill (hp : Protocol w) (h : Content w) {message : Message} {stored : ℕ}
    {byte : UInt8} (hx : w.writer = .filling message stored)
    (hbyte : (chunkStores b message).bytes[stored]? = some byte) :
    Content { w with
      memory := Function.update w.memory (b.dataAt w.currentIdx stored) byte
      writer := .filling message (stored + 1) } := by
  have hfit := (getElem?_lt hbyte).trans_le (length_chunkStores_le b message)
  have hfilled := h.writer
  have hdown := hp.claimed
  rw [hx] at hfilled hdown
  have hidx : w.currentIdx < b.maxChunks := by
    rw [hp.currentIdx]
    exact slot_lt w
  refine h.frame rfl (fun _ => rfl) (fun k m hk hle hup => ?_) ?_ h.reader
  · have hnot : k + b.maxChunks ≠ w.enqueued.length := by
      intro hold
      refine hup hold ?_
      show b.written _ _ = 0
      rw [written_store_data hidx hfit]
      exact hdown rfl
    have hother : k % b.maxChunks ≠ w.currentIdx := by
      rw [hp.currentIdx]
      exact fun hc => hnot ((mod_eq_slot_iff (getElem?_lt hk) hle).mp hc)
    exact (h.stored k m hk hle fun hold => absurd hold hnot).store_other hother hfit
      (length_chunkStores_le b m)
  · show StartsWith b _ (w.enqueued.length % b.maxChunks) _
    rw [hp.currentIdx]
    exact StartsWith.store_next hfilled hbyte (length_chunkStores_le b message)

theorem Content.clear (hp : Protocol w) (h : Content w) {message : Message} {flag : ℕ}
    (hx : w.writer = .clearing message flag) (hflag : flag < b.nReader) :
    Content { w with
      memory := Function.update w.memory (b.metadataAt w.currentIdx (flag + 1)) 0
      writer := .clearing message (flag + 1) } := by
  have hfilled := h.writer
  have hdown := hp.claimed
  rw [hx] at hfilled hdown
  refine h.frame rfl (fun _ => rfl) (fun k m hk hle hup => ?_) ⟨hfilled.1, ?_⟩ h.reader
  · refine (h.stored k m hk hle fun hold => absurd (hdown rfl) ?_).store_metadata
      (Nat.mod_lt _ b.chunks_pos) (length_chunkStores_le b m)
    intro hzero
    refine hup hold ?_
    exact (written_store_readFlag hflag).trans hzero
  · exact StartsWith.store_metadata hfilled.2 (slot_lt w) (length_chunkStores_le b message)

theorem Content.publish (h : Content w) {message : Message} (x : WriterAt)
    (hx : w.writer = .publishing message)
    (hafter : x = .sending message ∨ x = .sendingRemote message) :
    Content { w with
      memory := Function.update w.memory (b.metadataAt w.currentIdx 0) 1
      currentIdx := (w.currentIdx + 1) % b.maxChunks
      writer := x
      enqueued := w.enqueued ++ [message] } := by
  have hfilled := h.writer
  rw [hx] at hfilled
  obtain ⟨hsend, hstart⟩ := hfilled
  refine ⟨?_, ?_, ?_, ?_⟩
  · intro m hm
    rcases List.mem_append.mp hm with hold | hnew
    · exact h.sendable m hold
    · obtain rfl := List.mem_singleton.mp hnew
      exact hsend
  · intro k m hk hle _
    rw [List.length_append, List.length_singleton] at hle
    refine StartsWith.store_metadata ?_ (Nat.mod_lt _ b.chunks_pos) (length_chunkStores_le b m)
    rcases getElem?_concat_cases hk with hold | ⟨rfl, rfl⟩
    · exact h.stored k m hold (by omega) fun heq => by omega
    · exact hstart
  · rcases hafter with rfl | rfl <;> exact trivial
  · intro r
    have hsaw := h.reader r
    show ReaderSaw _ r (w.reader r).pc
    cases hpc : (w.reader r).pc <;> rw [hpc] at hsaw
    case reading seen =>
      obtain ⟨m, hm, hpre⟩ := hsaw
      exact ⟨m, List.getElem?_append_left (getElem?_lt hm) ▸ hm, hpre⟩
    case marking result =>
      obtain ⟨m, hm, hres⟩ := hsaw
      exact ⟨m, List.getElem?_append_left (getElem?_lt hm) ▸ hm, hres⟩
    all_goals exact trivial

/-- A message not yet marked by some reader is still in its chunk. -/
theorem startsWith_unmarked (hp : Protocol w) (h : Content w) {r : Fin b.nReader} {message : Message}
    (hm : w.enqueued[(w.reader r).marked]? = some message) :
    StartsWith b w.memory (w.reader r).currentIdx (chunkStores b message).bytes := by
  rw [hp.readerIdx r]
  refine h.stored _ message hm (within hp r) fun hold hdown => ?_
  have hroom := hp.room hdown r
  omega

/-- The reader takes the next byte of its message, unless it has the whole message. -/
theorem prefix_read (hp : Protocol w) (h : Content w) {r : Fin b.nReader} {message : Message}
    {seen : Bytes} (hm : w.enqueued[(w.reader r).marked]? = some message)
    (hpre : seen <+: (chunkStores b message).bytes) (hmore : dequeueChunk seen = none) :
    seen ++ [b.data w.memory (w.reader r).currentIdx seen.length] <+:
        (chunkStores b message).bytes ∧ seen.length < (chunkStores b message).bytes.length := by
  have hsend := h.sendable message (List.mem_of_getElem? hm)
  obtain ⟨rest, hrest⟩ := hpre
  cases rest with
  | nil =>
    rw [List.append_nil] at hrest
    rw [hrest, dequeueChunk_chunkStores b message hsend] at hmore
    exact nomatch hmore
  | cons byte rest =>
    have hbyte : (chunkStores b message).bytes[seen.length]? = some byte := by
      rw [← hrest, List.getElem?_append_right (Nat.le_refl _), Nat.sub_self]
      rfl
    rw [startsWith_unmarked hp h hm _ _ hbyte]
    exact ⟨⟨rest, by rw [← hrest, List.append_assoc]; rfl⟩, getElem?_lt hbyte⟩

/-- What the reader has collected is read as a message only when it is the whole message. -/
theorem result_of_prefix (h : Content w) {r : Fin b.nReader} {message : Message} {seen : Bytes}
    {result : Option (List Bytes)} (hm : w.enqueued[(w.reader r).marked]? = some message)
    (hpre : seen <+: (chunkStores b message).bytes) (hread : dequeueChunk seen = some result) :
    result = chunkResult b message := by
  have hsend := h.sendable message (List.mem_of_getElem? hm)
  have htake := List.prefix_iff_eq_take.mp hpre
  rcases Nat.lt_or_ge seen.length (chunkStores b message).bytes.length with hlt | hge
  · rw [htake, dequeueChunk_take b message hlt hsend] at hread
    exact nomatch hread
  · rw [htake, List.take_of_length_le hge, dequeueChunk_chunkStores b message hsend] at hread
    exact (Option.some.inj hread).symm

theorem Content.mark (h : Content w) (rank : Fin b.nReader) (result : Option (List Bytes)) :
    Content { w.setReader rank ((w.reader rank).mark b result) with
      memory := Function.update w.memory (b.metadataAt (w.reader rank).currentIdx (rank + 1)) 1 } := by
  have hwritten : ∀ i, b.written (Function.update w.memory
      (b.metadataAt (w.reader rank).currentIdx (rank + 1)) 1) i = b.written w.memory i :=
    fun i => written_store_readFlag rank.isLt
  refine ⟨h.sendable, fun k m hk hle hup => ?_, ?_, fun r => ?_⟩
  · refine (h.stored k m hk hle fun hold => ?_).store_metadata (Nat.mod_lt _ b.chunks_pos)
      (length_chunkStores_le b m)
    rw [slotFlag, ← hwritten]
    exact hup hold
  · have hw := h.writer
    show WriterFilled _ w.writer
    cases hx : w.writer <;> rw [hx] at hw
    case filling message stored =>
      exact StartsWith.store_metadata hw (slot_lt w) (length_take_le b message stored)
    case clearing message flag =>
      exact ⟨hw.1, hw.2.store_metadata (slot_lt w) (length_chunkStores_le b message)⟩
    case publishing message =>
      exact ⟨hw.1, hw.2.store_metadata (slot_lt w) (length_chunkStores_le b message)⟩
    all_goals exact trivial
  · show ReaderSaw _ r ((w.setReader rank _).reader r).pc
    rw [reader_setReader]
    by_cases hr : r = rank
    · subst hr
      rw [if_pos rfl]
      cases result <;> exact trivial
    · rw [if_neg hr]
      have hsaw := h.reader r
      have hsame : ((w.setReader rank ((w.reader rank).mark b result)).reader r) =
          w.reader r := by rw [reader_setReader, if_neg hr]
      cases hpc : (w.reader r).pc <;> rw [hpc] at hsaw
      case reading | marking =>
        show ∃ message, w.enqueued[((w.setReader rank _).reader r).marked]? = some message ∧ _
        rw [hsame]
        exact hsaw
      all_goals exact trivial

/-! ## Every step keeps the content -/

theorem content_start (b : ShmRingBuffer) (nRemote : ℕ) : Content (start b nRemote) where
  sendable _ hm := absurd hm List.not_mem_nil
  stored _ _ hk := nomatch hk
  writer := trivial
  reader _ := trivial

theorem writerStep_content (hp : Protocol w) (h : Content w) : Content (writerStep w) := by
  have hw := h.writer
  unfold writerStep
  cases hx : w.writer with rw [hx] at hw
  | idle => exact h
  | counting message flag readCount =>
    simp only
    split <;> exact h.setWriter _ trivial
  | testing message readCount =>
    simp only
    split <;> exact h.setWriter _ trivial
  | waiting message => exact h.setWriter _ trivial
  | claiming message => exact h.claim hp message
  | filling message stored =>
    cases hbyte : (chunkStores b message).bytes[stored]? with
    | some byte =>
      simp only [hbyte]
      exact h.fill hp hx hbyte
    | none =>
      simp only [hbyte]
      by_cases hraise : (chunkStores b message).raises
      · rw [if_pos hraise]
        exact h.setWriter _ trivial
      · rw [if_neg hraise]
        refine h.setWriter _ ⟨Bool.eq_false_iff.mpr hraise, ?_⟩
        have hwhole : (chunkStores b message).bytes.take stored = (chunkStores b message).bytes :=
          List.take_of_length_le (List.getElem?_eq_none_iff.mp hbyte)
        rw [← hwhole]
        exact hw
  | clearing message flag =>
    by_cases hflag : flag < b.nReader
    · simp only [if_pos hflag]
      exact h.clear hp hx hflag
    · simp only [if_neg hflag]
      exact h.setWriter _ hw
  | publishing message =>
    refine h.publish _ hx ?_
    by_cases hover : overflows b message
    · exact .inl (if_pos hover)
    · exact .inr (if_neg hover)
  | sending message =>
    exact (h.setWriter (.sendingRemote message) trivial).setSockets _ w.remoteSocket w.received
  | sendingRemote message =>
    exact (h.setWriter .idle trivial).setSockets w.localSocket _ w.received

theorem readerStep_content (hp : Protocol w) (h : Content w) (rank : Fin b.nReader) :
    Content (readerStep w rank) := by
  have hbehind := hp.reader rank
  have hsaw := h.reader rank
  unfold readerStep
  cases hpc : (w.reader rank).pc with rw [hpc] at hsaw hbehind
  | idle =>
    simp only [hpc]
    exact h
  | testing =>
    simp only [hpc]
    exact h.setReader rank (.testingWritten _) (w.reader rank).dequeued trivial
  | testingWritten readFlag =>
    simp only [hpc]
    by_cases hmay : mayRead readFlag (b.written w.memory (w.reader rank).currentIdx)
    · rw [if_pos hmay]
      have hlt := behind_of_mayRead hp hbehind hmay
      exact h.setReader rank (.reading []) (w.reader rank).dequeued
        ⟨_, List.getElem?_eq_getElem hlt, List.nil_prefix⟩
    · rw [if_neg hmay]
      exact h.setReader rank .waiting (w.reader rank).dequeued trivial
  | waiting =>
    simp only [hpc]
    exact h.setReader rank .testing (w.reader rank).dequeued trivial
  | reading seen =>
    simp only [hpc]
    obtain ⟨message, hm, hpre⟩ := hsaw
    cases hread : dequeueChunk seen with
    | some result =>
      exact h.setReader rank (.marking result) (w.reader rank).dequeued
        ⟨message, hm, result_of_prefix h hm hpre hread⟩
    | none =>
      by_cases hlen : seen.length < b.maxChunkBytes
      · simp only [if_pos hlen]
        exact h.setReader rank (.reading _) (w.reader rank).dequeued
          ⟨message, hm, (prefix_read hp h hm hpre hread).1⟩
      · simp only [if_neg hlen]
        exact h
  | marking result =>
    simp only [hpc]
    exact h.mark rank result
  | receiving =>
    simp only [hpc]
    cases hsocket : w.localSocket rank with
    | nil => exact h
    | cons buffers rest =>
      exact (h.setReader rank .idle _ trivial).setSockets _ w.remoteSocket w.received

theorem readerRaises_content (hp : Protocol w) (h : Content w) (rank : Fin b.nReader) :
    Content (readerRaises w rank) := by
  have hafter := readerStep_content hp h rank
  exact hafter.setReader rank _ _ (hafter.reader rank)

theorem step_content (hp : Protocol w) (h : Content w) (a : Action b nRemote) :
    Content (step w a) := by
  cases a with
  | writerStep => exact writerStep_content hp h
  | readerStep rank => exact readerStep_content hp h rank
  | enqueue message =>
    simp only [step]
    split
    · exact h.setWriter _ trivial
    · exact h
  | writerTimeout =>
    simp only [step]
    split
    · exact h.setWriter .idle trivial
    · exact h
  | dequeue rank =>
    simp only [step]
    split
    · exact h.setReader rank .testing (w.reader rank).dequeued trivial
    · exact h
  | readerTimeout rank | recvTimeout rank =>
    simp only [step]
    split
    · exact h.setReader rank .idle (w.reader rank).dequeued trivial
    · exact h
  | recvRemote rank =>
    simp only [step]
    split
    · exact h
    · exact h.setSockets w.localSocket _ _
  | loadsError rank =>
    simp only [step]
    split
    · exact readerRaises_content hp h rank
    · exact readerRaises_content hp h rank
    · exact h
  | loadsErrorRemote rank => exact h.setSockets w.localSocket _ w.received
  | socketFault rank pending => exact h.setSockets _ w.remoteSocket w.received
  | socketFaultRemote rank pending => exact h.setSockets w.localSocket _ w.received

end SparkKit.Shm.ChunkContent
