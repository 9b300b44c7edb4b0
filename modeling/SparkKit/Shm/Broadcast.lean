import SparkKit.Shm.ChunkContent

/-!
# What the readers of the queue get

A message that does not fit a chunk goes through the socket; the overflow byte in its chunk
tells a reader when to take it from there. As long as no such `recv` times out, what it gets can
be unpickled and its socket is FIFO, a reader gets the messages enqueued, in order, whichever
way each of them travelled.
-/
namespace SparkKit.Shm.Broadcast

open SparkKit.Lib.History SparkKit.Lib.BroadcastQueue
open SparkKit.Shm.RingBuffer SparkKit.Shm.RingBuffer.ShmRingBuffer SparkKit.Shm.Chunk
open SparkKit.Shm.MessageQueue SparkKit.Shm.FlagProtocol SparkKit.Shm.ChunkContent

variable {b : ShmRingBuffer} {nRemote : ℕ} {w w' : World b nRemote} {r : Fin b.nReader}

/-- The messages a reader has had from `dequeue`, the one it is still receiving left out. -/
def completed (me : Reader) : ℕ :=
  match me.pc with
  | .receiving => me.marked - 1
  | _ => me.marked

/-- The messages the local socket has carried, if they overflow. -/
def announced (w : World b nRemote) : List Message :=
  match w.writer with
  | .sending _ => w.enqueued.dropLast
  | _ => w.enqueued

/-- The messages the remote socket has carried. -/
def broadcast (w : World b nRemote) : List Message :=
  match w.writer with
  | .sending _ | .sendingRemote _ => w.enqueued.dropLast
  | _ => w.enqueued

/-- The messages among these that go through the local socket. -/
def throughSocket (b : ShmRingBuffer) (messages : List Message) : List (List Bytes) :=
  (messages.filter (overflows b)).map Message.allBuffers

structure Delivered (w : World b nRemote) (r : Fin b.nReader) : Prop where
  dequeued : (w.reader r).dequeued =
    (w.enqueued.take (completed (w.reader r))).map Message.allBuffers
  pending : w.localSocket r = throughSocket b ((announced w).drop (completed (w.reader r)))
  completed_le : completed (w.reader r) ≤ (announced w).length
  receiving : (w.reader r).pc = .receiving → ∃ message, 0 < (w.reader r).marked ∧
    w.enqueued[(w.reader r).marked - 1]? = some message ∧ overflows b message

/-- The message a writer is sending is the last one published. -/
def LastPublished (w : World b nRemote) : Prop :=
  match w.writer with
  | .sending message => (∃ before, w.enqueued = before ++ [message]) ∧ overflows b message
  | .sendingRemote message => ∃ before, w.enqueued = before ++ [message]
  | _ => True

/-! ## Steps of the writer -/

theorem Delivered.frame (h : Delivered w r) (hr : w'.reader r = w.reader r)
    (hs : w'.localSocket r = w.localSocket r) (he : w'.enqueued = w.enqueued)
    (ha : announced w' = announced w) : Delivered w' r := by
  refine ⟨?_, ?_, ?_, ?_⟩
  · rw [hr, he]
    exact h.dequeued
  · rw [hs, ha, hr]
    exact h.pending
  · rw [ha, hr]
    exact h.completed_le
  · rw [hr, he]
    exact h.receiving

theorem announced_eq (h : ∀ message, w.writer ≠ .sending message) : announced w = w.enqueued := by
  unfold announced
  split
  · rename_i message hx
    exact absurd hx (h message)
  · rfl

theorem throughSocket_concat (messages : List Message) (message : Message) :
    throughSocket b (messages ++ [message]) =
      throughSocket b messages ++ if overflows b message then [message.allBuffers] else [] := by
  unfold throughSocket
  rw [List.filter_append, List.map_append]
  by_cases hover : overflows b message <;> simp [hover]

theorem writerStep_delivered (hl : LastPublished w) (h : Delivered w r) :
    Delivered (writerStep w) r := by
  unfold writerStep
  cases hx : w.writer with
  | publishing message =>
    have ha : announced w = w.enqueued := announced_eq fun m => by rw [hx]; exact nofun
    have hle := h.completed_le
    rw [ha] at hle
    have htake : (w.enqueued ++ [message]).take (completed (w.reader r)) =
        w.enqueued.take (completed (w.reader r)) := List.take_append_of_le_length hle
    have hreceiving : (w.reader r).pc = .receiving → ∃ m, 0 < (w.reader r).marked ∧
        (w.enqueued ++ [message])[(w.reader r).marked - 1]? = some m ∧ overflows b m := by
      intro hpc
      obtain ⟨m, hpos, hm, hmo⟩ := h.receiving hpc
      exact ⟨m, hpos, List.getElem?_append_left (getElem?_lt hm) ▸ hm, hmo⟩
    by_cases hover : overflows b message
    · simp only [if_pos hover]
      refine ⟨?_, ?_, ?_, hreceiving⟩
      · exact h.dequeued.trans (congrArg _ htake.symm)
      · show w.localSocket r = throughSocket b ((w.enqueued ++ [message]).dropLast.drop _)
        rw [List.dropLast_concat, ← ha]
        exact h.pending
      · show _ ≤ (w.enqueued ++ [message]).dropLast.length
        rw [List.dropLast_concat]
        exact hle
    · simp only [if_neg hover]
      refine ⟨?_, ?_, ?_, hreceiving⟩
      · exact h.dequeued.trans (congrArg _ htake.symm)
      · show w.localSocket r = throughSocket b ((w.enqueued ++ [message]).drop _)
        rw [List.drop_append_of_le_length hle, throughSocket_concat, if_neg hover,
          List.append_nil, ← ha]
        exact h.pending
      · show _ ≤ (w.enqueued ++ [message]).length
        exact hle.trans (by simp)
  | sending message =>
    unfold LastPublished at hl
    rw [hx] at hl
    obtain ⟨⟨before, hbefore⟩, hover⟩ := hl
    have ha : announced w = before := by
      simp only [announced, hx, hbefore, List.dropLast_concat]
    have hle := h.completed_le
    rw [ha] at hle
    refine ⟨h.dequeued, ?_, ?_, h.receiving⟩
    · show w.localSocket r ++ [message.allBuffers] = throughSocket b (w.enqueued.drop _)
      rw [hbefore, List.drop_append_of_le_length hle, throughSocket_concat, if_pos hover,
        h.pending, ha]
    · show _ ≤ w.enqueued.length
      rw [hbefore]
      exact hle.trans (by simp)
  | counting message flag readCount =>
    simp only
    split <;> exact h.frame rfl rfl rfl (by simp only [announced, hx])
  | testing message readCount =>
    simp only
    split <;> exact h.frame rfl rfl rfl (by simp only [announced, hx])
  | filling message stored =>
    simp only
    split
    · exact h.frame rfl rfl rfl (by simp only [announced, hx])
    · by_cases hraise : (chunkStores b message).raises
      · rw [if_pos hraise]
        exact h.frame rfl rfl rfl (by simp only [announced, hx])
      · rw [if_neg hraise]
        exact h.frame rfl rfl rfl (by simp only [announced, hx])
  | clearing message flag =>
    simp only
    split <;> exact h.frame rfl rfl rfl (by simp only [announced, hx])
  | idle => exact h
  | waiting message => exact h.frame rfl rfl rfl (by simp only [announced, hx])
  | claiming message => exact h.frame rfl rfl rfl (by simp only [announced, hx])
  | sendingRemote message => exact h.frame rfl rfl rfl (by simp only [announced, hx])

theorem writerStep_lastPublished (hl : LastPublished w) : LastPublished (writerStep w) := by
  unfold writerStep
  unfold LastPublished at hl
  cases hx : w.writer with rw [hx] at hl
  | publishing message =>
    by_cases hover : overflows b message
    · simp only [if_pos hover]
      exact ⟨⟨w.enqueued, rfl⟩, hover⟩
    · simp only [if_neg hover]
      exact ⟨w.enqueued, rfl⟩
  | sending message => exact hl.1
  | counting message flag readCount =>
    simp only
    split <;> exact trivial
  | testing message readCount =>
    simp only
    split <;> exact trivial
  | filling message stored =>
    simp only
    split
    · exact trivial
    · by_cases hraise : (chunkStores b message).raises
      · rw [if_pos hraise]
        exact trivial
      · rw [if_neg hraise]
        exact trivial
  | clearing message flag =>
    simp only
    split <;> exact trivial
  | idle =>
    show LastPublished w
    unfold LastPublished
    rw [hx]
    exact trivial
  | _ => exact trivial

/-! ## Steps of a reader -/

theorem completed_of_ne {me : Reader} (h : me.pc ≠ .receiving) : completed me = me.marked := by
  unfold completed
  split
  · rename_i hpc
    exact absurd hpc h
  · rfl

/-- A reader outside `recv` moves on inside its call. -/
theorem Delivered.setReader (h : Delivered w r) (rank : Fin b.nReader) {pc : ReaderAt}
    (hbefore : (w.reader rank).pc ≠ .receiving) (hafter : pc ≠ .receiving) :
    Delivered (w.setReader rank { w.reader rank with pc := pc }) r := by
  by_cases hr : r = rank
  · subst hr
    have hme : (w.setReader r { w.reader r with pc := pc }).reader r =
        { w.reader r with pc := pc } := by rw [reader_setReader, if_pos rfl]
    have hc : completed ((w.setReader r { w.reader r with pc := pc }).reader r) =
        completed (w.reader r) := by
      rw [hme, completed_of_ne hafter, completed_of_ne hbefore]
    refine ⟨?_, ?_, ?_, ?_⟩
    · rw [hc, hme]
      exact h.dequeued
    · rw [hc]
      exact h.pending
    · rw [hc]
      exact h.completed_le
    · rw [hme]
      exact fun hpc => absurd hpc hafter
  · refine h.frame ?_ rfl rfl rfl
    rw [reader_setReader, if_neg hr]

/-- The messages still to be taken from the socket when the next one does not overflow. -/
theorem throughSocket_drop_succ {xs : List Message} {k : ℕ} {message : Message}
    (hm : xs[k]? = some message) (hover : ¬overflows b message) :
    throughSocket b (xs.drop k) = throughSocket b (xs.drop (k + 1)) := by
  have hk := getElem?_lt hm
  obtain rfl : xs[k] = message := (List.getElem?_eq_some_iff.mp hm).2
  rw [List.drop_eq_getElem_cons hk, throughSocket, List.filter_cons, if_neg hover]
  rfl

theorem take_succ_of_getElem? {α : Type*} {xs : List α} {k : ℕ} {x : α} (hx : xs[k]? = some x) :
    xs.take (k + 1) = xs.take k ++ [x] := by
  rw [List.take_add_one, hx]
  rfl

/-- The announced messages are the published ones, but for one that overflows. -/
theorem getElem?_announced (hl : LastPublished w) {k : ℕ} {message : Message}
    (hm : w.enqueued[k]? = some message) (hin : ¬overflows b message ∨ k < (announced w).length) :
    (announced w)[k]? = some message := by
  unfold LastPublished at hl
  cases hx : w.writer with
  | sending m =>
    rw [hx] at hl
    obtain ⟨⟨before, hbefore⟩, hover⟩ := hl
    have ha : announced w = before := by
      simp only [announced, hx, hbefore, List.dropLast_concat]
    rw [ha] at hin ⊢
    rw [hbefore] at hm
    rcases getElem?_concat_cases hm with hold | ⟨rfl, rfl⟩
    · exact hold
    · rcases hin with hnot | hlt
      · exact absurd hover hnot
      · exact absurd hlt (Nat.lt_irrefl _)
  | _ =>
    rw [announced_eq fun m => by rw [hx]; exact nofun]
    exact hm

/-- A reader marks its chunk: it has the message, or has still to take it from the socket. -/
theorem Delivered.mark (hc : Content w) (hl : LastPublished w) (h : Delivered w r)
    {rank : Fin b.nReader} {result : Option (List Bytes)}
    (hpc : (w.reader rank).pc = .marking result) (m : Memory) :
    Delivered { w.setReader rank ((w.reader rank).mark b result) with memory := m } r := by
  by_cases hr : r = rank
  · subst hr
    have hsaw := hc.reader r
    rw [hpc] at hsaw
    obtain ⟨message, hm, rfl⟩ := hsaw
    have hbefore : completed (w.reader r) = (w.reader r).marked :=
      completed_of_ne (by rw [hpc]; exact nofun)
    have hdequeued := h.dequeued
    have hpending := h.pending
    have hle := h.completed_le
    rw [hbefore] at hdequeued hpending hle
    have hme : (w.setReader r ((w.reader r).mark b (chunkResult b message))).reader r =
        (w.reader r).mark b (chunkResult b message) := by rw [reader_setReader, if_pos rfl]
    by_cases hover : overflows b message
    · have hres : chunkResult b message = none := if_pos hover
      rw [hres] at hme ⊢
      refine ⟨?_, ?_, ?_, ?_⟩ <;> simp only [hme]
      · show (w.reader r).dequeued ++ [] =
          (w.enqueued.take (w.reader r).marked).map Message.allBuffers
        rw [List.append_nil, hdequeued]
      · exact hpending
      · exact hle
      · exact fun _ => ⟨message, Nat.succ_pos _, hm, hover⟩
    · have hres : chunkResult b message = some message.allBuffers := if_neg hover
      have ha := getElem?_announced hl hm (.inl hover)
      rw [hres] at hme ⊢
      refine ⟨?_, ?_, ?_, ?_⟩ <;> simp only [hme]
      · show (w.reader r).dequeued ++ [message.allBuffers] =
          (w.enqueued.take ((w.reader r).marked + 1)).map Message.allBuffers
        rw [take_succ_of_getElem? hm, List.map_append, ← hdequeued]
        rfl
      · exact hpending.trans (throughSocket_drop_succ ha hover)
      · exact getElem?_lt ha
      · exact nofun
  · refine h.frame ?_ rfl rfl rfl
    show (w.setReader rank _).reader r = _
    rw [reader_setReader, if_neg hr]

/-- A reader takes an overflowed message from its socket: it is the one it waits for. -/
theorem Delivered.receive (hl : LastPublished w) (h : Delivered w r) {rank : Fin b.nReader}
    {buffers : List Bytes} {rest : List (List Bytes)} (hpc : (w.reader rank).pc = .receiving)
    (hsocket : w.localSocket rank = buffers :: rest) :
    Delivered { w.setReader rank { w.reader rank with
        pc := .idle, dequeued := (w.reader rank).dequeued ++ [buffers] } with
      localSocket := Function.update w.localSocket rank rest } r := by
  by_cases hr : r = rank
  · subst hr
    have hbefore : completed (w.reader r) = (w.reader r).marked - 1 := by
      rw [completed, hpc]
    obtain ⟨message, hpos, hm, hover⟩ := h.receiving hpc
    have hdequeued := h.dequeued
    have hpending := h.pending
    rw [hbefore] at hdequeued hpending
    have hin : (w.reader r).marked - 1 < (announced w).length := by
      by_contra hge
      rw [List.drop_eq_nil_of_le (by omega), hsocket] at hpending
      exact nomatch hpending
    have ha := getElem?_announced hl hm (.inr hin)
    have hsucc : (w.reader r).marked - 1 + 1 = (w.reader r).marked := by omega
    have hhead : (announced w)[(w.reader r).marked - 1] = message :=
      (List.getElem?_eq_some_iff.mp ha).2
    rw [List.drop_eq_getElem_cons hin, hhead, hsucc, throughSocket, List.filter_cons,
      if_pos hover, List.map_cons, hsocket] at hpending
    obtain ⟨rfl, hrest⟩ := List.cons.inj hpending
    have hme : (w.setReader r { w.reader r with
        pc := .idle, dequeued := (w.reader r).dequeued ++ [message.allBuffers] }).reader r =
        { w.reader r with
          pc := .idle, dequeued := (w.reader r).dequeued ++ [message.allBuffers] } := by
      rw [reader_setReader, if_pos rfl]
    have htake := take_succ_of_getElem? hm
    rw [hsucc] at htake
    refine ⟨?_, ?_, ?_, ?_⟩ <;> simp only [hme]
    · show (w.reader r).dequeued ++ [message.allBuffers] =
        (w.enqueued.take (w.reader r).marked).map Message.allBuffers
      rw [htake, List.map_append, ← hdequeued]
      rfl
    · rw [Function.update_self, hrest]
      rfl
    · show (w.reader r).marked ≤ (announced w).length
      omega
    · exact nofun
  · refine h.frame ?_ (Function.update_of_ne hr _ _) rfl rfl
    show (w.setReader rank _).reader r = _
    rw [reader_setReader, if_neg hr]

theorem readerStep_delivered (hc : Content w) (hl : LastPublished w) (h : Delivered w r)
    (rank : Fin b.nReader) : Delivered (readerStep w rank) r := by
  unfold readerStep
  cases hpc : (w.reader rank).pc with
  | idle =>
    simp only [hpc]
    exact h
  | testing =>
    simp only [hpc]
    exact h.setReader rank (by rw [hpc]; exact nofun) nofun
  | testingWritten readFlag =>
    simp only [hpc]
    split
    · exact h.setReader rank (by rw [hpc]; exact nofun) nofun
    · exact h.setReader rank (by rw [hpc]; exact nofun) nofun
  | waiting =>
    simp only [hpc]
    exact h.setReader rank (by rw [hpc]; exact nofun) nofun
  | reading seen =>
    simp only [hpc]
    split
    · exact h.setReader rank (by rw [hpc]; exact nofun) nofun
    · split
      · exact h.setReader rank (by rw [hpc]; exact nofun) nofun
      · exact h
  | marking result =>
    simp only [hpc]
    exact h.mark hc hl hpc _
  | receiving =>
    simp only [hpc]
    cases hsocket : w.localSocket rank with
    | nil => exact h
    | cons buffers rest => exact h.receive hl hpc hsocket

/-! ## The remote readers -/

/-- A remote reader has had the messages sent, but for those still under way. -/
def RemoteDelivered (w : World b nRemote) (q : Fin nRemote) : Prop :=
  w.received q ++ w.remoteSocket q = (broadcast w).map Message.allBuffers

theorem writerStep_remoteDelivered (hl : LastPublished w) {q : Fin nRemote}
    (h : RemoteDelivered w q) : RemoteDelivered (writerStep w) q := by
  unfold writerStep
  unfold RemoteDelivered broadcast at *
  unfold LastPublished at hl
  cases hx : w.writer with rw [hx] at hl h
  | publishing message =>
    by_cases hover : overflows b message
    · simp only [if_pos hover, List.dropLast_concat]
      exact h
    · simp only [if_neg hover, List.dropLast_concat]
      exact h
  | sending message => exact h
  | sendingRemote message =>
    obtain ⟨before, hbefore⟩ := hl
    simp only [hbefore, List.dropLast_concat] at h
    simp only [hbefore, List.map_append, ← h, List.append_assoc]
    rfl
  | counting message flag readCount =>
    simp only
    split <;> exact h
  | testing message readCount =>
    simp only
    split <;> exact h
  | filling message stored =>
    simp only
    split
    · exact h
    · by_cases hraise : (chunkStores b message).raises
      · simp only [if_pos hraise]
        exact h
      · simp only [if_neg hraise]
        exact h
  | clearing message flag =>
    simp only
    split <;> exact h
  | idle =>
    simp only [hx]
    exact h
  | _ => exact h

/-- A reader's step leaves the writer and the remote side alone. -/
theorem readerStep_frame (w : World b nRemote) (rank : Fin b.nReader) :
    (readerStep w rank).writer = w.writer ∧ (readerStep w rank).enqueued = w.enqueued ∧
      (readerStep w rank).remoteSocket = w.remoteSocket ∧
      (readerStep w rank).received = w.received := by
  unfold readerStep
  cases hpc : (w.reader rank).pc with
  | testingWritten readFlag =>
    simp only [hpc]
    split <;> exact ⟨rfl, rfl, rfl, rfl⟩
  | reading seen =>
    simp only [hpc]
    split
    · exact ⟨rfl, rfl, rfl, rfl⟩
    · split <;> exact ⟨rfl, rfl, rfl, rfl⟩
  | receiving =>
    simp only [hpc]
    split <;> exact ⟨rfl, rfl, rfl, rfl⟩
  | _ => simp only [hpc, World.setReader, and_self]

/-- An exception in a reader's call leaves them alone too. -/
theorem readerRaises_frame (w : World b nRemote) (rank : Fin b.nReader) :
    (readerRaises w rank).writer = w.writer ∧ (readerRaises w rank).enqueued = w.enqueued ∧
      (readerRaises w rank).remoteSocket = w.remoteSocket ∧
      (readerRaises w rank).received = w.received := readerStep_frame w rank

/-! ## Whole runs -/

theorem step_lastPublished (hl : LastPublished w) (a : Action b nRemote) :
    LastPublished (step w a) := by
  cases a with
  | writerStep => exact writerStep_lastPublished hl
  | enqueue message =>
    simp only [step]
    split
    · exact trivial
    · exact hl
  | writerTimeout =>
    simp only [step]
    split
    · exact trivial
    · exact hl
  | readerStep rank =>
    obtain ⟨hx, he, -, -⟩ := readerStep_frame w rank
    show LastPublished (readerStep w rank)
    unfold LastPublished at hl ⊢
    rw [hx, he]
    exact hl
  | dequeue rank | readerTimeout rank | recvTimeout rank =>
    simp only [step]
    split <;> exact hl
  | recvRemote rank =>
    simp only [step]
    split <;> exact hl
  | loadsError rank =>
    obtain ⟨hx, he, -, -⟩ := readerRaises_frame w rank
    have hraised : LastPublished (readerRaises w rank) := by
      unfold LastPublished at hl ⊢
      rw [hx, he]
      exact hl
    simp only [step]
    split
    · exact hraised
    · exact hraised
    · exact hl
  | loadsErrorRemote rank | socketFault rank pending | socketFaultRemote rank pending => exact hl

theorem readerRaises_delivered (hc : Content w) (hl : LastPublished w) (h : Delivered w r)
    {rank : Fin b.nReader} (hne : r ≠ rank) : Delivered (readerRaises w rank) r := by
  refine (readerStep_delivered hc hl h rank).frame ?_ rfl rfl rfl
  rw [readerRaises, reader_setReader, if_neg hne]

theorem step_delivered (hc : Content w) (hl : LastPublished w) (h : Delivered w r)
    (a : Action b nRemote) (hcalm : Undisturbed r [a]) : Delivered (step w a) r := by
  cases a with
  | writerStep => exact writerStep_delivered hl h
  | readerStep rank => exact readerStep_delivered hc hl h rank
  | enqueue message =>
    by_cases hidle : w.writer = .idle
    · simp only [step, if_pos hidle]
      exact h.frame rfl rfl rfl (by simp only [announced, hidle])
    · simp only [step, if_neg hidle]
      exact h
  | writerTimeout =>
    simp only [step]
    split
    · rename_i message hx
      exact h.frame rfl rfl rfl (by simp only [announced, hx])
    · exact h
  | dequeue rank =>
    simp only [step]
    split
    · rename_i hpc
      exact h.setReader rank (by rw [hpc]; decide) (by decide)
    · exact h
  | readerTimeout rank =>
    simp only [step]
    split
    · rename_i hpc
      exact h.setReader rank (by rw [hpc]; decide) (by decide)
    · exact h
  | recvTimeout rank =>
    simp only [step]
    have hne : r ≠ rank := fun heq => hcalm.recv (by rw [heq]; exact List.mem_singleton_self _)
    split
    · refine h.frame ?_ rfl rfl rfl
      rw [reader_setReader, if_neg hne]
    · exact h
  | recvRemote rank =>
    simp only [step]
    split
    · exact h
    · exact h.frame rfl rfl rfl rfl
  | loadsError rank =>
    have hne : r ≠ rank := fun heq => hcalm.loads (by rw [heq]; exact List.mem_singleton_self _)
    simp only [step]
    split
    · exact readerRaises_delivered hc hl h hne
    · exact readerRaises_delivered hc hl h hne
    · exact h
  | socketFault rank pending =>
    have hne : r ≠ rank :=
      fun heq => hcalm.socket pending (by rw [heq]; exact List.mem_singleton_self _)
    exact h.frame rfl (Function.update_of_ne hne _ _) rfl rfl
  | loadsErrorRemote rank | socketFaultRemote rank pending => exact h.frame rfl rfl rfl rfl

theorem readerRaises_remoteDelivered {q : Fin nRemote} (h : RemoteDelivered w q)
    (rank : Fin b.nReader) : RemoteDelivered (readerRaises w rank) q := by
  obtain ⟨hx, he, hs, hr⟩ := readerRaises_frame w rank
  unfold RemoteDelivered broadcast at h ⊢
  rw [hx, he, hs, hr]
  exact h

theorem step_remoteDelivered (hl : LastPublished w) {q : Fin nRemote} (h : RemoteDelivered w q)
    (a : Action b nRemote) (hcalm : RemoteUndisturbed q [a]) : RemoteDelivered (step w a) q := by
  cases a with
  | writerStep => exact writerStep_remoteDelivered hl h
  | readerStep rank =>
    obtain ⟨hx, he, hs, hr⟩ := readerStep_frame w rank
    show RemoteDelivered (readerStep w rank) q
    unfold RemoteDelivered broadcast at h ⊢
    rw [hx, he, hs, hr]
    exact h
  | enqueue message =>
    by_cases hidle : w.writer = .idle
    · simp only [step, if_pos hidle]
      unfold RemoteDelivered broadcast at h ⊢
      rw [hidle] at h
      exact h
    · simp only [step, if_neg hidle]
      exact h
  | writerTimeout =>
    simp only [step]
    split
    · rename_i message hx
      unfold RemoteDelivered broadcast at h ⊢
      rw [hx] at h
      exact h
    · exact h
  | dequeue rank | readerTimeout rank | recvTimeout rank =>
    simp only [step]
    split <;> exact h
  | recvRemote rank =>
    simp only [step]
    cases hsocket : w.remoteSocket rank with
    | nil => exact h
    | cons buffers rest =>
      unfold RemoteDelivered at h ⊢
      by_cases hq : q = rank
      · subst hq
        simp only [Function.update_self, List.append_assoc, List.singleton_append]
        rw [← hsocket]
        exact h
      · simp only [Function.update_of_ne hq]
        exact h
  | loadsError rank =>
    simp only [step]
    split
    · exact readerRaises_remoteDelivered h rank
    · exact readerRaises_remoteDelivered h rank
    · exact h
  | socketFault rank pending => exact h
  | loadsErrorRemote rank =>
    have hne : q ≠ rank := fun heq => hcalm.loads (by rw [heq]; exact List.mem_singleton_self _)
    unfold RemoteDelivered at h ⊢
    simp only [step, Function.update_of_ne hne]
    exact h
  | socketFaultRemote rank pending =>
    have hne : q ≠ rank :=
      fun heq => hcalm.socket pending (by rw [heq]; exact List.mem_singleton_self _)
    unfold RemoteDelivered at h ⊢
    simp only [step, Function.update_of_ne hne]
    exact h

/-- The messages given to `enqueue` along a run. -/
def called (actions : List (Action b nRemote)) : List Message :=
  actions.filterMap fun
    | .enqueue message => some message
    | _ => none

/-- The message of an `enqueue` that has not published it yet. -/
def unpublished : WriterAt → List Message
  | .counting message _ _ | .testing message _ | .waiting message | .claiming message
  | .filling message _ | .clearing message _ | .publishing message => [message]
  | .idle | .sending _ | .sendingRemote _ => []

/-- A step of the writer publishes the message of its call, or gives it up, or neither. -/
theorem writerStep_sublist (w : World b nRemote) :
    ((writerStep w).enqueued ++ unpublished (writerStep w).writer).Sublist
      (w.enqueued ++ unpublished w.writer) := by
  unfold writerStep
  cases hx : w.writer with
  | publishing message =>
    by_cases hover : overflows b message
    · simp only [if_pos hover, unpublished, List.append_nil, List.Sublist.refl]
    · simp only [if_neg hover, unpublished, List.append_nil, List.Sublist.refl]
  | counting message flag readCount =>
    simp only
    split <;> exact List.Sublist.refl _
  | testing message readCount =>
    simp only
    split <;> exact List.Sublist.refl _
  | filling message stored =>
    simp only
    split
    · exact List.Sublist.refl _
    · by_cases hraise : (chunkStores b message).raises
      · rw [if_pos hraise]
        simp only [unpublished, List.append_nil]
        exact List.sublist_append_left w.enqueued [message]
      · rw [if_neg hraise]
        exact List.Sublist.refl _
  | clearing message flag =>
    simp only
    split <;> exact List.Sublist.refl _
  | idle =>
    simp only [hx]
    exact List.Sublist.refl _
  | _ => exact List.Sublist.refl _

/-- All that holds of every world a run reaches. -/
structure Sound (w : World b nRemote) : Prop where
  protocol : Protocol w
  content : Content w
  last : LastPublished w

theorem sound_start (b : ShmRingBuffer) (nRemote : ℕ) : Sound (start b nRemote) :=
  ⟨protocol_start b nRemote, content_start b nRemote, trivial⟩

theorem Sound.step (h : Sound w) (a : Action b nRemote) : Sound (MessageQueue.step w a) :=
  ⟨step_protocol h.protocol a, step_content h.protocol h.content a, step_lastPublished h.last a⟩

theorem run_sound (b : ShmRingBuffer) (nRemote : ℕ) (actions : List (Action b nRemote)) :
    Sound (runFrom step (start b nRemote) actions) := by
  induction actions using List.reverseRecOn with
  | nil => exact sound_start b nRemote
  | append_singleton actions a ih =>
    rw [runFrom_concat]
    exact ih.step a

theorem run_delivered {actions : List (Action b nRemote)} (hcalm : Undisturbed r actions) :
    Delivered (runFrom step (start b nRemote) actions) r := by
  induction actions using List.reverseRecOn with
  | nil => exact ⟨rfl, rfl, Nat.le_refl 0, nofun⟩
  | append_singleton actions a ih =>
    obtain ⟨hbefore, hlast⟩ := hcalm.concat
    have hsound := run_sound b nRemote actions
    rw [runFrom_concat]
    exact step_delivered hsound.content hsound.last (ih hbefore) a hlast

theorem run_remoteDelivered {q : Fin nRemote} {actions : List (Action b nRemote)}
    (hcalm : RemoteUndisturbed q actions) :
    RemoteDelivered (runFrom step (start b nRemote) actions) q := by
  induction actions using List.reverseRecOn with
  | nil => rfl
  | append_singleton actions a ih =>
    obtain ⟨hbefore, hlast⟩ := hcalm.concat
    rw [runFrom_concat]
    exact step_remoteDelivered (run_sound b nRemote actions).last (ih hbefore) a hlast

/-- The queue invents no message, repeats none and keeps the order of the calls. -/
theorem enqueued_sublist (actions : List (Action b nRemote)) :
    ((runFrom step (start b nRemote) actions).enqueued ++
      unpublished (runFrom step (start b nRemote) actions).writer).Sublist (called actions) := by
  induction actions using List.reverseRecOn with
  | nil => exact List.Sublist.refl _
  | append_singleton actions a ih =>
    rw [runFrom_concat, called, List.filterMap_append]
    generalize runFrom step (start b nRemote) actions = w at ih ⊢
    have hmore := ih.trans (List.sublist_append_left (called actions) (called [a]))
    cases a with
    | writerStep => exact (writerStep_sublist w).trans hmore
    | readerStep rank =>
      obtain ⟨hx, he, -, -⟩ := readerStep_frame w rank
      show ((readerStep w rank).enqueued ++ unpublished (readerStep w rank).writer).Sublist _
      rw [hx, he]
      exact hmore
    | enqueue message =>
      by_cases hidle : w.writer = .idle
      · simp only [step, if_pos hidle]
        rw [hidle, unpublished, List.append_nil] at ih
        exact ih.append (List.Sublist.refl [message])
      · simp only [step, if_neg hidle]
        exact hmore
    | writerTimeout =>
      simp only [step]
      split
      · simp only [unpublished, List.append_nil]
        exact (List.sublist_append_left _ _).trans hmore
      · exact hmore
    | dequeue rank | readerTimeout rank | recvTimeout rank =>
      simp only [step]
      split <;> exact hmore
    | recvRemote rank =>
      simp only [step]
      split <;> exact hmore
    | loadsError rank =>
      obtain ⟨hx, he, -, -⟩ := readerRaises_frame w rank
      simp only [step]
      split
      · rw [hx, he]
        exact hmore
      · rw [hx, he]
        exact hmore
      · exact hmore
    | loadsErrorRemote rank | socketFault rank pending | socketFaultRemote rank pending =>
      exact hmore

/-- Whatever the interleaving, the ring is a bounded queue which every reader reads from its
start: whatever a process does next is one write into it, one read by one reader, or nothing,
and so every state of a run is one that queue can reach. -/
theorem ring_refines_queue (b : ShmRingBuffer) (nRemote : ℕ) (actions : List (Action b nRemote)) :
    let w := runFrom step (start b nRemote) actions
    (∀ a, Step b.maxChunks (queue w) (queue (step w a))) ∧
      Relation.ReflTransGen (Step b.maxChunks) empty (queue w) := by
  refine ⟨queue_step (run_sound b nRemote actions).protocol, ?_⟩
  induction actions using List.reverseRecOn with
  | nil => exact .refl
  | append_singleton actions a ih =>
    rw [runFrom_concat]
    exact ih.tail (queue_step (run_sound b nRemote actions).protocol a)

def tinyReader : Fin tinyRing.nReader := ⟨0, by decide⟩

/-- A whole `enqueue`: 17 steps of the writer, after which the message is published. -/
def tinyEnqueue (nRemote : ℕ) : List (Action tinyRing nRemote) :=
  .enqueue tinyMessage :: List.replicate 17 .writerStep

/-- The message a reader is due is in its chunk, byte for byte, and the writer is not in there. -/
def HasChunk (w : World b nRemote) (r : Fin b.nReader) (message : Message) : Prop :=
  w.enqueued[(w.reader r).marked]? = some message ∧
    StartsWith b w.memory (w.reader r).currentIdx (chunkStores b message).bytes ∧
    (claimed w.writer → w.currentIdx ≠ (w.reader r).currentIdx)

theorem hasChunk (h : Sound w) {message : Message}
    (hm : w.enqueued[(w.reader r).marked]? = some message) : HasChunk w r message := by
  refine ⟨hm, startsWith_unmarked h.protocol h.content hm, fun hclaim heq => ?_⟩
  have hroom := h.protocol.room (h.protocol.claimed hclaim) r
  rw [h.protocol.currentIdx, h.protocol.readerIdx] at heq
  have hold := (mod_eq_slot_iff (getElem?_lt hm) (within h.protocol r)).mp heq.symm
  omega

/-- From its check to its mark a reader has its message in the chunk: while it reads, it has
seen a beginning of it, and what it has when it sets its flag is the message. -/
theorem chunk_stable_while_read (b : ShmRingBuffer) (nRemote : ℕ)
    (actions : List (Action b nRemote)) (r : Fin b.nReader) :
    let w := runFrom step (start b nRemote) actions
    (∀ seen, (w.reader r).pc = .reading seen →
      ∃ message, HasChunk w r message ∧ seen <+: (chunkStores b message).bytes) ∧
    ∀ result, (w.reader r).pc = .marking result →
      ∃ message, HasChunk w r message ∧ result = chunkResult b message := by
  intro w
  have hsound : Sound w := run_sound b nRemote actions
  have hsaw := hsound.content.reader r
  constructor
  · intro seen hpc
    rw [hpc] at hsaw
    obtain ⟨message, hm, hpre⟩ := hsaw
    exact ⟨message, hasChunk hsound hm, hpre⟩
  · intro result hpc
    rw [hpc] at hsaw
    obtain ⟨message, hm, hres⟩ := hsaw
    exact ⟨message, hasChunk hsound hm, hres⟩

theorem chunk_stable_while_read_tiny :
    let reading := runFrom step (start tinyRing 0)
      (tinyEnqueue 0 ++ .dequeue tinyReader :: List.replicate 5 (.readerStep tinyReader))
    let marking := runFrom step (start tinyRing 0)
      (tinyEnqueue 0 ++ .dequeue tinyReader :: List.replicate 11 (.readerStep tinyReader))
    (∃ message, HasChunk reading tinyReader message ∧
      [0, 0, 1] <+: (chunkStores tinyRing message).bytes) ∧
    ∃ message, HasChunk marking tinyReader message ∧
      some [[7]] = chunkResult tinyRing message := by
  constructor
  · exact (chunk_stable_while_read tinyRing 0 _ tinyReader).1 [0, 0, 1] (by decide +kernel)
  · exact (chunk_stable_while_read tinyRing 0 _ tinyReader).2 (some [[7]]) (by decide +kernel)

theorem completed_bounds (me : Reader) : completed me ≤ me.marked ∧ me.marked ≤ completed me + 1 := by
  unfold completed
  split <;> omega

theorem dequeued_isPrefix (h : Delivered w r) :
    (w.reader r).dequeued <+: w.enqueued.map Message.allBuffers := by
  rw [h.dequeued]
  have htake := List.take_prefix (completed (w.reader r)) w.enqueued
  exact htake.map _

/-- A local reader that was not disturbed has been given the messages published, which are
messages enqueued, in order and without a gap. It is at most `max_chunks + 1` behind, and so many
at most wait in its socket. -/
theorem dequeued_in_order (b : ShmRingBuffer) (nRemote : ℕ) (actions : List (Action b nRemote))
    (r : Fin b.nReader) (hcalm : Undisturbed r actions) :
    let w := runFrom step (start b nRemote) actions
    (w.reader r).dequeued <+: w.enqueued.map Message.allBuffers ∧
      w.enqueued.Sublist (called actions) ∧
      w.enqueued.length ≤ (w.reader r).dequeued.length + (b.maxChunks + 1) ∧
      (w.localSocket r).length ≤ b.maxChunks + 1 := by
  intro w
  have hcalled := (List.sublist_append_left w.enqueued _).trans (enqueued_sublist actions)
  have hsound : Sound w := run_sound b nRemote actions
  have h : Delivered w r := run_delivered hcalm
  obtain ⟨hle, hge⟩ := completed_bounds (w.reader r)
  have hbehind := marked_le hsound.protocol r
  have hwithin := within hsound.protocol r
  refine ⟨dequeued_isPrefix h, hcalled, ?_, ?_⟩
  · rw [h.dequeued, List.length_map, List.length_take, Nat.min_eq_left (by omega)]
    omega
  · have hannounced : (announced w).length ≤ w.enqueued.length := by
      unfold announced
      split
      · simp
      · exact Nat.le_refl _
    rw [h.pending, throughSocket, List.length_map]
    refine (List.length_filter_le _ _).trans ?_
    rw [List.length_drop]
    omega

/-- Two readers; each has a flag of its own, and the ring two chunks of 16 bytes. -/
def pairRing : ShmRingBuffer :=
  { tinyRing with nReader := 2, maxChunks := 2, chunks_pos := Nat.two_pos }

def firstReader : Fin pairRing.nReader := ⟨0, Nat.two_pos⟩

def secondReader : Fin pairRing.nReader := ⟨1, Nat.one_lt_two⟩

/-- Ten bytes do not fit the chunk with their lengths. -/
def longMessage : Message := ⟨List.replicate 10 3, []⟩

/-- One message through the ring and one through the sockets. Of the two local readers the
first has dequeued both and the second the first one; so has the remote reader. -/
def pairRun : List (Action pairRing 1) :=
  .enqueue tinyMessage :: List.replicate 19 .writerStep ++
    .enqueue longMessage :: List.replicate 13 .writerStep ++
    .dequeue firstReader :: List.replicate 12 (.readerStep firstReader) ++
    .dequeue secondReader :: List.replicate 12 (.readerStep secondReader) ++
    .dequeue firstReader :: List.replicate 6 (.readerStep firstReader) ++ [.recvRemote (Fin.last 0)]

theorem pairRun_undisturbed (r : Fin pairRing.nReader) : Undisturbed r pairRun :=
  ⟨by simp [LocalSocketFifo, pairRun], by simp [pairRun], by simp [pairRun]⟩

theorem dequeued_in_order_tiny :
    let w := runFrom step (start pairRing 1) pairRun
    (w.reader firstReader).dequeued = [[[7]], [List.replicate 10 3]] ∧
      (w.reader firstReader).dequeued <+: w.enqueued.map Message.allBuffers ∧
      w.enqueued.Sublist (called pairRun) ∧
      w.enqueued.length ≤ (w.reader firstReader).dequeued.length + (pairRing.maxChunks + 1) ∧
      (w.localSocket firstReader).length ≤ pairRing.maxChunks + 1 :=
  ⟨by decide +kernel, dequeued_in_order pairRing 1 pairRun firstReader (pairRun_undisturbed _)⟩

theorem received_isPrefix {q : Fin nRemote} (h : RemoteDelivered w q) :
    w.received q <+: w.enqueued.map Message.allBuffers := by
  have hsent : broadcast w <+: w.enqueued := by
    unfold broadcast
    split
    · exact List.dropLast_prefix _
    · exact List.dropLast_prefix _
    · exact List.prefix_refl _
  exact (List.prefix_append _ _).trans (h ▸ hsent.map _)

end SparkKit.Shm.Broadcast
