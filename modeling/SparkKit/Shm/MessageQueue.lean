import SparkKit.Lib.History
import SparkKit.Shm.Chunk

/-!
# The message queue

One process enqueues; the local readers dequeue through the ring, the remote ones through a
socket. Every access to the shared segment is a step of its own, so a run is any interleaving
of the processes' reads and writes. A socket delivers to each subscriber what was sent, in
order, unless a run says otherwise: a fault may leave anything in a socket, and unpickling may
raise. What needs neither to happen assumes so by name.
-/
namespace SparkKit.Shm.MessageQueue

open SparkKit.Shm.RingBuffer SparkKit.Shm.Chunk

/-- Where the writer is between `enqueue` and its return. -/
inductive WriterAt where
  | idle
  /-- `sum(metadata_buffer[1:])` of `check`, flags below `flag` already added -/
  | counting (message : Message) (flag readCount : ℕ)
  /-- the written flag of `check` -/
  | testing (message : Message) (readCount : ℕ)
  /-- `check` failed -/
  | waiting (message : Message)
  /-- `metadata_buffer[0] = 0` -/
  | claiming (message : Message)
  | filling (message : Message) (stored : ℕ)
  /-- `metadata_buffer[i] = 0`, flags below `flag` already reset -/
  | clearing (message : Message) (flag : ℕ)
  /-- `metadata_buffer[0] = 1` -/
  | publishing (message : Message)
  /-- `local_socket.send_multipart` -/
  | sending (message : Message)
  /-- `remote_socket.send_multipart` -/
  | sendingRemote (message : Message)
deriving DecidableEq

/-- Where a local reader is between `dequeue` and its return. -/
inductive ReaderAt where
  | idle
  /-- `read_flag` of `check` -/
  | testing
  /-- `written_flag` of `check` -/
  | testingWritten (readFlag : UInt8)
  /-- `check` failed -/
  | waiting
  /-- the caller reads the chunk; what it has read so far -/
  | reading (seen : Bytes)
  /-- `metadata_buffer[self.local_reader_rank + 1] = 1` -/
  | marking (result : Option (List Bytes))
  /-- `MessageQueue.recv` on the local socket, after an overflow -/
  | receiving
deriving DecidableEq

/-- A local reader. `marked` counts the chunks it has marked as read and `dequeued` lists what
its `dequeue` calls returned; the code keeps neither. -/
structure Reader where
  currentIdx : ℕ
  pc : ReaderAt
  marked : ℕ
  dequeued : List (List Bytes)

/-- The queue. `enqueued` lists the messages published in the ring, `received` what the remote
readers got; the code keeps neither. -/
structure World (b : ShmRingBuffer) (nRemote : ℕ) where
  memory : Memory
  currentIdx : ℕ
  writer : WriterAt
  reader : Fin b.nReader → Reader
  localSocket : Fin b.nReader → List (List Bytes)
  remoteSocket : Fin nRemote → List (List Bytes)
  received : Fin nRemote → List (List Bytes)
  enqueued : List Message

/-- The processes' choices: a call, the next step inside a call, or a timeout. -/
inductive Action (b : ShmRingBuffer) (nRemote : ℕ) where
  | enqueue (message : Message)
  | writerStep
  | writerTimeout
  | dequeue (rank : Fin b.nReader)
  | readerStep (rank : Fin b.nReader)
  /-- `TimeoutError` or `RuntimeError("cancelled")` in `acquire_read` -/
  | readerTimeout (rank : Fin b.nReader)
  /-- `TimeoutError` in `recv` on the local socket -/
  | recvTimeout (rank : Fin b.nReader)
  | recvRemote (rank : Fin nRemote)
  /-- `pickle.loads` raises -/
  | loadsError (rank : Fin b.nReader)
  | loadsErrorRemote (rank : Fin nRemote)
  /-- a socket loses, repeats or reorders what it still has to deliver -/
  | socketFault (rank : Fin b.nReader) (pending : List (List Bytes))
  | socketFaultRemote (rank : Fin nRemote) (pending : List (List Bytes))

variable {b : ShmRingBuffer} {nRemote : ℕ}

/-- The segment is created zeroed, and every process starts at chunk 0. -/
def start (b : ShmRingBuffer) (nRemote : ℕ) : World b nRemote where
  memory := fun _ => 0
  currentIdx := 0
  writer := .idle
  reader := fun _ => ⟨0, .idle, 0, []⟩
  localSocket := fun _ => []
  remoteSocket := fun _ => []
  received := fun _ => []
  enqueued := []

/-- `check` of `acquire_write`. -/
def mayWrite (b : ShmRingBuffer) (writtenFlag : UInt8) (readCount : ℕ) : Bool :=
  !(writtenFlag ≠ 0 && readCount ≠ b.nReader)

/-- `check` of `acquire_read`. -/
def mayRead (readFlag writtenFlag : UInt8) : Bool := !(writtenFlag = 0 || readFlag ≠ 0)

def writerStep (w : World b nRemote) : World b nRemote :=
  match w.writer with
  | .idle => w
  | .counting message flag readCount =>
    if flag < b.nReader then
      let read := (b.readFlag w.memory w.currentIdx flag).toNat
      { w with writer := .counting message (flag + 1) (readCount + read) }
    else { w with writer := .testing message readCount }
  | .testing message readCount =>
    if mayWrite b (b.written w.memory w.currentIdx) readCount then
      { w with writer := .claiming message }
    else { w with writer := .waiting message }
  | .waiting message => { w with writer := .counting message 0 0 }
  | .claiming message =>
    { w with
      memory := Function.update w.memory (b.metadataAt w.currentIdx 0) 0
      writer := .filling message 0 }
  | .filling message stored =>
    match (chunkStores b message).bytes[stored]? with
    | some byte =>
      { w with
        memory := Function.update w.memory (b.dataAt w.currentIdx stored) byte
        writer := .filling message (stored + 1) }
    | none =>
      -- an exception leaves `acquire_write` before the flags are reset
      { w with writer := if (chunkStores b message).raises then .idle else .clearing message 0 }
  | .clearing message flag =>
    if flag < b.nReader then
      { w with
        memory := Function.update w.memory (b.metadataAt w.currentIdx (flag + 1)) 0
        writer := .clearing message (flag + 1) }
    else { w with writer := .publishing message }
  | .publishing message =>
    { w with
      memory := Function.update w.memory (b.metadataAt w.currentIdx 0) 1
      currentIdx := (w.currentIdx + 1) % b.maxChunks
      writer := if overflows b message then .sending message else .sendingRemote message
      enqueued := w.enqueued ++ [message] }
  | .sending message =>
    { w with
      localSocket := fun r => w.localSocket r ++ [message.allBuffers]
      writer := .sendingRemote message }
  | .sendingRemote message =>
    { w with
      remoteSocket := fun r => w.remoteSocket r ++ [message.allBuffers]
      writer := .idle }

def World.setReader (w : World b nRemote) (rank : Fin b.nReader) (reader : Reader) :
    World b nRemote :=
  { w with reader := Function.update w.reader rank reader }

/-- Where `dequeue` goes on after the chunk: an overflow sends it to the socket. -/
def afterChunk : Option (List Bytes) → ReaderAt
  | none => .receiving
  | some _ => .idle

/-- The end of `acquire_read`, and the return of `dequeue` unless the message overflowed. -/
def Reader.mark (b : ShmRingBuffer) (me : Reader) (result : Option (List Bytes)) : Reader where
  currentIdx := (me.currentIdx + 1) % b.maxChunks
  pc := afterChunk result
  marked := me.marked + 1
  dequeued := me.dequeued ++ result.toList

def readerStep (w : World b nRemote) (rank : Fin b.nReader) : World b nRemote :=
  let me := w.reader rank
  match me.pc with
  | .idle => w
  | .testing =>
    w.setReader rank { me with pc := .testingWritten (b.readFlag w.memory me.currentIdx rank) }
  | .testingWritten readFlag =>
    if mayRead readFlag (b.written w.memory me.currentIdx) then
      w.setReader rank { me with pc := .reading [] }
    else w.setReader rank { me with pc := .waiting }
  | .waiting => w.setReader rank { me with pc := .testing }
  | .reading seen =>
    match dequeueChunk seen with
    | some result => w.setReader rank { me with pc := .marking result }
    | none =>
      if seen.length < b.maxChunkBytes then
        w.setReader rank
          { me with pc := .reading (seen ++ [b.data w.memory me.currentIdx seen.length]) }
      else w
  | .marking result =>
    { w.setReader rank (me.mark b result) with
      memory := Function.update w.memory (b.metadataAt me.currentIdx (rank + 1)) 1 }
  | .receiving =>
    match w.localSocket rank with
    | [] => w
    | buffers :: rest =>
      { w.setReader rank { me with pc := .idle, dequeued := me.dequeued ++ [buffers] } with
        localSocket := Function.update w.localSocket rank rest }

/-- `dequeue` raises where it would have returned. The `finally` of `acquire_read` still sets the
read flag, and what was taken from the socket is gone. -/
def readerRaises (w : World b nRemote) (rank : Fin b.nReader) : World b nRemote :=
  let after := readerStep w rank
  after.setReader rank { after.reader rank with dequeued := (w.reader rank).dequeued }

/-- One step of the whole queue; what a process is not ready for changes nothing. -/
def step (w : World b nRemote) : Action b nRemote → World b nRemote
  | .enqueue message =>
    if w.writer = .idle then { w with writer := .counting message 0 0 } else w
  | .writerStep => writerStep w
  | .writerTimeout =>
    match w.writer with
    | .waiting _ => { w with writer := .idle }
    | _ => w
  | .dequeue rank =>
    if (w.reader rank).pc = .idle then w.setReader rank { w.reader rank with pc := .testing } else w
  | .readerStep rank => readerStep w rank
  | .readerTimeout rank =>
    if (w.reader rank).pc = .waiting then w.setReader rank { w.reader rank with pc := .idle } else w
  | .recvTimeout rank =>
    if (w.reader rank).pc = .receiving then w.setReader rank { w.reader rank with pc := .idle } else w
  | .recvRemote rank =>
    match w.remoteSocket rank with
    | [] => w
    | buffers :: rest =>
      { w with
        remoteSocket := Function.update w.remoteSocket rank rest
        received := Function.update w.received rank (w.received rank ++ [buffers]) }
  | .loadsError rank =>
    match (w.reader rank).pc with
    | .marking (some _) | .receiving => readerRaises w rank
    | _ => w
  | .loadsErrorRemote rank =>
    { w with remoteSocket := Function.update w.remoteSocket rank (w.remoteSocket rank).tail }
  | .socketFault rank pending =>
    { w with localSocket := Function.update w.localSocket rank pending }
  | .socketFaultRemote rank pending =>
    { w with remoteSocket := Function.update w.remoteSocket rank pending }

/-- The local socket of this reader delivers every message once and in order. -/
def LocalSocketFifo (rank : Fin b.nReader) (actions : List (Action b nRemote)) : Prop :=
  ∀ pending, .socketFault rank pending ∉ actions

/-- The same for a remote reader. -/
def RemoteSocketFifo (rank : Fin nRemote) (actions : List (Action b nRemote)) : Prop :=
  ∀ pending, .socketFaultRemote rank pending ∉ actions

/-- No `dequeue` of this reader gives up a message that is on its way: its socket works, `recv`
does not time out, and what it gets can be unpickled. -/
structure Undisturbed (rank : Fin b.nReader) (actions : List (Action b nRemote)) : Prop where
  socket : LocalSocketFifo rank actions
  recv : .recvTimeout rank ∉ actions
  loads : .loadsError rank ∉ actions

structure RemoteUndisturbed (rank : Fin nRemote) (actions : List (Action b nRemote)) : Prop where
  socket : RemoteSocketFifo rank actions
  loads : .loadsErrorRemote rank ∉ actions

theorem Undisturbed.concat {rank : Fin b.nReader} {actions : List (Action b nRemote)}
    {a : Action b nRemote} (h : Undisturbed rank (actions ++ [a])) :
    Undisturbed rank actions ∧ Undisturbed rank [a] := by
  obtain ⟨hsocket, hrecv, hloads⟩ := h
  simp only [LocalSocketFifo, List.mem_append, not_or, forall_and] at hsocket hrecv hloads
  exact ⟨⟨hsocket.1, hrecv.1, hloads.1⟩, ⟨hsocket.2, hrecv.2, hloads.2⟩⟩

theorem RemoteUndisturbed.concat {rank : Fin nRemote} {actions : List (Action b nRemote)}
    {a : Action b nRemote} (h : RemoteUndisturbed rank (actions ++ [a])) :
    RemoteUndisturbed rank actions ∧ RemoteUndisturbed rank [a] := by
  obtain ⟨hsocket, hloads⟩ := h
  simp only [RemoteSocketFifo, List.mem_append, not_or, forall_and] at hsocket hloads
  exact ⟨⟨hsocket.1, hloads.1⟩, ⟨hsocket.2, hloads.2⟩⟩

end SparkKit.Shm.MessageQueue
