import SparkKit.Tp4.Protocol
import Mathlib.Logic.Function.Basic

/-!
# The ring of graph commands

Kernels claim a sequence number, fill the slot of the ring it falls to and publish it in order;
the progress thread of the host consumes and completes the commands one by one. Publishers and
host take a step of their own at every shared access, so that any number of publishers
interleave with each other and with the host.
-/
namespace SparkKit.Tp4.CommandRing

open SparkKit.Tp4.Protocol

def kTp4GraphCommandCapacity : ℕ := 64

inductive Tp4GraphCommandKind where
  | legacy
  | dcpQuery
  | dcpCombine
  | indexerAllgather
deriving DecidableEq, Repr

/-- What a publisher writes into its slot before the sequence number. -/
structure Descriptor where
  trace : ℕ
  q : ℕ
  payloadBytes : ℕ
  kind : Tp4GraphCommandKind
  parameter : ℕ
deriving DecidableEq, Repr

structure Tp4GraphCommand extends Descriptor where
  sequence : ℕ
deriving DecidableEq, Repr

structure Tp4GraphCommandRing where
  claimedSequence : ℕ
  publishedSequence : ℕ
  overflowSequence : ℕ
  consumedSequence : ℕ
  completedSequence : ℕ
  commands : ℕ → Tp4GraphCommand

def emptyCommand : Tp4GraphCommand := ⟨⟨0, 0, 0, .legacy, 0⟩, 0⟩

def emptyRing : Tp4GraphCommandRing := ⟨0, 0, 0, 0, 0, fun _ => emptyCommand⟩

def commandSlot (sequence : ℕ) : ℕ := (sequence - 1) % kTp4GraphCommandCapacity

def Tp4GraphCommandRing.setCommand (ring : Tp4GraphCommandRing) (sequence : ℕ)
    (command : Tp4GraphCommand) : Tp4GraphCommandRing :=
  { ring with commands := Function.update ring.commands (commandSlot sequence) command }

/-- `tp4_graph_payload_bytes`, a product of 32-bit words. -/
def tp4GraphPayloadBytes (q bytesPerRow : ℕ) : ℕ := q * bytesPerRow % 2 ^ 32

def tp4GraphCommandLayoutValid (q payloadBytes bytesPerRow maximumQ : ℕ) : Bool :=
  decide (bytesPerRow > 0 ∧ maximumQ > 0 ∧ q ≥ 1 ∧ q ≤ maximumQ ∧ q * bytesPerRow = payloadBytes)

/-- The fields of a command before its sequence number, in the order of their accesses. -/
inductive Field where
  | trace
  | q
  | payloadBytes
  | kind
  | parameter
deriving DecidableEq, Repr

def Field.next : Field → Option Field
  | .trace => some .q
  | .q => some .payloadBytes
  | .payloadBytes => some .kind
  | .kind => some .parameter
  | .parameter => none

def Field.copy (source target : Descriptor) : Field → Descriptor
  | .trace => { target with trace := source.trace }
  | .q => { target with q := source.q }
  | .payloadBytes => { target with payloadBytes := source.payloadBytes }
  | .kind => { target with kind := source.kind }
  | .parameter => { target with parameter := source.parameter }

/-- The fields before this one are those of the source. -/
def CopiedBefore (source target : Descriptor) : Field → Prop
  | .trace => True
  | .q => target.trace = source.trace
  | .payloadBytes => target.trace = source.trace ∧ target.q = source.q
  | .kind =>
    target.trace = source.trace ∧ target.q = source.q ∧ target.payloadBytes = source.payloadBytes
  | .parameter =>
    target.trace = source.trace ∧ target.q = source.q ∧ target.payloadBytes = source.payloadBytes ∧
      target.kind = source.kind

theorem CopiedBefore.next {source target : Descriptor} {field field' : Field}
    (h : CopiedBefore source target field) (hnext : field.next = some field') :
    CopiedBefore source (field.copy source target) field' := by
  cases field <;> cases hnext
  · exact rfl
  · exact ⟨h, rfl⟩
  · exact ⟨h.1, h.2, rfl⟩
  · exact ⟨h.1, h.2.1, h.2.2, rfl⟩

/-- After the last field the copy is complete. -/
theorem CopiedBefore.last {source target : Descriptor} {field : Field}
    (h : CopiedBefore source target field) (hnext : field.next = none) :
    field.copy source target = source := by
  cases field <;> cases hnext
  obtain ⟨htrace, hq, hpayload, hkind⟩ := h
  cases source
  cases target
  cases htrace
  cases hq
  cases hpayload
  cases hkind
  rfl

/-- One store into the slot of a sequence. -/
def Tp4GraphCommandRing.storeField (ring : Tp4GraphCommandRing) (d : Descriptor) (sequence : ℕ)
    (field : Field) : Tp4GraphCommandRing :=
  let command := ring.commands (commandSlot sequence)
  ring.setCommand sequence ⟨field.copy d command.toDescriptor, command.sequence⟩

/-! ## Publishers -/

/-- `graph_publish_overflow` and `record_first_overflow`: the first sequence stays. -/
def recordFirstOverflow (ring : Tp4GraphCommandRing) (sequence : ℕ) : Tp4GraphCommandRing :=
  if ring.overflowSequence = 0 then { ring with overflowSequence := sequence } else ring

/-- Where a publisher stands in `graph_publish_command`, named by what it does next. -/
inductive Publisher where
  | idle
  | loadOverflow (d : Descriptor)
  | loadClaimed (d : Descriptor)
  | loadCompleted (d : Descriptor) (claimed : ℕ)
  | exchangeClaimed (d : Descriptor) (claimed : ℕ)
  | fill (d : Descriptor) (sequence : ℕ) (field : Field)
  /-- `graph_store_system(&command.sequence, sequence)`: its load, and its exchange -/
  | loadSequence (d : Descriptor) (sequence : ℕ)
  | exchangeSequence (d : Descriptor) (sequence current : ℕ)
  | exchangePublished (d : Descriptor) (sequence : ℕ)
  | exchangeOverflow (sequence : ℕ)
  | fatal
deriving DecidableEq, Repr

def publisherStep (ring : Tp4GraphCommandRing) : Publisher → Tp4GraphCommandRing × Publisher
  | .idle => (ring, .idle)
  | .loadOverflow d => if ring.overflowSequence ≠ 0 then (ring, .fatal) else (ring, .loadClaimed d)
  | .loadClaimed d => (ring, .loadCompleted d ring.claimedSequence)
  | .loadCompleted d claimed =>
    let completed := ring.completedSequence
    if claimed ≥ kTp4GraphMaximumDoorbellSequence ∨ completed > claimed then
      (ring, .exchangeOverflow
        (if claimed ≥ kTp4GraphMaximumDoorbellSequence then claimed else claimed + 1))
    else if claimed - completed ≥ kTp4GraphCommandCapacity then (ring, .loadOverflow d)
    else (ring, .exchangeClaimed d claimed)
  | .exchangeClaimed d claimed =>
    if ring.claimedSequence = claimed then
      ({ ring with claimedSequence := claimed + 1 }, .fill d (claimed + 1) .trace)
    else (ring, .loadOverflow d)
  | .fill d sequence field =>
    (ring.storeField d sequence field,
      field.next.elim (.loadSequence d sequence) (.fill d sequence ·))
  | .loadSequence d sequence =>
    (ring, .exchangeSequence d sequence (ring.commands (commandSlot sequence)).sequence)
  | .exchangeSequence d sequence current =>
    let command := ring.commands (commandSlot sequence)
    if command.sequence = current then
      (ring.setCommand sequence { command with sequence := sequence },
        .exchangePublished d sequence)
    else (ring, .loadSequence d sequence)
  | .exchangePublished d sequence =>
    if ring.publishedSequence = sequence - 1 then
      ({ ring with publishedSequence := sequence }, .idle)
    else if ring.publishedSequence ≥ sequence then (ring, .exchangeOverflow sequence)
    else (ring, .exchangePublished d sequence)
  | .exchangeOverflow sequence => (recordFirstOverflow ring sequence, .fatal)
  | .fatal => (ring, .fatal)

theorem publisherStep_fill_next {ring : Tp4GraphCommandRing} {d : Descriptor} {sequence : ℕ}
    {field field' : Field} (h : field.next = some field') :
    publisherStep ring (.fill d sequence field) =
      (ring.storeField d sequence field, .fill d sequence field') := by
  rw [publisherStep, h]
  rfl

theorem publisherStep_fill_last {ring : Tp4GraphCommandRing} {d : Descriptor} {sequence : ℕ}
    {field : Field} (h : field.next = none) :
    publisherStep ring (.fill d sequence field) =
      (ring.storeField d sequence field, .loadSequence d sequence) := by
  rw [publisherStep, h]
  rfl

/-! ## The host -/

/-- Where the progress thread stands, named by what it does next: in
`tp4_graph_command_try_consume_layout` up to the store of the consumed sequence, then in the
round of its command, and in `tp4_graph_command_complete`. -/
inductive Host where
  | loadOverflow
  | loadPublished
  | loadSequence
  | loadQ
  | loadPayloadBytes (q : ℕ)
  | exchangeOverflow
  | copy (command : Descriptor) (field : Field)
  | storeConsumed (command : Descriptor)
  /-- the round, and then the load of the completed sequence -/
  | driving (command : Tp4GraphCommand)
  | storeCompleted (sequence : ℕ)
  | storeOverflow (sequence : ℕ)
deriving DecidableEq, Repr

def hostStep (expectedSequence bytesPerRow maximumQ : ℕ) (ring : Tp4GraphCommandRing) :
    Host → Tp4GraphCommandRing × Host
  | .loadOverflow =>
    if bytesPerRow = 0 ∨ maximumQ = 0 ∨ expectedSequence = 0 then (ring, .loadOverflow)
    else if ring.overflowSequence ≠ 0 then (ring, .loadOverflow)
    else (ring, .loadPublished)
  | .loadPublished =>
    if ring.publishedSequence < expectedSequence then (ring, .loadOverflow)
    else (ring, .loadSequence)
  | .loadSequence =>
    let slot := ring.commands (commandSlot expectedSequence)
    if slot.sequence ≠ expectedSequence then (ring, .loadOverflow) else (ring, .loadQ)
  | .loadQ => (ring, .loadPayloadBytes (ring.commands (commandSlot expectedSequence)).q)
  | .loadPayloadBytes q =>
    let slot := ring.commands (commandSlot expectedSequence)
    if tp4GraphCommandLayoutValid q slot.payloadBytes bytesPerRow maximumQ = false then
      (ring, .exchangeOverflow)
    else (ring, .copy emptyCommand.toDescriptor .trace)
  | .exchangeOverflow => (recordFirstOverflow ring expectedSequence, .loadOverflow)
  | .copy command field =>
    let slot := ring.commands (commandSlot expectedSequence)
    let command := field.copy slot.toDescriptor command
    (ring, field.next.elim (.storeConsumed command) (.copy command ·))
  | .storeConsumed command =>
    ({ ring with consumedSequence := expectedSequence }, .driving ⟨command, expectedSequence⟩)
  | .driving command =>
    if command.sequence = 0 then (ring, .loadOverflow)
    else if ring.completedSequence = 2 ^ 64 - 1 ∨
        command.sequence ≠ ring.completedSequence + 1 then (ring, .storeOverflow command.sequence)
    else (ring, .storeCompleted command.sequence)
  | .storeCompleted sequence => ({ ring with completedSequence := sequence }, .loadOverflow)
  | .storeOverflow sequence => ({ ring with overflowSequence := sequence }, .loadOverflow)

theorem hostStep_copy_next {ring : Tp4GraphCommandRing} {command : Descriptor}
    {expectedSequence bytesPerRow maximumQ : ℕ} {field field' : Field}
    (h : field.next = some field') :
    hostStep expectedSequence bytesPerRow maximumQ ring (.copy command field) =
      (ring, .copy (field.copy (ring.commands (commandSlot expectedSequence)).toDescriptor command)
        field') := by
  rw [hostStep, h]
  rfl

theorem hostStep_copy_last {ring : Tp4GraphCommandRing} {command : Descriptor}
    {expectedSequence bytesPerRow maximumQ : ℕ} {field : Field} (h : field.next = none) :
    hostStep expectedSequence bytesPerRow maximumQ ring (.copy command field) =
      (ring, .storeConsumed
        (field.copy (ring.commands (commandSlot expectedSequence)).toDescriptor command)) := by
  rw [hostStep, h]
  rfl

end SparkKit.Tp4.CommandRing
