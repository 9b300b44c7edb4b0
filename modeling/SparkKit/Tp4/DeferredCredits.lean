import SparkKit.Lib.History
import SparkKit.Tp4.CommandRing

/-!
# A lane with deferred credits

A lane carries the payloads of one direction of an endpoint. The kernel fills a slot of the send
buffer once the slot is credited, its progress thread writes payload and doorbell to the peer,
and the kernel and the progress thread of the peer use the payload and give the slot back. The
writes of a queue pair are transmitted in order; everything else interleaves freely.
-/
namespace SparkKit.Tp4.DeferredCredits

open SparkKit.Lib.History SparkKit.Lib.SlotTurns
open SparkKit.Tp4.Protocol SparkKit.Tp4.CommandRing

variable {α : Type*}

inductive Tp4AllreduceSchedule where
  | sequential
  | dualPortStriped
deriving DecidableEq, Repr

/-- Whether the lane carries the input, or what its rank reduced from another lane. -/
inductive Source where
  | input
  | reduction
deriving DecidableEq, Repr

/-- A lane and the operations that both ends replay, checked when they are captured. -/
structure Session (α : Type*) where
  schedule : Tp4AllreduceSchedule
  source : Source
  /-- What the kernel puts in the send buffer for an operation, and what the arena starts with. -/
  payload : ℕ → α
  cleared : α
  q : ℕ → ℕ
  bytesPerRow : ℕ
  maxInlineData : ℕ
  launched : ℕ
  rows : ∀ s, 1 ≤ q s ∧ q s ≤ kTp4GraphAllreduceMaximumQ
  within : launched ≤ kTp4GraphMaximumDoorbellSequence

/-- A write on its way to the peer. A small one carries its data from the post on, any other
reads the arena when it is transmitted. -/
inductive Write (α : Type*) where
  | payload (slot : ℕ) (inlined : Option α)
  | doorbell (slot : ℕ) (inlined : Option ℕ)

structure CreditWrite where
  slot : ℕ
  inlined : Option ℕ

/-- How often every step has run, the words of the control line of each slot, the buffers, and
the writes posted in either direction. -/
structure Lane (α : Type*) where
  creditWaits : ℕ
  fills : ℕ
  stagings : ℕ
  stagedWaits : ℕ
  stores : ℕ
  payloadPosts : ℕ
  doorbellPosts : ℕ
  sent : ℕ
  remoteWaits : ℕ
  uses : ℕ
  received : List α
  consumptions : ℕ
  consumerWaits : ℕ
  reservations : ℕ
  creditPosts : ℕ
  creditsSent : ℕ
  producer : ℕ → ℕ
  /-- `consumer_sequence` of the lane that the payload is reduced from. -/
  reduced : ℕ → ℕ
  acknowledgement : ℕ → ℕ
  send : ℕ → α
  sends : List (Write α)
  remote : ℕ → ℕ
  consumer : ℕ → ℕ
  reserved : ℕ → ℕ
  receive : ℕ → α
  credits : List CreditWrite

inductive Turn (σ : Type*) where
  | waiting
  | mismatched
  | done (s : σ)

instance {σ : Type*} (t : Turn σ) : Decidable (∃ s, t = .done s) :=
  match t with
  | .waiting => .isFalse nofun
  | .mismatched => .isFalse nofun
  | .done s => .isTrue ⟨s, rfl⟩

/-- `wait_for_sequence` with exact tokens, on either side. -/
def waitForSequence {σ : Type*} (observed expected : ℕ) (s : σ) : Turn σ :=
  if observed = expected then .done s
  else if observed > expected then .mismatched
  else .waiting

def slotIndex (sequence : ℕ) : ℕ := tp4PayloadSlotIndex sequence .twoSlotDeferredAck

namespace Session

variable (C : Session α)

def token (sequence : ℕ) : ℕ := tp4GraphDoorbellToken sequence (C.q sequence)

/-- The word by which the kernel says that the send buffer is filled. -/
def staged (s : Lane α) : ℕ → ℕ :=
  match C.source with
  | .input => s.producer
  | .reduction => s.reduced

/-- `exchange_round` stores the producer word in any case, `progress_dual_port_striped` for a
reduction only. -/
def storesProducer : Bool := C.schedule = .sequential ∨ C.source = .reduction

def storeProducer (producer : ℕ → ℕ) (sequence : ℕ) : ℕ → ℕ :=
  if C.storesProducer = true then
    Function.update producer (slotIndex sequence) (C.token sequence)
  else producer

/-- `VerbsEndpoint::write` copies what fits the inline data of a work request. -/
def inlined {β : Type*} (bytes : ℕ) (data : β) : Option β :=
  if bytes ≤ C.maxInlineData then some data else none

end Session

variable (C : Session α)

/-- `tp4_tensor_all_reduce` up to the payload of the lane: the exact wait for the credit of the
slot, the send buffer, the word that says it is filled. -/
def kernelStep (s : Lane α) : Turn (Lane α) :=
  let sequence := s.stagings + 1
  let slot := slotIndex sequence
  if s.creditWaits < sequence then
    if sequence > C.launched then .waiting
    else waitForSequence (s.acknowledgement slot)
      (tp4ExpectedReuseCredit sequence .twoSlotDeferredAck) { s with creditWaits := sequence }
  else if s.fills < sequence then
    .done { s with send := Function.update s.send slot (C.payload sequence), fills := sequence }
  else
    match C.source with
    | .input =>
      .done { s with
        producer := Function.update s.producer slot (C.token sequence)
        stagings := sequence }
    | .reduction =>
      .done { s with
        reduced := Function.update s.reduced slot (C.token sequence)
        stagings := sequence }

/-- `exchange_round` up to the doorbell. -/
def progressStep (s : Lane α) : Turn (Lane α) :=
  let sequence := s.doorbellPosts + 1
  let slot := slotIndex sequence
  if s.stagedWaits < sequence then
    waitForSequence (C.staged s slot) (C.token sequence) { s with stagedWaits := sequence }
  else if s.stores < sequence then
    .done { s with producer := C.storeProducer s.producer sequence, stores := sequence }
  else if s.payloadPosts < sequence then
    let bytes := tp4GraphPayloadBytes (C.q sequence) C.bytesPerRow
    .done { s with
      sends := s.sends ++ [.payload slot (C.inlined bytes (s.send slot))]
      payloadPosts := sequence }
  else
    .done { s with
      sends := s.sends ++ [.doorbell slot (C.inlined 8 (s.producer slot))]
      doorbellPosts := sequence }

/-- The next write reaches the receive buffer or the control line of the peer. -/
def transmitStep (s : Lane α) : Turn (Lane α) :=
  match s.sends[s.sent]? with
  | none => .waiting
  | some (.payload slot inlined) =>
    .done { s with
      receive := Function.update s.receive slot (inlined.getD (s.send slot))
      sent := s.sent + 1 }
  | some (.doorbell slot inlined) =>
    .done { s with
      remote := Function.update s.remote slot (inlined.getD (s.producer slot))
      sent := s.sent + 1 }

/-- `tp4_tensor_all_reduce` from the doorbell of the lane on. -/
def peerKernelStep (s : Lane α) : Turn (Lane α) :=
  let sequence := s.consumptions + 1
  let slot := slotIndex sequence
  if s.remoteWaits < sequence then
    if sequence > C.launched then .waiting
    else waitForSequence (s.remote slot) (C.token sequence) { s with remoteWaits := sequence }
  else if s.uses < sequence then
    .done { s with received := s.received ++ [s.receive slot], uses := sequence }
  else
    .done { s with
      consumer := Function.update s.consumer slot (C.token sequence)
      consumptions := sequence }

/-- `exchange_round` from the wait for the kernel on. -/
def peerProgressStep (s : Lane α) : Turn (Lane α) :=
  let sequence := s.creditPosts + 1
  let slot := slotIndex sequence
  if s.consumerWaits < sequence then
    waitForSequence (s.consumer slot) (C.token sequence) { s with consumerWaits := sequence }
  else if s.reservations < sequence then
    .done { s with
      reserved := Function.update s.reserved slot sequence
      reservations := sequence }
  else
    .done { s with
      credits := s.credits ++ [⟨slot, C.inlined 8 (s.reserved slot)⟩]
      creditPosts := sequence }

def transmitCreditStep (s : Lane α) : Turn (Lane α) :=
  match s.credits[s.creditsSent]? with
  | none => .waiting
  | some ⟨slot, inlined⟩ =>
    .done { s with
      acknowledgement := Function.update s.acknowledgement slot (inlined.getD (s.reserved slot))
      creditsSent := s.creditsSent + 1 }

inductive Agent where
  | kernel
  | progress
  | transmit
  | peerKernel
  | peerProgress
  | transmitCredit
deriving DecidableEq, Repr

def turn (s : Lane α) : Agent → Turn (Lane α)
  | .kernel => kernelStep C s
  | .progress => progressStep C s
  | .transmit => transmitStep s
  | .peerKernel => peerKernelStep C s
  | .peerProgress => peerProgressStep C s
  | .transmitCredit => transmitCreditStep s

/-- An agent that cannot go on stays where it is. -/
def step (s : Lane α) (agent : Agent) : Lane α :=
  match turn C s agent with
  | .done s' => s'
  | _ => s

def initial : Lane α :=
  ⟨0, 0, 0, 0, 0, 0, 0, 0, 0, 0, [], 0, 0, 0, 0, 0, fun _ => 0, fun _ => 0, fun _ => 0,
    fun _ => C.cleared, [], fun _ => 0, fun _ => 0, fun _ => 0, fun _ => C.cleared, []⟩

def run (agents : List Agent) : Lane α := runFrom (step C) (initial C) agents

/-! ## What the words stand for -/

namespace Session

/-- The token of an operation, and the word that stands before any. -/
def stamp (sequence : ℕ) : ℕ := if sequence = 0 then 0 else C.token sequence

def content (sequence : ℕ) : α := if sequence = 0 then C.cleared else C.payload sequence

/-- The writes of the sender: a payload and its doorbell in turn. -/
def sendWrite (i : ℕ) : Write α :=
  let sequence := i / 2 + 1
  if i % 2 = 0 then
    let bytes := tp4GraphPayloadBytes (C.q sequence) C.bytesPerRow
    .payload (slotIndex sequence) (C.inlined bytes (C.content sequence))
  else .doorbell (slotIndex sequence) (C.inlined 8 (C.stamp sequence))

def creditWrite (i : ℕ) : CreditWrite := ⟨slotIndex (i + 1), C.inlined 8 (i + 1)⟩

theorem stamp_succ (n : ℕ) : C.stamp (n + 1) = C.token (n + 1) := if_neg (Nat.succ_ne_zero n)

theorem content_succ (n : ℕ) : C.content (n + 1) = C.payload (n + 1) :=
  if_neg (Nat.succ_ne_zero n)

theorem token_eq (sequence : ℕ) : C.token sequence = sequence * 1024 + C.q sequence := by
  have hq := (C.rows sequence).2
  rw [kTp4GraphAllreduceMaximumQ] at hq
  exact tp4GraphDoorbellToken_eq (by omega) sequence

/-- Later operations have larger tokens. -/
theorem stamp_strictMono : StrictMono C.stamp := by
  apply strictMono_nat_of_lt_succ
  intro n
  have hrows := C.rows (n + 1)
  rw [stamp_succ, token_eq, stamp]
  split
  · omega
  · have hq := (C.rows n).2
    rw [kTp4GraphAllreduceMaximumQ] at hq
    rw [token_eq]
    omega

/-- The tokens of the launched operations are valid, so they fit their words. -/
theorem stamp_lt {n : ℕ} (hn : n ≤ C.launched) : C.stamp n < 2 ^ 64 := by
  rw [stamp]
  split
  · exact Nat.two_pow_pos 64
  · next hzero =>
    have hvalid : tp4GraphDoorbellTokenValid n (C.q n) = true :=
      decide_eq_true ⟨Nat.one_le_iff_ne_zero.mpr hzero, hn.trans C.within, C.rows n⟩
    exact tp4GraphDoorbellToken_lt hvalid

theorem inlined_getD {β : Type*} (bytes : ℕ) (data : β) : (C.inlined bytes data).getD data = data := by
  rw [inlined]
  split <;> rfl

end Session

theorem slotIndex_eq (sequence : ℕ) : slotIndex sequence = slotOf 2 sequence :=
  tp4PayloadSlotIndex_eq sequence .twoSlotDeferredAck

theorem expectedCredit_eq (sequence : ℕ) :
    tp4ExpectedReuseCredit sequence .twoSlotDeferredAck = sequence - 2 :=
  tp4ExpectedReuseCredit_eq rfl sequence

/-! ## Waits -/

/-- The kernels wait for a credit as `tp4_credit_reuse_state` tells the states of a slot apart. -/
theorem waitForSequence_reuse {σ : Type*} (observed sequence : ℕ)
    (protocol : Tp4AllreduceProtocol) (next : σ) :
    waitForSequence observed (tp4ExpectedReuseCredit sequence protocol) next =
      match tp4CreditReuseState sequence observed protocol with
      | .ready => .done next
      | .waiting => .waiting
      | .futureGeneration => .mismatched := by
  rw [waitForSequence, tp4CreditReuseState]
  rcases Nat.lt_trichotomy observed (tp4ExpectedReuseCredit sequence protocol) with hlt | heq | hgt
  · rw [if_neg (Nat.ne_of_lt hlt), if_neg (Nat.not_lt.mpr (Nat.le_of_lt hlt)),
      if_neg (Nat.ne_of_lt hlt), if_pos hlt]
  · rw [if_pos heq, if_pos heq]
  · rw [if_neg (Nat.ne_of_gt hgt), if_pos hgt, if_neg (Nat.ne_of_gt hgt),
      if_neg (Nat.not_lt.mpr (Nat.le_of_lt hgt))]

section
variable {C} {word : ℕ → ℕ} {n sequence : ℕ} {σ : Type*} (next : σ)

/-- Where no later token can be in the slot, an exact wait ends with the token or goes on. -/
theorem waitForSequence_token (h : Holds 2 C.stamp n word) (hlt : n < sequence + 1 + 2) :
    waitForSequence (word (slotIndex (sequence + 1))) (C.token (sequence + 1)) next =
      if sequence + 1 ≤ n then .done next else .waiting := by
  rw [slotIndex_eq, ← C.stamp_succ, waitForSequence]
  by_cases hle : sequence + 1 ≤ n
  · rw [if_pos hle, if_pos (h.read (Nat.le_add_left 1 sequence) hle hlt)]
  · have hbefore : latest 2 (slotOf 2 (sequence + 1)) n < sequence + 1 :=
      (latest_le 2 _ n).trans_lt (Nat.lt_of_not_le hle)
    have hless := C.stamp_strictMono hbefore
    rw [h, if_neg (Nat.ne_of_lt hless), if_neg (Nat.not_lt.mpr (Nat.le_of_lt hless)), if_neg hle]

/-- The wait for a credit ends when all but the last operation are credited. -/
theorem waitForSequence_credit (h : Holds 2 id n word) (hlt : n < sequence) :
    waitForSequence (word (slotIndex sequence))
        (tp4ExpectedReuseCredit sequence .twoSlotDeferredAck) next =
      if sequence ≤ n + 2 then .done next else .waiting := by
  rw [slotIndex_eq, expectedCredit_eq, waitForSequence, h, id]
  by_cases hle : sequence ≤ n + 2
  · rw [if_pos hle, if_pos (latest_eq_sub hlt hle)]
  · have hbefore : latest 2 (slotOf 2 sequence) n < sequence - 2 :=
      (latest_le 2 _ n).trans_lt (by omega)
    rw [if_neg (Nat.ne_of_lt hbefore), if_neg (Nat.not_lt.mpr (Nat.le_of_lt hbefore)), if_neg hle]

end

/-! ## The invariant -/

/-- How far the agents can be ahead of each other. The chain closes: the kernel is two
operations ahead of the credits, which follow the consumptions, which follow the doorbells. -/
structure Paced (s : Lane α) : Prop where
  stagings_le : s.stagings ≤ s.fills
  fills_le : s.fills ≤ s.creditWaits
  creditWaits_le : s.creditWaits ≤ s.stagings + 1
  creditWaits_le_launched : s.creditWaits ≤ C.launched
  creditWaits_le_sent : s.creditWaits ≤ s.creditsSent + 2
  stagedWaits_le : s.stagedWaits ≤ s.doorbellPosts + 1
  stagedWaits_le_stagings : s.stagedWaits ≤ s.stagings
  stores_le : s.stores ≤ s.stagedWaits
  payloadPosts_le : s.payloadPosts ≤ s.stores
  doorbellPosts_le : s.doorbellPosts ≤ s.payloadPosts
  sent_le : s.sent ≤ s.payloadPosts + s.doorbellPosts
  remoteWaits_le : s.remoteWaits ≤ s.consumptions + 1
  remoteWaits_le_sent : s.remoteWaits ≤ s.sent / 2
  uses_le : s.uses ≤ s.remoteWaits
  consumptions_le : s.consumptions ≤ s.uses
  consumerWaits_le : s.consumerWaits ≤ s.creditPosts + 1
  consumerWaits_le_consumptions : s.consumerWaits ≤ s.consumptions
  reservations_le : s.reservations ≤ s.consumerWaits
  creditPosts_le : s.creditPosts ≤ s.reservations
  creditsSent_le : s.creditsSent ≤ s.creditPosts

/-- Every word and buffer holds what the last step on its slot left there. -/
structure Ordered (s : Lane α) : Prop where
  pace : Paced C s
  staged : Holds 2 C.stamp s.stagings (C.staged s)
  producer : C.source = .reduction → Holds 2 C.stamp s.stores s.producer
  acknowledgement : Holds 2 id s.creditsSent s.acknowledgement
  send : Holds 2 C.content s.fills s.send
  sends : s.sends = (List.range (s.payloadPosts + s.doorbellPosts)).map C.sendWrite
  remote : Holds 2 C.stamp (s.sent / 2) s.remote
  consumer : Holds 2 C.stamp s.consumptions s.consumer
  reserved : Holds 2 id s.reservations s.reserved
  receive : Holds 2 C.content ((s.sent + 1) / 2) s.receive
  credits : s.credits = (List.range s.creditPosts).map C.creditWrite
  received : s.received = (List.range s.uses).map fun i => C.payload (i + 1)

theorem ordered_initial : Ordered C (initial C) := by
  have hstamp : Holds 2 C.stamp 0 fun _ => 0 := holds_zero 2 C.stamp
  have hcontent : Holds 2 C.content 0 fun _ => C.cleared := holds_zero 2 C.content
  have hcredit : Holds 2 id 0 fun _ => 0 := holds_zero 2 id
  constructor
  case pace => constructor <;> exact Nat.zero_le _
  case staged =>
    rw [Session.staged]
    split <;> exact hstamp
  case producer => exact fun _ => hstamp
  case consumer => exact hstamp
  case remote =>
    rw [show (initial C).sent / 2 = 0 from Nat.zero_div 2]
    exact hstamp
  case acknowledgement | reserved => exact hcredit
  case send => exact hcontent
  case receive =>
    rw [show ((initial C).sent + 1) / 2 = 0 from Nat.div_eq_of_lt Nat.one_lt_two]
    exact hcontent
  case sends | credits | received => rfl

/-- What an agent waits for when it cannot go on. -/
def Blocked (s : Lane α) : Agent → Prop
  | .kernel =>
    s.creditWaits = s.stagings ∧ (C.launched ≤ s.stagings ∨ s.creditsSent + 2 ≤ s.stagings)
  | .progress => s.stagedWaits = s.doorbellPosts ∧ s.stagings ≤ s.doorbellPosts
  | .transmit => s.payloadPosts + s.doorbellPosts ≤ s.sent
  | .peerKernel =>
    s.remoteWaits = s.consumptions ∧
      (C.launched ≤ s.consumptions ∨ s.sent / 2 ≤ s.consumptions)
  | .peerProgress => s.consumerWaits = s.creditPosts ∧ s.consumptions ≤ s.creditPosts
  | .transmitCredit => s.creditPosts ≤ s.creditsSent

/-- The agent waits for another one, or makes a step that keeps the invariant. -/
def Sound (s : Lane α) (agent : Agent) : Prop :=
  (turn C s agent = .waiting ∧ Blocked C s agent) ∨
    ∃ s', turn C s agent = .done s' ∧ Ordered C s'

variable {C} {s : Lane α}

theorem Sound.blocked {agent : Agent} (h : Sound C s agent) (hturn : turn C s agent = .waiting) :
    Blocked C s agent := by
  rcases h with ⟨-, hblocked⟩ | ⟨s', hdone, -⟩
  · exact hblocked
  · rw [hdone] at hturn
    cases hturn

theorem Ordered.kernel (h : Ordered C s) : Sound C s .kernel := by
  have hpace := h.pace
  cases hpace
  rw [Sound, turn, Blocked, kernelStep]
  by_cases hwait : s.creditWaits < s.stagings + 1
  · rw [if_pos hwait]
    by_cases hlaunched : s.stagings + 1 > C.launched
    · rw [if_pos hlaunched]
      exact .inl ⟨rfl, by omega, by omega⟩
    · rw [if_neg hlaunched, waitForSequence_credit _ h.acknowledgement (by omega)]
      by_cases hcredit : s.stagings + 1 ≤ s.creditsSent + 2
      · rw [if_pos hcredit]
        refine .inr ⟨_, rfl, { h with pace := ?_ }⟩
        constructor <;> dsimp only <;> omega
      · rw [if_neg hcredit]
        exact .inl ⟨rfl, by omega, by omega⟩
  · rw [if_neg hwait]
    by_cases hfill : s.fills < s.stagings + 1
    · rw [if_pos hfill]
      refine .inr ⟨_, rfl, { h with pace := ?_, send := ?_ }⟩
      · constructor <;> dsimp only <;> omega
      · dsimp only
        rw [slotIndex_eq, ← C.content_succ]
        exact h.send.write (by omega)
    · rw [if_neg hfill]
      have hstaged := h.staged
      cases hsource : C.source with
      | input =>
        rw [Session.staged, hsource] at hstaged
        refine .inr ⟨_, rfl, { h with pace := ?_, staged := ?_, producer := ?_ }⟩
        · constructor <;> dsimp only <;> omega
        · rw [Session.staged, hsource, slotIndex_eq, ← C.stamp_succ]
          exact hstaged.write rfl
        · rw [hsource]
          exact Source.noConfusion
      | reduction =>
        rw [Session.staged, hsource] at hstaged
        refine .inr ⟨_, rfl, { h with pace := ?_, staged := ?_ }⟩
        · constructor <;> dsimp only <;> omega
        · rw [Session.staged, hsource, slotIndex_eq, ← C.stamp_succ]
          exact hstaged.write rfl

/-- The producer word of a stored operation stands until the slot is used again. -/
theorem Ordered.producer_read (h : Ordered C s) {sequence : ℕ} (hone : 1 ≤ sequence)
    (hle : sequence ≤ s.stores) (hlt : s.stagings < sequence + 2) :
    s.producer (slotOf 2 sequence) = C.stamp sequence := by
  have hpace := h.pace
  cases hpace
  cases hsource : C.source with
  | input =>
    have hstaged := h.staged
    rw [Session.staged, hsource] at hstaged
    exact hstaged.read hone (by omega) hlt
  | reduction => exact (h.producer hsource).read hone hle (by omega)

/-- Over the input the host stores what the kernel has left in the word. -/
theorem Ordered.store_input (h : Ordered C s) (hsource : C.source = .input)
    (hle : s.doorbellPosts + 1 ≤ s.stagings) :
    C.storeProducer s.producer (s.doorbellPosts + 1) = s.producer := by
  have hpace := h.pace
  cases hpace
  have hstaged := h.staged
  rw [Session.staged, hsource] at hstaged
  rw [Session.storeProducer, slotIndex_eq, ← C.stamp_succ,
    ← hstaged.read (Nat.le_add_left 1 _) hle (by omega), Function.update_eq_self, ite_self]

theorem Ordered.progress (h : Ordered C s) : Sound C s .progress := by
  have hpace := h.pace
  cases hpace
  rw [Sound, turn, Blocked, progressStep]
  by_cases hwait : s.stagedWaits < s.doorbellPosts + 1
  · rw [if_pos hwait, waitForSequence_token _ h.staged (by omega)]
    by_cases hstaged : s.doorbellPosts + 1 ≤ s.stagings
    · rw [if_pos hstaged]
      refine .inr ⟨_, rfl, { h with pace := ?_ }⟩
      constructor <;> dsimp only <;> omega
    · rw [if_neg hstaged]
      exact .inl ⟨rfl, by omega, by omega⟩
  · rw [if_neg hwait]
    by_cases hstore : s.stores < s.doorbellPosts + 1
    · rw [if_pos hstore]
      cases hsource : C.source with
      | input =>
        rw [h.store_input hsource (by omega)]
        refine .inr ⟨_, rfl, { h with pace := ?_, producer := ?_ }⟩
        · constructor <;> dsimp only <;> omega
        · rw [hsource]
          exact Source.noConfusion
      | reduction =>
        have hstores : C.storesProducer = true := decide_eq_true (.inr hsource)
        rw [Session.storeProducer, if_pos hstores]
        have hstaged := h.staged
        rw [Session.staged, hsource] at hstaged
        refine .inr ⟨_, rfl, { h with pace := ?_, staged := ?_, producer := ?_ }⟩
        · constructor <;> dsimp only <;> omega
        · rw [Session.staged, hsource]
          exact hstaged
        · intro _
          dsimp only
          rw [slotIndex_eq, ← C.stamp_succ]
          exact (h.producer hsource).write (by omega)
    · rw [if_neg hstore]
      by_cases hpost : s.payloadPosts < s.doorbellPosts + 1
      · rw [if_pos hpost]
        have heq : s.payloadPosts = s.doorbellPosts := by omega
        -- The kernel cannot have filled the slot again: its credit is not even posted.
        have hread : s.send (slotOf 2 (s.doorbellPosts + 1)) = C.content (s.doorbellPosts + 1) :=
          h.send.read (by omega) (by omega) (by omega)
        refine .inr ⟨_, rfl, { h with pace := ?_, sends := ?_ }⟩
        · constructor <;> dsimp only <;> omega
        · have hwrite : C.sendWrite (s.payloadPosts + s.doorbellPosts) =
              .payload (slotIndex (s.doorbellPosts + 1))
                (C.inlined (tp4GraphPayloadBytes (C.q (s.doorbellPosts + 1)) C.bytesPerRow)
                  (C.content (s.doorbellPosts + 1))) := by
            rw [Session.sendWrite, if_pos (by omega),
              show (s.payloadPosts + s.doorbellPosts) / 2 = s.doorbellPosts by omega]
          have hlength : s.doorbellPosts + 1 + s.doorbellPosts =
              s.payloadPosts + s.doorbellPosts + 1 := by omega
          dsimp only
          rw [hlength, List.range_succ, List.map_append, List.map_singleton, hwrite, ← h.sends,
            slotIndex_eq, hread]
      · rw [if_neg hpost]
        have heq : s.payloadPosts = s.doorbellPosts + 1 := by omega
        have hread : s.producer (slotOf 2 (s.doorbellPosts + 1)) = C.stamp (s.doorbellPosts + 1) :=
          h.producer_read (by omega) (by omega) (by omega)
        refine .inr ⟨_, rfl, { h with pace := ?_, sends := ?_ }⟩
        · constructor <;> dsimp only <;> omega
        · have hwrite : C.sendWrite (s.payloadPosts + s.doorbellPosts) =
              .doorbell (slotIndex (s.doorbellPosts + 1))
                (C.inlined 8 (C.stamp (s.doorbellPosts + 1))) := by
            rw [Session.sendWrite, if_neg (by omega),
              show (s.payloadPosts + s.doorbellPosts) / 2 = s.doorbellPosts by omega]
          dsimp only
          rw [← Nat.add_assoc, List.range_succ, List.map_append, List.map_singleton, hwrite,
            ← h.sends, slotIndex_eq, hread]

theorem Ordered.next_send (h : Ordered C s) :
    s.sends[s.sent]? =
      if s.payloadPosts + s.doorbellPosts ≤ s.sent then none else some (C.sendWrite s.sent) := by
  rw [h.sends]
  split
  · next hsent => exact List.getElem?_eq_none (by rwa [List.length_map, List.length_range])
  · next hsent => rw [List.getElem?_map, List.getElem?_range (Nat.lt_of_not_le hsent), Option.map_some]

theorem Ordered.next_credit (h : Ordered C s) :
    s.credits[s.creditsSent]? =
      if s.creditPosts ≤ s.creditsSent then none else some (C.creditWrite s.creditsSent) := by
  rw [h.credits]
  split
  · next hsent => exact List.getElem?_eq_none (by rwa [List.length_map, List.length_range])
  · next hsent => rw [List.getElem?_map, List.getElem?_range (Nat.lt_of_not_le hsent), Option.map_some]

theorem Ordered.transmit (h : Ordered C s) : Sound C s .transmit := by
  have hpace := h.pace
  cases hpace
  rw [Sound, turn, Blocked, transmitStep, h.next_send]
  by_cases hsent : s.payloadPosts + s.doorbellPosts ≤ s.sent
  · rw [if_pos hsent]
    exact .inl ⟨rfl, hsent⟩
  · rw [if_neg hsent, Session.sendWrite]
    by_cases heven : s.sent % 2 = 0
    · rw [if_pos heven]
      -- The payload may be read only now; the kernel has not come back to the slot.
      have hread : s.send (slotOf 2 (s.sent / 2 + 1)) = C.content (s.sent / 2 + 1) :=
        h.send.read (by omega) (by omega) (by omega)
      refine .inr ⟨_, rfl, { h with pace := ?_, remote := ?_, receive := ?_ }⟩
      · constructor <;> dsimp only <;> omega
      · dsimp only
        rw [show (s.sent + 1) / 2 = s.sent / 2 by omega]
        exact h.remote
      · dsimp only
        rw [slotIndex_eq, hread, C.inlined_getD,
          show (s.sent + 1 + 1) / 2 = s.sent / 2 + 1 by omega]
        exact h.receive.write (by omega)
    · rw [if_neg heven]
      have hread : s.producer (slotOf 2 (s.sent / 2 + 1)) = C.stamp (s.sent / 2 + 1) :=
        h.producer_read (by omega) (by omega) (by omega)
      refine .inr ⟨_, rfl, { h with pace := ?_, remote := ?_, receive := ?_ }⟩
      · constructor <;> dsimp only <;> omega
      · dsimp only
        rw [slotIndex_eq, hread, C.inlined_getD, show (s.sent + 1) / 2 = s.sent / 2 + 1 by omega]
        exact h.remote.write rfl
      · dsimp only
        rw [show (s.sent + 1 + 1) / 2 = (s.sent + 1) / 2 by omega]
        exact h.receive

/-- The kernel of the peer reads the payload of its operation. -/
theorem Ordered.receive_read (h : Ordered C s) (huse : s.uses < s.remoteWaits) :
    s.receive (slotIndex (s.uses + 1)) = C.payload (s.uses + 1) := by
  have hpace := h.pace
  cases hpace
  rw [slotIndex_eq, ← C.content_succ]
  exact h.receive.read (Nat.le_add_left 1 s.uses) (by omega) (by omega)

theorem Ordered.peerKernel (h : Ordered C s) : Sound C s .peerKernel := by
  have hpace := h.pace
  cases hpace
  rw [Sound, turn, Blocked, peerKernelStep]
  by_cases hwait : s.remoteWaits < s.consumptions + 1
  · rw [if_pos hwait]
    by_cases hlaunched : s.consumptions + 1 > C.launched
    · rw [if_pos hlaunched]
      exact .inl ⟨rfl, by omega, by omega⟩
    · rw [if_neg hlaunched, waitForSequence_token _ h.remote (by omega)]
      by_cases hremote : s.consumptions + 1 ≤ s.sent / 2
      · rw [if_pos hremote]
        refine .inr ⟨_, rfl, { h with pace := ?_ }⟩
        constructor <;> dsimp only <;> omega
      · rw [if_neg hremote]
        exact .inl ⟨rfl, by omega, by omega⟩
  · rw [if_neg hwait]
    by_cases huse : s.uses < s.consumptions + 1
    · rw [if_pos huse]
      have heq : s.uses = s.consumptions := by omega
      have hread := h.receive_read (by omega)
      rw [heq] at hread
      refine .inr ⟨_, rfl, { h with pace := ?_, received := ?_ }⟩
      · constructor <;> dsimp only <;> omega
      · dsimp only
        rw [hread, List.range_succ, List.map_append, List.map_singleton, h.received, heq]
    · rw [if_neg huse]
      refine .inr ⟨_, rfl, { h with pace := ?_, consumer := ?_ }⟩
      · constructor <;> dsimp only <;> omega
      · dsimp only
        rw [slotIndex_eq, ← C.stamp_succ]
        exact h.consumer.write rfl

theorem Ordered.peerProgress (h : Ordered C s) : Sound C s .peerProgress := by
  have hpace := h.pace
  cases hpace
  rw [Sound, turn, Blocked, peerProgressStep]
  by_cases hwait : s.consumerWaits < s.creditPosts + 1
  · rw [if_pos hwait, waitForSequence_token _ h.consumer (by omega)]
    by_cases hconsumed : s.creditPosts + 1 ≤ s.consumptions
    · rw [if_pos hconsumed]
      refine .inr ⟨_, rfl, { h with pace := ?_ }⟩
      constructor <;> dsimp only <;> omega
    · rw [if_neg hconsumed]
      exact .inl ⟨rfl, by omega, by omega⟩
  · rw [if_neg hwait]
    by_cases hreserve : s.reservations < s.creditPosts + 1
    · rw [if_pos hreserve]
      refine .inr ⟨_, rfl, { h with pace := ?_, reserved := ?_ }⟩
      · constructor <;> dsimp only <;> omega
      · dsimp only
        rw [slotIndex_eq]
        exact h.reserved.write (by omega)
    · rw [if_neg hreserve]
      have hread : s.reserved (slotOf 2 (s.creditPosts + 1)) = s.creditPosts + 1 :=
        h.reserved.read (by omega) (by omega) (by omega)
      refine .inr ⟨_, rfl, { h with pace := ?_, credits := ?_ }⟩
      · constructor <;> dsimp only <;> omega
      · dsimp only
        rw [List.range_succ, List.map_append, List.map_singleton, ← h.credits, Session.creditWrite,
          slotIndex_eq, hread]

theorem Ordered.transmitCredit (h : Ordered C s) : Sound C s .transmitCredit := by
  have hpace := h.pace
  cases hpace
  rw [Sound, turn, Blocked, transmitCreditStep, h.next_credit]
  by_cases hsent : s.creditPosts ≤ s.creditsSent
  · rw [if_pos hsent]
    exact .inl ⟨rfl, hsent⟩
  · rw [if_neg hsent, Session.creditWrite]
    have hread : s.reserved (slotOf 2 (s.creditsSent + 1)) = s.creditsSent + 1 :=
      h.reserved.read (by omega) (by omega) (by omega)
    refine .inr ⟨_, rfl, { h with pace := ?_, acknowledgement := ?_ }⟩
    · constructor <;> dsimp only <;> omega
    · dsimp only
      rw [slotIndex_eq, hread, C.inlined_getD]
      exact h.acknowledgement.write rfl

theorem Ordered.sound (h : Ordered C s) (agent : Agent) : Sound C s agent := by
  cases agent with
  | kernel => exact h.kernel
  | progress => exact h.progress
  | transmit => exact h.transmit
  | peerKernel => exact h.peerKernel
  | peerProgress => exact h.peerProgress
  | transmitCredit => exact h.transmitCredit

theorem Ordered.step (h : Ordered C s) (agent : Agent) : Ordered C (step C s agent) := by
  rw [DeferredCredits.step]
  rcases h.sound agent with ⟨hturn, -⟩ | ⟨s', hturn, hs'⟩
  · rwa [hturn]
  · rwa [hturn]

theorem run_ordered (C : Session α) (agents : List Agent) : Ordered C (run C agents) := by
  induction agents using List.reverseRecOn with
  | nil => exact ordered_initial C
  | append_singleton agents agent ih =>
    rw [run, runFrom_concat]
    exact ih.step agent

/-! ## Every run -/

/-- However the agents interleave, no exact wait meets a wrong token, the peer uses the payloads
of the operations in order, and the kernel is at most two slots ahead of it. -/
theorem payloads_in_order (C : Session α) (agents : List Agent) :
    (∀ agent, turn C (run C agents) agent ≠ .mismatched) ∧
      (run C agents).received =
        (List.range (run C agents).received.length).map (fun i => C.payload (i + 1)) ∧
      (run C agents).fills ≤ (run C agents).received.length + 2 := by
  have h := run_ordered C agents
  have hpace := h.pace
  have hlength : (run C agents).received.length = (run C agents).uses := by
    rw [h.received, List.length_map, List.length_range]
  refine ⟨?_, ?_, ?_⟩
  · intro agent hturn
    rcases h.sound agent with ⟨hwaiting, -⟩ | ⟨s', hdone, -⟩
    · rw [hwaiting] at hturn
      cases hturn
    · rw [hdone] at hturn
      cases hturn
  · rw [hlength]
    exact h.received
  · cases hpace
    omega

/-- Words of a control line fit 64 bits. -/
theorem words_fit (C : Session α) (agents : List Agent) (slot : ℕ) :
    C.staged (run C agents) slot < 2 ^ 64 ∧ (run C agents).producer slot < 2 ^ 64 ∧
      (run C agents).remote slot < 2 ^ 64 ∧ (run C agents).consumer slot < 2 ^ 64 ∧
      (run C agents).reserved slot < 2 ^ 64 ∧ (run C agents).acknowledgement slot < 2 ^ 64 := by
  have h := run_ordered C agents
  have hpace := h.pace
  have hstamp : ∀ {n word}, Holds 2 C.stamp n word → n ≤ C.launched → word slot < 2 ^ 64 := by
    intro n word hword hn
    rw [hword slot]
    exact C.stamp_lt ((latest_le 2 slot n).trans hn)
  have hcredit : ∀ {n word}, Holds 2 id n word → n ≤ C.launched → word slot < 2 ^ 64 := by
    intro n word hword hn
    have hmax : kTp4GraphMaximumDoorbellSequence = 2 ^ 54 - 1 := by decide
    have hwithin := C.within
    have hlatest := latest_le 2 slot n
    rw [hword slot, id]
    omega
  cases hpace
  have hstaged := hstamp h.staged (by omega)
  have hproducer : (run C agents).producer slot < 2 ^ 64 := by
    cases hsource : C.source with
    | input => rwa [Session.staged, hsource] at hstaged
    | reduction => exact hstamp (h.producer hsource) (by omega)
  exact ⟨hstaged, hproducer, hstamp h.remote (by omega), hstamp h.consumer (by omega),
    hcredit h.reserved (by omega), hcredit h.acknowledgement (by omega)⟩

/-- The agents are never all waiting for one another before every launched operation is used
and its credit is back. -/
theorem goes_on_until_credited (C : Session α) (agents : List Agent) :
    (∃ agent s', turn C (run C agents) agent = .done s') ∨
      (run C agents).received.length = C.launched ∧ (run C agents).creditsSent = C.launched := by
  have h := run_ordered C agents
  have hpace := h.pace
  rw [h.received, List.length_map, List.length_range]
  by_cases hdone : ∃ agent s', turn C (run C agents) agent = .done s'
  · exact .inl hdone
  · have hblocked : ∀ agent, Blocked C (run C agents) agent := by
      intro agent
      rcases h.sound agent with ⟨-, hblocked⟩ | ⟨s', hturn, -⟩
      · exact hblocked
      · exact absurd ⟨agent, s', hturn⟩ hdone
    have hkernel := hblocked .kernel
    have hprogress := hblocked .progress
    have htransmit := hblocked .transmit
    have hpeerKernel := hblocked .peerKernel
    have hpeerProgress := hblocked .peerProgress
    have htransmitCredit := hblocked .transmitCredit
    simp only [Blocked] at hkernel hprogress htransmit hpeerKernel hpeerProgress htransmitCredit
    cases hpace
    -- Nobody is ahead: were the kernel short of the launched operations, a credit would be due.
    exact .inr ⟨by omega, by omega⟩

/-- How many steps were made altogether. -/
def steps (s : Lane α) : ℕ :=
  s.creditWaits + s.fills + s.stagings + s.stagedWaits + s.stores + s.payloadPosts +
    s.doorbellPosts + s.sent + s.remoteWaits + s.uses + s.consumptions + s.consumerWaits +
    s.reservations + s.creditPosts + s.creditsSent

theorem waitForSequence_done {σ : Type*} {observed expected : ℕ} {next s' : σ}
    (h : waitForSequence observed expected next = .done s') : s' = next := by
  rw [waitForSequence] at h
  split at h
  · cases h
    rfl
  · split at h <;> cases h

theorem steps_lt {s' : Lane α} {agent : Agent} (h : turn C s agent = .done s') :
    steps s < steps s' := by
  cases agent with
  | kernel =>
    rw [turn, kernelStep] at h
    split at h
    · split at h
      · cases h
      · cases waitForSequence_done h
        simp only [steps]
        omega
    · split at h
      · cases h
        simp only [steps]
        omega
      · split at h <;> cases h <;> simp only [steps] <;> omega
  | progress =>
    rw [turn, progressStep] at h
    split at h
    · cases waitForSequence_done h
      simp only [steps]
      omega
    · split at h
      · cases h
        simp only [steps]
        omega
      · split at h <;> cases h <;> simp only [steps] <;> omega
  | transmit =>
    rw [turn, transmitStep] at h
    split at h <;> cases h <;> simp only [steps] <;> omega
  | peerKernel =>
    rw [turn, peerKernelStep] at h
    split at h
    · split at h
      · cases h
      · cases waitForSequence_done h
        simp only [steps]
        omega
    · split at h <;> cases h <;> simp only [steps] <;> omega
  | peerProgress =>
    rw [turn, peerProgressStep] at h
    split at h
    · cases waitForSequence_done h
      simp only [steps]
      omega
    · split at h <;> cases h <;> simp only [steps] <;> omega
  | transmitCredit =>
    rw [turn, transmitCreditStep] at h
    split at h
    · cases h
    · cases h
      simp only [steps]
      omega

theorem length_le_steps (C : Session α) {agents : List Agent}
    (h : EveryStep (fun history agent => ∃ s', turn C (run C history) agent = .done s') agents) :
    agents.length ≤ steps (run C agents) := by
  induction agents using List.reverseRecOn with
  | nil => exact Nat.zero_le _
  | append_singleton agents agent ih =>
    obtain ⟨hbefore, s', hlast⟩ := everyStep_concat.mp h
    have hmore := steps_lt hlast
    have hstep : run C (agents ++ [agent]) = s' := by
      rw [run, runFrom_concat, ← run, DeferredCredits.step, hlast]
    rw [hstep, List.length_append, List.length_singleton]
    exact (ih hbefore).trans_lt hmore

/-- The agents go on for a bounded number of steps; with `goes_on_until_credited`, they end with
everything used and credited. -/
theorem steps_bounded (C : Session α) (agents : List Agent)
    (h : EveryStep (fun history agent => ∃ s', turn C (run C history) agent = .done s') agents) :
    agents.length ≤ 16 * C.launched := by
  apply (length_le_steps C h).trans
  have hpace := (run_ordered C agents).pace
  cases hpace
  rw [steps]
  omega

/-- `drain_deferred_credits`: the wait for the last credit of a slot never finds another one, and
ends when that credit is back. -/
theorem drain_waits_for_last_credit (C : Session α) (agents : List Agent) (slot : ℕ)
    (hslot : slot < tp4PayloadSlotCount .twoSlotDeferredAck) :
    waitForSequence ((run C agents).acknowledgement slot)
        (tp4LatestSlotSequence (run C agents).doorbellPosts slot .twoSlotDeferredAck)
        (run C agents) =
      if tp4LatestSlotSequence (run C agents).doorbellPosts slot .twoSlotDeferredAck ≤
          (run C agents).creditsSent then .done (run C agents)
      else .waiting := by
  have h := run_ordered C agents
  have hcredits : (run C agents).creditsSent ≤ (run C agents).doorbellPosts := by
    have hpace := h.pace
    cases hpace
    omega
  rw [tp4LatestSlotSequence_eq hslot, waitForSequence, h.acknowledgement, id]
  rw [show tp4PayloadSlotCount .twoSlotDeferredAck = 2 from rfl]
  by_cases hback : latest 2 slot (run C agents).doorbellPosts ≤ (run C agents).creditsSent
  · rw [if_pos (latest_of_latest_le hback hcredits), if_pos hback]
  · have hless : latest 2 slot (run C agents).creditsSent <
        latest 2 slot (run C agents).doorbellPosts :=
      (latest_le 2 slot _).trans_lt (Nat.lt_of_not_le hback)
    rw [if_neg (Nat.ne_of_lt hless), if_neg (Nat.not_lt.mpr (Nat.le_of_lt hless)), if_neg hback]

theorem one_row_valid : ∀ _ : ℕ, 1 ≤ 1 ∧ 1 ≤ kTp4GraphAllreduceMaximumQ := fun _ => by decide

theorem one_within : 1 ≤ kTp4GraphMaximumDoorbellSequence := by decide

/-- One operation of one row. -/
def single : Session ℕ where
  schedule := .sequential
  source := .input
  payload _ := 7
  cleared := 0
  q _ := 1
  bytesPerRow := 2
  maxInlineData := 64
  launched := 1
  rows := one_row_valid
  within := one_within

/-- Every agent does its whole part before the next one. -/
def agentByAgent : List Agent :=
  List.replicate 3 .kernel ++ List.replicate 4 .progress ++ List.replicate 2 .transmit ++
    List.replicate 3 .peerKernel ++ List.replicate 3 .peerProgress ++ [.transmitCredit]

example : (run single agentByAgent).received = [7] := by decide

theorem drain_waits_for_last_credit_single :
    waitForSequence ((run single agentByAgent).acknowledgement 0)
        (tp4LatestSlotSequence (run single agentByAgent).doorbellPosts 0 .twoSlotDeferredAck)
        (run single agentByAgent) =
      if tp4LatestSlotSequence (run single agentByAgent).doorbellPosts 0 .twoSlotDeferredAck ≤
          (run single agentByAgent).creditsSent then .done (run single agentByAgent)
      else .waiting :=
  drain_waits_for_last_credit single agentByAgent 0 (by decide)

theorem steps_bounded_single :
    EveryStep (fun history agent => ∃ s', turn single (run single history) agent = .done s')
        agentByAgent ∧
      agentByAgent.length = 16 ∧ agentByAgent.length ≤ 16 * 1 := by
  have hdone : EveryStep
      (fun history agent => ∃ s', turn single (run single history) agent = .done s')
      agentByAgent := by
    decide +kernel
  exact ⟨hdone, rfl, steps_bounded single agentByAgent hdone⟩

end SparkKit.Tp4.DeferredCredits
