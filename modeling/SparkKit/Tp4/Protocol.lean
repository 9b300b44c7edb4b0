import SparkKit.Lib.SlotTurns
import Mathlib.Data.Nat.Bitwise
import Mathlib.Tactic.IntervalCases

/-!
# Slots, credits and tokens of the all-reduce

An operation has a sequence number, counted from one. Its payload goes through one of the slots
of an endpoint, taken in turn, and its doorbells carry a token made of the sequence number and
the number of rows.
-/
namespace SparkKit.Tp4.Protocol

open SparkKit.Lib.SlotTurns

inductive Tp4AllreduceProtocol where
  | serialAck
  | twoSlotDeferredAck
deriving DecidableEq, Repr

inductive Tp4CreditReuseState where
  | ready
  | waiting
  | futureGeneration
deriving DecidableEq, Repr

def tp4ProtocolUsesDeferredAck : Tp4AllreduceProtocol → Bool
  | .serialAck => false
  | .twoSlotDeferredAck => true

def tp4PayloadSlotCount (protocol : Tp4AllreduceProtocol) : ℕ :=
  if tp4ProtocolUsesDeferredAck protocol = true then 2 else 1

def tp4PayloadSlotIndex (sequence : ℕ) (protocol : Tp4AllreduceProtocol) : ℕ :=
  if sequence = 0 then 0 else (sequence - 1) % tp4PayloadSlotCount protocol

def tp4ExpectedReuseCredit (sequence : ℕ) (protocol : Tp4AllreduceProtocol) : ℕ :=
  let slots := tp4PayloadSlotCount protocol
  if tp4ProtocolUsesDeferredAck protocol = true ∧ sequence > slots then sequence - slots else 0

def tp4CreditReuseState (sequence observedCredit : ℕ) (protocol : Tp4AllreduceProtocol) :
    Tp4CreditReuseState :=
  let expected := tp4ExpectedReuseCredit sequence protocol
  if observedCredit = expected then .ready
  else if observedCredit < expected then .waiting
  else .futureGeneration

def tp4LatestSlotSequence (finalSequence slot : ℕ) (protocol : Tp4AllreduceProtocol) : ℕ :=
  let slots := tp4PayloadSlotCount protocol
  if finalSequence = 0 ∨ slot ≥ slots ∨ finalSequence ≤ slot then 0
  else finalSequence - (finalSequence - 1 - slot) % slots

/-! ## Doorbell tokens -/

def kTp4GraphDoorbellQBits : ℕ := 10
def kTp4GraphAllreduceMaximumQ : ℕ := 512
def kTp4GraphMaximumDoorbellSequence : ℕ := (2 ^ 64 - 1) >>> kTp4GraphDoorbellQBits

def tp4GraphDoorbellTokenValid (sequence q : ℕ) : Bool :=
  decide (1 ≤ sequence ∧ sequence ≤ kTp4GraphMaximumDoorbellSequence ∧ 1 ≤ q ∧
    q ≤ kTp4GraphAllreduceMaximumQ)

def tp4GraphDoorbellToken (sequence q : ℕ) : ℕ := (sequence <<< kTp4GraphDoorbellQBits) ||| q

/-! ## Rounds -/

structure Tp4RoundPlan where
  round : ℕ
  rank : ℕ
  peerRank : ℕ
  deviceIndex : ℕ
  server : Bool
deriving DecidableEq, Repr

def makeTp4RoundPlan (rank round : ℕ) : Except String Tp4RoundPlan :=
  if rank ≥ 4 then .error "TP4 rank must be in [0, 3]"
  else if round ≥ 2 then .error "TP4 round must be zero or one"
  else
    let mask := if round = 0 then 1 else 3
    let peer := rank ^^^ mask
    .ok ⟨round, rank, peer, round, rank > peer⟩

/-! ## Facts -/

theorem tp4PayloadSlotIndex_eq (sequence : ℕ) (protocol : Tp4AllreduceProtocol) :
    tp4PayloadSlotIndex sequence protocol = slotOf (tp4PayloadSlotCount protocol) sequence := by
  rw [tp4PayloadSlotIndex, slotOf]
  split
  · next h => rw [h, Nat.zero_sub, Nat.zero_mod]
  · rfl

/-- In the deferred protocol the credit to wait for is that of the last turn of the slot. -/
theorem tp4ExpectedReuseCredit_eq {protocol : Tp4AllreduceProtocol}
    (h : tp4ProtocolUsesDeferredAck protocol = true) (sequence : ℕ) :
    tp4ExpectedReuseCredit sequence protocol = sequence - tp4PayloadSlotCount protocol := by
  rw [tp4ExpectedReuseCredit]
  split
  · rfl
  · next hnot =>
    rw [not_and] at hnot
    have hle := Nat.le_of_not_lt (hnot h)
    omega

/-- The closed form of the last turn that used the slot. -/
theorem tp4LatestSlotSequence_eq {slot : ℕ} {protocol : Tp4AllreduceProtocol}
    (hslot : slot < tp4PayloadSlotCount protocol) (n : ℕ) :
    tp4LatestSlotSequence n slot protocol = latest (tp4PayloadSlotCount protocol) slot n := by
  induction n with
  | zero => rw [tp4LatestSlotSequence, if_pos (.inl rfl), latest]
  | succ n ih =>
    rw [latest, ← ih, slotOf, Nat.add_sub_cancel, tp4LatestSlotSequence, tp4LatestSlotSequence]
    cases protocol with
    | serialAck =>
      have hone : tp4PayloadSlotCount .serialAck = 1 := rfl
      rw [hone] at hslot ⊢
      repeat' split
      all_goals omega
    | twoSlotDeferredAck =>
      have htwo : tp4PayloadSlotCount .twoSlotDeferredAck = 2 := rfl
      rw [htwo] at hslot ⊢
      repeat' split
      all_goals omega

theorem tp4GraphDoorbellToken_eq {q : ℕ} (hq : q < 1024) (sequence : ℕ) :
    tp4GraphDoorbellToken sequence q = sequence * 1024 + q := by
  rw [tp4GraphDoorbellToken, kTp4GraphDoorbellQBits, ← Nat.shiftLeft_add_eq_or_of_lt hq,
    Nat.shiftLeft_eq]

/-- A valid token fits its machine word. -/
theorem tp4GraphDoorbellToken_lt {sequence q : ℕ}
    (h : tp4GraphDoorbellTokenValid sequence q = true) :
    tp4GraphDoorbellToken sequence q < 2 ^ 64 := by
  obtain ⟨-, hsequence, -, hq⟩ := of_decide_eq_true h
  have hmax : kTp4GraphMaximumDoorbellSequence = 2 ^ 54 - 1 := by decide
  rw [kTp4GraphAllreduceMaximumQ] at hq
  rw [tp4GraphDoorbellToken_eq (by omega)]
  omega

/-- Both ends of a round name each other, and exactly one of them listens. -/
theorem makeTp4RoundPlan_symmetric {rank round : ℕ} {plan : Tp4RoundPlan}
    (h : makeTp4RoundPlan rank round = .ok plan) :
    makeTp4RoundPlan plan.peerRank round =
      .ok ⟨round, plan.peerRank, rank, round, !plan.server⟩ := by
  have hrank : rank < 4 := by
    by_contra hge
    rw [makeTp4RoundPlan, if_pos (Nat.le_of_not_lt hge)] at h
    cases h
  have hround : round < 2 := by
    by_contra hge
    rw [makeTp4RoundPlan, if_neg (Nat.not_le.mpr hrank), if_pos (Nat.le_of_not_lt hge)] at h
    cases h
  interval_cases rank <;> interval_cases round <;> cases h <;> rfl

end SparkKit.Tp4.Protocol
