import SparkKit.Lib.BroadcastQueue
import SparkKit.Lib.History
import SparkKit.Tp4.CommandRing
import Mathlib.Data.List.Induction

/-!
# The ring is a bounded queue

Whatever the interleaving of the publishers and the host, the host receives the commands that
were published, in the order of their publication, each once, and a slot is not written again
before the command in it is completed.
-/
namespace SparkKit.Tp4.CommandQueue

open SparkKit.Lib.BroadcastQueue SparkKit.Lib.History SparkKit.Lib.SlotTurns
open SparkKit.Tp4.Protocol SparkKit.Tp4.CommandRing

variable {ρ : Type*} [DecidableEq ρ]

/-! ## The system -/

/-- The ring, its publishers, and the progress thread. The two lists record what was published
and what was received. -/
structure System (ρ : Type*) where
  ring : Tp4GraphCommandRing
  publisher : ρ → Publisher
  graphConsumedSequence : ℕ
  host : Host
  published : List Tp4GraphCommand
  received : List Tp4GraphCommand

def initial : System ρ := ⟨emptyRing, fun _ => .idle, 0, .loadOverflow, [], []⟩

/-- A kernel starts, or a publisher or the host takes its next step. -/
inductive Event (ρ : Type*) where
  | launch (p : ρ) (d : Descriptor)
  | publish (p : ρ)
  | progress

/-- What a publisher has published when it is done. -/
def announced : Publisher → Publisher → Option Tp4GraphCommand
  | .exchangePublished d sequence, .idle => some ⟨d, sequence⟩
  | _, _ => none

def launch (s : System ρ) (p : ρ) (d : Descriptor) : System ρ :=
  if s.publisher p = .idle then
    { s with publisher := Function.update s.publisher p (.loadOverflow d) }
  else s

def publish (s : System ρ) (p : ρ) : System ρ :=
  let next := publisherStep s.ring (s.publisher p)
  { s with
    ring := next.1
    publisher := Function.update s.publisher p next.2
    published := (announced (s.publisher p) next.2).elim s.published (s.published ++ [·]) }

/-- What the host has received when it has stored the consumed sequence. -/
def taken : Host → Host → Option Tp4GraphCommand
  | .storeConsumed _, .driving command => some command
  | _, _ => none

/-- `progress_graph_commands` -/
def progress (bytesPerRow : ℕ) (s : System ρ) : System ρ :=
  let next := hostStep (s.graphConsumedSequence + 1) bytesPerRow kTp4GraphAllreduceMaximumQ
    s.ring s.host
  { s with
    ring := next.1
    host := next.2
    graphConsumedSequence := (taken s.host next.2).elim s.graphConsumedSequence (·.sequence)
    received := (taken s.host next.2).elim s.received (s.received ++ [·]) }

def step (bytesPerRow : ℕ) (s : System ρ) : Event ρ → System ρ
  | .launch p d => launch s p d
  | .publish p => publish s p
  | .progress => progress bytesPerRow s

/-! ## The order of the commands -/

/-- The sequence a publisher has claimed and not published. -/
def held : Publisher → Option ℕ
  | .fill _ sequence _ => some sequence
  | .loadSequence _ sequence => some sequence
  | .exchangeSequence _ sequence _ => some sequence
  | .exchangePublished _ sequence => some sequence
  | _ => none

structure Pending (ring : Tp4GraphCommandRing) (claims : ℕ → Descriptor) (d : Descriptor)
    (sequence : ℕ) : Prop where
  unpublished : ring.publishedSequence < sequence
  claimed : sequence ≤ ring.claimedSequence
  descriptor : claims sequence = d

/-- What a publisher knows where it stands. -/
def Stage (ring : Tp4GraphCommandRing) (claims : ℕ → Descriptor) : Publisher → Prop
  | .exchangeClaimed _ claimed =>
    claimed < kTp4GraphMaximumDoorbellSequence ∧
      claimed < ring.completedSequence + kTp4GraphCommandCapacity
  | .fill d sequence field =>
    Pending ring claims d sequence ∧
      CopiedBefore d (ring.commands (commandSlot sequence)).toDescriptor field
  | .loadSequence d sequence | .exchangeSequence d sequence _ =>
    Pending ring claims d sequence ∧ (ring.commands (commandSlot sequence)).toDescriptor = d
  | .exchangePublished d sequence =>
    Pending ring claims d sequence ∧ ring.commands (commandSlot sequence) = ⟨d, sequence⟩
  | _ => True

/-- The host has completed what it consumed, and the next command is published. -/
structure NextPublished (ring : Tp4GraphCommandRing) : Prop where
  completed : ring.completedSequence = ring.consumedSequence
  published : ring.consumedSequence < ring.publishedSequence

/-- The host is on the command that it consumed last. -/
structure Driving (ring : Tp4GraphCommandRing) (sequence : ℕ) : Prop where
  consumed : sequence = ring.consumedSequence
  completed : ring.consumedSequence = ring.completedSequence + 1

/-- What the host knows where it stands: what it has read of the next command is the command
of the claimant. -/
def HostStage (ring : Tp4GraphCommandRing) (claims : ℕ → Descriptor) : Host → Prop
  | .loadOverflow | .loadPublished => ring.completedSequence = ring.consumedSequence
  | .loadSequence | .loadQ | .exchangeOverflow => NextPublished ring
  | .loadPayloadBytes q => NextPublished ring ∧ q = (claims (ring.consumedSequence + 1)).q
  | .copy command field =>
    NextPublished ring ∧ CopiedBefore (claims (ring.consumedSequence + 1)) command field
  | .storeConsumed command => NextPublished ring ∧ command = claims (ring.consumedSequence + 1)
  | .driving command => Driving ring command.sequence
  | .storeCompleted sequence => Driving ring sequence
  | .storeOverflow _ => False

/-- The commands with the first sequence numbers. -/
def firstCommands (claims : ℕ → Descriptor) (n : ℕ) : List Tp4GraphCommand :=
  (List.range n).map fun i => ⟨claims (i + 1), i + 1⟩

/-- The counters stay in order and within the capacity, and the slots in use hold the commands
of their claimants. -/
structure Ordered (claims : ℕ → Descriptor) (s : System ρ) : Prop where
  consumed_le : s.ring.consumedSequence ≤ s.ring.publishedSequence
  published_le : s.ring.publishedSequence ≤ s.ring.claimedSequence
  bound : s.ring.claimedSequence ≤ kTp4GraphMaximumDoorbellSequence
  room : s.ring.claimedSequence ≤ s.ring.completedSequence + kTp4GraphCommandCapacity
  host : s.graphConsumedSequence = s.ring.consumedSequence
  hostStage : HostStage s.ring claims s.host
  stage : ∀ p, Stage s.ring claims (s.publisher p)
  distinct : ∀ p p' sequence, held (s.publisher p) = some sequence →
    held (s.publisher p') = some sequence → p = p'
  slots : ∀ sequence, s.ring.completedSequence < sequence →
    sequence ≤ s.ring.publishedSequence →
      s.ring.commands (commandSlot sequence) = ⟨claims sequence, sequence⟩
  log : s.published = firstCommands claims s.ring.publishedSequence
  inOrder : s.received = s.published.take s.ring.consumedSequence

variable {claims : ℕ → Descriptor} {s : System ρ}

omit [DecidableEq ρ] in
theorem ordered_initial (claims : ℕ → Descriptor) : Ordered claims (initial : System ρ) := by
  refine ⟨Nat.le_refl 0, Nat.le_refl 0, Nat.zero_le _, Nat.zero_le _, rfl, rfl,
    fun _ => trivial, fun _ _ _ h => ?_, fun _ hlt hle => ?_, rfl, rfl⟩
  · cases h
  · exact absurd (Nat.lt_of_lt_of_le hlt hle) (Nat.not_lt_zero 0)

omit [DecidableEq ρ] in
theorem Ordered.completed_le (h : Ordered claims s) :
    s.ring.completedSequence ≤ s.ring.consumedSequence := by
  have hdriving : ∀ {sequence}, Driving s.ring sequence →
      s.ring.completedSequence ≤ s.ring.consumedSequence := by
    intro sequence hd
    rw [hd.completed]
    exact Nat.le_succ _
  have hstage := h.hostStage
  cases hhost : s.host <;> rw [hhost] at hstage
  case loadOverflow | loadPublished => exact Nat.le_of_eq hstage
  case loadSequence | loadQ | exchangeOverflow => exact Nat.le_of_eq hstage.completed
  case loadPayloadBytes q => exact Nat.le_of_eq hstage.1.completed
  case copy command field => exact Nat.le_of_eq hstage.1.completed
  case storeConsumed command => exact Nat.le_of_eq hstage.1.completed
  case driving command => exact hdriving hstage
  case storeCompleted sequence => exact hdriving hstage
  case storeOverflow sequence => exact hstage.elim

/-- The publishers leave alone what the host goes by. -/
theorem HostStage.mono {ring ring' : Tp4GraphCommandRing} {claims' : ℕ → Descriptor} {host : Host}
    (h : HostStage ring claims host) (hconsumed : ring'.consumedSequence = ring.consumedSequence)
    (hcompleted : ring'.completedSequence = ring.completedSequence)
    (hpublished : ring.publishedSequence ≤ ring'.publishedSequence)
    (hclaims : ring.consumedSequence < ring.publishedSequence →
      claims' (ring.consumedSequence + 1) = claims (ring.consumedSequence + 1)) :
    HostStage ring' claims' host := by
  have hnext : NextPublished ring → NextPublished ring' := by
    intro hn
    refine ⟨?_, ?_⟩
    · rw [hcompleted, hconsumed]
      exact hn.completed
    · rw [hconsumed]
      exact hn.published.trans_le hpublished
  have hdriving : ∀ {sequence}, Driving ring sequence → Driving ring' sequence := by
    intro sequence hd
    refine ⟨?_, ?_⟩
    · rw [hconsumed]
      exact hd.consumed
    · rw [hcompleted, hconsumed]
      exact hd.completed
  cases host with
  | loadOverflow | loadPublished =>
    show ring'.completedSequence = ring'.consumedSequence
    rw [hcompleted, hconsumed]
    exact h
  | loadSequence | loadQ | exchangeOverflow => exact hnext h
  | loadPayloadBytes q =>
    refine ⟨hnext h.1, ?_⟩
    rw [hconsumed, hclaims h.1.published]
    exact h.2
  | copy command field =>
    refine ⟨hnext h.1, ?_⟩
    rw [hconsumed, hclaims h.1.published]
    exact h.2
  | storeConsumed command =>
    refine ⟨hnext h.1, ?_⟩
    rw [hconsumed, hclaims h.1.published]
    exact h.2
  | driving command => exact hdriving h
  | storeCompleted sequence => exact hdriving h
  | storeOverflow sequence => exact h.elim

/-- Sequences in use at the same time have slots of their own. -/
theorem commandSlot_ne (completed : ℕ) {sequence sequence' : ℕ} (hlow : completed < sequence)
    (hlow' : completed < sequence') (hhigh : sequence ≤ completed + kTp4GraphCommandCapacity)
    (hhigh' : sequence' ≤ completed + kTp4GraphCommandCapacity) (hne : sequence ≠ sequence') :
    commandSlot sequence ≠ commandSlot sequence' := by
  intro heq
  rcases Nat.lt_or_gt_of_ne hne with hlt | hlt
  · have hgap : sequence + kTp4GraphCommandCapacity ≤ sequence' :=
      add_le_of_slotOf_eq (by omega) hlt heq
    omega
  · have hgap : sequence' + kTp4GraphCommandCapacity ≤ sequence :=
      add_le_of_slotOf_eq (by omega) hlt heq.symm
    omega

theorem Stage.mono {ring ring' : Tp4GraphCommandRing} {claims' : ℕ → Descriptor}
    {publisher : Publisher} (h : Stage ring claims publisher)
    (hclaimed : ring.claimedSequence ≤ ring'.claimedSequence)
    (hcompleted : ring.completedSequence ≤ ring'.completedSequence)
    (hheld : ∀ sequence, held publisher = some sequence →
      ring'.publishedSequence < sequence ∧ claims' sequence = claims sequence ∧
        ring'.commands (commandSlot sequence) = ring.commands (commandSlot sequence)) :
    Stage ring' claims' publisher := by
  have hpending : ∀ {d sequence}, held publisher = some sequence →
      Pending ring claims d sequence → Pending ring' claims' d sequence := by
    intro d sequence hsequence hp
    obtain ⟨hpublished, hclaims, -⟩ := hheld sequence hsequence
    exact ⟨hpublished, hp.claimed.trans hclaimed, hclaims.trans hp.descriptor⟩
  cases publisher with
  | idle => trivial
  | loadOverflow d => trivial
  | loadClaimed d => trivial
  | fatal => trivial
  | loadCompleted d claimed => trivial
  | exchangeOverflow sequence => trivial
  | exchangeClaimed d claimed => exact ⟨h.1, Nat.lt_of_lt_of_le h.2 (by omega)⟩
  | fill d sequence field =>
    refine ⟨hpending rfl h.1, ?_⟩
    rw [(hheld sequence rfl).2.2]
    exact h.2
  | loadSequence d sequence | exchangeSequence d sequence current =>
    refine ⟨hpending rfl h.1, ?_⟩
    rw [(hheld sequence rfl).2.2]
    exact h.2
  | exchangePublished d sequence =>
    refine ⟨hpending rfl h.1, ?_⟩
    rw [(hheld sequence rfl).2.2]
    exact h.2

theorem Stage.pending {ring : Tp4GraphCommandRing} {publisher : Publisher} {sequence : ℕ}
    (h : Stage ring claims publisher) (hheld : held publisher = some sequence) :
    ∃ d, Pending ring claims d sequence := by
  cases publisher with
  | fill d n field => cases hheld; exact ⟨d, h.1⟩
  | loadSequence d n => cases hheld; exact ⟨d, h.1⟩
  | exchangeSequence d n current => cases hheld; exact ⟨d, h.1⟩
  | exchangePublished d n => cases hheld; exact ⟨d, h.1⟩
  | _ => cases hheld

/-! ## The queue it implements -/

/-- The two cursors of the host over the published commands. -/
inductive Reader where
  | consume
  | complete
deriving DecidableEq, Repr

def view (s : System ρ) : Queue Tp4GraphCommand Reader where
  written := s.published
  read
    | .consume => s.ring.consumedSequence
    | .complete => s.ring.completedSequence

/-! ## Steps -/

/-- A publisher that claims nothing and writes no slot. -/
theorem Ordered.moves (h : Ordered claims s) {p : ρ} {publisher : Publisher} (overflow : ℕ)
    (hheld : ∀ sequence, held publisher = some sequence → held (s.publisher p) = some sequence)
    (hstage : Stage s.ring claims publisher) :
    Ordered claims
      { s with
        ring := { s.ring with overflowSequence := overflow }
        publisher := Function.update s.publisher p publisher } := by
  have hkept : ∀ {q}, Stage s.ring claims q →
      Stage { s.ring with overflowSequence := overflow } claims q := by
    intro q hq
    refine hq.mono (Nat.le_refl _) (Nat.le_refl _) fun sequence hsequence => ?_
    obtain ⟨d, hp⟩ := hq.pending hsequence
    exact ⟨hp.unpublished, rfl, rfl⟩
  have hback : ∀ q sequence, held (Function.update s.publisher p publisher q) = some sequence →
      held (s.publisher q) = some sequence := by
    intro q sequence hq
    by_cases hqp : q = p
    · subst hqp
      rw [Function.update_self] at hq
      exact hheld sequence hq
    · rwa [Function.update_of_ne hqp] at hq
  refine ⟨h.consumed_le, h.published_le, h.bound, h.room, h.host,
    h.hostStage.mono rfl rfl (Nat.le_refl _) fun _ => rfl, fun q => ?_,
    fun q q' sequence hq hq' => h.distinct q q' sequence (hback q _ hq) (hback q' _ hq'),
    h.slots, h.log, h.inOrder⟩
  by_cases hqp : q = p
  · subst hqp
    dsimp only
    rw [Function.update_self]
    exact hkept hstage
  · dsimp only
    rw [Function.update_of_ne hqp]
    exact hkept (h.stage q)

theorem recordFirstOverflow_eq (ring : Tp4GraphCommandRing) (sequence : ℕ) :
    ∃ overflow, recordFirstOverflow ring sequence =
      { ring with overflowSequence := overflow } := by
  rw [recordFirstOverflow]
  split
  · exact ⟨sequence, rfl⟩
  · exact ⟨ring.overflowSequence, rfl⟩

theorem firstCommands_congr {claims' : ℕ → Descriptor} {n : ℕ}
    (h : ∀ i, i ≤ n → claims' i = claims i) : firstCommands claims' n = firstCommands claims n := by
  apply List.map_congr_left
  intro i hi
  rw [h (i + 1) (List.mem_range.mp hi)]

theorem firstCommands_succ (claims : ℕ → Descriptor) (n : ℕ) :
    firstCommands claims (n + 1) = firstCommands claims n ++ [⟨claims (n + 1), n + 1⟩] := by
  rw [firstCommands, List.range_succ, List.map_append]
  rfl

omit [DecidableEq ρ] in
/-- Nobody holds a sequence that is published, or not claimed yet. -/
theorem Ordered.held_bounds (h : Ordered claims s) {p : ρ} {sequence : ℕ}
    (hheld : held (s.publisher p) = some sequence) :
    s.ring.publishedSequence < sequence ∧ sequence ≤ s.ring.claimedSequence := by
  obtain ⟨d, hp⟩ := (h.stage p).pending hheld
  exact ⟨hp.unpublished, hp.claimed⟩

/-- The compare-exchange hands the next sequence to the publisher alone. -/
theorem Ordered.claims_next (h : Ordered claims s) {p : ρ} {d : Descriptor}
    (hp : s.publisher p = .exchangeClaimed d s.ring.claimedSequence) :
    Ordered (Function.update claims (s.ring.claimedSequence + 1) d)
      { s with
        ring := { s.ring with claimedSequence := s.ring.claimedSequence + 1 }
        publisher := Function.update s.publisher p
          (.fill d (s.ring.claimedSequence + 1) .trace) } := by
  have hold : ∀ i, i ≤ s.ring.claimedSequence →
      Function.update claims (s.ring.claimedSequence + 1) d i = claims i := by
    intro i hi
    rw [Function.update_of_ne (by omega)]
  have hstage := h.stage p
  rw [hp] at hstage
  obtain ⟨hbound, hroom⟩ := hstage
  have hhost : HostStage { s.ring with claimedSequence := s.ring.claimedSequence + 1 }
      (Function.update claims (s.ring.claimedSequence + 1) d) s.host :=
    h.hostStage.mono rfl rfl (Nat.le_refl _) fun hlt => hold _ (Nat.le_trans hlt h.published_le)
  refine ⟨h.consumed_le, Nat.le_succ_of_le h.published_le, hbound, hroom, h.host, hhost,
    fun q => ?_, fun q q' sequence hq hq' => ?_, fun sequence hlow hhigh => ?_, ?_, h.inOrder⟩
  · dsimp only
    by_cases hqp : q = p
    · subst hqp
      rw [Function.update_self]
      exact ⟨⟨Nat.lt_succ_of_le h.published_le, Nat.le_refl _, Function.update_self ..⟩, trivial⟩
    · rw [Function.update_of_ne hqp]
      refine (h.stage q).mono (Nat.le_succ _) (Nat.le_refl _) fun sequence hsequence => ?_
      obtain ⟨hlow, hhigh⟩ := h.held_bounds hsequence
      exact ⟨hlow, hold sequence hhigh, rfl⟩
  · dsimp only at hq hq'
    have hfresh : ∀ q, q ≠ p → held (s.publisher q) = some sequence →
        sequence ≠ s.ring.claimedSequence + 1 := by
      intro q _ hsequence
      have hbounds := h.held_bounds hsequence
      omega
    by_cases hqp : q = p
    · by_cases hqp' : q' = p
      · rw [hqp, hqp']
      · subst hqp
        rw [Function.update_self] at hq
        rw [Function.update_of_ne hqp'] at hq'
        exact absurd (Option.some.inj hq).symm (hfresh q' hqp' hq')
    · rw [Function.update_of_ne hqp] at hq
      by_cases hqp' : q' = p
      · subst hqp'
        rw [Function.update_self] at hq'
        exact absurd (Option.some.inj hq').symm (hfresh q hqp hq)
      · rw [Function.update_of_ne hqp'] at hq'
        exact h.distinct q q' sequence hq hq'
  · dsimp only at hlow hhigh ⊢
    rw [hold sequence (hhigh.trans h.published_le)]
    exact h.slots sequence hlow hhigh
  · dsimp only
    rw [h.log]
    exact (firstCommands_congr fun i hi => hold i (hi.trans h.published_le)).symm

/-- A publisher writes the slot of the sequence it holds, which nobody else uses. -/
theorem Ordered.writes (h : Ordered claims s) {p : ρ} {sequence : ℕ} {publisher : Publisher}
    (command : Tp4GraphCommand) (hheld : held (s.publisher p) = some sequence)
    (hheld' : held publisher = some sequence)
    (hstage : Stage (s.ring.setCommand sequence command) claims publisher) :
    Ordered claims
      { s with
        ring := s.ring.setCommand sequence command
        publisher := Function.update s.publisher p publisher } := by
  obtain ⟨hlow, hhigh⟩ := h.held_bounds hheld
  have hcompleted := h.completed_le
  have hconsumed := h.consumed_le
  have hroom := h.room
  have hother : ∀ sequence', s.ring.completedSequence < sequence' →
      sequence' ≤ s.ring.claimedSequence → sequence' ≠ sequence →
      (s.ring.setCommand sequence command).commands (commandSlot sequence') =
        s.ring.commands (commandSlot sequence') := by
    intro sequence' hlow' hhigh' hne
    exact Function.update_of_ne
      (commandSlot_ne s.ring.completedSequence hlow' (by omega) (by omega) (by omega) hne) _ _
  refine ⟨h.consumed_le, h.published_le, h.bound, h.room, h.host,
    h.hostStage.mono rfl rfl (Nat.le_refl _) fun _ => rfl, fun q => ?_,
    fun q q' n hq hq' => ?_, fun n hn hn' => ?_, h.log, h.inOrder⟩
  · dsimp only
    by_cases hqp : q = p
    · subst hqp
      rw [Function.update_self]
      exact hstage
    · rw [Function.update_of_ne hqp]
      refine (h.stage q).mono (Nat.le_refl _) (Nat.le_refl _) fun n hn => ?_
      obtain ⟨hlow', hhigh'⟩ := h.held_bounds hn
      refine ⟨hlow', rfl, hother n (by omega) hhigh' fun heq => hqp ?_⟩
      subst heq
      exact h.distinct q p n hn hheld
  · dsimp only at hq hq'
    have hback : ∀ q, held (Function.update s.publisher p publisher q) = some n →
        held (s.publisher q) = some n := by
      intro q hq
      by_cases hqp : q = p
      · subst hqp
        rw [Function.update_self, hheld'] at hq
        rw [hheld, ← hq]
      · rwa [Function.update_of_ne hqp] at hq
    exact h.distinct q q' n (hback q hq) (hback q' hq')
  · dsimp only at hn hn' ⊢
    have hpublished := h.published_le
    change n ≤ s.ring.publishedSequence at hn'
    change s.ring.completedSequence < n at hn
    rw [hother n hn (by omega) (by omega)]
    exact h.slots n hn hn'

/-- The publisher whose turn it is publishes its command. -/
theorem Ordered.publishes (h : Ordered claims s) {p : ρ} {d : Descriptor} {sequence : ℕ}
    (hp : s.publisher p = .exchangePublished d sequence)
    (hturn : s.ring.publishedSequence = sequence - 1) :
    Ordered claims
      { s with
        ring := { s.ring with publishedSequence := sequence }
        publisher := Function.update s.publisher p .idle
        published := s.published ++ [⟨d, sequence⟩] } := by
  have hheld : held (s.publisher p) = some sequence := by rw [hp]; rfl
  obtain ⟨hlow, hhigh⟩ := h.held_bounds hheld
  have hstage := h.stage p
  rw [hp] at hstage
  obtain ⟨⟨-, -, hclaims⟩, hcommand⟩ := hstage
  have hconsumed := h.consumed_le
  obtain rfl : sequence = s.ring.publishedSequence + 1 := by omega
  refine ⟨Nat.le_succ_of_le hconsumed, hhigh, h.bound, h.room, h.host,
    h.hostStage.mono rfl rfl (Nat.le_succ _) fun _ => rfl, fun q => ?_, fun q q' n hq hq' => ?_, fun n hn hn' => ?_, ?_, ?_⟩
  · dsimp only
    by_cases hqp : q = p
    · subst hqp
      rw [Function.update_self]
      trivial
    · rw [Function.update_of_ne hqp]
      refine (h.stage q).mono (Nat.le_refl _) (Nat.le_refl _) fun n hn => ⟨?_, rfl, rfl⟩
      obtain ⟨hlow', -⟩ := h.held_bounds hn
      have hne : n ≠ s.ring.publishedSequence + 1 := by
        rintro rfl
        exact hqp (h.distinct q p _ hn hheld)
      dsimp only
      omega
  · dsimp only at hq hq'
    have hback : ∀ q, held (Function.update s.publisher p .idle q) = some n →
        held (s.publisher q) = some n := by
      intro q hq
      by_cases hqp : q = p
      · subst hqp
        rw [Function.update_self] at hq
        cases hq
      · rwa [Function.update_of_ne hqp] at hq
    exact h.distinct q q' n (hback q hq) (hback q' hq')
  · dsimp only at hn hn' ⊢
    rcases Nat.lt_or_eq_of_le hn' with hlt | rfl
    · exact h.slots n hn (Nat.le_of_lt_succ hlt)
    · rw [hcommand, hclaims]
  · dsimp only
    rw [firstCommands_succ, ← h.log, hclaims]
  · dsimp only
    rw [List.take_append_of_le_length, h.inOrder]
    rw [h.log, firstCommands, List.length_map, List.length_range]
    exact hconsumed

theorem commands_setCommand (ring : Tp4GraphCommandRing) (sequence : ℕ)
    (command : Tp4GraphCommand) :
    (ring.setCommand sequence command).commands (commandSlot sequence) = command :=
  Function.update_self ..

theorem publish_of_step {p : ρ} {publisher : Publisher} {next : Tp4GraphCommandRing × Publisher}
    (hat : s.publisher p = publisher) (h : publisherStep s.ring publisher = next)
    (hquiet : announced publisher next.2 = none) :
    publish s p =
      { s with ring := next.1, publisher := Function.update s.publisher p next.2 } := by
  rw [publish, hat, h, hquiet]
  rfl

omit [DecidableEq ρ] in
theorem Ordered.length_published (h : Ordered claims s) :
    s.published.length = s.ring.publishedSequence := by
  rw [h.log, firstCommands, List.length_map, List.length_range]

/-- A publisher appends to the queue when it publishes, and otherwise leaves it as it is. -/
theorem Ordered.publish (h : Ordered claims s) (p : ρ) :
    (∃ claims', Ordered claims' (publish s p)) ∧
      Step kTp4GraphCommandCapacity (view s) (view (publish s p)) := by
  have hstage := h.stage p
  have hidle : ∀ {publisher}, held publisher = none → ∀ sequence,
      held publisher = some sequence → held (s.publisher p) = some sequence := by
    intro publisher hnone sequence hsome
    rw [hnone] at hsome
    cases hsome
  cases hat : s.publisher p with
  | idle =>
    rw [publish_of_step hat rfl rfl]
    exact ⟨⟨claims, h.moves s.ring.overflowSequence (hidle rfl) trivial⟩, .stay _⟩
  | fatal =>
    rw [publish_of_step hat rfl rfl]
    exact ⟨⟨claims, h.moves s.ring.overflowSequence (hidle rfl) trivial⟩, .stay _⟩
  | loadOverflow d =>
    by_cases hover : s.ring.overflowSequence ≠ 0
    · rw [publish_of_step hat (if_pos hover) rfl]
      exact ⟨⟨claims, h.moves s.ring.overflowSequence (hidle rfl) trivial⟩, .stay _⟩
    · rw [publish_of_step hat (if_neg hover) rfl]
      exact ⟨⟨claims, h.moves s.ring.overflowSequence (hidle rfl) trivial⟩, .stay _⟩
  | loadClaimed d =>
    rw [publish_of_step hat rfl rfl]
    exact ⟨⟨claims, h.moves s.ring.overflowSequence (hidle rfl) trivial⟩, .stay _⟩
  | exchangeOverflow sequence =>
    obtain ⟨overflow, hring⟩ := recordFirstOverflow_eq s.ring sequence
    have hstep : publisherStep s.ring (.exchangeOverflow sequence) =
        ({ s.ring with overflowSequence := overflow }, .fatal) := by rw [publisherStep, hring]
    rw [publish_of_step hat hstep rfl]
    exact ⟨⟨claims, h.moves overflow (hidle rfl) trivial⟩, .stay _⟩
  | loadCompleted d claimed =>
    by_cases hbroken : claimed ≥ kTp4GraphMaximumDoorbellSequence ∨
        s.ring.completedSequence > claimed
    · rw [publish_of_step hat (if_pos hbroken) rfl]
      exact ⟨⟨claims, h.moves s.ring.overflowSequence (hidle rfl) trivial⟩, .stay _⟩
    by_cases hfull : claimed - s.ring.completedSequence ≥ kTp4GraphCommandCapacity
    · rw [publish_of_step hat ((if_neg hbroken).trans (if_pos hfull)) rfl]
      exact ⟨⟨claims, h.moves s.ring.overflowSequence (hidle rfl) trivial⟩, .stay _⟩
    · rw [publish_of_step hat ((if_neg hbroken).trans (if_neg hfull)) rfl]
      refine ⟨⟨claims, h.moves s.ring.overflowSequence (hidle rfl) ⟨?_, ?_⟩⟩, .stay _⟩
      · omega
      · omega
  | exchangeClaimed d claimed =>
    by_cases hsame : s.ring.claimedSequence = claimed
    · rw [publish_of_step hat (if_pos hsame) rfl]
      subst hsame
      exact ⟨⟨_, h.claims_next hat⟩, .stay _⟩
    · rw [publish_of_step hat (if_neg hsame) rfl]
      exact ⟨⟨claims, h.moves s.ring.overflowSequence (hidle rfl) trivial⟩, .stay _⟩
  | fill d sequence field =>
    rw [hat] at hstage
    obtain ⟨⟨hlow, hhigh, hclaims⟩, hcopied⟩ := hstage
    cases hnext : field.next with
    | some field' =>
      rw [publish_of_step hat (publisherStep_fill_next hnext) rfl]
      refine ⟨⟨claims, h.writes _ (by rw [hat]; rfl) rfl ⟨⟨hlow, hhigh, hclaims⟩, ?_⟩⟩, .stay _⟩
      rw [commands_setCommand]
      exact hcopied.next hnext
    | none =>
      rw [publish_of_step hat (publisherStep_fill_last hnext) rfl]
      refine ⟨⟨claims, h.writes _ (by rw [hat]; rfl) rfl ⟨⟨hlow, hhigh, hclaims⟩, ?_⟩⟩, .stay _⟩
      rw [commands_setCommand]
      exact hcopied.last hnext
  | loadSequence d sequence =>
    rw [hat] at hstage
    rw [publish_of_step hat rfl rfl]
    refine ⟨⟨claims, h.moves s.ring.overflowSequence (fun n hn => ?_) hstage⟩, .stay _⟩
    rw [hat]
    exact hn
  | exchangeSequence d sequence current =>
    rw [hat] at hstage
    obtain ⟨⟨hlow, hhigh, hclaims⟩, hdescriptor⟩ := hstage
    by_cases hsame : (s.ring.commands (commandSlot sequence)).sequence = current
    · rw [publish_of_step hat (if_pos hsame) rfl]
      refine ⟨⟨claims, h.writes _ (by rw [hat]; rfl) rfl ⟨⟨hlow, hhigh, hclaims⟩, ?_⟩⟩, .stay _⟩
      rw [commands_setCommand, hdescriptor]
    · rw [publish_of_step hat (if_neg hsame) rfl]
      refine ⟨⟨claims, h.moves s.ring.overflowSequence (fun n hn => ?_)
        ⟨⟨hlow, hhigh, hclaims⟩, hdescriptor⟩⟩, .stay _⟩
      rw [hat]
      exact hn
  | exchangePublished d sequence =>
    by_cases hturn : s.ring.publishedSequence = sequence - 1
    · have hstep : publisherStep s.ring (.exchangePublished d sequence) =
          ({ s.ring with publishedSequence := sequence }, .idle) := if_pos hturn
      rw [CommandQueue.publish, hat, hstep]
      refine ⟨⟨claims, h.publishes hat hturn⟩, .write _ _ fun reader => ?_⟩
      have hroom := h.room
      have hcompleted := h.completed_le
      have hlow := h.held_bounds (p := p) (by rw [hat]; rfl)
      rw [view, h.length_published]
      cases reader with
      | consume =>
        dsimp only
        omega
      | complete =>
        dsimp only
        omega
    rw [hat] at hstage
    have hwaits : ¬s.ring.publishedSequence ≥ sequence := Nat.not_le.mpr hstage.1.unpublished
    rw [publish_of_step hat ((if_neg hturn).trans (if_neg hwaits)) rfl]
    refine ⟨⟨claims, h.moves s.ring.overflowSequence (fun n hn => ?_) hstage⟩, .stay _⟩
    rw [hat]
    exact hn

theorem Ordered.launch (h : Ordered claims s) (p : ρ) (d : Descriptor) :
    Ordered claims (launch s p d) ∧
      Step kTp4GraphCommandCapacity (view s) (view (launch s p d)) := by
  rw [CommandQueue.launch]
  split
  · exact ⟨h.moves s.ring.overflowSequence (fun _ hn => by cases hn) trivial, .stay _⟩
  · exact ⟨h, .stay _⟩

omit [DecidableEq ρ] in
/-- The host moves on and takes nothing. -/
theorem Ordered.withHost (h : Ordered claims s) (overflow : ℕ) {host : Host}
    (hstage : HostStage s.ring claims host) :
    Ordered claims
      { s with ring := { s.ring with overflowSequence := overflow }, host := host } := by
  refine ⟨h.consumed_le, h.published_le, h.bound, h.room, h.host,
    hstage.mono rfl rfl (Nat.le_refl _) fun _ => rfl, fun p => ?_, h.distinct, h.slots, h.log,
    h.inOrder⟩
  refine (h.stage p).mono (Nat.le_refl _) (Nat.le_refl _) fun sequence hsequence => ?_
  exact ⟨(h.held_bounds hsequence).1, rfl, rfl⟩

omit [DecidableEq ρ] in
theorem step_of_read {s' : System ρ} (reader : Reader)
    (hmore : (view s).read reader < (view s).written.length)
    (hwritten : s'.published = s.published)
    (hread : (view s').read = Function.update (view s).read reader ((view s).read reader + 1)) :
    Step kTp4GraphCommandCapacity (view s) (view s') := by
  have hview : view s' =
      ⟨(view s).written, Function.update (view s).read reader ((view s).read reader + 1)⟩ := by
    rw [← hread]
    exact congrArg (Queue.mk · (view s').read) hwritten
  rw [hview]
  exact .read _ reader hmore

omit [DecidableEq ρ] in
theorem progress_of_step {bytesPerRow : ℕ} {host : Host} {next : Tp4GraphCommandRing × Host}
    (hat : s.host = host) (h : hostStep (s.graphConsumedSequence + 1) bytesPerRow
      kTp4GraphAllreduceMaximumQ s.ring host = next) (hquiet : taken host next.2 = none) :
    progress bytesPerRow s = { s with ring := next.1, host := next.2 } := by
  rw [progress, hat, h, hquiet]
  rfl

omit [DecidableEq ρ] in
/-- The slot of the next command holds it. -/
theorem Ordered.nextSlot (h : Ordered claims s) (hnext : NextPublished s.ring) :
    s.ring.commands (commandSlot (s.graphConsumedSequence + 1)) =
      ⟨claims (s.ring.consumedSequence + 1), s.ring.consumedSequence + 1⟩ := by
  have hcompleted := hnext.completed
  rw [h.host]
  exact h.slots _ (by omega) hnext.published

omit [DecidableEq ρ] in
/-- The host receives the next command that was published. -/
theorem Ordered.consumes (h : Ordered claims s) (hnext : NextPublished s.ring) :
    Ordered claims
      { s with
        ring := { s.ring with consumedSequence := s.ring.consumedSequence + 1 }
        host := .driving ⟨claims (s.ring.consumedSequence + 1), s.ring.consumedSequence + 1⟩
        graphConsumedSequence := s.ring.consumedSequence + 1
        received := s.received ++
          [⟨claims (s.ring.consumedSequence + 1), s.ring.consumedSequence + 1⟩] } := by
  have hget : s.published[s.ring.consumedSequence]? =
      some ⟨claims (s.ring.consumedSequence + 1), s.ring.consumedSequence + 1⟩ := by
    rw [h.log, firstCommands, List.getElem?_map, List.getElem?_range hnext.published]
    rfl
  refine ⟨hnext.published, h.published_le, h.bound, h.room, rfl, ⟨rfl, ?_⟩, fun p => ?_, h.distinct,
    h.slots, h.log, ?_⟩
  · rw [hnext.completed]
  · refine (h.stage p).mono (Nat.le_refl _) (Nat.le_refl _) fun sequence hheld => ?_
    exact ⟨(h.held_bounds hheld).1, rfl, rfl⟩
  · dsimp only
    rw [List.take_add_one, hget, ← h.inOrder]
    rfl

omit [DecidableEq ρ] in
/-- The host completes the command it is driving. -/
theorem Ordered.completes (h : Ordered claims s) {sequence : ℕ} (hdriving : Driving s.ring sequence) :
    Ordered claims
      { s with
        ring := { s.ring with completedSequence := sequence }
        host := .loadOverflow } := by
  obtain ⟨hconsumed, hcompleted⟩ := hdriving
  have hroom := h.room
  refine ⟨h.consumed_le, h.published_le, h.bound, ?_, h.host, hconsumed, fun p => ?_,
    h.distinct, fun n hlow hhigh => ?_, h.log, h.inOrder⟩
  · dsimp only
    omega
  · refine (h.stage p).mono (Nat.le_refl _) (by dsimp only; omega) fun n hheld => ?_
    exact ⟨(h.held_bounds hheld).1, rfl, rfl⟩
  · dsimp only at hlow hhigh
    exact h.slots n (by omega) hhigh

omit [DecidableEq ρ] in
/-- A step of the host reads the next command, completes one, or leaves the queue as it is. -/
theorem Ordered.progress (h : Ordered claims s) (bytesPerRow : ℕ) :
    Ordered claims (progress bytesPerRow s) ∧
      Step kTp4GraphCommandCapacity (view s) (view (progress bytesPerRow s)) := by
  have hstage := h.hostStage
  have hmoves : ∀ {host : Host}, HostStage s.ring claims host →
      Ordered claims { s with host := host } ∧
        Step kTp4GraphCommandCapacity (view s) (view { s with host := host }) :=
    fun hhost => ⟨h.withHost s.ring.overflowSequence hhost, .stay _⟩
  cases hat : s.host <;> rw [hat] at hstage
  case loadOverflow =>
    by_cases hnever : bytesPerRow = 0 ∨ kTp4GraphAllreduceMaximumQ = 0 ∨
        s.graphConsumedSequence + 1 = 0
    · rw [progress_of_step hat (if_pos hnever) rfl]
      exact hmoves hstage
    by_cases hover : s.ring.overflowSequence ≠ 0
    · rw [progress_of_step hat ((if_neg hnever).trans (if_pos hover)) rfl]
      exact hmoves hstage
    · rw [progress_of_step hat ((if_neg hnever).trans (if_neg hover)) rfl]
      exact hmoves hstage
  case loadPublished =>
    by_cases hwaits : s.ring.publishedSequence < s.graphConsumedSequence + 1
    · rw [progress_of_step hat (if_pos hwaits) rfl]
      exact hmoves hstage
    · rw [progress_of_step hat (if_neg hwaits) rfl]
      rw [h.host] at hwaits
      exact hmoves ⟨hstage, Nat.lt_of_succ_le (Nat.le_of_not_lt hwaits)⟩
  case loadSequence =>
    by_cases hother : (s.ring.commands (commandSlot (s.graphConsumedSequence + 1))).sequence ≠
        s.graphConsumedSequence + 1
    · rw [progress_of_step hat (if_pos hother) rfl]
      exact hmoves hstage.completed
    · rw [progress_of_step hat (if_neg hother) rfl]
      exact hmoves hstage
  case loadQ =>
    rw [progress_of_step hat rfl rfl]
    refine hmoves ⟨hstage, ?_⟩
    rw [h.nextSlot hstage]
  case loadPayloadBytes q =>
    by_cases hinvalid : tp4GraphCommandLayoutValid q
        (s.ring.commands (commandSlot (s.graphConsumedSequence + 1))).payloadBytes bytesPerRow
        kTp4GraphAllreduceMaximumQ = false
    · rw [progress_of_step hat (if_pos hinvalid) rfl]
      exact hmoves hstage.1
    · rw [progress_of_step hat (if_neg hinvalid) rfl]
      exact hmoves ⟨hstage.1, trivial⟩
  case exchangeOverflow =>
    obtain ⟨overflow, hring⟩ := recordFirstOverflow_eq s.ring (s.graphConsumedSequence + 1)
    have hstep : hostStep (s.graphConsumedSequence + 1) bytesPerRow kTp4GraphAllreduceMaximumQ
        s.ring .exchangeOverflow = ({ s.ring with overflowSequence := overflow }, .loadOverflow) := by
      rw [hostStep, hring]
    rw [progress_of_step hat hstep rfl]
    exact ⟨h.withHost overflow hstage.completed, .stay _⟩
  case copy command field =>
    have hcopied := hstage.2
    have hslot := h.nextSlot hstage.1
    cases hnext : field.next with
    | some field' =>
      rw [progress_of_step hat (hostStep_copy_next hnext) rfl, hslot]
      exact hmoves ⟨hstage.1, hcopied.next hnext⟩
    | none =>
      rw [progress_of_step hat (hostStep_copy_last hnext) rfl, hslot]
      exact hmoves ⟨hstage.1, hcopied.last hnext⟩
  case storeConsumed command =>
    obtain ⟨hnext, rfl⟩ := hstage
    have hstep : CommandQueue.progress bytesPerRow s = { s with
        ring := { s.ring with consumedSequence := s.ring.consumedSequence + 1 }
        host := .driving ⟨claims (s.ring.consumedSequence + 1), s.ring.consumedSequence + 1⟩
        graphConsumedSequence := s.ring.consumedSequence + 1
        received := s.received ++
          [⟨claims (s.ring.consumedSequence + 1), s.ring.consumedSequence + 1⟩] } := by
      rw [CommandQueue.progress, hat, ← h.host]
      rfl
    rw [hstep]
    refine ⟨h.consumes hnext, step_of_read .consume ?_ rfl ?_⟩
    · rw [view, h.length_published]
      exact hnext.published
    · funext reader
      cases reader with
      | consume => rfl
      | complete => rfl
  case driving command =>
    obtain ⟨hsequence, hcompleted⟩ := hstage
    have hbound := h.bound
    have hconsumed := h.consumed_le
    have hpublished := h.published_le
    have hmax : kTp4GraphMaximumDoorbellSequence = 2 ^ 54 - 1 := by decide
    have hzero : ¬command.sequence = 0 := by omega
    have horder : ¬(s.ring.completedSequence = 2 ^ 64 - 1 ∨
        command.sequence ≠ s.ring.completedSequence + 1) := by omega
    rw [progress_of_step hat ((if_neg hzero).trans (if_neg horder)) rfl]
    exact hmoves ⟨hsequence, hcompleted⟩
  case storeCompleted sequence =>
    have hconsumed := h.consumed_le
    have hcompleted := hstage.completed
    rw [progress_of_step hat rfl rfl]
    refine ⟨h.completes hstage, step_of_read .complete ?_ rfl ?_⟩
    · rw [view, h.length_published]
      dsimp only
      omega
    · funext reader
      cases reader with
      | consume => rfl
      | complete => exact hstage.consumed.trans hcompleted
  case storeOverflow sequence => exact hstage.elim

/-! ## Runs -/

def run (bytesPerRow : ℕ) (events : List (Event ρ)) : System ρ :=
  runFrom (step bytesPerRow) initial events

/-- Every step of the system is a step of the bounded queue, or leaves the queue as it is. -/
theorem Ordered.step (h : Ordered claims s) (bytesPerRow : ℕ) (event : Event ρ) :
    (∃ claims', Ordered claims' (step bytesPerRow s event)) ∧
      Step kTp4GraphCommandCapacity (view s) (view (step bytesPerRow s event)) := by
  cases event with
  | launch p d => exact ⟨⟨claims, (h.launch p d).1⟩, (h.launch p d).2⟩
  | publish p => exact h.publish p
  | progress => exact ⟨⟨claims, (h.progress bytesPerRow).1⟩, (h.progress bytesPerRow).2⟩

theorem run_refines (bytesPerRow : ℕ) (events : List (Event ρ)) :
    (∃ claims, Ordered claims (run bytesPerRow events)) ∧
      Relation.ReflTransGen (Step kTp4GraphCommandCapacity) empty
        (view (run bytesPerRow events)) := by
  induction events using List.reverseRecOn with
  | nil =>
    refine ⟨⟨fun _ => emptyCommand.toDescriptor, ordered_initial _⟩, ?_⟩
    have hview : view (initial : System ρ) = empty := by
      have hread : (view (initial : System ρ)).read = fun _ => 0 := by
        funext reader
        cases reader with
        | consume => rfl
        | complete => rfl
      exact congrArg (Queue.mk []) hread
    rw [run, runFrom, List.foldl_nil, hview]
  | append_singleton events event ih =>
    obtain ⟨⟨claims, h⟩, hrun⟩ := ih
    rw [run, runFrom_concat]
    exact ⟨(h.step bytesPerRow event).1, hrun.tail (h.step bytesPerRow event).2⟩

/-- However publishers and host interleave, the host receives what was published, in order and
each command once, and at most a ring of commands is published and not completed. -/
theorem received_in_order (bytesPerRow : ℕ) (events : List (Event ρ)) :
    (run bytesPerRow events).received <+: (run bytesPerRow events).published ∧
      (run bytesPerRow events).published.map Tp4GraphCommand.sequence =
        List.range' 1 (run bytesPerRow events).published.length ∧
      (run bytesPerRow events).published.length ≤
        (run bytesPerRow events).ring.completedSequence + kTp4GraphCommandCapacity ∧
      (run bytesPerRow events).ring.completedSequence ≤
        (run bytesPerRow events).received.length := by
  obtain ⟨⟨claims, h⟩, -⟩ := run_refines bytesPerRow events
  have hlength := h.length_published
  have hconsumed := h.consumed_le
  have hcompleted := h.completed_le
  have hpublished := h.published_le
  have hroom := h.room
  refine ⟨?_, ?_, ?_, ?_⟩
  · rw [h.inOrder]
    exact List.take_prefix _ _
  · rw [hlength, h.log, firstCommands, List.map_map, List.range'_eq_map_range]
    apply List.map_congr_left
    intro i _
    exact Nat.add_comm i 1
  · omega
  · rw [h.inOrder, List.length_take]
    omega

end SparkKit.Tp4.CommandQueue
