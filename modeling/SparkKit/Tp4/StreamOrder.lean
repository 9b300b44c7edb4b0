import Mathlib.Data.Fintype.Basic
import SparkKit.Tp4.CommandQueue

/-!
# One publisher at a time

Kernels of one stream publish one after the other, and then the ring records an overflow only
when the sequence numbers run out. Two publishers at a time can make it record one at once:
a publisher that is overtaken between its two loads takes the completion for a broken order.
-/
namespace SparkKit.Tp4.StreamOrder

open SparkKit.Lib.History
open SparkKit.Tp4.Protocol SparkKit.Tp4.CommandRing SparkKit.Tp4.CommandQueue

variable {ρ : Type*} {claims : ℕ → Descriptor} {s : System ρ} {bytesPerRow : ℕ}

def LayoutValid (bytesPerRow : ℕ) (d : Descriptor) : Prop :=
  tp4GraphCommandLayoutValid d.q d.payloadBytes bytesPerRow kTp4GraphAllreduceMaximumQ = true

/-- A kernel starts when no other publishes, and its layout was checked. -/
def InStream (bytesPerRow : ℕ) (s : System ρ) : Event ρ → Prop
  | .launch _ d => (∀ p, s.publisher p = .idle) ∧ LayoutValid bytesPerRow d
  | _ => True

instance (bytesPerRow : ℕ) (d : Descriptor) : Decidable (LayoutValid bytesPerRow d) :=
  inferInstanceAs (Decidable (_ = true))

instance [Fintype ρ] (bytesPerRow : ℕ) (s : System ρ) (event : Event ρ) :
    Decidable (InStream bytesPerRow s event) :=
  match event with
  | .launch _ _ => inferInstanceAs (Decidable (_ ∧ _))
  | .publish _ => .isTrue trivial
  | .progress => .isTrue trivial

/-- A publisher finds the counters as it left them. -/
def Undisturbed (bytesPerRow : ℕ) (ring : Tp4GraphCommandRing) : Publisher → Prop
  | .idle => ring.publishedSequence = ring.claimedSequence
  | .loadOverflow d => LayoutValid bytesPerRow d ∧ ring.publishedSequence = ring.claimedSequence
  | .loadClaimed d => LayoutValid bytesPerRow d ∧ ring.publishedSequence = ring.claimedSequence
  | .loadCompleted d claimed =>
    LayoutValid bytesPerRow d ∧ ring.publishedSequence = ring.claimedSequence ∧
      claimed = ring.claimedSequence
  | .exchangeClaimed d claimed =>
    LayoutValid bytesPerRow d ∧ ring.publishedSequence = ring.claimedSequence ∧
      claimed = ring.claimedSequence
  | .fill d sequence _ | .loadSequence d sequence | .exchangeSequence d sequence _
  | .exchangePublished d sequence => LayoutValid bytesPerRow d ∧ ring.claimedSequence = sequence
  | .exchangeOverflow _ | .fatal => False

/-- The host is not about to record an overflow. -/
def Sound : Host → Prop
  | .exchangeOverflow | .storeOverflow _ => False
  | _ => True

structure Serial (bytesPerRow : ℕ) (s : System ρ) : Prop where
  alone : ∀ p p', s.publisher p ≠ .idle → s.publisher p' ≠ .idle → p = p'
  undisturbed : ∀ p, s.publisher p ≠ .idle → Undisturbed bytesPerRow s.ring (s.publisher p)
  quiet : (∀ p, s.publisher p = .idle) → s.ring.publishedSequence = s.ring.claimedSequence
  layouts : ∀ command ∈ s.published, LayoutValid bytesPerRow command.toDescriptor
  host : Sound s.host
  overflow : s.ring.overflowSequence = 0

theorem serial_initial (bytesPerRow : ℕ) : Serial bytesPerRow (initial : System ρ) :=
  ⟨fun _ _ h => absurd rfl h, fun _ h => absurd rfl h, fun _ => rfl,
    fun _ h => absurd h List.not_mem_nil, trivial, rfl⟩

/-! ## Steps of the publisher -/

section
variable [DecidableEq ρ]

/-- Everybody else is idle. -/
theorem serial_of_others {p : ρ} {ring : Tp4GraphCommandRing}
    {publisher : Publisher} {published : List Tp4GraphCommand}
    (hothers : ∀ q, q ≠ p → s.publisher q = .idle)
    (hundisturbed : Undisturbed bytesPerRow ring publisher)
    (hlayouts : ∀ command ∈ published, LayoutValid bytesPerRow command.toDescriptor)
    (hhost : Sound s.host) (hoverflow : ring.overflowSequence = 0) :
    Serial bytesPerRow
      { s with
        ring := ring
        publisher := Function.update s.publisher p publisher
        published := published } := by
  have honly : ∀ q, Function.update s.publisher p publisher q ≠ .idle → q = p := by
    intro q hq
    by_contra hne
    rw [Function.update_of_ne hne] at hq
    exact hq (hothers q hne)
  refine ⟨fun q q' hq hq' => (honly q hq).trans (honly q' hq').symm, fun q hq => ?_,
    fun hidle => ?_, hlayouts, hhost, hoverflow⟩
  · dsimp only
    rw [honly q hq, Function.update_self]
    exact hundisturbed
  · have hp := hidle p
    dsimp only at hp
    rw [Function.update_self] at hp
    rw [hp] at hundisturbed
    exact hundisturbed

theorem Serial.publish (h : Serial bytesPerRow s) (hordered : Ordered claims s) (p : ρ)
    (hroom : s.ring.claimedSequence < kTp4GraphMaximumDoorbellSequence) :
    Serial bytesPerRow (publish s p) := by
  by_cases hidle : s.publisher p = .idle
  · have hsame : Function.update s.publisher p .idle = s.publisher := by
      rw [← hidle, Function.update_eq_self]
    rw [publish_of_step hidle rfl rfl]
    show Serial bytesPerRow { s with publisher := Function.update s.publisher p .idle }
    rw [hsame]
    exact h
  have hothers : ∀ q, q ≠ p → s.publisher q = .idle := by
    intro q hq
    by_contra hne
    exact hq (h.alone q p hne hidle)
  have hat := h.undisturbed p hidle
  have hstage := hordered.stage p
  have hcompleted := hordered.completed_le
  have hconsumed := hordered.consumed_le
  have hpublished := hordered.published_le
  cases hpub : s.publisher p with
  | idle => exact absurd hpub hidle
  | fatal =>
    rw [hpub] at hat
    exact hat.elim
  | loadOverflow d =>
    rw [hpub] at hat
    rw [publish_of_step hpub (if_neg (not_not.mpr h.overflow)) rfl]
    exact serial_of_others hothers hat h.layouts h.host h.overflow
  | loadClaimed d =>
    rw [hpub] at hat
    rw [publish_of_step hpub rfl rfl]
    exact serial_of_others hothers ⟨hat.1, hat.2, rfl⟩ h.layouts h.host h.overflow
  | loadCompleted d claimed =>
    rw [hpub] at hat
    obtain ⟨hlayout, heq, rfl⟩ := hat
    have hsound : ¬(s.ring.claimedSequence ≥ kTp4GraphMaximumDoorbellSequence ∨
        s.ring.completedSequence > s.ring.claimedSequence) := by omega
    by_cases hfull : s.ring.claimedSequence - s.ring.completedSequence ≥ kTp4GraphCommandCapacity
    · rw [publish_of_step hpub ((if_neg hsound).trans (if_pos hfull)) rfl]
      exact serial_of_others hothers ⟨hlayout, heq⟩ h.layouts h.host h.overflow
    · rw [publish_of_step hpub ((if_neg hsound).trans (if_neg hfull)) rfl]
      exact serial_of_others hothers ⟨hlayout, heq, rfl⟩ h.layouts h.host h.overflow
  | exchangeClaimed d claimed =>
    rw [hpub] at hat
    obtain ⟨hlayout, heq, rfl⟩ := hat
    rw [publish_of_step hpub (if_pos rfl) rfl]
    exact serial_of_others hothers ⟨hlayout, rfl⟩ h.layouts h.host h.overflow
  | exchangeOverflow sequence =>
    rw [hpub] at hat
    exact hat.elim
  | fill d sequence field =>
    rw [hpub] at hat
    cases hnext : field.next with
    | some field' =>
      rw [publish_of_step hpub (publisherStep_fill_next hnext) rfl]
      exact serial_of_others hothers hat h.layouts h.host h.overflow
    | none =>
      rw [publish_of_step hpub (publisherStep_fill_last hnext) rfl]
      exact serial_of_others hothers hat h.layouts h.host h.overflow
  | loadSequence d sequence =>
    rw [hpub] at hat
    rw [publish_of_step hpub rfl rfl]
    exact serial_of_others hothers hat h.layouts h.host h.overflow
  | exchangeSequence d sequence current =>
    rw [hpub] at hat
    by_cases hsame : (s.ring.commands (commandSlot sequence)).sequence = current
    · rw [publish_of_step hpub (if_pos hsame) rfl]
      exact serial_of_others hothers hat h.layouts h.host h.overflow
    · rw [publish_of_step hpub (if_neg hsame) rfl]
      exact serial_of_others hothers hat h.layouts h.host h.overflow
  | exchangePublished d sequence =>
    rw [hpub] at hat hstage
    obtain ⟨hlayout, hclaimed⟩ := hat
    by_cases hturn : s.ring.publishedSequence = sequence - 1
    · have hstep : publisherStep s.ring (.exchangePublished d sequence) =
          ({ s.ring with publishedSequence := sequence }, .idle) := if_pos hturn
      rw [CommandQueue.publish, hpub, hstep]
      refine serial_of_others hothers hclaimed.symm ?_ h.host h.overflow
      intro command hcommand
      rcases List.mem_append.mp hcommand with hold | hnew
      · exact h.layouts command hold
      · rw [List.mem_singleton.mp hnew]
        exact hlayout
    · have hwaits : ¬s.ring.publishedSequence ≥ sequence :=
        Nat.not_le.mpr hstage.1.unpublished
      rw [publish_of_step hpub ((if_neg hturn).trans (if_neg hwaits)) rfl]
      exact serial_of_others hothers ⟨hlayout, hclaimed⟩ h.layouts h.host h.overflow

end

/-! ## Steps of the host -/

/-- The host leaves alone what the publishers go by. -/
theorem Serial.host_moves (h : Serial bytesPerRow s) {s' : System ρ}
    (hpublisher : s'.publisher = s.publisher) (hpublished : s'.published = s.published)
    (hclaimed : s'.ring.claimedSequence = s.ring.claimedSequence)
    (hsequence : s'.ring.publishedSequence = s.ring.publishedSequence)
    (hoverflow : s'.ring.overflowSequence = s.ring.overflowSequence) (hhost : Sound s'.host) :
    Serial bytesPerRow s' := by
  refine ⟨?_, fun p hp => ?_, ?_, ?_, hhost, hoverflow.trans h.overflow⟩
  · rw [hpublisher]
    exact h.alone
  · rw [hpublisher] at hp ⊢
    have hat := h.undisturbed p hp
    revert hat
    cases s.publisher p <;> simp only [Undisturbed, hclaimed, hsequence, imp_self]
  · rw [hpublisher, hclaimed, hsequence]
    exact h.quiet
  · rw [hpublished]
    exact h.layouts

/-- A host that records no overflow writes its own two counters only. -/
theorem hostStep_ring (expectedSequence bytesPerRow maximumQ : ℕ) (ring : Tp4GraphCommandRing)
    {host : Host} (hsound : Sound host) :
    let next := (hostStep expectedSequence bytesPerRow maximumQ ring host).1
    next.claimedSequence = ring.claimedSequence ∧
      next.publishedSequence = ring.publishedSequence ∧
      next.overflowSequence = ring.overflowSequence := by
  cases host with
  | exchangeOverflow => exact hsound.elim
  | storeOverflow sequence => exact hsound.elim
  | loadQ | copy command field | storeConsumed command | storeCompleted sequence =>
    exact ⟨rfl, rfl, rfl⟩
  | loadOverflow =>
    simp only [hostStep]
    split
    · exact ⟨rfl, rfl, rfl⟩
    · split <;> exact ⟨rfl, rfl, rfl⟩
  | loadPublished | loadSequence | loadPayloadBytes q =>
    simp only [hostStep]
    split <;> exact ⟨rfl, rfl, rfl⟩
  | driving command =>
    simp only [hostStep]
    split
    · exact ⟨rfl, rfl, rfl⟩
    · split <;> exact ⟨rfl, rfl, rfl⟩

/-- The next command has a valid layout, and its number is the next one: the host does not come
to record an overflow. -/
theorem Serial.hostStep_sound (h : Serial bytesPerRow s) (hordered : Ordered claims s) :
    Sound (hostStep (s.graphConsumedSequence + 1) bytesPerRow kTp4GraphAllreduceMaximumQ s.ring
      s.host).2 := by
  have hstage := hordered.hostStage
  have hsound := h.host
  cases hat : s.host <;> rw [hat] at hstage hsound
  case loadOverflow =>
    simp only [hostStep]
    split
    · exact trivial
    · split <;> exact trivial
  case loadPublished | loadSequence =>
    simp only [hostStep]
    split <;> exact trivial
  case loadQ => exact trivial
  case loadPayloadBytes q =>
    obtain ⟨hnext, rfl⟩ := hstage
    have hslot := hordered.nextSlot hnext
    have hmem : (⟨claims (s.ring.consumedSequence + 1), s.ring.consumedSequence + 1⟩ :
        Tp4GraphCommand) ∈ s.published := by
      rw [hordered.log, firstCommands]
      exact List.mem_map.mpr ⟨s.ring.consumedSequence, List.mem_range.mpr hnext.published, rfl⟩
    have hlayout := h.layouts _ hmem
    simp only [hostStep, hslot]
    rw [LayoutValid] at hlayout
    rw [hlayout]
    exact trivial
  case exchangeOverflow => exact hsound.elim
  case copy command field =>
    cases hnext : field.next with
    | some field' =>
      rw [hostStep_copy_next hnext]
      exact trivial
    | none =>
      rw [hostStep_copy_last hnext]
      exact trivial
  case storeConsumed command => exact trivial
  case driving command =>
    obtain ⟨hsequence, hcompleted⟩ := hstage
    have hbound := hordered.bound
    have hconsumed := hordered.consumed_le
    have hpublished := hordered.published_le
    have hmax : kTp4GraphMaximumDoorbellSequence = 2 ^ 54 - 1 := by decide
    simp only [hostStep]
    rw [if_neg (by omega), if_neg (by omega)]
    exact trivial
  case storeCompleted sequence => exact trivial
  case storeOverflow sequence => exact hsound.elim

theorem Serial.progress (h : Serial bytesPerRow s) (hordered : Ordered claims s) :
    Serial bytesPerRow (progress bytesPerRow s) := by
  obtain ⟨hclaimed, hpublished, hoverflow⟩ := hostStep_ring (s.graphConsumedSequence + 1)
    bytesPerRow kTp4GraphAllreduceMaximumQ s.ring h.host
  exact h.host_moves rfl rfl hclaimed hpublished hoverflow (h.hostStep_sound hordered)

/-! ## Runs -/

section
variable [DecidableEq ρ]

theorem recordFirstOverflow_claimed (ring : Tp4GraphCommandRing) (sequence : ℕ) :
    (recordFirstOverflow ring sequence).claimedSequence = ring.claimedSequence := by
  obtain ⟨overflow, heq⟩ := recordFirstOverflow_eq ring sequence
  rw [heq]

theorem publisherStep_claimed_le (ring : Tp4GraphCommandRing) (publisher : Publisher) :
    ring.claimedSequence ≤ (publisherStep ring publisher).1.claimedSequence := by
  cases publisher with
  | idle | fatal | loadClaimed d | fill d sequence field | loadSequence d sequence =>
    exact Nat.le_refl _
  | loadOverflow d =>
    rw [publisherStep]
    split <;> exact Nat.le_refl _
  | loadCompleted d claimed =>
    rw [publisherStep]
    split
    · exact Nat.le_refl _
    · split <;> exact Nat.le_refl _
  | exchangeClaimed d claimed =>
    rw [publisherStep]
    split
    · next heq =>
      rw [heq]
      exact Nat.le_succ _
    · exact Nat.le_refl _
  | exchangeSequence d sequence current =>
    rw [publisherStep]
    split <;> exact Nat.le_refl _
  | exchangePublished d sequence =>
    rw [publisherStep]
    split
    · exact Nat.le_refl _
    · split <;> exact Nat.le_refl _
  | exchangeOverflow sequence => exact Nat.le_of_eq (recordFirstOverflow_claimed ring sequence).symm

theorem hostStep_claimed (expectedSequence bytesPerRow maximumQ : ℕ) (ring : Tp4GraphCommandRing)
    (host : Host) : (hostStep expectedSequence bytesPerRow maximumQ ring host).1.claimedSequence =
      ring.claimedSequence := by
  by_cases hsound : Sound host
  · exact (hostStep_ring _ _ _ ring hsound).1
  · cases host with
    | exchangeOverflow => exact recordFirstOverflow_claimed ring expectedSequence
    | storeOverflow sequence => rfl
    | _ => exact absurd trivial hsound

/-- The sequence numbers only grow. -/
theorem step_claimed_le (s : System ρ) (bytesPerRow : ℕ) (event : Event ρ) :
    s.ring.claimedSequence ≤ (step bytesPerRow s event).ring.claimedSequence := by
  cases event with
  | launch p d =>
    rw [step, launch]
    split <;> exact Nat.le_refl _
  | publish p => exact publisherStep_claimed_le s.ring (s.publisher p)
  | progress => exact Nat.le_of_eq (hostStep_claimed _ _ _ s.ring s.host).symm

theorem Serial.step (h : Serial bytesPerRow s) (hordered : Ordered claims s) {event : Event ρ}
    (hstream : InStream bytesPerRow s event)
    (hroom : s.ring.claimedSequence < kTp4GraphMaximumDoorbellSequence) :
    Serial bytesPerRow (step bytesPerRow s event) := by
  cases event with
  | launch p d =>
    obtain ⟨hidle, hlayout⟩ := hstream
    rw [CommandQueue.step, launch, if_pos (hidle p)]
    exact serial_of_others (fun q _ => hidle q) ⟨hlayout, h.quiet hidle⟩ h.layouts h.host h.overflow
  | publish p => exact h.publish hordered p hroom
  | progress => exact h.progress hordered

/-- A ring that one stream publishes to records no overflow before the sequence numbers run
out. -/
theorem stream_never_overflows (bytesPerRow : ℕ) (events : List (Event ρ))
    (hstream : EveryStep (fun history next => InStream bytesPerRow (run bytesPerRow history) next)
      events) :
    (run bytesPerRow events).ring.overflowSequence = 0 ∨
      (run bytesPerRow events).ring.claimedSequence = kTp4GraphMaximumDoorbellSequence := by
  suffices h : Serial bytesPerRow (run bytesPerRow events) ∨
      (run bytesPerRow events).ring.claimedSequence = kTp4GraphMaximumDoorbellSequence from
    h.imp_left Serial.overflow
  induction events using List.reverseRecOn with
  | nil => exact .inl (serial_initial bytesPerRow)
  | append_singleton events event ih =>
    obtain ⟨hbefore, hlast⟩ := everyStep_concat.mp hstream
    obtain ⟨⟨claims, hordered⟩, -⟩ := run_refines bytesPerRow events
    obtain ⟨claims', hordered'⟩ := (hordered.step bytesPerRow event).1
    have hgrows := step_claimed_le (run bytesPerRow events) bytesPerRow event
    have hbound := hordered'.bound
    rw [run, runFrom_concat]
    by_cases hroom : (run bytesPerRow events).ring.claimedSequence <
        kTp4GraphMaximumDoorbellSequence
    · rcases ih hbefore with h | h
      · exact .inl (h.step hordered hlast hroom)
      · exact absurd h (Nat.ne_of_lt hroom)
    · exact .inr (Nat.le_antisymm hbound ((Nat.le_of_not_lt hroom).trans hgrows))

end

def oneRow : Descriptor := ⟨0, 1, 2, .legacy, 0⟩

/-- Two kernels of a stream, with the host between them: the first command is published,
consumed and completed, and the second one published. -/
def twoKernels : List (Event Bool) :=
  .launch false oneRow :: List.replicate 12 (.publish false) ++ List.replicate 13 .progress ++
    .launch true oneRow :: List.replicate 12 (.publish true)

theorem twoKernels_inStream :
    EveryStep (fun history next => InStream 2 (run 2 history) next) twoKernels := by
  decide +kernel

theorem stream_never_overflows_two_kernels :
    (run 2 twoKernels).ring.publishedSequence = 2 ∧
      (run 2 twoKernels).ring.completedSequence = 1 ∧
      ((run 2 twoKernels).ring.overflowSequence = 0 ∨
        (run 2 twoKernels).ring.claimedSequence = kTp4GraphMaximumDoorbellSequence) :=
  ⟨by decide +kernel, by decide +kernel, stream_never_overflows 2 _ twoKernels_inStream⟩

/-- Two publishers: one is overtaken by a whole command between its two loads. -/
def overtaken : List (Event Bool) :=
  [.launch false oneRow, .launch true oneRow, .publish false, .publish false] ++
    List.replicate 12 (.publish true) ++ List.replicate 13 .progress ++
    [.publish false, .publish false]

example : (run 2 overtaken).ring.overflowSequence = 1 := by decide +kernel

end SparkKit.Tp4.StreamOrder
