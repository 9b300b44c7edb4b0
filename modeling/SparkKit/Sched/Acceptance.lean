import Mathlib.Algebra.BigOperators.Ring.Finset
import SparkKit.Lib.Counters
import SparkKit.Depth.Atomicity
import SparkKit.Sched.Output

/-!
# Counting acceptance

`update_from_output` counts, for every request whose drafts a step verified, how many were
accepted and how far along the drafts it got. The counts go to the acceptance-length
controller; `_record_mtp_instrumentation` counts the same samples again, over a window of
steps. What a closed window's log line derives from its counts is left out.
-/
namespace SparkKit.Sched.Acceptance

open SparkKit.Lib.Counters SparkKit.Depth.Controller
open SparkKit.Sched.Requests SparkKit.Sched.StepState SparkKit.Sched.Output

/-- A sample of `mtp_samples`. -/
structure Sample where
  numDraftTokens : ℤ
  numAccepted : ℤ
  numComputedTokens : ℤ
  numOutputTokens : ℤ

/-! ## Positions -/

structure PositionCounts where
  eligible : List ℤ
  accepted : List ℤ

def PositionCounts.zero (numPositions : ℕ) : PositionCounts :=
  ⟨List.replicate numPositions 0, List.replicate numPositions 0⟩

/-- The loop over `pos in range(1, num_positions + 1)`, from some position on. -/
def countFrom (draft accepted : ℤ) : List ℕ → PositionCounts → PositionCounts
  | [], counts => counts
  | pos :: rest, counts =>
      if draft < pos then counts
      else
        countFrom draft accepted rest
          { eligible :=
              if pos = 1 ∨ accepted ≥ pos - 1 then counts.eligible.modify (pos - 1) (· + 1)
              else counts.eligible
            accepted :=
              if accepted ≥ pos then counts.accepted.modify (pos - 1) (· + 1)
              else counts.accepted }

/-- The whole loop, which stands once in `update_from_output` and once in
`_record_mtp_instrumentation`. -/
def countPositions (numPositions : ℕ) (draft accepted : ℤ) (counts : PositionCounts) :
    PositionCounts :=
  countFrom draft accepted (List.range' 1 numPositions) counts

/-! ## The counts of a step -/

/-- The accumulators of `update_from_output`. -/
structure StepCounts where
  numDrafts : ℤ
  numDraftTokens : ℤ
  numAcceptedTokens : ℤ
  positions : PositionCounts
  mtpSamples : List Sample

def StepCounts.zero (numPositions : ℕ) : StepCounts :=
  { numDrafts := 0, numDraftTokens := 0, numAcceptedTokens := 0
    positions := PositionCounts.zero numPositions, mtpSamples := [] }

/-- A verified request; `adaptive` where there is a controller. -/
def StepCounts.add (adaptive : Bool) (numPositions : ℕ) (counts : StepCounts) (s : Sample) :
    StepCounts :=
  let sampled := { counts with mtpSamples := counts.mtpSamples ++ [s] }
  if adaptive = true then
    { sampled with
      numDrafts := counts.numDrafts + 1
      numDraftTokens := counts.numDraftTokens + s.numDraftTokens
      numAcceptedTokens := counts.numAcceptedTokens + s.numAccepted
      positions := countPositions numPositions s.numDraftTokens s.numAccepted counts.positions }
  else sampled

/-- The arguments of the `observe_batch` call. -/
def StepCounts.batch (counts : StepCounts) : Batch :=
  { numDrafts := counts.numDrafts
    numDraftTokens := counts.numDraftTokens
    numAcceptedTokens := counts.numAcceptedTokens
    positionEligible := some counts.positions.eligible
    positionAccepted := some counts.positions.accepted }

/-- The sample of one turn of the loop, from the state before it: none for a request that is
skipped, whose output is stale or that had no drafts to verify. -/
def turnSample (cfg : SchedulerConfig) (failed : List ReqId) (specs : ReqDict (List ℤ))
    (output : RunnerOutput) (st : OutputState) (entry : Sigma fun _ : ReqId => ℤ) :
    Option Sample :=
  let id := entry.1
  let r := st.sched.requests id
  if id ∈ failed ∨ id ∉ st.sched.active ∨ r.status = .finished ∨ r.numStaleOutputTokens > 0 then
    none
  else
    match output.reqIdToIndex.lookup id with
    | none => none
    | some reqIndex =>
        let generated :=
          if output.sampledTokenIds = [] then [] else output.sampledTokenIds[reqIndex]?.getD []
        let drafts := (specs.lookup id).getD []
        if drafts ≠ [] ∧ (generated ≠ [] ∨ cfg.numSampledTokensPerStep = 0) then
          let numAccepted := max (generated.length - cfg.numSampledTokensPerStep) 0
          some ⟨drafts.length, numAccepted, r.numComputedTokens,
            cfg.numSampledTokensPerStep + numAccepted⟩
        else none

/-! ## The window of the instrumentation -/

/-- The `_mtp_window` fields but the index. -/
structure MtpWindow where
  steps : ℕ
  batches : ℕ
  draftTokens : ℤ
  acceptedTokens : ℤ
  outputTokens : ℤ
  startedNs : ℕ
  contextMin : Option ℤ
  contextMax : Option ℤ
  positions : PositionCounts
  selectedK : AList fun _ : ℕ => ℕ
  activeKFirst : Option ℕ

/-- `_reset_mtp_window` -/
def resetMtpWindow (numPositions : ℕ) : MtpWindow :=
  { steps := 0, batches := 0, draftTokens := 0, acceptedTokens := 0, outputTokens := 0
    startedNs := 0, contextMin := none, contextMax := none
    positions := PositionCounts.zero numPositions
    selectedK := ∅, activeKFirst := none }

/-- One turn of the loop over the samples. -/
def MtpWindow.addSample (numPositions : ℕ) (w : MtpWindow) (s : Sample) : MtpWindow :=
  { w with
    draftTokens := w.draftTokens + s.numDraftTokens
    acceptedTokens := w.acceptedTokens + s.numAccepted
    outputTokens := w.outputTokens + s.numOutputTokens
    contextMin := some ((w.contextMin.map (min · s.numComputedTokens)).getD s.numComputedTokens)
    contextMax := some ((w.contextMax.map (max · s.numComputedTokens)).getD s.numComputedTokens)
    positions := countPositions numPositions s.numDraftTokens s.numAccepted w.positions }

/-- `if samples:` -/
def MtpWindow.addSamples (numPositions now : ℕ) (w : MtpWindow) (samples : List Sample) :
    MtpWindow :=
  if samples = [] then w
  else
    samples.foldl (MtpWindow.addSample numPositions)
      { w with
        startedNs := if w.startedNs = 0 then now else w.startedNs
        batches := w.batches + samples.length }

/-- A `dict` that counts. -/
def increment (counts : AList fun _ : ℕ => ℕ) (key : ℕ) : AList fun _ : ℕ => ℕ :=
  counts.insert key ((counts.lookup key).getD 0 + 1)

structure MtpInstrumentation where
  enabled : Bool
  windowSteps : ℕ
  numPositions : ℕ
  windowIndex : ℕ
  selectedKRun : AList fun _ : ℕ => ℕ
  window : MtpWindow

/-- What a log line is made of: the closed window, its index and the step that closed it. -/
structure MtpRecord where
  windowIndex : ℕ
  window : MtpWindow
  selectedKRun : AList fun _ : ℕ => ℕ
  activeK : ℕ
  update : Option Update

/-- `_record_mtp_instrumentation` -/
def recordMtpInstrumentation (now : ℕ) (inst : MtpInstrumentation) (samples : List Sample)
    (update : Option Update) (activeNumSpecTokens : ℕ) : MtpInstrumentation × Option MtpRecord :=
  if inst.enabled = false then (inst, none)
  else
    let window := MtpWindow.addSamples inst.numPositions now
      { inst.window with
        steps := inst.window.steps + 1
        activeKFirst := some (inst.window.activeKFirst.getD activeNumSpecTokens)
        selectedK := increment inst.window.selectedK activeNumSpecTokens } samples
    let inst :=
      { inst with
        selectedKRun := increment inst.selectedKRun activeNumSpecTokens
        window := window }
    if window.steps < inst.windowSteps then (inst, none)
    else
      ({ inst with
          windowIndex := inst.windowIndex + 1
          window := resetMtpWindow inst.numPositions },
        some ⟨inst.windowIndex, window, inst.selectedKRun, activeNumSpecTokens, update⟩)

/-! ## What the loop counts -/

/-- The drafts of a sample go past the position, and all before it were accepted. -/
def Sample.Reaches (s : Sample) (pos : ℕ) : Prop :=
  (pos : ℤ) < s.numDraftTokens ∧ (pos = 0 ∨ (pos : ℤ) ≤ s.numAccepted)

/-- The draft at the position was accepted. -/
def Sample.Passes (s : Sample) (pos : ℕ) : Prop :=
  (pos : ℤ) < s.numDraftTokens ∧ (pos : ℤ) < s.numAccepted

instance (s : Sample) (pos : ℕ) : Decidable (s.Reaches pos) :=
  inferInstanceAs (Decidable (_ ∧ _))

instance (s : Sample) (pos : ℕ) : Decidable (s.Passes pos) :=
  inferInstanceAs (Decidable (_ ∧ _))

/-- A sample as rejection sampling leaves it. -/
structure Sample.Verified (numPositions : ℕ) (s : Sample) : Prop where
  nonneg : 0 ≤ s.numAccepted
  accepted : s.numAccepted ≤ s.numDraftTokens
  drafted : s.numDraftTokens ≤ numPositions

/-- As many counters as positions. -/
structure PositionCounts.Sized (numPositions : ℕ) (counts : PositionCounts) : Prop where
  eligible : counts.eligible.length = numPositions
  accepted : counts.accepted.length = numPositions

/-- The counts with those of some samples on top. -/
def PositionCounts.count (counts : PositionCounts) (samples : List Sample) : PositionCounts :=
  { eligible := raise counts.eligible fun pos => (samples.countP fun s => s.Reaches pos : ℕ)
    accepted := raise counts.accepted fun pos => (samples.countP fun s => s.Passes pos : ℕ) }

section
variable {numPositions : ℕ} {counts : PositionCounts}

theorem sized_zero (numPositions : ℕ) : (PositionCounts.zero numPositions).Sized numPositions :=
  ⟨List.length_replicate, List.length_replicate⟩

theorem PositionCounts.Sized.count (h : counts.Sized numPositions) (samples : List Sample) :
    (counts.count samples).Sized numPositions :=
  ⟨(length_raise ..).trans h.eligible, (length_raise ..).trans h.accepted⟩

/-- The loop from position `i` on hits what the sample reaches and passes there. -/
theorem countFrom_eq (draft accepted : ℤ) (n i : ℕ) (counts : PositionCounts) :
    countFrom draft accepted (List.range' (i + 1) n) counts =
      { eligible := raise counts.eligible fun pos =>
          if i ≤ pos ∧ pos < i + n ∧ (pos : ℤ) < draft ∧ (pos = 0 ∨ (pos : ℤ) ≤ accepted) then 1
          else 0
        accepted := raise counts.accepted fun pos =>
          if i ≤ pos ∧ pos < i + n ∧ (pos : ℤ) < draft ∧ (pos : ℤ) < accepted then 1 else 0 } := by
  induction n generalizing i counts with
  | zero =>
    rw [raise_of_zero fun pos => if_neg (by omega), raise_of_zero fun pos => if_neg (by omega)]
    rfl
  | succ n ih =>
    rw [List.range'_succ, countFrom]
    split
    · -- the break: no later position is drafted either
      rw [raise_of_zero fun pos => if_neg (by omega), raise_of_zero fun pos => if_neg (by omega)]
    · rw [Nat.add_sub_cancel, ite_modify_eq_raise, ite_modify_eq_raise, ih, raise_raise, raise_raise]
      -- position `i` now, the later ones in the rest of the loop
      congr 2 <;>
      · funext pos
        split_ifs <;> omega

/-- One sample raises what it reaches and what it passes. -/
theorem countPositions_eq (s : Sample) (h : counts.Sized numPositions) :
    countPositions numPositions s.numDraftTokens s.numAccepted counts =
      { eligible := raise counts.eligible fun pos => if s.Reaches pos then 1 else 0
        accepted := raise counts.accepted fun pos => if s.Passes pos then 1 else 0 } := by
  rw [countPositions, countFrom_eq]
  congr 1
  · refine raise_congr fun pos hpos => ?_
    rw [h.eligible] at hpos
    exact if_congr (by rw [Sample.Reaches]; omega) rfl rfl
  · refine raise_congr fun pos hpos => ?_
    rw [h.accepted] at hpos
    exact if_congr (by rw [Sample.Passes]; omega) rfl rfl

theorem count_cons (s : Sample) (samples : List Sample) (h : counts.Sized numPositions) :
    (countPositions numPositions s.numDraftTokens s.numAccepted counts).count samples =
      counts.count (s :: samples) := by
  rw [countPositions_eq s h, PositionCounts.count, raise_countP_cons, raise_countP_cons]
  rfl

theorem count_nil (counts : PositionCounts) : counts.count [] = counts :=
  congrArg₂ PositionCounts.mk (raise_of_zero fun _ => rfl) (raise_of_zero fun _ => rfl)

theorem PositionCounts.Sized.countPositions (h : counts.Sized numPositions) (s : Sample) :
    (countPositions numPositions s.numDraftTokens s.numAccepted counts).Sized numPositions := by
  rw [countPositions_eq s h]
  exact ⟨(length_raise ..).trans h.eligible, (length_raise ..).trans h.accepted⟩

theorem add_samples (adaptive : Bool) (numPositions : ℕ) (counts : StepCounts) (s : Sample) :
    (counts.add adaptive numPositions s).mtpSamples = counts.mtpSamples ++ [s] := by
  rw [StepCounts.add]
  split
  · rfl
  · rfl

/-- The accumulators after the samples of a step, with a controller. -/
theorem foldl_add (samples : List Sample) {counts : StepCounts}
    (h : counts.positions.Sized numPositions) :
    samples.foldl (StepCounts.add true numPositions) counts =
      { numDrafts := counts.numDrafts + samples.length
        numDraftTokens := counts.numDraftTokens + (samples.map (·.numDraftTokens)).sum
        numAcceptedTokens := counts.numAcceptedTokens + (samples.map (·.numAccepted)).sum
        positions := counts.positions.count samples
        mtpSamples := counts.mtpSamples ++ samples } := by
  induction samples generalizing counts with
  | nil =>
    simp only [List.foldl_nil, List.length_nil, Nat.cast_zero, List.map_nil, List.sum_nil, add_zero,
      count_nil, List.append_nil]
  | cons s samples ih =>
    have hstep : StepCounts.add true numPositions counts s =
        { numDrafts := counts.numDrafts + 1
          numDraftTokens := counts.numDraftTokens + s.numDraftTokens
          numAcceptedTokens := counts.numAcceptedTokens + s.numAccepted
          positions := countPositions numPositions s.numDraftTokens s.numAccepted counts.positions
          mtpSamples := counts.mtpSamples ++ [s] } := rfl
    rw [List.foldl_cons, hstep, ih (h.countPositions s)]
    simp only [count_cons s samples h, List.length_cons, List.map_cons, List.sum_cons,
      List.append_assoc, List.singleton_append, Nat.cast_succ, add_assoc, add_comm (1 : ℤ)]

theorem foldl_addSample (samples : List Sample) {w : MtpWindow}
    (h : w.positions.Sized numPositions) :
    (samples.foldl (MtpWindow.addSample numPositions) w).positions = w.positions.count samples ∧
      (samples.foldl (MtpWindow.addSample numPositions) w).draftTokens =
        w.draftTokens + (samples.map (·.numDraftTokens)).sum ∧
      (samples.foldl (MtpWindow.addSample numPositions) w).acceptedTokens =
        w.acceptedTokens + (samples.map (·.numAccepted)).sum := by
  induction samples generalizing w with
  | nil => exact ⟨(count_nil _).symm, (add_zero _).symm, (add_zero _).symm⟩
  | cons s samples ih =>
    obtain ⟨hpositions, hdrafts, haccepted⟩ := ih (w := w.addSample numPositions s)
      (h.countPositions s)
    rw [List.foldl_cons, hpositions, hdrafts, haccepted, List.map_cons, List.map_cons,
      List.sum_cons, List.sum_cons, ← add_assoc, ← add_assoc]
    exact ⟨count_cons s samples h, rfl, rfl⟩

/-- What `update_from_output` has counted after the samples of a step. -/
def stepCounts (numPositions : ℕ) (samples : List Sample) : StepCounts :=
  samples.foldl (StepCounts.add true numPositions) (StepCounts.zero numPositions)

theorem stepCounts_eq (numPositions : ℕ) (samples : List Sample) :
    stepCounts numPositions samples =
      { numDrafts := samples.length
        numDraftTokens := (samples.map (·.numDraftTokens)).sum
        numAcceptedTokens := (samples.map (·.numAccepted)).sum
        positions := (PositionCounts.zero numPositions).count samples
        mtpSamples := samples } := by
  rw [stepCounts, foldl_add samples (sized_zero numPositions)]
  simp only [StepCounts.zero, zero_add, List.nil_append]

theorem addSamples_eq (now : ℕ) (samples : List Sample) {w : MtpWindow}
    (h : w.positions.Sized numPositions) :
    (w.addSamples numPositions now samples).positions = w.positions.count samples ∧
      (w.addSamples numPositions now samples).draftTokens =
        w.draftTokens + (samples.map (·.numDraftTokens)).sum ∧
      (w.addSamples numPositions now samples).acceptedTokens =
        w.acceptedTokens + (samples.map (·.numAccepted)).sum := by
  rw [MtpWindow.addSamples]
  split
  · next hnone =>
    subst hnone
    exact ⟨(count_nil _).symm, (add_zero _).symm, (add_zero _).symm⟩
  · exact foldl_addSample samples h

theorem addSamples_sized (now : ℕ) (samples : List Sample) {w : MtpWindow}
    (h : w.positions.Sized numPositions) :
    (w.addSamples numPositions now samples).positions.Sized numPositions := by
  rw [(addSamples_eq now samples h).1]
  exact h.count samples

/-- The window a call accumulates into: the one it closes, or else the open one. -/
def recordedWindow (recorded : MtpInstrumentation × Option MtpRecord) : MtpWindow :=
  (recorded.2.map MtpRecord.window).getD recorded.1.window

theorem recordMtpInstrumentation_counts {inst : MtpInstrumentation} (henabled : inst.enabled = true)
    (h : inst.window.positions.Sized inst.numPositions) (now : ℕ) (samples : List Sample)
    (update : Option Update) (activeNumSpecTokens : ℕ) :
    (recordedWindow (recordMtpInstrumentation now inst samples update activeNumSpecTokens)).positions =
        inst.window.positions.count samples ∧
      (recordedWindow
          (recordMtpInstrumentation now inst samples update activeNumSpecTokens)).acceptedTokens =
        inst.window.acceptedTokens + (samples.map (·.numAccepted)).sum := by
  obtain ⟨hpositions, -, haccepted⟩ := addSamples_eq (w := { inst.window with
    steps := inst.window.steps + 1
    activeKFirst := some (inst.window.activeKFirst.getD activeNumSpecTokens)
    selectedK := increment inst.window.selectedK activeNumSpecTokens }) now samples h
  rw [recordMtpInstrumentation, if_neg (by rw [henabled]; decide)]
  dsimp only
  split
  · exact ⟨hpositions, haccepted⟩
  · exact ⟨hpositions, haccepted⟩

/-- A call keeps as many counters as positions. -/
theorem recordMtpInstrumentation_sized {inst : MtpInstrumentation}
    (h : inst.window.positions.Sized inst.numPositions) (now : ℕ) (samples : List Sample)
    (update : Option Update) (activeNumSpecTokens : ℕ) :
    (recordMtpInstrumentation now inst samples update activeNumSpecTokens).1.numPositions =
        inst.numPositions ∧
      (recordMtpInstrumentation now inst samples update
        activeNumSpecTokens).1.window.positions.Sized inst.numPositions := by
  rw [recordMtpInstrumentation]
  split
  · exact ⟨rfl, h⟩
  · dsimp only
    split
    · exact ⟨rfl, addSamples_sized now samples h⟩
    · exact ⟨rfl, sized_zero _⟩

/-! ## Coherence -/

/-- Counts with other counts added, position by position. -/
def PositionCounts.plus (counts added : PositionCounts) : PositionCounts :=
  { eligible := raise counts.eligible (added.eligible.getD · 0)
    accepted := raise counts.accepted (added.accepted.getD · 0) }

/-- Counting on top of some counts is adding what is counted from zero. -/
theorem plus_count (samples : List Sample) (h : counts.Sized numPositions) :
    counts.plus ((PositionCounts.zero numPositions).count samples) = counts.count samples := by
  have hzero : ∀ (amount : ℕ → ℤ), ∀ pos < numPositions,
      (raise (List.replicate numPositions 0) amount).getD pos 0 = amount pos := by
    intro amount pos hpos
    rw [getD_raise (by rwa [List.length_replicate]), List.getD_replicate _ hpos, zero_add]
  refine congrArg₂ PositionCounts.mk (raise_congr fun pos hpos => ?_) (raise_congr fun pos hpos => ?_)
  · exact hzero _ pos (h.eligible ▸ hpos)
  · exact hzero _ pos (h.accepted ▸ hpos)

/-- What the counts of a step's samples satisfy, and that the instrumentation counts the same. -/
structure Coherent (numPositions : ℕ) (samples : List Sample) : Prop where
  recorded : ∀ now inst update activeNumSpecTokens, inst.enabled = true →
    inst.numPositions = numPositions → inst.window.positions.Sized numPositions →
    (recordedWindow (recordMtpInstrumentation now inst samples update activeNumSpecTokens)).positions =
      inst.window.positions.plus (stepCounts numPositions samples).positions
  equal : ∀ now inst update activeNumSpecTokens, inst.enabled = true →
    inst.numPositions = numPositions → inst.window = resetMtpWindow numPositions →
    (recordedWindow (recordMtpInstrumentation now inst samples update activeNumSpecTokens)).positions =
        (stepCounts numPositions samples).positions ∧
      (recordedWindow
          (recordMtpInstrumentation now inst samples update activeNumSpecTokens)).acceptedTokens =
        (stepCounts numPositions samples).numAcceptedTokens
  accepted_le : ∀ pos < numPositions,
    (stepCounts numPositions samples).positions.accepted.getD pos 0 ≤
      (stepCounts numPositions samples).positions.eligible.getD pos 0
  eligible_le : ∀ pos, pos + 1 < numPositions →
    (stepCounts numPositions samples).positions.eligible.getD (pos + 1) 0 ≤
      (stepCounts numPositions samples).positions.accepted.getD pos 0
  sum_accepted : (stepCounts numPositions samples).positions.accepted.sum =
    (stepCounts numPositions samples).numAcceptedTokens

variable {samples : List Sample}

/-- The counters of a step are how many samples reach and pass each position. -/
theorem getD_count_zero {pos : ℕ} (hpos : pos < numPositions) (samples : List Sample) :
    ((PositionCounts.zero numPositions).count samples).eligible.getD pos 0 =
        (samples.countP fun s => s.Reaches pos : ℕ) ∧
      ((PositionCounts.zero numPositions).count samples).accepted.getD pos 0 =
        (samples.countP fun s => s.Passes pos : ℕ) := by
  have hlt : pos < (List.replicate numPositions (0 : ℤ)).length := by rwa [List.length_replicate]
  constructor
  · exact (getD_raise hlt _).trans (by rw [List.getD_replicate _ hpos, zero_add])
  · exact (getD_raise hlt _).trans (by rw [List.getD_replicate _ hpos, zero_add])

/-- An accepted draft was reached. -/
theorem countP_passes_le (samples : List Sample) (pos : ℕ) :
    (samples.countP fun s => s.Passes pos) ≤ samples.countP fun s => s.Reaches pos := by
  refine List.countP_mono_left fun s _ h => ?_
  have h := of_decide_eq_true h
  exact decide_eq_true ⟨h.1, .inr h.2.le⟩

/-- A draft is reached past an accepted one. -/
theorem countP_reaches_le (samples : List Sample) (pos : ℕ) :
    (samples.countP fun s => s.Reaches (pos + 1)) ≤ samples.countP fun s => s.Passes pos := by
  refine List.countP_mono_left fun s _ h => ?_
  obtain ⟨hdraft, haccepted⟩ := of_decide_eq_true h
  exact decide_eq_true ⟨by omega, by omega⟩

/-- Every accepted draft is accepted at one position. -/
theorem sum_countP_passes (h : ∀ s ∈ samples, s.Verified numPositions) :
    ((List.range numPositions).map fun pos => samples.countP fun s => s.Passes pos).sum =
      (samples.map fun s => s.numAccepted.toNat).sum := by
  rw [← sum_countP_lt (fun s : Sample => s.numAccepted.toNat) fun s hs => ?_]
  · refine congrArg List.sum (List.map_congr_left fun pos _ => List.countP_congr fun s hs => ?_)
    have haccepted := (h s hs).accepted
    rw [decide_eq_true_eq, decide_eq_true_eq, Sample.Passes]
    omega
  · have haccepted := (h s hs).accepted
    have hdrafted := (h s hs).drafted
    omega

theorem coherent (h : ∀ s ∈ samples, s.Verified numPositions) : Coherent numPositions samples := by
  refine ⟨fun now inst update active henabled hsize hsized => ?_,
    fun now inst update active henabled hsize hreset => ?_, fun pos hpos => ?_,
    fun pos hpos => ?_, ?_⟩
  · rw [(recordMtpInstrumentation_counts henabled (hsize ▸ hsized) ..).1, stepCounts_eq,
      plus_count samples hsized]
  · have hzero : inst.window.positions = PositionCounts.zero inst.numPositions := by
      rw [hreset, hsize]
      rfl
    obtain ⟨hpositions, haccepted⟩ := recordMtpInstrumentation_counts henabled
      (hzero ▸ sized_zero inst.numPositions) now samples update active
    rw [hpositions, haccepted, stepCounts_eq, hreset]
    exact ⟨rfl, zero_add _⟩
  · rw [stepCounts_eq, (getD_count_zero hpos samples).1, (getD_count_zero hpos samples).2]
    exact_mod_cast countP_passes_le samples pos
  · rw [stepCounts_eq, (getD_count_zero hpos samples).1,
      (getD_count_zero (Nat.lt_of_succ_lt hpos) samples).2]
    exact_mod_cast countP_reaches_le samples pos
  · have haccepted : (samples.map (·.numAccepted)).sum =
        ((samples.map fun s => s.numAccepted.toNat).sum : ℕ) := by
      rw [Nat.cast_list_sum, List.map_map]
      refine congrArg List.sum (List.map_congr_left fun s hs => ?_)
      exact (Int.toNat_of_nonneg (h s hs).nonneg).symm
    rw [stepCounts_eq, haccepted, ← sum_countP_passes h, Nat.cast_list_sum, List.map_map]
    exact congrArg List.sum (raise_replicate ..)

end

end SparkKit.Sched.Acceptance
