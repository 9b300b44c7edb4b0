import SparkKit.Lib.History
import SparkKit.Sched.Acceptance
import SparkKit.Sched.SkippedOutput

/-!
# Acceptance over a run

Every call of `update_from_output` shows the acceptance-length controller what its loop
counted, then the instrumentation its samples. A run is the list of these calls, each with the
scheduler it finds: what is scheduled in between is left open.
-/
namespace SparkKit.Sched.AcceptanceRun

open SparkKit.Lib.Outcome SparkKit.Lib.History SparkKit.Lib.Counters
open SparkKit.Graphs.DepthLadder SparkKit.Depth.Controller SparkKit.Depth.Invariant
open SparkKit.Depth.Atomicity
open SparkKit.Sched.Requests SparkKit.Sched.StepState SparkKit.Sched.Schedule SparkKit.Sched.Output
open SparkKit.Sched.Acceptance SparkKit.Sched.SkippedOutput

/-! ## Construction -/

/-- What watches acceptance in the scheduler. -/
structure AdaptiveState where
  controller : Option LengthController
  instrumentation : MtpInstrumentation

/-- `_mtp_num_positions` -/
def mtpNumPositions (cfg : SchedulerConfig) : ℕ := max 1 cfg.numSpecTokens

/-- The controller, where an observation window is configured. -/
def initAcceptanceLengthController (cfg : SchedulerConfig) (observationWindow : Option ℤ)
    (depths : LadderTokens) : Except String (Option LengthController) :=
  match observationWindow with
  | none => .ok none
  | some window => do
      let ladder ← parseAdaptiveSpecDepthLadder cfg.numSpecTokens depths
      let c ← initController cfg.numSpecTokens window (ladder.map fun depth : ℕ => (depth : ℤ))
      return some c

/-- These parts of `__init__`. `enabled` and `windowSteps` are read from the environment; no
list is longer than `2 ^ 63 - 1`. -/
def initAdaptive (cfg : SchedulerConfig) (observationWindow : Option ℤ) (depths : LadderTokens)
    (enabled : Bool) (windowSteps : ℤ) : Except String AdaptiveState := do
  let controller ← initAcceptanceLengthController cfg observationWindow depths
  if mtpNumPositions cfg ≥ 2 ^ 63 then .error "cannot fit 'int' into an index-sized integer"
  else
    return {
      controller := controller
      instrumentation :=
        { enabled := enabled
          windowSteps := (max 1 windowSteps).toNat
          numPositions := mtpNumPositions cfg
          windowIndex := 0
          selectedKRun := ∅
          window := resetMtpWindow (mtpNumPositions cfg) } }

/-! ## A call -/

/-- The arguments of a call of `update_from_output`, its answers from other components, and the
scheduler it finds. -/
structure OutputCall where
  env : OutputEnv
  failed : List ReqId
  numScheduledTokens : ReqDict ℤ
  scheduledSpecDecodeTokens : ReqDict (List ℤ)
  numSpecTokensToSchedule : ℕ
  output : RunnerOutput
  sched : Scheduler
  /-- `time.monotonic_ns()` -/
  now : ℕ

section
variable (cfg : SchedulerConfig) (fl : ℚ → ℚ)

/-- One turn of the loop over `num_scheduled_tokens`, with what it counts. -/
def outputTurn (adaptive : Bool) (call : OutputCall) (st : OutputState × StepCounts)
    (entry : Sigma fun _ : ReqId => ℤ) : Except String (OutputState × StepCounts) := do
  let next ← processOutput cfg call.env call.failed call.scheduledSpecDecodeTokens call.output
    st.1 entry
  match turnSample cfg call.failed call.scheduledSpecDecodeTokens call.output st.1 entry with
  | none => .ok (next, st.2)
  | some s => .ok (next, st.2.add adaptive (mtpNumPositions cfg) s)

def outputLoop (adaptive : Bool) (call : OutputCall) : Except String (OutputState × StepCounts) :=
  call.numScheduledTokens.entries.foldlM (outputTurn cfg adaptive call)
    (⟨call.sched, [], []⟩, StepCounts.zero (mtpNumPositions cfg))

/-- The `observe_batch` call, where there is a controller. -/
def AdaptiveState.observe (a : AdaptiveState) (batch : Batch) :
    AdaptiveState × Except String (Option Update) :=
  match a.controller with
  | none => (a, .ok none)
  | some c =>
      let (c, update) := observeBatchOrRaise fl c batch
      ({ a with controller := some c }, update)

/-- `active_num_spec_tokens` -/
def activeNumSpecTokens (call : OutputCall) : ℕ :=
  if call.numSpecTokensToSchedule ≠ 0 then call.numSpecTokensToSchedule else cfg.numSpecTokens

/-- What is left of `update_from_output` once acceptance is recorded. -/
def finishOutput (call : OutputCall) (st : OutputState) : Scheduler :=
  let s := removeStopped st
  let errors := s.grammarCompileErrorReqs ++
    if call.env.recomputeKvLoadFailures = true then [] else call.failed
  errors.foldl (finishRequest call.env) { s with grammarCompileErrorReqs := [] }

/-- `update_from_output`: what watches acceptance afterwards, also when the call raises. -/
def updateFromOutput (a : AdaptiveState) (call : OutputCall) :
    AdaptiveState × Except String Scheduler :=
  match outputLoop cfg a.controller.isSome call with
  | .error message => (a, .error message)
  | .ok (st, counts) =>
      match a.observe fl counts.batch with
      | (a, .error message) => (a, .error message)
      | (a, .ok update) =>
          ({ a with
              instrumentation := (recordMtpInstrumentation call.now a.instrumentation
                counts.mtpSamples update (activeNumSpecTokens cfg call)).1 },
            .ok (finishOutput call st))

/-- The state after some calls. -/
def afterCalls (start : AdaptiveState) (calls : List OutputCall) : AdaptiveState :=
  runFrom (fun a call => (updateFromOutput cfg fl a call).1) start calls

end

/-! ## What the loop counts -/

section
variable {cfg : SchedulerConfig} {fl : ℚ → ℚ} {call : OutputCall}

/-- The counters of the loop are those of its samples. -/
theorem outputLoop_counts {adaptive : Bool} {st : OutputState} {counts : StepCounts}
    (h : outputLoop cfg adaptive call = .ok (st, counts)) :
    counts = counts.mtpSamples.foldl (StepCounts.add adaptive (mtpNumPositions cfg))
      (StepCounts.zero (mtpNumPositions cfg)) := by
  refine foldlM_ok (I := fun _ st => st.2 = st.2.mtpSamples.foldl
    (StepCounts.add adaptive (mtpNumPositions cfg)) (StepCounts.zero (mtpNumPositions cfg)))
    rfl (fun done entry st st' _ hst hturn => ?_) h
  obtain ⟨next, -, hturn⟩ := bind_ok hturn
  split at hturn
  · cases hturn
    exact hst
  · next s _ =>
    cases hturn
    rw [add_samples, List.foldl_append, ← hst]
    rfl

/-- Counting aside, the loop is that of the scheduler. -/
theorem outputLoop_sched (cfg : SchedulerConfig) (adaptive : Bool) (call : OutputCall) :
    (outputLoop cfg adaptive call).map Prod.fst =
      call.numScheduledTokens.entries.foldlM
        (processOutput cfg call.env call.failed call.scheduledSpecDecodeTokens call.output)
        ⟨call.sched, [], []⟩ := by
  refine foldlM_map (fun st entry => ?_) _ _
  rw [outputTurn]
  cases processOutput cfg call.env call.failed call.scheduledSpecDecodeTokens call.output st.1
    entry with
  | error message => rfl
  | ok next =>
    cases turnSample cfg call.failed call.scheduledSpecDecodeTokens call.output st.1 entry with
    | none => rfl
    | some s => rfl

/-- Where `observe_batch` returns, acceptance changes nothing of what a call does. -/
theorem updateFromOutput_eq {a : AdaptiveState}
    (h : ∀ c ∈ a.controller, ∀ st counts, outputLoop cfg true call = .ok (st, counts) →
      ∃ update, (observeBatchOrRaise fl c counts.batch).2 = .ok update) :
    (updateFromOutput cfg fl a call).2 =
      Output.updateFromOutput cfg call.env call.failed call.numScheduledTokens
        call.scheduledSpecDecodeTokens call.output call.sched := by
  rw [updateFromOutput, Output.updateFromOutput,
    ← outputLoop_sched cfg a.controller.isSome call]
  cases hloop : outputLoop cfg a.controller.isSome call with
  | error message => rfl
  | ok looped =>
    obtain ⟨st, counts⟩ := looped
    dsimp only
    rw [AdaptiveState.observe]
    cases hcontroller : a.controller with
    | none => rfl
    | some c =>
      rw [hcontroller] at hloop
      obtain ⟨update, hupdate⟩ := h c hcontroller st counts hloop
      dsimp only
      rw [hupdate]
      rfl

/-! ## Counts in order -/

/-- The samples a loop collects are verified ones. -/
def VerifiesSamples (cfg : SchedulerConfig) (call : OutputCall) : Prop :=
  ∀ st counts, outputLoop cfg true call = .ok (st, counts) →
    ∀ s ∈ counts.mtpSamples, s.Verified (mtpNumPositions cfg)

/-- What a step counts over verified samples is in order. -/
theorem stepCounts_ordered {numPositions : ℕ} {samples : List Sample}
    (h : ∀ s ∈ samples, s.Verified numPositions) :
    OrderedBatch numPositions (stepCounts numPositions samples).batch := by
  refine ⟨rfl, rfl, ?_⟩
  rw [stepCounts_eq]
  have hsized := (sized_zero numPositions).count samples
  refine ⟨Int.natCast_nonneg _, List.sum_nonneg fun x hx => ?_,
    List.sum_le_sum fun s hs => (h s hs).accepted, ?_, hsized.eligible, hsized.accepted,
    fun pos => ?_⟩
  · obtain ⟨s, hs, rfl⟩ := List.mem_map.mp hx
    exact (h s hs).nonneg
  · have hle := List.sum_le_card_nsmul (samples.map (·.numDraftTokens)) (numPositions : ℤ)
      fun x hx => by
        obtain ⟨s, hs, rfl⟩ := List.mem_map.mp hx
        exact (h s hs).drafted
    rwa [List.length_map, nsmul_eq_mul] at hle
  · simp only [StepCounts.batch, Option.getD_some]
    rcases Nat.lt_or_ge pos numPositions with hlt | hge
    · rw [(getD_count_zero hlt samples).1, (getD_count_zero hlt samples).2]
      have hpasses := countP_passes_le samples pos
      have hlength := samples.countP_le_length (p := fun s => decide (s.Passes pos))
      omega
    · rw [List.getD_eq_default _ _ (hsized.eligible.trans_le hge),
        List.getD_eq_default _ _ (hsized.accepted.trans_le hge)]
      exact ⟨le_refl 0, le_refl 0, Int.natCast_nonneg _⟩

/-! ## The run -/

/-- The counters of the controller are in order, and there are as many as the instrumentation
has. -/
structure Tracked (cfg : SchedulerConfig) (a : AdaptiveState) : Prop where
  bounded : mtpNumPositions cfg < 2 ^ 63
  positions : a.instrumentation.numPositions = mtpNumPositions cfg
  sized : a.instrumentation.window.positions.Sized (mtpNumPositions cfg)
  sound : ∀ c ∈ a.controller, Sound c ∧ c.maxNumSpecTokens = mtpNumPositions cfg

theorem initController_sound {maxNumSpecTokens observationWindow : ℤ} {depthLadder : List ℤ}
    {c : LengthController}
    (h : initController maxNumSpecTokens observationWindow depthLadder = .ok c) : Sound c := by
  rw [initController_reset h]
  exact resetWindow_sound _

theorem initAdaptive_tracked {observationWindow : Option ℤ} {depths : LadderTokens} {enabled : Bool}
    {windowSteps : ℤ} {start : AdaptiveState}
    (h : initAdaptive cfg observationWindow depths enabled windowSteps = .ok start) :
    Tracked cfg start := by
  obtain ⟨controller, hcontroller, h⟩ := bind_ok h
  split at h
  · cases h
  next hbounded =>
    cases h
    refine ⟨not_le.mp hbounded, rfl, sized_zero _, fun c hc => ?_⟩
    obtain rfl : controller = some c := hc
    cases observationWindow with
    | none => cases hcontroller
    | some window =>
      obtain ⟨ladder, -, hcontroller⟩ := bind_ok hcontroller
      obtain ⟨c', hinit, hcontroller⟩ := bind_ok hcontroller
      cases hcontroller
      obtain ⟨hmax, -, hpositions, -⟩ := initController_ok hinit
      refine ⟨initController_sound hinit, ?_⟩
      rw [hpositions, Int.toNat_natCast, mtpNumPositions]
      omega

/-- The instrumentation keeps its number of positions. -/
theorem Tracked.records {a : AdaptiveState} (h : Tracked cfg a) (now : ℕ) (samples : List Sample)
    (update : Option Update) (active : ℕ) :
    Tracked cfg { a with
      instrumentation :=
        (recordMtpInstrumentation now a.instrumentation samples update active).1 } := by
  obtain ⟨hpositions, hsized⟩ := recordMtpInstrumentation_sized (h.positions ▸ h.sized) now samples
    update active
  exact ⟨h.bounded, hpositions.trans h.positions, h.positions ▸ hsized, h.sound⟩

/-- With a controller: the counts of the loop are coherent and are those recorded, they pass the
checks, and `observe_batch` returns. -/
structure Settles (fl : ℚ → ℚ) (numPositions : ℕ) (c : LengthController) (inst : MtpInstrumentation)
    (counts : StepCounts) : Prop where
  counted : counts = stepCounts numPositions counts.mtpSamples
  coherent : Coherent numPositions counts.mtpSamples
  recorded : inst.enabled = true → ∀ now update active,
    (recordedWindow (recordMtpInstrumentation now inst counts.mtpSamples update active)).positions =
      inst.window.positions.plus counts.positions
  checks : PassesChecks c counts.batch
  returns : ∃ update, (observeBatchOrRaise fl c counts.batch).2 = .ok update

section
variable {a : AdaptiveState} {c : LengthController} {st : OutputState} {counts : StepCounts}

theorem loop_ordered (hverified : VerifiesSamples cfg call)
    (hloop : outputLoop cfg true call = .ok (st, counts)) :
    OrderedBatch (mtpNumPositions cfg) counts.batch := by
  rw [outputLoop_counts hloop]
  exact stepCounts_ordered (hverified st counts hloop)

theorem Tracked.settles (h : Tracked cfg a) (hc : c ∈ a.controller)
    (hverified : VerifiesSamples cfg call) (hloop : outputLoop cfg true call = .ok (st, counts)) :
    Settles fl (mtpNumPositions cfg) c a.instrumentation counts := by
  have hcounts : counts = stepCounts (mtpNumPositions cfg) counts.mtpSamples :=
    outputLoop_counts hloop
  have hcoherent := coherent (hverified st counts hloop)
  obtain ⟨hsound, hpositions⟩ := h.sound c hc
  have hordered := hpositions ▸ loop_ordered hverified hloop
  obtain ⟨c', update, hobserves, -⟩ := hsound.observes fl (hpositions ▸ h.bounded) hordered
  refine ⟨hcounts, hcoherent, fun henabled now update active => ?_, hordered.passesChecks,
    update, congrArg Prod.snd hobserves⟩
  rw [hcoherent.recorded now _ update active henabled h.positions h.sized, ← hcounts]

/-- A call keeps the counters in order, whatever its loop raises. -/
theorem Tracked.updates (h : Tracked cfg a) (hverified : VerifiesSamples cfg call) :
    Tracked cfg (updateFromOutput cfg fl a call).1 := by
  rw [updateFromOutput]
  cases hloop : outputLoop cfg a.controller.isSome call with
  | error message => exact h
  | ok looped =>
    obtain ⟨st, counts⟩ := looped
    dsimp only
    rw [AdaptiveState.observe]
    cases hcontroller : a.controller with
    | none => exact h.records ..
    | some c =>
      rw [hcontroller] at hloop
      obtain ⟨hsound, hpositions⟩ := h.sound c hcontroller
      have hordered := hpositions ▸ loop_ordered hverified hloop
      obtain ⟨c', update, hobserves, hsound', hpositions'⟩ :=
        hsound.observes fl (hpositions ▸ h.bounded) hordered
      have hnext : Tracked cfg { a with controller := some c' } := by
        refine ⟨h.bounded, h.positions, h.sized, fun c hc => ?_⟩
        cases hc
        exact ⟨hsound', hpositions'.trans hpositions⟩
      dsimp only
      rw [hobserves]
      exact hnext.records ..

end

/-- Verified samples keep the counters in order over a run. -/
theorem afterCalls_tracked {start : AdaptiveState} (hstart : Tracked cfg start)
    {calls : List OutputCall} (hverified : ∀ call ∈ calls, VerifiesSamples cfg call) :
    Tracked cfg (afterCalls cfg fl start calls) := by
  rw [afterCalls]
  induction calls using List.reverseRecOn with
  | nil => exact hstart
  | append_singleton calls call ih =>
    rw [List.forall_mem_append, List.forall_mem_singleton] at hverified
    rw [runFrom_concat]
    exact (ih hverified.1).updates hverified.2

/-! ## Where verified samples come from -/

/-- No request is scheduled more drafts than the configured number, and none gets back more
tokens than its drafts and those sampled beside them. -/
structure RunnerBounded (cfg : SchedulerConfig) (call : OutputCall) : Prop where
  drafted : ∀ id, ((call.scheduledSpecDecodeTokens.lookup id).getD []).length ≤ cfg.numSpecTokens
  returned : ∀ id reqIndex, call.output.reqIdToIndex.lookup id = some reqIndex →
    ((call.output.sampledTokenIds[reqIndex]?.getD []).length : ℤ) ≤
      ((call.scheduledSpecDecodeTokens.lookup id).getD []).length + cfg.numSampledTokensPerStep

theorem turnSample_verified (h : RunnerBounded cfg call) {st : OutputState}
    {entry : Sigma fun _ : ReqId => ℤ} {s : Sample}
    (hsample : turnSample cfg call.failed call.scheduledSpecDecodeTokens call.output st entry =
      some s) : s.Verified (mtpNumPositions cfg) := by
  have hdrafted := h.drafted entry.1
  rw [turnSample] at hsample
  dsimp only at hsample
  split at hsample
  · cases hsample
  split at hsample
  · cases hsample
  next reqIndex hindex =>
    have hreturned := h.returned entry.1 reqIndex hindex
    have hgenerated : (if call.output.sampledTokenIds = [] then []
        else call.output.sampledTokenIds[reqIndex]?.getD []) =
          call.output.sampledTokenIds[reqIndex]?.getD [] := by
      split
      · next hnone =>
        rw [hnone]
        rfl
      · rfl
    rw [hgenerated] at hsample
    split at hsample
    · cases hsample
      have hdraft : ((call.scheduledSpecDecodeTokens.lookup entry.1).getD []).length ≤
          mtpNumPositions cfg := hdrafted.trans (le_max_right ..)
      refine ⟨le_max_right _ _, max_le ?_ (Int.natCast_nonneg _), ?_⟩
      · exact sub_le_iff_le_add.mpr hreturned
      · exact Int.ofNat_le.mpr hdraft
    · cases hsample

theorem RunnerBounded.verifies (h : RunnerBounded cfg call) : VerifiesSamples cfg call := by
  intro st counts hloop
  refine foldlM_ok (I := fun _ st => ∀ s ∈ st.2.mtpSamples, s.Verified (mtpNumPositions cfg))
    (fun s hs => absurd hs List.not_mem_nil) (fun done entry st st' _ hst hturn => ?_) hloop
  obtain ⟨next, -, hturn⟩ := bind_ok hturn
  split at hturn
  · cases hturn
    exact hst
  · next s hsample =>
    cases hturn
    rw [add_samples]
    exact List.forall_mem_append.mpr
      ⟨hst, List.forall_mem_singleton.mpr (turnSample_verified h hsample)⟩

/-! ## Runs -/

/-- What a run counts is coherent, and no call of it sees `observe_batch` raise: for any verified
samples, and at every call of every run in which the samples are verified ones. -/
theorem acceptance_counts_coherent (cfg : SchedulerConfig) (fl : ℚ → ℚ)
    {observationWindow : Option ℤ} {depths : LadderTokens} {enabled : Bool} {windowSteps : ℤ}
    {start : AdaptiveState}
    (hinit : initAdaptive cfg observationWindow depths enabled windowSteps = .ok start)
    (calls : List OutputCall) (hverified : ∀ call ∈ calls, VerifiesSamples cfg call) :
    (∀ numPositions samples, (∀ s ∈ samples, s.Verified numPositions) →
        Coherent numPositions samples) ∧
      EveryStep (fun history call => ∀ c ∈ (afterCalls cfg fl start history).controller,
        ∀ st counts, outputLoop cfg true call = .ok (st, counts) →
          Settles fl (mtpNumPositions cfg) c (afterCalls cfg fl start history).instrumentation
            counts) calls := by
  refine ⟨fun _ _ => coherent, ?_⟩
  intro history call hupto c hc st counts hloop
  have hcalls : ∀ call' ∈ history ++ [call], VerifiesSamples cfg call' :=
    fun call' hcall => hverified call' (hupto.subset hcall)
  rw [List.forall_mem_append, List.forall_mem_singleton] at hcalls
  exact (afterCalls_tracked (initAdaptive_tracked hinit) hcalls.1).settles hc hcalls.2 hloop

/-- Two requests with drafts: one of two is accepted, and one of one. -/
def draftedCall (tokens : ℤ) (now : ℕ) : OutputCall where
  env := smallOutputEnv
  failed := []
  numScheduledTokens := AList.insert 0 3 (AList.singleton 1 2)
  scheduledSpecDecodeTokens := AList.insert 0 [7, 8] (AList.singleton 1 [5])
  numSpecTokensToSchedule := 2
  output := ⟨AList.insert 0 0 (AList.singleton 1 1), [[7, 9], [5, 6]]⟩
  sched := smallScheduler [smallRequest 0 1 tokens (tokens + 2) [], smallRequest 1 2 20 21 []]
  now := now

theorem draftedCall_loop (tokens : ℤ) (now : ℕ) :
    ∃ st counts, outputLoop smallConfig true (draftedCall tokens now) = .ok (st, counts) ∧
      counts.batch = ⟨2, 3, 2, some [2, 1, 0], some [2, 0, 0]⟩ := ⟨_, _, rfl, rfl⟩

theorem draftedCall_bounded (tokens : ℤ) (now : ℕ) :
    RunnerBounded smallConfig (draftedCall tokens now) := by
  constructor
  · intro id
    match id with
    | 0 => exact show 2 ≤ 3 by decide
    | 1 => exact show 1 ≤ 3 by decide
    | id + 2 => exact Nat.zero_le _
  · intro id reqIndex hindex
    match id with
    | 0 =>
      cases hindex
      exact show (2 : ℤ) ≤ 2 + 1 by decide
    | 1 =>
      cases hindex
      exact show (2 : ℤ) ≤ 1 + 1 by decide
    | id + 2 => cases hindex

/-- The second of two calls; the controller has one batch in its window already. -/
theorem acceptance_counts_coherent_drafted :
    ∃ start c st counts, initAdaptive smallConfig (some 2) [some 2, some 3] true 32 = .ok start ∧
      c ∈ (afterCalls smallConfig id start [draftedCall 9 1]).controller ∧
      outputLoop smallConfig true (draftedCall 11 2) = .ok (st, counts) ∧
      counts.batch = ⟨2, 3, 2, some [2, 1, 0], some [2, 0, 0]⟩ ∧
      Coherent 3 counts.mtpSamples ∧
      Settles id 3 c (afterCalls smallConfig id start [draftedCall 9 1]).instrumentation counts := by
  obtain ⟨st, counts, hloop, hbatch⟩ := draftedCall_loop 11 2
  have hfirst := (draftedCall_bounded 9 1).verifies
  have hverified := (draftedCall_bounded 11 2).verifies
  have hcalls : ∀ call ∈ [draftedCall 9 1, draftedCall 11 2], VerifiesSamples smallConfig call :=
    List.forall_mem_cons.mpr ⟨hfirst, List.forall_mem_singleton.mpr hverified⟩
  obtain ⟨hcoherent, hsettles⟩ := acceptance_counts_coherent smallConfig id
    (show initAdaptive smallConfig (some 2) [some 2, some 3] true 32 = .ok _ from rfl) _ hcalls
  have hsecond := hsettles [draftedCall 9 1] (draftedCall 11 2) (List.prefix_refl _)
  exact ⟨_, _, st, counts, rfl, rfl, hloop, hbatch, hcoherent 3 _ (hverified st counts hloop),
    hsecond _ rfl _ _ hloop⟩

end

end SparkKit.Sched.AcceptanceRun
