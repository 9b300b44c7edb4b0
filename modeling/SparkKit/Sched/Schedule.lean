import SparkKit.Sched.Waiting
import Mathlib.Data.List.TakeWhile

/-!
# A scheduling step

`schedule` sets up the budgets and the turns, runs the two loops, checks the constraints and
picks the speculative depth; `_update_after_schedule` then advances the scheduled requests.
-/
namespace SparkKit.Sched.Schedule

open SparkKit.Sched.Requests SparkKit.Sched.StepState SparkKit.Sched.Running SparkKit.Sched.Waiting

/-- Some running request is decoding. -/
def hasActiveDecode (s : Scheduler) : Bool := s.running.any fun id => !(s.requests id).isPrefillChunk

/-- `token_budget` at the start of a step -/
def initialTokenBudget (cfg : SchedulerConfig) (s : Scheduler) : ℤ :=
  if s.pauseState = .pausedAll then 0 else cfg.maxNumScheduledTokens

/-- The configured prefill budget of the step. -/
def configuredPrefillBudget (cfg : SchedulerConfig) (s : Scheduler) : ℤ :=
  if hasActiveDecode s = true then cfg.decodePrefillTokenBudget else cfg.idlePrefillTokenBudget

/-- `prefill_token_budget` -/
def prefillTokenBudget (cfg : SchedulerConfig) (s : Scheduler) : ℤ :=
  if cfg.enableDecodeAwarePrefill = true then
    min (configuredPrefillBudget cfg s) cfg.maxNumScheduledTokens
  else initialTokenBudget cfg s

/-- The scheduler as the loops see it: the step counted, and stale turns dropped. -/
def beginStep (cfg : SchedulerConfig) (s : Scheduler) : Scheduler :=
  let s := { s with currentStep := s.currentStep + 1 }
  if cfg.enableDecodeAwarePrefill = true then pruneTurns s else s

def stepContext (cfg : SchedulerConfig) (throttlePrefills : Bool) (s : Scheduler) : StepContext where
  deferPrefills := throttlePrefills && !s.prefillCapacityBound && hasActiveDecode s
  prefillTokenBudget := prefillTokenBudget cfg s
  selectedLongPrefillIds :=
    if cfg.enableDecodeAwarePrefill = true then selectLongPrefillRequestIds cfg (beginStep cfg s)
    else []

def initialLedger (cfg : SchedulerConfig) (s : Scheduler) : Ledger where
  tokenBudget := initialTokenBudget cfg s
  prefillTokensScheduled := 0
  encoderComputeBudget := cfg.maxNumEncoderInputTokens
  prefillScheduled := false
  reqIndex := 0
  gateSkippedRunning := 0
  scheduledNewReqs := []
  scheduledResumedReqs := []
  scheduledRunningReqs := []
  preemptedReqs := []
  reqToNewBlocks := ∅
  numScheduledTokens := ∅
  scheduledSpecDecodeTokens := ∅
  scheduledEncoderInputs := ∅
  scheduledLoras := []
  stepSkippedWaiting := []
  tick := 0

def initialState (cfg : SchedulerConfig) (s : Scheduler) : State := ⟨beginStep cfg s, initialLedger cfg s⟩

/-- The first half of the step: the RUNNING requests. -/
def scheduleRunning (cfg : SchedulerConfig) (env : Env) (throttlePrefills : Bool) (s : Scheduler) :
    Except String State :=
  runningLoop cfg env (stepContext cfg throttlePrefills s) s.running.length (initialState cfg s)

/-- The LoRAs in `scheduled_running_reqs`. -/
def runningLoras (cfg : SchedulerConfig) (st : State) : List ℕ :=
  if cfg.maxLoras.isSome = true then
    (st.led.scheduledRunningReqs.filterMap fun id =>
      (st.sched.requests id).loraId.filter (0 < ·)).dedup
  else []

/-- `extendleft` of the skipped requests, and the record of a saturated release. -/
def requeueSkipped (ctx : StepContext) (st : State) : State :=
  let s := { st.sched with
    skippedWaiting := st.led.stepSkippedWaiting.reverse ++ st.sched.skippedWaiting }
  { st with sched :=
      if ctx.deferPrefills = true then s else { s with prefillCapacityBound := !s.waiting.isEmpty } }

/-- The second half of the step: the WAITING requests, unless some request was preempted. -/
def scheduleWaiting (cfg : SchedulerConfig) (env : Env) (ctx : StepContext) (st : State) :
    Except String State :=
  let loras := runningLoras cfg st
  let st : State := { st with led := { st.led with scheduledLoras := loras } }
  if loras.length > cfg.maxLoras.getD loras.length then
    .error "assert len(scheduled_loras) <= self.lora_config.max_loras"
  else if st.led.preemptedReqs = [] ∧ st.sched.pauseState = .unpaused then do
    let st' ← waitingLoop cfg env ctx (st.sched.waiting.length + st.sched.skippedWaiting.length) st
    return requeueSkipped ctx st'
  else .ok st

/-- The assertions after the loops. -/
def constraintsHold (cfg : SchedulerConfig) (st : State) : Bool :=
  (st.led.numScheduledTokens.entries.map Sigma.snd).sum ≤ cfg.maxNumScheduledTokens &&
    st.led.tokenBudget ≥ 0 && st.sched.running.length ≤ cfg.maxNumRunningReqs &&
    st.led.scheduledNewReqs.length + st.led.scheduledResumedReqs.length +
      st.led.scheduledRunningReqs.length ≤ st.sched.running.length

/-- `schedule`, up to what it hands to the workers: the scheduler with the turns aged, and
the ledger of the step. -/
def schedule (cfg : SchedulerConfig) (env : Env) (throttlePrefills : Bool) (s : Scheduler) :
    Except String State := do
  let ctx := stepContext cfg throttlePrefills s
  let running ← scheduleRunning cfg env throttlePrefills s
  let st ← scheduleWaiting cfg env ctx running
  if constraintsHold cfg st = true then
    return { st with
      sched := debitUnusedLongPrefillTurns cfg ctx st.led.numScheduledTokens st.sched }
  else throw "scheduling constraints"

/-- `_update_after_schedule` -/
def updateAfterSchedule (st : State) : Scheduler :=
  st.led.numScheduledTokens.entries.foldl (fun s entry =>
    let r := s.requests entry.1
    let computed := r.numComputedTokens + entry.2
    s.setRequest entry.1 { r with
      numComputedTokens := computed
      numInFlightTokens := r.numInFlightTokens + entry.2
      isPrefillChunk := computed < r.numTokens + r.numOutputPlaceholders })
    { st.sched with resetPreemptedReqIds := [] }

/-! ## After a step -/

/-- What `_update_after_schedule` makes of a request booked for `n` tokens. -/
def bookRequest (r : Request) (n : ℤ) : Request :=
  { r with
    numComputedTokens := r.numComputedTokens + n
    numInFlightTokens := r.numInFlightTokens + n
    isPrefillChunk := r.numComputedTokens + n < r.numTokens + r.numOutputPlaceholders }

/-- The booked requests count their tokens once, the others stay. -/
theorem foldl_bookRequest {entries : List (Sigma fun _ : ReqId => ℤ)} (hnodup : entries.NodupKeys)
    (s : Scheduler) (id : ReqId) :
    (entries.foldl (fun s e => s.setRequest e.1 (bookRequest (s.requests e.1) e.2)) s).requests id =
      ((entries.dlookup id).map (bookRequest (s.requests id))).getD (s.requests id) := by
  induction entries generalizing s with
  | nil => rfl
  | cons entry entries ih =>
    obtain ⟨x, n⟩ := entry
    obtain ⟨hfresh, hnodup⟩ := List.nodupKeys_cons.mp hnodup
    rw [List.foldl_cons, ih hnodup]
    by_cases hid : id = x
    · subst hid
      rw [List.dlookup_eq_none.mpr hfresh, List.dlookup_cons_eq, setRequest_self]
      rfl
    · rw [List.dlookup_cons_ne _ _ hid, setRequest_of_ne _ _ hid]

theorem updateAfterSchedule_requests (st : State) (id : ReqId) :
    (updateAfterSchedule st).requests id =
      ((st.led.numScheduledTokens.lookup id).map (bookRequest (st.sched.requests id))).getD
        (st.sched.requests id) :=
  foldl_bookRequest st.led.numScheduledTokens.nodupKeys
    { st.sched with resetPreemptedReqIds := [] } id

theorem updateAfterSchedule_frame (st : State) :
    updateAfterSchedule st = { st.sched with
      requests := (updateAfterSchedule st).requests
      resetPreemptedReqIds := [] } := by
  rw [updateAfterSchedule]
  generalize hstart : ({ st.sched with resetPreemptedReqIds := [] } : Scheduler) = s
  have hframe : s = { st.sched with requests := s.requests, resetPreemptedReqIds := [] } := by
    rw [← hstart]
  clear hstart
  induction st.led.numScheduledTokens.entries generalizing s with
  | nil => exact hframe
  | cons entry entries ih =>
    rw [List.foldl_cons]
    refine ih _ ?_
    rw [hframe]
    rfl

/-! ## The start of a step -/

/-- The start of a step counts it and drops turns. -/
theorem beginStep_eq (cfg : SchedulerConfig) (s : Scheduler) :
    ∃ turns, beginStep cfg s =
      { s with currentStep := s.currentStep + 1, longPrefillLastScheduled := turns } := by
  unfold beginStep
  dsimp only
  split
  · exact ⟨_, rfl⟩
  · exact ⟨s.longPrefillLastScheduled, rfl⟩

/-- The budget of a step is not negative. -/
theorem prefillTokenBudget_nonneg {cfg : SchedulerConfig}
    (henable : cfg.enableDecodeAwarePrefill = true) (s : Scheduler) :
    0 ≤ prefillTokenBudget cfg s := by
  have hdecode := cfg.decodePrefillTokenBudget_pos
  have hidle := cfg.idlePrefillTokenBudget_pos
  unfold prefillTokenBudget configuredPrefillBudget
  rw [if_pos henable]
  refine le_min ?_ cfg.maxNumScheduledTokens_nonneg
  split
  · omega
  · omega

/-! ## Small steps -/

def smallConfig : SchedulerConfig where
  policy := .priority
  maxNumRunningReqs := 8
  maxNumScheduledTokens := 32
  maxModelLen := 128
  maxNumEncoderInputTokens := 32
  enableDecodeAwarePrefill := true
  decodePrefillTokenBudget := 16
  idlePrefillTokenBudget := 24
  maxLongPrefillsPerStep := 1
  longPrefillTokenThreshold := 64
  enableChunkedPrefill := true
  disableChunkedMmInput := false
  numSampledTokensPerStep := 1
  numSpecTokens := 3
  hasDynamicSdLookup := false
  useEagle := true
  isEncoderDecoder := false
  needMambaBlockAlignedSplit := false
  mambaPartialCacheHit := false
  cacheBlockSize := 4
  hashBlockSize := 4
  blockSize := 4
  maxLoras := none
  hasConnector := false
  hasEcConnector := false
  requiresKvDelivery := false
  maxNumScheduledTokens_nonneg := by decide
  numSampledTokensPerStep_le := by decide
  cacheBlockSize_pos := by decide
  decodePrefillTokenBudget_pos := by decide
  idlePrefillTokenBudget_pos := by decide
  maxLongPrefillsPerStep_pos := by decide

/-- A running request with `prompt` tokens, `computed` of them done. -/
def smallRequest (id : ReqId) (priority prompt computed : ℤ) (spec : List ℤ) : Request where
  requestId := id
  priority := priority
  arrivalTime := id
  status := .running
  numPromptTokens := prompt
  numTokens := prompt
  maxTokens := 16
  specTokenIds := spec
  numOutputPlaceholders := 0
  numComputedTokens := computed
  isPrefillChunk := computed + 1 < prompt
  nextDecodeEligibleStep := 0
  mmFeatures := []
  loraId := none
  numInFlightTokens := 0
  numStaleOutputTokens := 0
  dropStaleOutput := false
  sharedPrefixBoundary := 0
  numPreemptions := 0
  hasPrefillStats := false
  grammar := .absent
  resumable := false
  streamingQueue := none

/-- The scheduler with these requests running, under the ids `0`, `1`, ... -/
def smallScheduler (requests : List Request) : Scheduler where
  requests := fun id => requests.getD id (smallRequest id 0 1 0 [])
  running := List.range requests.length
  waiting := []
  skippedWaiting := []
  active := List.range requests.length
  longPrefillLastScheduled := ∅
  longPrefillGateSkips := 0
  longPrefillWastedTurns := 0
  currentStep := 0
  prefillCapacityBound := false
  pauseState := .unpaused
  numWaitingForStreamingInput := 0
  finishedRecvingKvReqIds := []
  failedRecvingKvReqIds := []
  grammarCompileErrorReqs := []
  resetPreemptedReqIds := []

/-- Components that always have room, except for the call `full`. -/
def smallEnv (full : Option ℕ) : Env where
  allocateSlots := fun tick id _ => if full = some tick then none else some [id]
  getBlocks := fun _ id => [id]
  getComputedBlocks := fun _ _ => (0, 0)
  getComputedBlocksForConnector := fun _ _ => (0, 0, false)
  getNumNewMatchedTokens := fun _ _ _ => (some 0, false)
  ensureCacheAvailable := fun _ _ _ => true
  getMmFeaturesInWindow := fun features _ stop =>
    (0, (features.takeWhile fun f => f.offset < stop).length)
  checkAndUpdateCache := fun _ _ _ => false
  canAllocate := fun _ _ _ _ _ => true
  getEmbedsIndicesInRange := fun _ start stop => (start, stop)
  hasCacheItem := fun _ _ => false

theorem smallEnv_windowBounded (full : Option ℕ) : (smallEnv full).WindowBounded := by
  intro features start stop i f hi hf
  obtain ⟨hlt, rfl⟩ := List.getElem?_eq_some_iff.mp hf
  have hi : i < (features.takeWhile fun f => f.offset < stop).length := hi
  have hprefix := List.takeWhile_prefix (l := features) fun f : MmFeature => decide (f.offset < stop)
  rw [← hprefix.getElem hi]
  exact of_decide_eq_true (List.mem_takeWhile_imp
    (p := fun f : MmFeature => decide (f.offset < stop)) (List.getElem_mem hi))

end SparkKit.Sched.Schedule
