import SparkKit.Sched.Running

/-!
# The waiting loop

One turn looks at the head of the queue that is served next: it skips the request for this
step, admits it, starts an asynchronous load for it, or ends the loop.
-/
namespace SparkKit.Sched.Waiting

open SparkKit.Lib.Outcome SparkKit.Sched.Requests SparkKit.Sched.Chunk SparkKit.Sched.StepState
open SparkKit.Sched.Running

/-! ## Blocked requests -/

/-- `_update_waiting_for_remote_kv` -/
def updateWaitingForRemoteKv (s : Scheduler) (id : ReqId) : Scheduler :=
  let r := s.requests id
  let s' :=
    if id ∈ s.failedRecvingKvReqIds then
      { s with failedRecvingKvReqIds := s.failedRecvingKvReqIds.erase id }
    else if r.numComputedTokens = r.numTokens then
      s.setRequest id { r with numComputedTokens := r.numTokens - 1 }
    else s
  { s' with finishedRecvingKvReqIds := s'.finishedRecvingKvReqIds.erase id }

/-- `_try_promote_blocked_waiting_request` -/
def tryPromoteBlockedWaitingRequest (s : Scheduler) (id : ReqId) :
    Except String (Bool × Scheduler) :=
  let r := s.requests id
  match r.status with
  | .waitingForRemoteKvs =>
      if id ∈ s.finishedRecvingKvReqIds then
        let s' := updateWaitingForRemoteKv s id
        let status := if r.numPreemptions > 0 then RequestStatus.preempted else .waiting
        .ok (true, s'.setRequest id { s'.requests id with status := status })
      else .ok (false, s)
  | .waitingForStructuredOutputGrammar =>
      match r.grammar with
      | .absent => .ok (false, s)
      | .failed => .ok (false, { s with grammarCompileErrorReqs := id :: s.grammarCompileErrorReqs })
      | .ready => .ok (true, s.setRequest id { r with status := .waiting })
  | .waitingForStreamingReq =>
      if r.streamingQueue.getD [] ≠ [] then .error "assert not request.streaming_queue"
      else .ok (false, s)
  | _ => .error "Unexpected blocked waiting status in promotion"

/-! ## Computed tokens -/

/-- What is already computed of a request. -/
structure Computed where
  localTokens : ℤ
  externalTokens : ℤ
  numComputedTokens : ℤ
  loadKvAsync : Bool

/-- The local and the external hit reconciled: a longer remote hit replaces the local
sub-block tail, otherwise the tail stays and nothing external is loaded. -/
def reconcileHits (cfg : SchedulerConfig) (localTokens extTokens : ℤ) (loadKvAsync : Bool) :
    ℤ × ℤ × Bool :=
  let partialTail := localTokens % cfg.blockSize
  if partialTail ≠ 0 ∧ extTokens > partialTail then
    (localTokens - partialTail, extTokens, loadKvAsync)
  else if partialTail ≠ 0 then (localTokens, 0, false)
  else (localTokens, extTokens, loadKvAsync)

/-- The prefix lookup of a request without computed tokens: its shared prefix boundary, and
the local and external hit, nothing when the connector does not know yet. -/
def lookupHits (cfg : SchedulerConfig) (env : Env) (tick : ℕ) (id : ReqId) :
    ℤ × Option (ℤ × ℤ × Bool) :=
  if cfg.hasConnector = true then
    let (localTokens, boundary, hitDiverged) := env.getComputedBlocksForConnector tick id
    let aligned := localTokens - localTokens % cfg.blockSize
    match env.getNumNewMatchedTokens (tick + 1) id aligned with
    | (none, _) => (boundary, none)
    | (some extTokens, loadKvAsync) =>
        let (localTokens, externalTokens, loadKvAsync) :=
          reconcileHits cfg localTokens extTokens loadKvAsync
        -- No external tokens back a deeper local hit: take the boundary every group agrees on.
        if hitDiverged = true ∧ externalTokens = 0 then
          let (localTokens, boundary) := env.getComputedBlocks (tick + 2) id
          (boundary, some (localTokens, externalTokens, loadKvAsync))
        else (boundary, some (localTokens, externalTokens, loadKvAsync))
  else
    let (localTokens, boundary) := env.getComputedBlocks tick id
    (boundary, some (localTokens, 0, false))

/-- The state after a lookup. -/
def afterLookup (id : ReqId) (boundary : ℤ) (st : State) : State :=
  { sched := st.sched.setRequest id { st.sched.requests id with sharedPrefixBoundary := boundary }
    led := { st.led with tick := st.led.tick + 4 } }

/-- The computed tokens of a waiting request, or nothing when it is to be skipped. -/
def lookupComputed (cfg : SchedulerConfig) (env : Env) (st : State) (id : ReqId) :
    Except String (Option Computed × State) :=
  let r := st.sched.requests id
  if r.numComputedTokens = 0 then
    let (boundary, hits) := lookupHits cfg env st.led.tick id
    let st' := afterLookup id boundary st
    match hits with
    | none => .ok (none, st')
    | some (localTokens, externalTokens, loadKvAsync) =>
        let computed := localTokens + externalTokens
        if computed > r.numTokens then .error "assert num_computed_tokens <= request.num_tokens"
        else if cfg.hasEcConnector = true ∧ r.mmFeatures ≠ [] ∧
            env.ensureCacheAvailable (st.led.tick + 3) id computed = false then
          .ok (none, st')
        else if r.hasPrefillStats = true ∧ r.numPreemptions = 0 ∧ computed > r.numPromptTokens then
          .error "assert num_computed_tokens <= request.num_prompt_tokens"
        else .ok (some ⟨localTokens, externalTokens, computed, loadKvAsync⟩, st')
  else .ok (some ⟨0, 0, r.numComputedTokens, false⟩, st)

/-! ## Token counts -/

/-- The padding gate: a decode batch without prefills runs at its uniform width. -/
def padsSpecDecode (cfg : SchedulerConfig) (led : Ledger) (n : ℤ) : Bool :=
  cfg.numSpecTokens > 0 && !cfg.hasDynamicSdLookup && cfg.numSampledTokensPerStep > 0 && n = 1 &&
    !led.scheduledRunningReqs.isEmpty && !led.prefillScheduled

/-- The tokens left of a request, padded or not. -/
def paddedTokens (cfg : SchedulerConfig) (led : Ledger) (n : ℤ) : ℤ :=
  if padsSpecDecode cfg led n = true then 1 + (cfg.numSpecTokens : ℤ) else n

/-- The long-prefill threshold, which the decode-aware budget replaces. -/
def thresholdTokens (cfg : SchedulerConfig) (n : ℤ) : ℤ :=
  if cfg.enableDecodeAwarePrefill = false ∧ 0 < cfg.longPrefillTokenThreshold ∧
      cfg.longPrefillTokenThreshold < n then
    cfg.longPrefillTokenThreshold
  else n

/-- The token budget, and the remaining prefill budget. -/
def clampTokens (cfg : SchedulerConfig) (ctx : StepContext) (led : Ledger) (n : ℤ) : ℤ :=
  if cfg.enableDecodeAwarePrefill = true then
    min (min n led.tokenBudget) (remainingPrefillBudget ctx led)
  else min n led.tokenBudget

/-- The tokens of a waiting request before encoder inputs and alignment, and whether it is
padded; nothing when the loop ends here. -/
def waitingTokens (cfg : SchedulerConfig) (ctx : StepContext) (led : Ledger) (r : Request)
    (numComputedTokens : ℤ) : Except String (Option (ℤ × Bool)) :=
  let left := r.numTokens - numComputedTokens
  let pad := padsSpecDecode cfg led left
  let padded := paddedTokens cfg led left
  if pad = true ∧ (padded > led.tokenBudget ∨ numComputedTokens + padded > cfg.maxModelLen) then
    .ok none
  else
    let n := thresholdTokens cfg padded
    if cfg.enableChunkedPrefill = false ∧ n > led.tokenBudget then .ok none
    else if cfg.enableDecodeAwarePrefill = true ∧ remainingPrefillBudget ctx led ≤ 0 then .ok none
    else if clampTokens cfg ctx led n > 0 then .ok (some (clampTokens cfg ctx led n, pad))
    else .error "assert num_new_tokens > 0"

/-- What a turn decides to admit, and whether it is padded. -/
structure Admission where
  plan : Plan
  pad : Bool

/-- The local tokens of an admission after its encoder inputs; nothing ends the loop. -/
def planTokens (cfg : SchedulerConfig) (env : Env) (ctx : StepContext) (led : Ledger)
    (r : Request) (c : Computed) : Except String (Option Admission) := do
  match ← waitingTokens cfg ctx led r c.numComputedTokens with
  | none => return none
  | some (n, pad) =>
      if r.hasEncoderInputs = true then
        let scan ← tryScheduleEncoderInputs cfg env led.tick r c.numComputedTokens n
          led.encoderComputeBudget (if cfg.useEagle = true then 1 else 0)
        if scan.numNewTokens = 0 then return none
        else return some ⟨⟨scan.numNewTokens, scan.inputs, scan.computeBudget, scan.externalLoads,
          scan.tick⟩, pad⟩
      else return some ⟨⟨n, [], led.encoderComputeBudget, [], led.tick⟩, pad⟩

/-- The admission of a request, if any, with its Mamba alignment. -/
def planWaiting (cfg : SchedulerConfig) (env : Env) (ctx : StepContext) (led : Ledger)
    (r : Request) (c : Computed) : Except String (Option Admission) := do
  if c.loadKvAsync = true then
    if c.externalTokens > 0 then
      return some ⟨⟨0, [], led.encoderComputeBudget, [], led.tick⟩, false⟩
    else throw "assert num_external_computed_tokens > 0"
  else if ctx.deferPrefills = true ∧ c.numComputedTokens < r.numTokens - 1 then return none
  else
    match ← planTokens cfg env ctx led r c with
    | none => return none
    | some a =>
        if cfg.needMambaBlockAlignedSplit = true then
          let n := mambaBlockAlignedSplit cfg r a.plan.numNewTokens c.localTokens c.externalTokens
          if n = 0 then return none
          else return some { a with plan := { a.plan with numNewTokens := n } }
        else return some a

/-! ## Turns -/

/-- `request_queue.pop_request(); step_skipped_waiting.prepend_request(request)` -/
def skipWaiting (skipped : Bool) (id : ReqId) (st : State) : State :=
  { sched := popRequest st.sched skipped id
    led := { st.led with stepSkippedWaiting := id :: st.led.stepSkippedWaiting } }

/-- The LoRA of the request would be one too many. -/
def exceedsLoras (cfg : SchedulerConfig) (led : Ledger) (r : Request) : Bool :=
  match cfg.maxLoras, r.loraId with
  | some maxLoras, some lora => led.scheduledLoras.length = maxLoras && lora ∉ led.scheduledLoras
  | _, _ => false

/-- Start an asynchronous load: the request waits for it outside the queue. -/
def startLoad (skipped : Bool) (id : ReqId) (c : Computed) (st : State) : State :=
  let st' := skipWaiting skipped id st
  { st' with sched := st'.sched.setRequest id { st'.sched.requests id with
      status := .waitingForRemoteKvs
      numComputedTokens := c.numComputedTokens } }

/-- Book an admitted request. -/
def admitLedger (cfg : SchedulerConfig) (r : Request) (id : ReqId) (a : Admission)
    (blocks : KVCacheBlocks) (led : Ledger) : Ledger :=
  let n := a.plan.numNewTokens
  { led with
    scheduledNewReqs :=
      if r.status = .waiting then led.scheduledNewReqs ++ [id] else led.scheduledNewReqs
    scheduledResumedReqs :=
      if r.status = .preempted then led.scheduledResumedReqs ++ [id] else led.scheduledResumedReqs
    scheduledLoras :=
      match cfg.maxLoras, r.loraId with
      | some _, some lora => if lora ∈ led.scheduledLoras then led.scheduledLoras
          else led.scheduledLoras ++ [lora]
      | _, _ => led.scheduledLoras
    reqToNewBlocks := led.reqToNewBlocks.insert id blocks
    numScheduledTokens := led.numScheduledTokens.insert id n
    tokenBudget := led.tokenBudget - n
    prefillTokensScheduled :=
      if cfg.enableDecodeAwarePrefill = true then led.prefillTokensScheduled + n
      else led.prefillTokensScheduled
    scheduledSpecDecodeTokens :=
      if a.pad = true then
        led.scheduledSpecDecodeTokens.insert id (List.replicate cfg.numSpecTokens (-1))
      else led.scheduledSpecDecodeTokens
    scheduledEncoderInputs :=
      if a.plan.encoderInputs ≠ [] then led.scheduledEncoderInputs.insert id a.plan.encoderInputs
      else led.scheduledEncoderInputs
    encoderComputeBudget :=
      if a.plan.encoderInputs ≠ [] then a.plan.newEncoderComputeBudget
      else led.encoderComputeBudget }

def admitRequest (cfg : SchedulerConfig) (skipped : Bool) (id : ReqId) (c : Computed) (a : Admission)
    (blocks : KVCacheBlocks) (st : State) : Except String State :=
  let r := st.sched.requests id
  let s := popRequest st.sched skipped id
  let turns := s.longPrefillLastScheduled
  if r.status ≠ .waiting ∧ r.status ≠ .preempted then .error "Invalid request status"
  else
    .ok {
      sched := { s.setRequest id { r with
          status := .running
          numComputedTokens := c.numComputedTokens } with
        running := s.running ++ [id]
        longPrefillLastScheduled :=
          if cfg.enableDecodeAwarePrefill = true ∧ isLongPrefillRequest cfg r = true then
            turns.insert id s.currentStep
          else turns }
      led := admitLedger cfg r id a blocks st.led }

/-- The checks that skip a request for the step, once it is not blocked. -/
def skipsRequest (cfg : SchedulerConfig) (led : Ledger) (r : Request) : Bool :=
  (r.numStaleOutputTokens > 0 && !r.dropStaleOutput) || exceedsLoras cfg led r

/-- The part of a turn after the lookup; the flag is the loop's `break`. -/
def admitTurn (cfg : SchedulerConfig) (env : Env) (ctx : StepContext) (skipped : Bool)
    (id : ReqId) (c : Computed) (st : State) : Except String (State × Bool) := do
  match ← planWaiting cfg env ctx st.led (st.sched.requests id) c with
  | none => return (st, true)
  | some a =>
      let st' : State := { st with led := { st.led with tick := a.plan.tick + 2 } }
      match env.allocateSlots a.plan.tick id a.plan.numNewTokens with
      | none => return (st', true)
      | some _ =>
          if c.loadKvAsync = true then return (startLoad skipped id c st', false)
          else return (← admitRequest cfg skipped id c a (env.getBlocks (a.plan.tick + 1) id) st', false)

/-- The part of a turn for a request that is not blocked. -/
def openTurn (cfg : SchedulerConfig) (env : Env) (ctx : StepContext) (skipped : Bool) (id : ReqId)
    (st : State) : Except String (State × Bool) :=
  if skipsRequest cfg st.led (st.sched.requests id) = true then
    .ok (skipWaiting skipped id st, false)
  else do
    let (computed, st') ← lookupComputed cfg env st id
    match computed with
    | none => return (skipWaiting skipped id st', false)
    | some c => admitTurn cfg env ctx skipped id c st'

/-- One turn; the flag is the loop's `break`. -/
def waitingTurn (cfg : SchedulerConfig) (env : Env) (ctx : StepContext) (skipped : Bool)
    (id : ReqId) (st : State) : Except String (State × Bool) :=
  if st.sched.running.length + st.sched.numWaitingForStreamingInput ≥ cfg.maxNumRunningReqs then
    .ok (st, true)
  else if (st.sched.requests id).status.isBlockedWaiting = true then do
    let (promoted, sched) ← tryPromoteBlockedWaitingRequest st.sched id
    if promoted = true then openTurn cfg env ctx skipped id { st with sched := sched }
    else return (skipWaiting skipped id { st with sched := sched }, false)
  else openTurn cfg env ctx skipped id st

/-- `while (self.waiting or self.skipped_waiting) and token_budget > 0`. Every turn takes a
request out of the queues, so their lengths bound the turns. -/
def waitingLoop (cfg : SchedulerConfig) (env : Env) (ctx : StepContext) :
    ℕ → State → Except String State
  | 0, st => .ok st
  | fuel + 1, st =>
      match selectWaitingQueue cfg st.sched with
      | none => .ok st
      | some (skipped, id) =>
          if st.led.tokenBudget > 0 then do
            let (st', stop) ← waitingTurn cfg env ctx skipped id st
            if stop = true then return st' else waitingLoop cfg env ctx fuel st'
          else .ok st

/-! ## Rules for the loop -/

section
variable {cfg : SchedulerConfig} {env : Env} {ctx : StepContext}

/-- What every turn keeps, the loop keeps. -/
theorem waitingLoop_keeps {P : State → Prop}
    (hturn : ∀ st st' skipped id stop, P st →
      selectWaitingQueue cfg st.sched = some (skipped, id) → 0 < st.led.tokenBudget →
      waitingTurn cfg env ctx skipped id st = .ok (st', stop) → P st')
    {fuel : ℕ} {st st' : State} (hst : P st) (h : waitingLoop cfg env ctx fuel st = .ok st') :
    P st' := by
  induction fuel generalizing st with
  | zero =>
    cases h
    exact hst
  | succ fuel ih =>
    rw [waitingLoop] at h
    split at h
    · cases h
      exact hst
    rename_i hselect
    split at h
    swap
    · cases h
      exact hst
    rename_i hbudget
    obtain ⟨⟨mid, stop⟩, hone, h⟩ := bind_ok h
    have hmid := hturn _ _ _ _ _ hst hselect hbudget hone
    dsimp only at h
    split at h
    · cases h
      exact hmid
    · exact ih hmid h

/-- A counted waiting request gets some tokens, within both budgets. -/
theorem waitingTokens_le {led : Ledger} {r : Request} {computed n : ℤ} {pad : Bool}
    (h : waitingTokens cfg ctx led r computed = .ok (some (n, pad))) :
    0 < n ∧ n ≤ led.tokenBudget ∧
      (cfg.enableDecodeAwarePrefill = true → n ≤ remainingPrefillBudget ctx led) := by
  rw [waitingTokens] at h
  dsimp only at h
  split at h
  · cases h
  split at h
  · cases h
  split at h
  · cases h
  split at h
  swap
  · cases h
  rename_i hpos
  cases h
  refine ⟨hpos, ?_, fun henable => ?_⟩
  · rw [clampTokens]
    split
    · exact (min_le_left _ _).trans (min_le_right _ _)
    · exact min_le_right _ _
  · rw [clampTokens]
    rw [if_pos henable]
    exact min_le_right _ _

/-- A counted waiting request has tokens left to compute. -/
theorem waitingTokens_left {led : Ledger} {r : Request} {computed n : ℤ} {pad : Bool}
    (h : waitingTokens cfg ctx led r computed = .ok (some (n, pad))) : computed < r.numTokens := by
  obtain ⟨hpos, -, -⟩ := waitingTokens_le h
  by_contra hdone
  have hleft : r.numTokens - computed ≤ 0 := by omega
  have hpad : padsSpecDecode cfg led (r.numTokens - computed) = false := by
    have hone : ¬(r.numTokens - computed = 1) := by omega
    simp [padsSpecDecode, hone]
  have hpadded : paddedTokens cfg led (r.numTokens - computed) = r.numTokens - computed := by
    rw [paddedTokens, hpad]
    rfl
  have hthreshold : thresholdTokens cfg (r.numTokens - computed) = r.numTokens - computed :=
    if_neg fun hlong => by omega
  have hclamp : clampTokens cfg ctx led (r.numTokens - computed) ≤ r.numTokens - computed := by
    rw [clampTokens]
    split
    · exact (min_le_left _ _).trans (min_le_left _ _)
    · exact min_le_left _ _
  rw [waitingTokens] at h
  dsimp only at h
  rw [hpadded, hthreshold] at h
  split at h
  · cases h
  split at h
  · cases h
  split at h
  · cases h
  split at h
  · cases h
    omega
  · cases h

/-- What the ledger of a waiting turn can become: the counts stay, or one request is
admitted with tokens that fit. -/
inductive AdmitCases (cfg : SchedulerConfig) (ctx : StepContext) (led : Ledger) :
    Ledger → Prop
  | same (tick : ℕ) (skipped : List ReqId) :
      AdmitCases cfg ctx led { led with tick := tick, stepSkippedWaiting := skipped }
  | admitted {tick : ℕ} {r : Request} {id : ReqId} {a : Admission} {blocks : KVCacheBlocks}
      (hstatus : r.status = .waiting ∨ r.status = .preempted)
      (hpos : 0 < a.plan.numNewTokens)
      (hbudget : a.plan.numNewTokens ≤ led.tokenBudget)
      (hprefill : cfg.enableDecodeAwarePrefill = true →
        a.plan.numNewTokens ≤ remainingPrefillBudget ctx led) :
      AdmitCases cfg ctx led (admitLedger cfg r id a blocks { led with tick := tick })

theorem planTokens_le (hwindow : env.WindowBounded) {led : Ledger} {r : Request} {c : Computed}
    {a : Admission} (h : planTokens cfg env ctx led r c = .ok (some a)) :
    0 < a.plan.numNewTokens ∧ a.plan.numNewTokens ≤ led.tokenBudget ∧
      (cfg.enableDecodeAwarePrefill = true →
        a.plan.numNewTokens ≤ remainingPrefillBudget ctx led) := by
  obtain ⟨counted, htokens, h⟩ := bind_ok h
  cases counted with
  | none => cases h
  | some counted =>
    obtain ⟨hpos, hbudget, hprefill⟩ := waitingTokens_le htokens
    dsimp only at h
    split at h
    · obtain ⟨scan, hscan, h⟩ := bind_ok h
      obtain ⟨hnonneg, hle⟩ := encoder_le hwindow (le_of_lt hpos) hscan
      split at h
      · cases h
      rename_i hne
      cases h
      exact ⟨lt_of_le_of_ne hnonneg (Ne.symm hne), hle.trans hbudget,
        fun henable => hle.trans (hprefill henable)⟩
    · cases h
      exact ⟨hpos, hbudget, hprefill⟩

theorem planWaiting_le (hwindow : env.WindowBounded) {led : Ledger} {r : Request} {c : Computed}
    {a : Admission} (hasync : c.loadKvAsync = false)
    (h : planWaiting cfg env ctx led r c = .ok (some a)) :
    0 < a.plan.numNewTokens ∧ a.plan.numNewTokens ≤ led.tokenBudget ∧
      (cfg.enableDecodeAwarePrefill = true →
        a.plan.numNewTokens ≤ remainingPrefillBudget ctx led) := by
  rw [planWaiting] at h
  rw [if_neg (by simp [hasync])] at h
  split at h
  · cases h
  obtain ⟨planned, hplan, h⟩ := bind_ok h
  cases planned with
  | none => cases h
  | some p =>
    obtain ⟨hpos, hbudget, hprefill⟩ := planTokens_le hwindow hplan
    dsimp only at h
    split at h
    · split at h
      · cases h
      rename_i hne
      cases h
      have halign := mambaBlockAlignedSplit_le cfg r p.plan.numNewTokens c.localTokens
        c.externalTokens
      rw [max_eq_left (le_of_lt hpos)] at halign
      exact ⟨lt_of_le_of_ne (halign.2 (le_of_lt hpos)) (Ne.symm hne), halign.1.trans hbudget,
        fun henable => halign.1.trans (hprefill henable)⟩
    · cases h
      exact ⟨hpos, hbudget, hprefill⟩

/-- A request is only planned with tokens left to compute. -/
theorem planWaiting_left {led : Ledger} {r : Request} {c : Computed} {a : Admission}
    (hasync : c.loadKvAsync = false) (h : planWaiting cfg env ctx led r c = .ok (some a)) :
    c.numComputedTokens < r.numTokens := by
  rw [planWaiting] at h
  rw [if_neg (by simp [hasync])] at h
  split at h
  · cases h
  obtain ⟨planned, hplan, h⟩ := bind_ok h
  cases planned with
  | none => cases h
  | some p =>
    obtain ⟨counted, htokens, hplan⟩ := bind_ok hplan
    cases counted with
    | none => cases hplan
    | some counted => exact waitingTokens_left htokens

/-- An admission takes a waiting or preempted request out of its queue, sets it running and enters
it into the ledger. -/
theorem admitRequest_admits {st st' : State} {skipped : Bool} {id : ReqId} {c : Computed}
    {a : Admission} {blocks : KVCacheBlocks}
    (h : admitRequest cfg skipped id c a blocks st = .ok st') :
    ((st.sched.requests id).status = .waiting ∨ (st.sched.requests id).status = .preempted) ∧
      st' =
        { sched := { (popRequest st.sched skipped id).setRequest id { st.sched.requests id with
              status := .running
              numComputedTokens := c.numComputedTokens } with
            running := (popRequest st.sched skipped id).running ++ [id]
            longPrefillLastScheduled :=
              if cfg.enableDecodeAwarePrefill = true ∧
                  isLongPrefillRequest cfg (st.sched.requests id) = true then
                (popRequest st.sched skipped id).longPrefillLastScheduled.insert id
                  (popRequest st.sched skipped id).currentStep
              else (popRequest st.sched skipped id).longPrefillLastScheduled }
          led := admitLedger cfg (st.sched.requests id) id a blocks st.led } := by
  rw [admitRequest] at h
  dsimp only at h
  split at h
  · cases h
  rename_i hstatus
  cases h
  exact ⟨or_iff_not_and_not.mpr hstatus, rfl⟩

theorem admitTurn_cases (hwindow : env.WindowBounded) {st st' : State} {skipped stop : Bool}
    {id : ReqId} {c : Computed}
    (h : admitTurn cfg env ctx skipped id c st = .ok (st', stop)) :
    AdmitCases cfg ctx st.led st'.led := by
  obtain ⟨planned, hplan, h⟩ := bind_ok h
  cases planned with
  | none =>
    cases h
    exact .same st.led.tick st.led.stepSkippedWaiting
  | some a =>
    dsimp only at h
    split at h
    · cases h
      exact .same _ st.led.stepSkippedWaiting
    split at h
    · cases h
      exact .same _ _
    rename_i hasync
    obtain ⟨final, hadmitted, h⟩ := bind_ok h
    cases h
    obtain ⟨hstatus, rfl⟩ := admitRequest_admits hadmitted
    obtain ⟨hpos, hbudget, hprefill⟩ :=
      planWaiting_le hwindow (Bool.eq_false_iff.mpr hasync) hplan
    exact .admitted hstatus hpos hbudget hprefill

theorem AdmitCases.of_tick {led led' : Ledger} {tick : ℕ}
    (h : AdmitCases cfg ctx { led with tick := tick } led') : AdmitCases cfg ctx led led' := by
  cases h with
  | same tick' skipped => exact .same tick' skipped
  | admitted hstatus hpos hbudget hprefill => exact .admitted hstatus hpos hbudget hprefill

theorem lookupComputed_led {st st' : State} {id : ReqId} {c : Option Computed}
    (h : lookupComputed cfg env st id = .ok (c, st')) :
    ∃ tick, st'.led = { st.led with tick := tick } := by
  rw [lookupComputed] at h
  dsimp only at h
  split at h
  swap
  · cases h
    exact ⟨st.led.tick, rfl⟩
  split at h
  · cases h
    exact ⟨_, rfl⟩
  split at h
  · cases h
  split at h
  · cases h
    exact ⟨_, rfl⟩
  split at h
  · cases h
  · cases h
    exact ⟨_, rfl⟩

theorem openTurn_cases (hwindow : env.WindowBounded) {st st' : State} {skipped stop : Bool}
    {id : ReqId} (h : openTurn cfg env ctx skipped id st = .ok (st', stop)) :
    AdmitCases cfg ctx st.led st'.led := by
  rw [openTurn] at h
  split at h
  · cases h
    exact .same st.led.tick _
  obtain ⟨⟨computed, mid⟩, hlookup, h⟩ := bind_ok h
  obtain ⟨tick, hmid⟩ := lookupComputed_led hlookup
  cases computed with
  | none =>
    cases h
    show AdmitCases cfg ctx st.led { mid.led with stepSkippedWaiting := _ }
    rw [hmid]
    exact .same tick _
  | some c =>
    have hcases := admitTurn_cases hwindow h
    rw [hmid] at hcases
    exact hcases.of_tick

theorem waitingTurn_cases (hwindow : env.WindowBounded) {st st' : State} {skipped stop : Bool}
    {id : ReqId} (h : waitingTurn cfg env ctx skipped id st = .ok (st', stop)) :
    AdmitCases cfg ctx st.led st'.led := by
  rw [waitingTurn] at h
  split at h
  · cases h
    exact .same st.led.tick st.led.stepSkippedWaiting
  split at h
  · obtain ⟨⟨promoted, sched⟩, -, h⟩ := bind_ok h
    dsimp only at h
    split at h
    · have hcases := openTurn_cases hwindow h
      exact hcases
    · cases h
      exact .same st.led.tick _
  · exact openTurn_cases hwindow h

/-! ## The queues shrink -/

/-- The requests in the two queues. -/
def queued (s : Scheduler) : ℕ := s.waiting.length + s.skippedWaiting.length

/-- The request to serve is in its queue. -/
theorem selectWaitingQueue_mem {s : Scheduler} {skipped : Bool} {id : ReqId}
    (h : selectWaitingQueue cfg s = some (skipped, id)) :
    if skipped = true then id ∈ s.skippedWaiting else id ∈ s.waiting := by
  have hpeek : ∀ {queue : List ReqId} {x : ReqId}, cfg.policy = .priority →
      peekRequest cfg s queue = some x → x ∈ queue := by
    intro queue x hpolicy hx
    rw [peekRequest, hpolicy] at hx
    exact List.argmin_mem (Option.mem_def.mpr hx)
  rw [selectWaitingQueue] at h
  cases hpolicy : cfg.policy with
  | fcfs =>
    rw [hpolicy] at h
    dsimp only at h
    split at h
    · rename_i hhead
      cases h
      exact List.mem_of_head? hhead
    · obtain ⟨x, hx, heq⟩ := Option.map_eq_some_iff.mp h
      cases heq
      exact List.mem_of_head? hx
  | priority =>
    rw [hpolicy] at h
    dsimp only at h
    split at h
    · rename_i w k hw hk
      split at h
      · cases h
        exact hpeek hpolicy hw
      · cases h
        exact hpeek hpolicy hk
    · rename_i w hw hk
      cases h
      exact hpeek hpolicy hw
    · rename_i k hw hk
      cases h
      exact hpeek hpolicy hk
    · cases h

theorem popRequest_queued {s : Scheduler} {skipped : Bool} {id : ReqId}
    (h : if skipped = true then id ∈ s.skippedWaiting else id ∈ s.waiting) :
    queued (popRequest s skipped id) + 1 = queued s := by
  cases skipped with
  | true =>
    have hlen := List.length_erase_add_one (show id ∈ s.skippedWaiting from h)
    show s.waiting.length + (s.skippedWaiting.erase id).length + 1 = _
    rw [queued]
    omega
  | false =>
    have hlen := List.length_erase_add_one (show id ∈ s.waiting from h)
    show (s.waiting.erase id).length + s.skippedWaiting.length + 1 = _
    rw [queued]
    omega

/-- Both queues are as before. -/
def SameQueues (s s' : Scheduler) : Prop :=
  s'.waiting = s.waiting ∧ s'.skippedWaiting = s.skippedWaiting

/-- What promotion and lookup may change: the request, which they do not set running. -/
structure Touches (s s' : Scheduler) (id : ReqId) : Prop where
  request : ∃ r, s'.requests = Function.update s.requests id r ∧
    r.numTokens = (s.requests id).numTokens ∧
    r.numOutputPlaceholders = (s.requests id).numOutputPlaceholders ∧
    ((s.requests id).status ≠ .running → r.status ≠ .running)
  running : s'.running = s.running
  queues : SameQueues s s'

theorem Touches.refl (s : Scheduler) (id : ReqId) : Touches s s id :=
  ⟨⟨s.requests id, (Function.update_eq_self id s.requests).symm, rfl, rfl, fun h => h⟩, rfl,
    rfl, rfl⟩

/-- The received request keeps its tokens, and its computed tokens leave one to compute. -/
theorem updateWaitingForRemoteKv_requests (s : Scheduler) (id : ReqId) :
    ∃ computed, (updateWaitingForRemoteKv s id).requests =
        Function.update s.requests id { s.requests id with numComputedTokens := computed } ∧
      (updateWaitingForRemoteKv s id).running = s.running ∧
      SameQueues s (updateWaitingForRemoteKv s id) := by
  have hsame : s.requests = Function.update s.requests id
      { s.requests id with numComputedTokens := (s.requests id).numComputedTokens } :=
    (Function.update_eq_self id s.requests).symm
  rw [updateWaitingForRemoteKv]
  dsimp only
  split
  · exact ⟨_, hsame, rfl, rfl, rfl⟩
  split
  · exact ⟨_, rfl, rfl, rfl, rfl⟩
  · exact ⟨_, hsame, rfl, rfl, rfl⟩

theorem tryPromote_touches {s s' : Scheduler} {id : ReqId} {promoted : Bool}
    (h : tryPromoteBlockedWaitingRequest s id = .ok (promoted, s')) : Touches s s' id := by
  rw [tryPromoteBlockedWaitingRequest] at h
  dsimp only at h
  split at h
  · split at h
    · cases h
      obtain ⟨computed, hrequests, hrunning, hqueues⟩ := updateWaitingForRemoteKv_requests s id
      let status : RequestStatus := if (s.requests id).numPreemptions > 0 then .preempted else .waiting
      have hstatus : status ≠ .running := by
        simp only [status]
        split
        · nofun
        · nofun
      refine ⟨⟨{ s.requests id with numComputedTokens := computed, status := status }, ?_, rfl, rfl,
        fun _ => hstatus⟩, hrunning, hqueues⟩
      show Function.update (updateWaitingForRemoteKv s id).requests id _ = _
      rw [hrequests, Function.update_idem, Function.update_self]
    · cases h
      exact .refl s id
  · split at h
    · cases h
      exact .refl s id
    · cases h
      exact ⟨(Touches.refl s id).request, rfl, rfl, rfl⟩
    · cases h
      exact ⟨⟨_, rfl, rfl, rfl, nofun⟩, rfl, rfl, rfl⟩
  · split at h
    · cases h
    · cases h
      exact .refl s id
  · cases h

theorem lookupComputed_touches {st st' : State} {id : ReqId} {c : Option Computed}
    (h : lookupComputed cfg env st id = .ok (c, st')) : Touches st.sched st'.sched id := by
  have hlooked : ∀ boundary, Touches st.sched (afterLookup id boundary st).sched id :=
    fun _ => ⟨⟨_, rfl, rfl, rfl, fun h => h⟩, rfl, rfl, rfl⟩
  rw [lookupComputed] at h
  dsimp only at h
  split at h
  swap
  · cases h
    exact .refl _ id
  split at h
  · cases h
    exact hlooked _
  split at h
  · cases h
  split at h
  · cases h
    exact hlooked _
  split at h
  · cases h
  · cases h
    exact hlooked _

/-- A turn that does not end the loop takes its request out of its queue. -/
theorem admitTurn_pops {st st' : State} {skipped : Bool} {id : ReqId} {c : Computed}
    (h : admitTurn cfg env ctx skipped id c st = .ok (st', false)) :
    SameQueues (popRequest st.sched skipped id) st'.sched := by
  obtain ⟨planned, hplan, h⟩ := bind_ok h
  cases planned with
  | none => cases h
  | some a =>
    dsimp only at h
    split at h
    · cases h
    split at h
    · cases h
      exact ⟨rfl, rfl⟩
    obtain ⟨final, hadmitted, h⟩ := bind_ok h
    cases h
    obtain ⟨-, rfl⟩ := admitRequest_admits hadmitted
    exact ⟨rfl, rfl⟩

theorem popRequest_sameQueues {s s' : Scheduler} (skipped : Bool) (id : ReqId)
    (h : SameQueues s s') : SameQueues (popRequest s skipped id) (popRequest s' skipped id) := by
  obtain ⟨hwaiting, hskipped⟩ := h
  rw [popRequest, SameQueues]
  cases skipped with
  | true => exact ⟨hwaiting, congrArg (List.erase · id) hskipped⟩
  | false => exact ⟨congrArg (List.erase · id) hwaiting, hskipped⟩

theorem SameQueues.trans {s s' s'' : Scheduler} (h : SameQueues s s') (h' : SameQueues s' s'') :
    SameQueues s s'' :=
  ⟨h'.1.trans h.1, h'.2.trans h.2⟩

theorem openTurn_pops {st st' : State} {skipped : Bool} {id : ReqId}
    (h : openTurn cfg env ctx skipped id st = .ok (st', false)) :
    SameQueues (popRequest st.sched skipped id) st'.sched := by
  rw [openTurn] at h
  split at h
  · cases h
    exact ⟨rfl, rfl⟩
  obtain ⟨⟨computed, mid⟩, hlookup, h⟩ := bind_ok h
  have hsame := popRequest_sameQueues skipped id (lookupComputed_touches hlookup).queues
  cases computed with
  | none =>
    cases h
    exact hsame
  | some c => exact hsame.trans (admitTurn_pops h)

theorem waitingTurn_pops {st st' : State} {skipped : Bool} {id : ReqId}
    (h : waitingTurn cfg env ctx skipped id st = .ok (st', false)) :
    SameQueues (popRequest st.sched skipped id) st'.sched := by
  rw [waitingTurn] at h
  split at h
  · cases h
  split at h
  · obtain ⟨⟨promoted, sched⟩, hpromote, h⟩ := bind_ok h
    have hsame := popRequest_sameQueues skipped id (tryPromote_touches hpromote).queues
    dsimp only at h
    split at h
    · exact hsame.trans (openTurn_pops h)
    · cases h
      exact hsame
  · exact openTurn_pops h

/-- The length of the queues is fuel enough. -/
theorem waitingLoop_fuel {fuel : ℕ} {st : State} (hfuel : queued st.sched ≤ fuel) :
    waitingLoop cfg env ctx (fuel + 1) st = waitingLoop cfg env ctx fuel st := by
  induction fuel generalizing st with
  | zero =>
    rw [waitingLoop, waitingLoop]
    cases hselect : selectWaitingQueue cfg st.sched with
    | none => rfl
    | some next =>
      obtain ⟨skipped, id⟩ := next
      have hpop := popRequest_queued (selectWaitingQueue_mem hselect)
      omega
  | succ fuel ih =>
    rw [waitingLoop, waitingLoop]
    cases hselect : selectWaitingQueue cfg st.sched with
    | none => rfl
    | some next =>
      obtain ⟨skipped, id⟩ := next
      have hpop := popRequest_queued (selectWaitingQueue_mem hselect)
      dsimp only
      by_cases hbudget : st.led.tokenBudget > 0
      · rw [if_pos hbudget, if_pos hbudget]
        cases hturn : waitingTurn cfg env ctx skipped id st with
        | error e => rfl
        | ok out =>
          obtain ⟨mid, stop⟩ := out
          show (if stop = true then _ else _) = (if stop = true then _ else _)
          cases stop with
          | true => rfl
          | false =>
            obtain ⟨hwaiting, hskipped⟩ := waitingTurn_pops hturn
            have hmid : queued mid.sched ≤ fuel := by
              simp only [queued] at hpop hfuel ⊢
              rw [hwaiting, hskipped]
              omega
            exact ih hmid
      · rw [if_neg hbudget, if_neg hbudget]

end

end SparkKit.Sched.Waiting
