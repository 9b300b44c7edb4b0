import SparkKit.Lib.Outcome
import SparkKit.Sched.StepState

/-!
# The output of a step

`update_from_output` takes what the model runner returned for the requests a step scheduled. It
settles their counters, appends the generated tokens and removes who stopped. What it returns
to the clients, the statistics and the encoder cache are left out.
-/
namespace SparkKit.Sched.Output

open SparkKit.Lib.Outcome SparkKit.Sched.Requests SparkKit.Sched.StepState

/-- The parts of `ModelRunnerOutput` that the requests depend on. -/
structure RunnerOutput where
  reqIdToIndex : ReqDict ℕ
  sampledTokenIds : List (List ℤ)

/-- What `update_from_output` asks of other components. -/
structure OutputEnv where
  recomputeKvLoadFailures : Bool
  /-- `check_stop`, once the last of the new tokens is appended -/
  checkStop : Request → List ℤ → Bool
  isPooling : ReqId → Bool
  poolerOutput : ReqId → Bool
  /-- the grammar is advanced and does not accept the tokens -/
  grammarRejects : Request → List ℤ → Bool
  /-- the blocks of a finished request are still being sent -/
  delayFreeBlocks : ReqId → Bool

/-- The scheduler and the requests that stopped so far, by their status before. -/
structure OutputState where
  sched : Scheduler
  stoppedRunningReqs : List ReqId
  stoppedPreemptedReqs : List ReqId

/-! ## Settling the counters -/

/-- The step's tokens are no longer in flight, nor its stale share. -/
def drainInFlight (r : Request) (n : ℤ) : Request :=
  { r with
    numInFlightTokens := r.numInFlightTokens - n
    numStaleOutputTokens :=
      if r.numStaleOutputTokens > 0 then r.numStaleOutputTokens - n else r.numStaleOutputTokens }

/-- Rejected drafts roll the counters back. -/
def rollBackRejected (cfg : SchedulerConfig) (r : Request) (numDraftTokens numGenerated : ℤ) :
    Request :=
  let numAccepted := max (numGenerated - cfg.numSampledTokensPerStep) 0
  let numRejected := numDraftTokens - numAccepted
  { r with
    numComputedTokens :=
      if r.numComputedTokens > 0 then r.numComputedTokens - numRejected else r.numComputedTokens
    numOutputPlaceholders :=
      if r.numOutputPlaceholders > 0 then r.numOutputPlaceholders - numRejected
      else r.numOutputPlaceholders }

/-- `_update_request_with_output`: append token after token until one stops the request. -/
def updateRequestWithOutput (env : OutputEnv) (r : Request) (appended : List ℤ) :
    List ℤ → Request × List ℤ × Bool
  | [] => (r, appended, false)
  | token :: tokens =>
      let r := { r with numTokens := r.numTokens + 1 }
      let appended := appended ++ [token]
      if env.checkStop r appended = true then ({ r with status := .finished }, appended, true)
      else updateRequestWithOutput env r appended tokens

/-! ## Stopped requests -/

/-- `_free_request`: a finished request is forgotten once its blocks are free. -/
def freeRequest (env : OutputEnv) (s : Scheduler) (id : ReqId) (delay : Bool) : Scheduler :=
  if (delay || env.delayFreeBlocks id) = true then s else { s with active := s.active.erase id }

/-- `_enqueue_waiting_request` -/
def enqueueWaitingRequest (s : Scheduler) (id : ReqId) : Scheduler :=
  if (s.requests id).status.isBlockedWaiting = true then
    { s with skippedWaiting := s.skippedWaiting ++ [id] }
  else { s with waiting := s.waiting ++ [id] }

/-- `session._all_token_ids[:num_computed_tokens]`: a negative bound counts from the end. -/
def keptTokens (session : Request) : ℤ :=
  if session.numComputedTokens < 0 then max (session.numTokens + session.numComputedTokens) 0
  else min session.numComputedTokens session.numTokens

/-- `_update_request_as_session`; the output tokens kept become part of the prompt. -/
def updateRequestAsSession (session : Request) (update : StreamingUpdate) : Request :=
  let kept := keptTokens session
  { session with
    numTokens := kept + update.numPromptTokens
    numPromptTokens :=
      session.numPromptTokens + max (kept - session.numPromptTokens) 0 + update.numPromptTokens
    mmFeatures := session.mmFeatures ++
      update.mmFeatures.map fun f => { f with offset := f.offset + kept }
    arrivalTime := update.arrivalTime
    status := .waiting }

/-- What `_handle_stopped_request` makes of a request, and whether that is finished. A session
takes its next input, or waits for one. -/
def handleStopped (r : Request) : Request × Bool :=
  if r.resumable = false then (r, true)
  else
    match r.streamingQueue with
    | some (none :: queue) => ({ r with streamingQueue := some queue }, true)
    | some (some update :: queue) =>
        ({ updateRequestAsSession r update with streamingQueue := some queue }, false)
    | _ => ({ r with status := .waitingForStreamingReq }, false)

/-- `_handle_stopped_request`, and the release of a request that finished. -/
def handleStoppedRequest (env : OutputEnv) (s : Scheduler) (id : ReqId) : Scheduler :=
  let (r, finished) := handleStopped (s.requests id)
  let s := s.setRequest id r
  if finished = true then freeRequest env s id false
  else
    enqueueWaitingRequest
      { s with
        numWaitingForStreamingInput :=
          if r.status = .waitingForStreamingReq then s.numWaitingForStreamingInput + 1
          else s.numWaitingForStreamingInput } id

/-- One request of `finish_requests`. -/
def finishRequest (env : OutputEnv) (s : Scheduler) (id : ReqId) : Scheduler :=
  let r := s.requests id
  if id ∉ s.active ∨ r.status = .finished then s
  else
    let remote := r.status = .waitingForRemoteKvs
    let delay := remote ∧ id ∉ s.finishedRecvingKvReqIds
    let s := { s.setRequest id { r with status := .finished } with
      running := s.running.filter (· ≠ id)
      waiting := s.waiting.filter (· ≠ id)
      skippedWaiting := s.skippedWaiting.filter (· ≠ id)
      numWaitingForStreamingInput :=
        if r.status = .waitingForStreamingReq then s.numWaitingForStreamingInput - 1
        else s.numWaitingForStreamingInput
      finishedRecvingKvReqIds :=
        if remote then s.finishedRecvingKvReqIds.filter (· ≠ id) else s.finishedRecvingKvReqIds
      failedRecvingKvReqIds :=
        if remote then s.failedRecvingKvReqIds.filter (· ≠ id) else s.failedRecvingKvReqIds }
    freeRequest env s id delay

/-! ## The loop -/

/-- A request with its output, and whether that stopped it. -/
structure Delivery where
  request : Request
  statusBeforeStop : RequestStatus
  stopped : Bool

/-- The generated tokens of a request, its rejected drafts settled. -/
def delivery (cfg : SchedulerConfig) (env : OutputEnv) (id : ReqId) (stale : Bool)
    (specs generated : List ℤ) (r : Request) : Delivery :=
  let r :=
    if specs ≠ [] ∧ (generated ≠ [] ∨ cfg.numSampledTokensPerStep = 0) ∧ stale = false then
      rollBackRejected cfg r specs.length generated.length
    else r
  let (updated, tokens, stopped) :=
    if generated ≠ [] then updateRequestWithOutput env r [] generated
    else if env.isPooling id = true ∧ env.poolerOutput id = true then
      ({ r with status := .finished }, [], true)
    else (r, [], false)
  let rejected : Bool := tokens ≠ [] ∧ env.grammarRejects updated tokens = true
  let emits : Bool := tokens ≠ [] ∨ env.poolerOutput id = true ∨ stopped ∨ rejected
  { request :=
      { updated with
        status := if rejected then .finished else updated.status
        resumable := if rejected then false else updated.resumable
        hasPrefillStats := if emits then false else updated.hasPrefillStats }
    statusBeforeStop := r.status
    stopped := stopped || rejected }

/-- A request whose output is there. -/
def deliverOutput (cfg : SchedulerConfig) (env : OutputEnv) (id : ReqId) (stale : Bool)
    (specs generated : List ℤ) (st : OutputState) : OutputState :=
  let d := delivery cfg env id stale specs generated (st.sched.requests id)
  let sched := st.sched.setRequest id d.request
  if d.stopped = true then
    let sched := handleStoppedRequest env sched id
    if d.statusBeforeStop = .running then
      { st with sched := sched, stoppedRunningReqs := id :: st.stoppedRunningReqs }
    else { st with sched := sched, stoppedPreemptedReqs := id :: st.stoppedPreemptedReqs }
  else { st with sched := sched }

/-- One turn of the loop over `num_scheduled_tokens`; `failed` are the requests whose KV load
failed. -/
def processOutput (cfg : SchedulerConfig) (env : OutputEnv) (failed : List ReqId)
    (specs : ReqDict (List ℤ)) (output : RunnerOutput) (st : OutputState)
    (entry : Sigma fun _ : ReqId => ℤ) : Except String OutputState :=
  let id := entry.1
  let n := entry.2
  let r := st.sched.requests id
  let known := id ∈ st.sched.active
  let stale := known ∧ r.numStaleOutputTokens > 0
  if n ≤ 0 then .error "assert num_tokens_scheduled > 0"
  else if stale ∧ r.numStaleOutputTokens < n then
    .error "assert request.num_stale_output_tokens >= 0"
  else
    let st : OutputState :=
      if known then { st with sched := st.sched.setRequest id (drainInFlight r n) } else st
    if id ∈ failed then .ok st
    else if ¬known ∨ r.status = .finished then .ok st
    else if stale ∧ r.dropStaleOutput = true then .ok st
    else
      match output.reqIdToIndex.lookup id with
      | none => .ok st
      | some reqIndex =>
          if output.sampledTokenIds = [] then
            .ok (deliverOutput cfg env id stale ((specs.lookup id).getD []) [] st)
          else
            match output.sampledTokenIds[reqIndex]? with
            | none => .error "list index out of range"
            | some generated =>
                .ok (deliverOutput cfg env id stale ((specs.lookup id).getD []) generated st)

/-- The stopped requests leave the queues. -/
def removeStopped (st : OutputState) : Scheduler :=
  { st.sched with
    running := st.sched.running.filter (· ∉ st.stoppedRunningReqs)
    waiting := st.sched.waiting.filter (· ∉ st.stoppedPreemptedReqs)
    skippedWaiting := st.sched.skippedWaiting.filter (· ∉ st.stoppedPreemptedReqs) }

/-- `update_from_output`, once `_handle_invalid_blocks` has named the failed requests. -/
def updateFromOutput (cfg : SchedulerConfig) (env : OutputEnv) (failed : List ReqId)
    (numScheduledTokens : ReqDict ℤ) (specs : ReqDict (List ℤ)) (output : RunnerOutput)
    (s : Scheduler) : Except String Scheduler := do
  let st ← numScheduledTokens.entries.foldlM (processOutput cfg env failed specs output) ⟨s, [], []⟩
  let s := removeStopped st
  let errors := s.grammarCompileErrorReqs ++
    if env.recomputeKvLoadFailures = true then [] else failed
  return errors.foldl (finishRequest env) { s with grammarCompileErrorReqs := [] }

/-! ## A request without output -/

/-- A live request whose output is neither stale nor failed, and is not there. -/
structure Omitted (failed : List ReqId) (output : RunnerOutput) (s : Scheduler) (id : ReqId) :
    Prop where
  active : id ∈ s.active
  unfinished : (s.requests id).status ≠ .finished
  fresh : (s.requests id).numStaleOutputTokens ≤ 0
  loaded : id ∉ failed
  compiled : id ∉ s.grammarCompileErrorReqs
  absent : id ∉ output.reqIdToIndex

/-- Nothing changed of a request but its tokens in flight. -/
structure Skipped (s : Scheduler) (id : ReqId) (s' : Scheduler) : Prop where
  request : ∃ inFlight, s'.requests id = { s.requests id with numInFlightTokens := inFlight }
  active : id ∈ s'.active
  compiled : id ∉ s'.grammarCompileErrorReqs
  running : id ∈ s.running → id ∈ s'.running

section
variable {cfg : SchedulerConfig} {env : OutputEnv} {failed : List ReqId} {s : Scheduler} {id : ReqId}

theorem Omitted.skipped {output : RunnerOutput} (h : Omitted failed output s id) :
    Skipped s id s := ⟨⟨_, rfl⟩, h.active, h.compiled, fun hid => hid⟩

/-- Changing another request. -/
theorem Skipped.set {s' : Scheduler} {x : ReqId} {r : Request} (h : Skipped s id s') (hx : id ≠ x) :
    Skipped s id (s'.setRequest x r) := by
  obtain ⟨inFlight, hrequest⟩ := h.request
  refine ⟨⟨inFlight, ?_⟩, h.active, h.compiled, h.running⟩
  show Function.update s'.requests x r id = _
  rw [Function.update_of_ne hx]
  exact hrequest

/-- Draining its own tokens in flight. -/
theorem Skipped.drains {s' : Scheduler} {n : ℤ} (h : Skipped s id s')
    (hfresh : (s.requests id).numStaleOutputTokens ≤ 0) :
    Skipped s id (s'.setRequest id (drainInFlight (s'.requests id) n)) := by
  obtain ⟨inFlight, hrequest⟩ := h.request
  refine ⟨⟨inFlight - n, ?_⟩, h.active, h.compiled, h.running⟩
  show Function.update s'.requests id _ id = _
  rw [Function.update_self, hrequest, drainInFlight]
  rw [if_neg (not_lt.mpr hfresh)]

theorem Skipped.frees {s' : Scheduler} {x : ReqId} {delay : Bool} (h : Skipped s id s')
    (hx : id ≠ x) : Skipped s id (freeRequest env s' x delay) := by
  rw [freeRequest]
  split
  · exact h
  · exact ⟨h.request, (List.mem_erase_of_ne hx).mpr h.active, h.compiled, h.running⟩

theorem Skipped.stops {s' : Scheduler} {x : ReqId} (h : Skipped s id s') (hx : id ≠ x) :
    Skipped s id (handleStoppedRequest env s' x) := by
  have hset : Skipped s id (s'.setRequest x (handleStopped (s'.requests x)).1) := h.set hx
  simp only [handleStoppedRequest]
  split
  · exact hset.frees hx
  · simp only [enqueueWaitingRequest]
    split
    · exact ⟨hset.request, hset.active, hset.compiled, hset.running⟩
    · exact ⟨hset.request, hset.active, hset.compiled, hset.running⟩

theorem Skipped.finishes {s' : Scheduler} {x : ReqId} (h : Skipped s id s') (hx : id ≠ x) :
    Skipped s id (finishRequest env s' x) := by
  simp only [finishRequest]
  split
  · exact h
  · have hset := h.set (r := { s'.requests x with status := .finished }) hx
    refine Skipped.frees ⟨hset.request, hset.active, hset.compiled, fun hid => ?_⟩ hx
    exact List.mem_filter.mpr ⟨h.running hid, decide_eq_true hx⟩

theorem Skipped.finishesAll {errors : List ReqId} {s' : Scheduler} (h : Skipped s id s')
    (herrors : id ∉ errors) : Skipped s id (errors.foldl (finishRequest env) s') := by
  induction errors generalizing s' with
  | nil => exact h
  | cons x errors ih =>
    rw [List.mem_cons, not_or] at herrors
    rw [List.foldl_cons]
    exact ih (h.finishes herrors.1) herrors.2

/-- The request is skipped so far, and has not stopped. -/
structure LoopSkips (s : Scheduler) (id : ReqId) (st : OutputState) : Prop where
  skipped : Skipped s id st.sched
  unstopped : id ∉ st.stoppedRunningReqs

/-- A delivery changes its own request, and may stop it. -/
theorem LoopSkips.delivers {st : OutputState} {x : ReqId} {stale : Bool} {specs generated : List ℤ}
    (h : LoopSkips s id st) (hx : id ≠ x) :
    LoopSkips s id (deliverOutput cfg env x stale specs generated st) := by
  rw [deliverOutput]
  dsimp only
  generalize delivery cfg env x stale specs generated (st.sched.requests x) = d
  have hset : Skipped s id (st.sched.setRequest x d.request) := h.skipped.set hx
  split
  · have hstops : Skipped s id
        (handleStoppedRequest env (st.sched.setRequest x d.request) x) := hset.stops hx
    split
    · refine ⟨hstops, fun hid => ?_⟩
      rcases List.mem_cons.mp hid with heq | hid
      · exact hx heq
      · exact h.unstopped hid
    · exact ⟨hstops, h.unstopped⟩
  · exact ⟨hset, h.unstopped⟩

/-- A turn of the loop skips the request, whoever's turn it is. -/
theorem processOutput_skips {specs : ReqDict (List ℤ)} {output : RunnerOutput}
    (homitted : Omitted failed output s id) {st st' : OutputState} {entry : Sigma fun _ : ReqId => ℤ}
    (h : LoopSkips s id st)
    (hturn : processOutput cfg env failed specs output st entry = .ok st') :
    LoopSkips s id st' ∧ 0 < entry.2 := by
  simp only [processOutput] at hturn
  split at hturn
  · cases hturn
  rename_i hpos
  refine ⟨?_, not_le.mp hpos⟩
  split at hturn
  · cases hturn
  have hdrained : LoopSkips s id (if entry.1 ∈ st.sched.active then
      { st with sched := st.sched.setRequest entry.1 (drainInFlight (st.sched.requests entry.1) entry.2) }
      else st) := by
    split
    · refine ⟨?_, h.unstopped⟩
      by_cases hid : id = entry.1
      · rw [← hid]
        exact h.skipped.drains homitted.fresh
      · exact h.skipped.set hid
    · exact h
  split at hturn
  · cases hturn
    exact hdrained
  split at hturn
  · cases hturn
    exact hdrained
  split at hturn
  · cases hturn
    exact hdrained
  by_cases hid : id = entry.1
  · have habsent : output.reqIdToIndex.lookup entry.1 = none := by
      rw [← hid]
      exact AList.lookup_eq_none.mpr homitted.absent
    rw [habsent] at hturn
    cases hturn
    exact hdrained
  · split at hturn
    · cases hturn
      exact hdrained
    split at hturn
    · cases hturn
      exact hdrained.delivers hid
    split at hturn
    · cases hturn
    · cases hturn
      exact hdrained.delivers hid

/-- `update_from_output` settles the tokens in flight of a request without output, and nothing
else of it. -/
theorem updateFromOutput_skips {booked : ReqDict ℤ} {specs : ReqDict (List ℤ)}
    {output : RunnerOutput} {s' : Scheduler} (homitted : Omitted failed output s id)
    (h : updateFromOutput cfg env failed booked specs output s = .ok s') :
    Skipped s id s' ∧ ∀ entry ∈ booked.entries, 0 < entry.2 := by
  obtain ⟨st, hloop, h⟩ := bind_ok h
  cases h
  have hend : LoopSkips s id st ∧ ∀ entry ∈ booked.entries, 0 < entry.2 := by
    apply foldlM_ok (I := fun done st => LoopSkips s id st ∧ ∀ entry ∈ done, 0 < entry.2) ?_ ?_ hloop
    · exact ⟨⟨homitted.skipped, List.not_mem_nil⟩, fun _ hentry => absurd hentry List.not_mem_nil⟩
    · intro done entry st st' _ hst hturn
      obtain ⟨hnext, hpos⟩ := processOutput_skips homitted hst.1 hturn
      refine ⟨hnext, fun e he => ?_⟩
      rcases List.mem_append.mp he with he | he
      · exact hst.2 e he
      · rw [List.mem_singleton.mp he]
        exact hpos
  refine ⟨?_, hend.2⟩
  have hkept := hend.1.skipped
  have hremoved : Skipped s id { removeStopped st with grammarCompileErrorReqs := [] } :=
    ⟨hkept.request, hkept.active, List.not_mem_nil, fun hid =>
      List.mem_filter.mpr ⟨hkept.running hid, decide_eq_true hend.1.unstopped⟩⟩
  have herrors : id ∉ (removeStopped st).grammarCompileErrorReqs ++
      (if env.recomputeKvLoadFailures = true then [] else failed) := by
    rw [List.mem_append, not_or]
    refine ⟨hkept.compiled, ?_⟩
    split
    · exact List.not_mem_nil
    · exact homitted.loaded
  exact hremoved.finishesAll herrors

end

end SparkKit.Sched.Output
