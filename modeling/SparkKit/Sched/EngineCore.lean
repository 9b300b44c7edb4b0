import SparkKit.Sched.InvalidBlocks
import SparkKit.Sched.Schedule

/-!
# The scheduler as the engine drives it

Steps are scheduled ahead of their outputs, which come back in the order of the steps. In
between requests are added, continued and aborted, and the prefix cache is reset.
-/
namespace SparkKit.Sched.EngineCore

open SparkKit.Sched.Requests SparkKit.Sched.StepState SparkKit.Sched.Schedule
open SparkKit.Sched.Output SparkKit.Sched.InvalidBlocks

/-! ## Calls from outside -/

/-- A new request; a session starts with an empty queue. -/
def withStreamingQueue (r : Request) : Request :=
  if r.resumable = true then { r with streamingQueue := some [] } else r

/-- `add_request`. The request of a session that exists brings the next input, or the end of
the session: `update` is `StreamingUpdate.from_request` of the request. -/
def addRequest (env : OutputEnv) (update : Option StreamingUpdate) (r : Request) (s : Scheduler) :
    Except String Scheduler :=
  let id := r.requestId
  if id ∈ s.active then
    let existing := s.requests id
    if existing.status ≠ .waitingForStreamingReq then
      match existing.streamingQueue with
      | none => .error "duplicate request id"
      | some queue =>
          .ok (s.setRequest id { existing with streamingQueue := some (queue ++ [update]) })
    else
      match update with
      | some update =>
          .ok { s.setRequest id (updateRequestAsSession existing update) with
            numWaitingForStreamingInput := s.numWaitingForStreamingInput - 1 }
      | none => .ok (finishRequest env s id)
  else
    let s' := enqueueWaitingRequest (s.setRequest id (withStreamingQueue r)) id
    .ok { s' with active := s.active ++ [id] }

/-- `_preempt_request` with `drop_stale_output`. -/
def preemptDropping (cfg : SchedulerConfig) (s : Scheduler) (id : ReqId) :
    Except String Scheduler := do
  let s ← preemptRequest cfg { s with running := s.running.dropLast } id
  return s.setRequest id { s.requests id with dropStaleOutput := true }

/-- `reset_prefix_cache` with `reset_running_requests`: everyone is preempted, from the end. -/
def resetPrefixCache (cfg : SchedulerConfig) (s : Scheduler) : Except String Scheduler :=
  s.running.reverse.foldlM (preemptDropping cfg) s

/-! ## KV transfers -/

/-- What a step's output says about KV transfers. -/
structure KVConnectorOutput where
  invalidBlockIds : List ℕ
  finishedRecving : List ReqId
  finishedSending : List ReqId

/-- `_free_blocks` -/
def freeBlocks (s : Scheduler) (id : ReqId) : Except String Scheduler :=
  if id ∉ s.active then .error "assert req_id in self.requests"
  else if (s.requests id).status ≠ .finished then .error "assert request.is_finished()"
  else .ok { s with active := s.active.erase id }

/-- One request of `finished_recving`. -/
def receivedKv (s : Scheduler) (id : ReqId) : Except String Scheduler :=
  if id ∈ s.active ∧ (s.requests id).status = .waitingForRemoteKvs then
    .ok { s with finishedRecvingKvReqIds := s.finishedRecvingKvReqIds.insert id }
  else freeBlocks s id

/-- `_update_from_kv_xfer_finished` -/
def updateFromKvXferFinished (kv : KVConnectorOutput) (s : Scheduler) : Except String Scheduler := do
  let s ← kv.finishedRecving.foldlM receivedKv s
  kv.finishedSending.foldlM freeBlocks s

/-! ## The engine -/

/-- A step handed to the workers. `preemptions` is how often each request had been preempted
when the step was booked; the code does not keep it. -/
structure Flight where
  numScheduledTokens : ReqDict ℤ
  scheduledSpecDecodeTokens : ReqDict (List ℤ)
  preemptions : ReqId → ℕ

/-- The scheduler and the steps without output yet, the oldest first. -/
structure Engine where
  sched : Scheduler
  flights : List Flight

/-- What the engine is told with the output of a step. -/
structure StepOutput where
  env : OutputEnv
  blockIds : ReqId → List ℕ
  kv : KVConnectorOutput
  runner : RunnerOutput

inductive Event where
  | schedule (env : Env) (throttlePrefills : Bool)
  | output (out : StepOutput)
  | add (env : OutputEnv) (update : Option StreamingUpdate) (r : Request)
  | finish (env : OutputEnv) (ids : List ReqId)
  | reset
  | pause (state : PauseState)

/-- A step is scheduled and booked. -/
def Engine.schedule (cfg : SchedulerConfig) (env : Env) (throttlePrefills : Bool) (e : Engine) :
    Except String Engine := do
  let st ← Schedule.schedule cfg env throttlePrefills e.sched
  let sched := updateAfterSchedule st
  return {
    sched := sched
    flights := e.flights ++ [⟨st.led.numScheduledTokens, st.led.scheduledSpecDecodeTokens,
      fun id => (sched.requests id).numPreemptions⟩] }

/-- `update_from_output` for one step. -/
def processFlight (cfg : SchedulerConfig) (out : StepOutput) (flight : Flight) (s : Scheduler) :
    Except String Scheduler := do
  let load : FailedLoad := ⟨out.blockIds, out.kv.invalidBlockIds, flight.numScheduledTokens⟩
  let (s, failed) := handleInvalidBlocks cfg out.env.recomputeKvLoadFailures load s
  let s ← updateFromOutput cfg out.env failed flight.numScheduledTokens
    flight.scheduledSpecDecodeTokens out.runner s
  updateFromKvXferFinished out.kv s

def Engine.output (cfg : SchedulerConfig) (out : StepOutput) (e : Engine) : Except String Engine :=
  match e.flights with
  | [] => .ok e
  | flight :: flights => do
      let sched ← processFlight cfg out flight e.sched
      return ⟨sched, flights⟩

def Engine.step (cfg : SchedulerConfig) (e : Engine) : Event → Except String Engine
  | .schedule env throttlePrefills => e.schedule cfg env throttlePrefills
  | .output out => e.output cfg out
  | .add env update r => do
      let sched ← addRequest env update r e.sched
      return { e with sched := sched }
  | .finish env ids => .ok { e with sched := ids.foldl (finishRequest env) e.sched }
  | .reset => do
      let sched ← resetPrefixCache cfg e.sched
      return { e with sched := sched }
  | .pause state => .ok { e with sched := { e.sched with pauseState := state } }

end SparkKit.Sched.EngineCore
