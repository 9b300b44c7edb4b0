import SparkKit.Lib.Outcome
import SparkKit.Sched.Requests
import Mathlib.Data.List.MinMax
import Mathlib.Data.Prod.Lex
import Mathlib.Data.List.Sort
import Mathlib.Logic.Function.Basic

/-!
# The scheduler between and within steps

`Scheduler` is what survives a step; `Ledger` holds the local variables of `schedule`. The
preemption and the selection of long prefills are the parts that several places share.
-/
namespace SparkKit.Sched.StepState

open SparkKit.Lib.Outcome SparkKit.Sched.Requests

structure Scheduler where
  requests : ReqId → Request
  running : List ReqId
  waiting : List ReqId
  skippedWaiting : List ReqId
  /-- the ids of `self.requests` -/
  active : List ReqId
  longPrefillLastScheduled : ReqDict ℕ
  longPrefillGateSkips : ℕ
  longPrefillWastedTurns : ℕ
  currentStep : ℕ
  prefillCapacityBound : Bool
  pauseState : PauseState
  numWaitingForStreamingInput : ℕ
  finishedRecvingKvReqIds : List ReqId
  failedRecvingKvReqIds : List ReqId
  grammarCompileErrorReqs : List ReqId
  resetPreemptedReqIds : List ReqId

structure Ledger where
  tokenBudget : ℤ
  prefillTokensScheduled : ℤ
  encoderComputeBudget : ℤ
  prefillScheduled : Bool
  reqIndex : ℕ
  gateSkippedRunning : ℕ
  scheduledNewReqs : List ReqId
  scheduledResumedReqs : List ReqId
  scheduledRunningReqs : List ReqId
  preemptedReqs : List ReqId
  reqToNewBlocks : ReqDict KVCacheBlocks
  numScheduledTokens : ReqDict ℤ
  scheduledSpecDecodeTokens : ReqDict (List ℤ)
  scheduledEncoderInputs : ReqDict (List ℕ)
  scheduledLoras : List ℕ
  stepSkippedWaiting : List ReqId
  /-- calls made to other components so far -/
  tick : ℕ

structure State where
  sched : Scheduler
  led : Ledger

/-- The step's fixed values: the deferral flag, the prefill budget and the selected turns. -/
structure StepContext where
  deferPrefills : Bool
  prefillTokenBudget : ℤ
  selectedLongPrefillIds : List ReqId

def Scheduler.setRequest (s : Scheduler) (id : ReqId) (r : Request) : Scheduler :=
  { s with requests := Function.update s.requests id r }

theorem setRequest_self (s : Scheduler) (id : ReqId) (r : Request) :
    (s.setRequest id r).requests id = r := by
  show Function.update s.requests id r id = r
  exact Function.update_self _ _ _

theorem setRequest_of_ne (s : Scheduler) {id x : ReqId} (r : Request) (h : x ≠ id) :
    (s.setRequest id r).requests x = s.requests x := by
  show Function.update s.requests id r x = s.requests x
  exact Function.update_of_ne h _ _

def Ledger.ticked (led : Ledger) : Ledger := { led with tick := led.tick + 1 }

def State.ticked (st : State) : State := { st with led := st.led.ticked }

/-- `req_index += 1` -/
def State.advance (st : State) : State :=
  { st with led := { st.led with reqIndex := st.led.reqIndex + 1 } }

/-! ## Queues -/

/-- Pairs of counts, compared by the first and then by the second. -/
def CountPair : Type := ℤ ×ₗ ℤ

instance : LinearOrder CountPair :=
  @Prod.Lex.instLinearOrder ℤ ℤ Int.instLinearOrder Int.instLinearOrder

def CountPair.mk (a b : ℤ) : CountPair := toLex (a, b)

/-- A count pair, with the id to break ties. -/
def QueueKey : Type := CountPair ×ₗ ReqId

instance : LinearOrder QueueKey :=
  @Prod.Lex.instLinearOrder CountPair ReqId inferInstance Nat.instLinearOrder

/-- The order of the priority queue: priority, arrival, id. -/
def queueKey (s : Scheduler) (id : ReqId) : QueueKey :=
  toLex (CountPair.mk (s.requests id).priority (s.requests id).arrivalTime, id)

/-- `peek_request` -/
def peekRequest (cfg : SchedulerConfig) (s : Scheduler) (queue : List ReqId) : Option ReqId :=
  match cfg.policy with
  | .fcfs => queue.head?
  | .priority => queue.argmin (queueKey s)

/-- `_select_waiting_queue_for_scheduling`, with `true` for the skipped queue. -/
def selectWaitingQueue (cfg : SchedulerConfig) (s : Scheduler) : Option (Bool × ReqId) :=
  match cfg.policy with
  | .fcfs =>
      match s.skippedWaiting.head? with
      | some id => some (true, id)
      | none => s.waiting.head?.map fun id => (false, id)
  | .priority =>
      match peekRequest cfg s s.waiting, peekRequest cfg s s.skippedWaiting with
      | some w, some k => if queueKey s w < queueKey s k then some (false, w) else some (true, k)
      | some w, none => some (false, w)
      | none, some k => some (true, k)
      | none, none => none

/-- `request_queue.pop_request()` of the request just peeked at. -/
def popRequest (s : Scheduler) (skipped : Bool) (id : ReqId) : Scheduler :=
  if skipped = true then { s with skippedWaiting := s.skippedWaiting.erase id }
  else { s with waiting := s.waiting.erase id }

@[simp] theorem popRequest_requests (s : Scheduler) (skipped : Bool) (id : ReqId) :
    (popRequest s skipped id).requests = s.requests := by
  cases skipped with
  | true => rfl
  | false => rfl

@[simp] theorem popRequest_running (s : Scheduler) (skipped : Bool) (id : ReqId) :
    (popRequest s skipped id).running = s.running := by
  cases skipped with
  | true => rfl
  | false => rfl

/-! ## Long prefills -/

def isLongPrefillRequest (cfg : SchedulerConfig) (r : Request) : Bool :=
  if r.numPromptTokens ≤ cfg.longPrefillTokenThreshold then false
  else if r.status = .running then r.isPrefillChunk
  else r.status = .waiting ∨ r.status = .preempted

/-- The key of `by_age`: the step of the last turn, `-1` without one, then the arrival. -/
def ageKey (s : Scheduler) (id : ReqId) : CountPair :=
  .mk (match s.longPrefillLastScheduled.lookup id with
    | some step => (step : ℤ)
    | none => -1) (s.requests id).arrivalTime

def byAge (s : Scheduler) (ids : List ReqId) : List ReqId :=
  ids.insertionSort fun a b => ageKey s a ≤ ageKey s b

/-- The bookkeeping of `_select_long_prefill_request_ids`: turns of gone requests are dropped. -/
def pruneTurns (s : Scheduler) : Scheduler :=
  let turns := s.longPrefillLastScheduled
  { s with
    longPrefillLastScheduled :=
      turns.keys.foldl (fun d id => if id ∈ s.active then d else d.erase id) turns }

def runningCandidates (cfg : SchedulerConfig) (s : Scheduler) : List ReqId :=
  s.running.filter fun id => isLongPrefillRequest cfg (s.requests id)

/-- The waiting candidates, each id once and none that is a running candidate. -/
def waitingCandidates (cfg : SchedulerConfig) (s : Scheduler) : List ReqId :=
  (s.waiting ++ s.skippedWaiting).foldl (fun acc id =>
    if id ∈ runningCandidates cfg s ∨ id ∈ acc then acc
    else if isLongPrefillRequest cfg (s.requests id) = true then acc ++ [id] else acc) []

/-- The ids `_select_long_prefill_request_ids` returns, over pruned turns. -/
def selectLongPrefillRequestIds (cfg : SchedulerConfig) (s : Scheduler) : List ReqId :=
  let waiting := waitingCandidates cfg s
  let admittable := cfg.maxNumRunningReqs - s.running.length
  let keep := (byAge s waiting).take admittable
  let candidates := runningCandidates cfg s ++ waiting.filter fun id => id ∈ keep
  (byAge s candidates).take cfg.maxLongPrefillsPerStep

/-- `_debit_unused_long_prefill_turns` -/
def debitUnusedLongPrefillTurns (cfg : SchedulerConfig) (ctx : StepContext)
    (numScheduledTokens : ReqDict ℤ) (s : Scheduler) : Scheduler :=
  if cfg.enableDecodeAwarePrefill = false ∨ ctx.selectedLongPrefillIds = [] then s
  else if ctx.deferPrefills = true ∨ s.pauseState = .pausedAll then s
  else
    ctx.selectedLongPrefillIds.foldl (fun s id =>
      if id ∈ numScheduledTokens then s
      else { s with
        longPrefillWastedTurns := s.longPrefillWastedTurns + 1
        longPrefillLastScheduled := s.longPrefillLastScheduled.insert id s.currentStep }) s

/-! ## Preemption -/

/-- A request after `_preempt_request`. -/
def preempted (cfg : SchedulerConfig) (r : Request) : Request :=
  { r with
    status := .preempted
    numComputedTokens := 0
    specTokenIds := []
    dropStaleOutput := cfg.requiresKvDelivery || (r.dropStaleOutput && r.numStaleOutputTokens > 0)
    numStaleOutputTokens := r.numInFlightTokens
    numOutputPlaceholders := 0
    numPreemptions := r.numPreemptions + 1 }

/-- `_preempt_request` -/
def preemptRequest (cfg : SchedulerConfig) (s : Scheduler) (id : ReqId) :
    Except String Scheduler :=
  if (s.requests id).status ≠ .running then .error "Only running requests can be preempted"
  else
    .ok { s.setRequest id (preempted cfg (s.requests id)) with
      waiting := id :: s.waiting
      resetPreemptedReqIds := id :: s.resetPreemptedReqIds }

/-- The lowest-priority running request: `max` of priority and arrival, or the last one. -/
def preemptedReq (cfg : SchedulerConfig) (s : Scheduler) : Option ReqId :=
  match cfg.policy with
  | .priority => s.running.argmax fun id =>
      CountPair.mk (s.requests id).priority (s.requests id).arrivalTime
  | .fcfs => s.running.getLast?

/-- Undo the scheduling of a request of this step. -/
def Ledger.unschedule (led : Ledger) (r : Request) (id : ReqId) : Ledger :=
  { led with
    scheduledRunningReqs := led.scheduledRunningReqs.erase id
    tokenBudget := led.tokenBudget + (led.numScheduledTokens.lookup id).getD 0
    numScheduledTokens := led.numScheduledTokens.erase id
    reqToNewBlocks := led.reqToNewBlocks.erase id
    scheduledSpecDecodeTokens := led.scheduledSpecDecodeTokens.erase id
    scheduledEncoderInputs := led.scheduledEncoderInputs.erase id
    encoderComputeBudget := led.encoderComputeBudget +
      (((led.scheduledEncoderInputs.lookup id).getD []).map r.numEncoderEmbeds).sum
    reqIndex := led.reqIndex - 1 }

/-- Take the victim off the running list and its tokens off the ledger. -/
def dropRunning (cfg : SchedulerConfig) (st : State) (victim : ReqId) : State :=
  match cfg.policy with
  | .priority =>
      { sched := { st.sched with running := st.sched.running.erase victim }
        led :=
          if victim ∈ st.led.scheduledRunningReqs then
            st.led.unschedule (st.sched.requests victim) victim
          else st.led }
  | .fcfs => { st with sched := { st.sched with running := st.sched.running.dropLast } }

/-- Preempt one request, and name it. -/
def preemptOne (cfg : SchedulerConfig) (st : State) : Except String (State × ReqId) :=
  match preemptedReq cfg st.sched with
  | none => .error "no running request to preempt"
  | some victim => do
      let dropped := dropRunning cfg st victim
      let sched ← preemptRequest cfg dropped.sched victim
      return ({ sched := sched
                led := { dropped.led with preemptedReqs := dropped.led.preemptedReqs ++ [victim] } },
        victim)

/-- What one preemption does. -/
structure Preempts (cfg : SchedulerConfig) (st st' : State) (victim : ReqId) : Prop where
  mem : victim ∈ st.sched.running
  status : (st.sched.requests victim).status = .running
  running : st'.sched.running.Sublist st.sched.running
  shorter : st'.sched.running.length + 1 = st.sched.running.length
  removed : st.sched.running.Nodup → victim ∉ st'.sched.running
  requests : st'.sched.requests =
    Function.update st.sched.requests victim (preempted cfg (st.sched.requests victim))
  waiting : st'.sched.waiting = victim :: st.sched.waiting
  skippedWaiting : st'.sched.skippedWaiting = st.sched.skippedWaiting
  ledger : ∃ led, (led = st.led ∨ led = st.led.unschedule (st.sched.requests victim) victim) ∧
    st'.led = { led with preemptedReqs := led.preemptedReqs ++ [victim] }

theorem Preempts.others {cfg : SchedulerConfig} {st st' : State} {victim id : ReqId}
    (h : Preempts cfg st st' victim) (hid : id ≠ victim) :
    st'.sched.requests id = st.sched.requests id := by
  rw [h.requests]
  exact Function.update_of_ne hid _ _

theorem Preempts.victim {cfg : SchedulerConfig} {st st' : State} {victim : ReqId}
    (h : Preempts cfg st st' victim) :
    st'.sched.requests victim = preempted cfg (st.sched.requests victim) := by
  rw [h.requests]
  exact Function.update_self _ _ _

/-- A preemption books nobody. -/
theorem Preempts.lookup {cfg : SchedulerConfig} {st st' : State} {victim id : ReqId} {n : ℤ}
    (h : Preempts cfg st st' victim) (hn : st'.led.numScheduledTokens.lookup id = some n) :
    st.led.numScheduledTokens.lookup id = some n := by
  obtain ⟨led, hled, hledger⟩ := h.ledger
  rw [hledger] at hn
  rcases hled with rfl | rfl
  · exact hn
  · have hn : (st.led.numScheduledTokens.erase victim).lookup id = some n := hn
    by_cases hid : id = victim
    · rw [hid, AList.lookup_erase] at hn
      cases hn
    · rw [AList.lookup_erase_ne hid] at hn
      exact hn

theorem Preempts.booked {cfg : SchedulerConfig} {st st' : State} {victim id : ReqId}
    (h : Preempts cfg st st' victim) (hid : id ∈ st'.led.numScheduledTokens) :
    id ∈ st.led.numScheduledTokens := by
  obtain ⟨n, hn⟩ := Option.isSome_iff_exists.mp (AList.lookup_isSome.mpr hid)
  exact AList.lookup_isSome.mp (Option.isSome_iff_exists.mpr ⟨n, h.lookup hn⟩)

theorem preemptRequest_ok {cfg : SchedulerConfig} {s s' : Scheduler} {id : ReqId}
    (h : preemptRequest cfg s id = .ok s') :
    (s.requests id).status = .running ∧
      s' = { s with
        requests := Function.update s.requests id (preempted cfg (s.requests id))
        waiting := id :: s.waiting
        resetPreemptedReqIds := id :: s.resetPreemptedReqIds } := by
  unfold preemptRequest at h
  split at h
  · cases h
  rename_i hstatus
  cases h
  exact ⟨not_not.mp hstatus, rfl⟩

/-- The victim leaves the running list, waits again and is noted. -/
theorem preemptOne_ok {cfg : SchedulerConfig} {st st' : State} {victim : ReqId}
    (h : preemptOne cfg st = .ok (st', victim)) :
    preemptedReq cfg st.sched = some victim ∧
      ((dropRunning cfg st victim).sched.requests victim).status = .running ∧
      st' =
        { sched := { (dropRunning cfg st victim).sched with
            requests := Function.update (dropRunning cfg st victim).sched.requests victim
              (preempted cfg ((dropRunning cfg st victim).sched.requests victim))
            waiting := victim :: (dropRunning cfg st victim).sched.waiting
            resetPreemptedReqIds :=
              victim :: (dropRunning cfg st victim).sched.resetPreemptedReqIds }
          led := { (dropRunning cfg st victim).led with
            preemptedReqs := (dropRunning cfg st victim).led.preemptedReqs ++ [victim] } } := by
  rw [preemptOne] at h
  split at h
  · cases h
  rename_i hv
  obtain ⟨sched, hpreempt, h⟩ := bind_ok h
  cases h
  obtain ⟨hstatus, hsched⟩ := preemptRequest_ok hpreempt
  subst hsched
  exact ⟨hv, hstatus, rfl⟩

/-- The victim is the last of its list, or anywhere in it. -/
theorem preemptOne_preempts {cfg : SchedulerConfig} {st st' : State} {victim : ReqId}
    (h : preemptOne cfg st = .ok (st', victim)) : Preempts cfg st st' victim := by
  obtain ⟨hv, hstatus, rfl⟩ := preemptOne_ok h
  unfold preemptedReq at hv
  unfold dropRunning at hstatus ⊢
  cases hpolicy : cfg.policy with
  | priority =>
    rw [hpolicy] at hv
    simp only [hpolicy] at hstatus ⊢
    have hmem : victim ∈ st.sched.running := List.argmax_mem (Option.mem_def.mpr hv)
    refine ⟨hmem, hstatus, List.erase_sublist, List.length_erase_add_one hmem,
      fun hnodup => hnodup.not_mem_erase, rfl, rfl, rfl, ?_⟩
    by_cases hscheduled : victim ∈ st.led.scheduledRunningReqs
    · rw [if_pos hscheduled]
      exact ⟨_, .inr rfl, rfl⟩
    · rw [if_neg hscheduled]
      exact ⟨_, .inl rfl, rfl⟩
  | fcfs =>
    rw [hpolicy] at hv
    simp only [hpolicy] at hstatus ⊢
    have hsplit : st.sched.running.dropLast ++ [victim] = st.sched.running :=
      List.dropLast_append_getLast? victim (Option.mem_def.mpr hv)
    refine ⟨List.mem_of_getLast? hv, hstatus, List.dropLast_sublist _, ?_, ?_, rfl, rfl, rfl, _,
      .inl rfl, rfl⟩
    · show st.sched.running.dropLast.length + 1 = st.sched.running.length
      rw [← congrArg List.length hsplit, List.length_append, List.length_singleton]
    · intro hnodup hmem
      change victim ∈ st.sched.running.dropLast at hmem
      rw [← hsplit, List.nodup_append] at hnodup
      exact hnodup.2.2 victim hmem victim List.mem_cons_self rfl

end SparkKit.Sched.StepState
