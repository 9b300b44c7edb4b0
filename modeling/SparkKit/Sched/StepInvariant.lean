import SparkKit.Sched.Budget

/-!
# What a step leaves behind

A running request has status RUNNING and no queued request has it, nobody is listed twice,
and a running prefill has tokens left below the model length. A step keeps all of this: the
budgets of the next step rest on it.
-/
namespace SparkKit.Sched.StepInvariant

open SparkKit.Lib.Outcome SparkKit.Sched.Requests SparkKit.Sched.Chunk SparkKit.Sched.StepState
open SparkKit.Sched.Running SparkKit.Sched.Waiting SparkKit.Sched.Schedule SparkKit.Sched.Budget
open SparkKit.Sched.Frames (scheduleWaiting_cases)

/-- A request fits in the model, and a running prefill has tokens left to compute. -/
structure RequestOk (cfg : SchedulerConfig) (r : Request) : Prop where
  placeholders : 0 ≤ r.numOutputPlaceholders
  fits : r.numTokens + r.numOutputPlaceholders ≤ cfg.maxModelLen
  pending : r.status = .running → r.isPrefillChunk = true →
    r.numComputedTokens < r.numTokens + r.numOutputPlaceholders

/-- The requests agree with the running list and with the queued ones. -/
structure Coherent (cfg : SchedulerConfig) (requests : ReqId → Request)
    (running queue : List ReqId) : Prop where
  ok : ∀ id, RequestOk cfg (requests id)
  nodup : running.Nodup
  running : ∀ id ∈ running, (requests id).status = .running
  queued : ∀ id ∈ queue, (requests id).status ≠ .running
  queueNodup : queue.Nodup

/-- The scheduler between two steps. -/
def WellFormed (cfg : SchedulerConfig) (s : Scheduler) : Prop :=
  Coherent cfg s.requests s.running (s.waiting ++ s.skippedWaiting)

/-- The scheduler within a step, where some queued requests are set aside. -/
def Ongoing (cfg : SchedulerConfig) (st : State) : Prop :=
  Coherent cfg st.sched.requests st.sched.running
    (st.led.stepSkippedWaiting ++ (st.sched.waiting ++ st.sched.skippedWaiting))

instance (cfg : SchedulerConfig) (r : Request) : Decidable (RequestOk cfg r) :=
  decidable_of_iff (0 ≤ r.numOutputPlaceholders ∧
    r.numTokens + r.numOutputPlaceholders ≤ cfg.maxModelLen ∧
    (r.status = .running → r.isPrefillChunk = true →
      r.numComputedTokens < r.numTokens + r.numOutputPlaceholders))
    ⟨fun h => ⟨h.1, h.2.1, h.2.2⟩, fun h => ⟨h.placeholders, h.fits, h.pending⟩⟩

/-- A small scheduler with listed requests, some running and some waiting. -/
theorem listedScheduler_wellFormed {cfg : SchedulerConfig} {requests : List Request}
    {running waiting : List ReqId} (hlen : 1 ≤ cfg.maxModelLen)
    (hok : ∀ r ∈ requests, RequestOk cfg r) (hnodup : running.Nodup)
    (hrunning : ∀ id ∈ running, ((smallScheduler requests).requests id).status = .running)
    (hqueued : ∀ id ∈ waiting, ((smallScheduler requests).requests id).status ≠ .running)
    (hqueue : waiting.Nodup) :
    WellFormed cfg { smallScheduler requests with running := running, waiting := waiting } := by
  refine ⟨fun id => ?_, hnodup, hrunning, ?_, ?_⟩
  · show RequestOk cfg (requests.getD id (smallRequest id 0 1 0 []))
    rw [List.getD_eq_getElem?_getD]
    cases hget : requests[id]? with
    | none =>
      exact ⟨le_refl 0, show (1 : ℤ) + 0 ≤ cfg.maxModelLen by omega,
        fun _ _ => show (0 : ℤ) < 1 + 0 by decide⟩
    | some r => exact hok r (List.mem_of_getElem? hget)
  · intro id hid
    rcases List.mem_append.mp hid with hid | hid
    · exact hqueued id hid
    · cases hid
  · show (waiting ++ []).Nodup
    rw [List.append_nil]
    exact hqueue

theorem smallScheduler_wellFormed {requests : List Request} {running waiting : List ReqId}
    (hok : ∀ r ∈ requests, RequestOk smallConfig r) (hnodup : running.Nodup)
    (hrunning : ∀ id ∈ running, ((smallScheduler requests).requests id).status = .running)
    (hqueued : ∀ id ∈ waiting, ((smallScheduler requests).requests id).status ≠ .running)
    (hqueue : waiting.Nodup) :
    WellFormed smallConfig
      { smallScheduler requests with running := running, waiting := waiting } :=
  listedScheduler_wellFormed (by decide) hok hnodup hrunning hqueued hqueue

/-! ## Changes of one request -/

section
variable {cfg : SchedulerConfig} {requests : ReqId → Request} {running queue : List ReqId}

/-- A change that leaves RUNNING requests running and the others not running. -/
theorem Coherent.update (h : Coherent cfg requests running queue) (id : ReqId) (r : Request)
    (hok : RequestOk cfg r) (hstatus : r.status = .running ↔ (requests id).status = .running) :
    Coherent cfg (Function.update requests id r) running queue := by
  have hsame : ∀ x, (Function.update requests id r x).status = .running ↔
      (requests x).status = .running := by
    intro x
    by_cases hx : x = id
    · subst hx
      rw [Function.update_self]
      exact hstatus
    · rw [Function.update_of_ne hx]
  refine ⟨fun x => ?_, h.nodup, fun x hx => (hsame x).mpr (h.running x hx),
    fun x hx hrun => h.queued x hx ((hsame x).mp hrun), h.queueNodup⟩
  by_cases hx : x = id
  · subst hx
    rw [Function.update_self]
    exact hok
  · rw [Function.update_of_ne hx]
    exact h.ok x

theorem Coherent.perm {queue' : List ReqId} (h : Coherent cfg requests running queue)
    (hperm : queue'.Perm queue) : Coherent cfg requests running queue' :=
  ⟨h.ok, h.nodup, h.running, fun id hid => h.queued id (hperm.mem_iff.mp hid),
    hperm.nodup_iff.mpr h.queueNodup⟩

/-- A running request goes to the queue. -/
theorem Coherent.preempt {running' : List ReqId} {id : ReqId} {r : Request}
    (h : Coherent cfg requests running queue) (hmem : id ∈ running)
    (hsub : running'.Sublist running) (hremoved : id ∉ running') (hok : RequestOk cfg r)
    (hstatus : r.status ≠ .running) :
    Coherent cfg (Function.update requests id r) running' (id :: queue) := by
  have hfresh : id ∉ queue := fun hid => h.queued id hid (h.running id hmem)
  refine ⟨fun x => ?_, h.nodup.sublist hsub, fun x hx => ?_, fun x hx => ?_,
    List.nodup_cons.mpr ⟨hfresh, h.queueNodup⟩⟩
  · by_cases hx : x = id
    · subst hx
      rw [Function.update_self]
      exact hok
    · rw [Function.update_of_ne hx]
      exact h.ok x
  · rw [Function.update_of_ne (ne_of_mem_of_not_mem hx hremoved)]
    exact h.running x (hsub.subset hx)
  · rcases List.mem_cons.mp hx with rfl | hx
    · rw [Function.update_self]
      exact hstatus
    · rw [Function.update_of_ne (ne_of_mem_of_not_mem hx hfresh)]
      exact h.queued x hx

/-- A queued request goes to the end of the running list. -/
theorem Coherent.admits {id : ReqId} {r : Request}
    (h : Coherent cfg requests running (id :: queue)) (hok : RequestOk cfg r)
    (hstatus : r.status = .running) :
    Coherent cfg (Function.update requests id r) (running ++ [id]) queue := by
  have hqueue := List.nodup_cons.mp h.queueNodup
  have hfresh : id ∉ running := fun hid => h.queued id List.mem_cons_self (h.running id hid)
  refine ⟨fun x => ?_, ?_, fun x hx => ?_, fun x hx => ?_, hqueue.2⟩
  · by_cases hx : x = id
    · subst hx
      rw [Function.update_self]
      exact hok
    · rw [Function.update_of_ne hx]
      exact h.ok x
  · rw [List.nodup_append]
    refine ⟨h.nodup, List.nodup_singleton id, fun x hx y hy heq => ?_⟩
    rw [List.mem_singleton.mp hy] at heq
    exact hfresh (heq ▸ hx)
  · rcases List.mem_append.mp hx with hx | hx
    · rw [Function.update_of_ne (ne_of_mem_of_not_mem hx hfresh)]
      exact h.running x hx
    · rw [List.mem_singleton.mp hx, Function.update_self]
      exact hstatus
  · rw [Function.update_of_ne (ne_of_mem_of_not_mem hx hqueue.1)]
    exact h.queued x (List.mem_cons_of_mem id hx)

end

/-! ## The running loop -/

section
variable {cfg : SchedulerConfig} {env : Env} {ctx : StepContext}

theorem preempted_ok {r : Request} (h : RequestOk cfg r) : RequestOk cfg (preempted cfg r) := by
  have hplaceholders := h.placeholders
  have hfits := h.fits
  refine ⟨le_refl 0, ?_, fun hrun => ?_⟩
  · show r.numTokens + 0 ≤ cfg.maxModelLen
    omega
  · cases hrun

theorem Ongoing.preempts {st st' : State} {victim : ReqId} (h : Ongoing cfg st)
    (hp : Preempts cfg st st' victim) : Ongoing cfg st' := by
  have hskips : st'.led.stepSkippedWaiting = st.led.stepSkippedWaiting := by
    obtain ⟨led, hled, hledger⟩ := hp.ledger
    rw [hledger]
    rcases hled with rfl | rfl
    · rfl
    · rfl
  rw [Ongoing]
  rw [hp.requests, hp.waiting, hp.skippedWaiting, hskips]
  have hcoherent := h.preempt hp.mem hp.running (hp.removed h.nodup)
    (preempted_ok (h.ok victim)) (show (preempted cfg _).status ≠ .running from nofun)
  exact hcoherent.perm List.perm_middle

theorem Ongoing.allocates {st st' : State} {fuel : ℕ} {id : ReqId} {n : ℤ}
    {blocks : Option KVCacheBlocks} (h : Ongoing cfg st)
    (halloc : allocateSlots cfg env fuel st id n = .ok (st', blocks)) : Ongoing cfg st' :=
  allocateSlots_keeps (P := Ongoing cfg) (fun _ hst => hst)
    (fun _ _ _ hst hone => hst.preempts (preemptOne_preempts hone)) h halloc

theorem runningTurn_ongoing {st st' : State} {id : ReqId} {stop : Bool} (h : Ongoing cfg st)
    (hturn : runningTurn cfg env ctx st id = .ok (st', stop)) : Ongoing cfg st' := by
  cases runningTurn_cases hturn with
  | skip gateSkips tick skips => exact h
  | @fail plan _ hplan halloc =>
    have hticked : Ongoing cfg { st with led := { st.led with tick := plan.tick } } := h
    exact hticked.allocates halloc
  | @commit plan mid blocks hpass hgate hopen hplan hne halloc =>
    have hticked : Ongoing cfg { st with led := { st.led with tick := plan.tick } } := h
    have hmid := hticked.allocates halloc
    have hok := hmid.ok id
    exact hmid.update id _ ⟨hok.placeholders, hok.fits, hok.pending⟩ Iff.rfl

/-! ## The waiting loop -/

/-- The request to serve, in front of the others. -/
theorem popRequest_perm {s : Scheduler} {skipped : Bool} {id : ReqId}
    (h : if skipped = true then id ∈ s.skippedWaiting else id ∈ s.waiting) :
    (s.waiting ++ s.skippedWaiting).Perm
      (id :: ((popRequest s skipped id).waiting ++ (popRequest s skipped id).skippedWaiting)) := by
  cases skipped with
  | true =>
    have hperm := List.perm_cons_erase (show id ∈ s.skippedWaiting from h)
    exact (hperm.append_left s.waiting).trans List.perm_middle
  | false =>
    have hperm := List.perm_cons_erase (show id ∈ s.waiting from h)
    exact hperm.append_right s.skippedWaiting

/-- The request being served stands in front of the queued ones. -/
def Serving (cfg : SchedulerConfig) (skipped : Bool) (id : ReqId) (st : State) : Prop :=
  Coherent cfg st.sched.requests st.sched.running
    (id :: (st.led.stepSkippedWaiting ++ ((popRequest st.sched skipped id).waiting ++
      (popRequest st.sched skipped id).skippedWaiting)))

theorem Ongoing.serves {st : State} {skipped : Bool} {id : ReqId} (h : Ongoing cfg st)
    (hselect : selectWaitingQueue cfg st.sched = some (skipped, id)) :
    Serving cfg skipped id st := by
  have hpop := popRequest_perm (selectWaitingQueue_mem hselect)
  refine h.perm ?_
  exact List.perm_middle.symm.trans ((hpop.symm).append_left st.led.stepSkippedWaiting)

/-- The next request of the queues is not running. -/
theorem Ongoing.served_ne {st : State} {skipped : Bool} {id x : ReqId} (h : Ongoing cfg st)
    (hselect : selectWaitingQueue cfg st.sched = some (skipped, id))
    (hx : (st.sched.requests x).status = .running) : x ≠ id := by
  intro heq
  rw [heq] at hx
  exact (h.serves hselect).queued id List.mem_cons_self hx

/-- A request that is not running, with the tokens of another. -/
theorem RequestOk.requeue {r r' : Request} (h : RequestOk cfg r)
    (htokens : r'.numTokens = r.numTokens)
    (hplaceholders : r'.numOutputPlaceholders = r.numOutputPlaceholders)
    (hstatus : r'.status ≠ .running) : RequestOk cfg r' := by
  have hnonneg := h.placeholders
  have hfits := h.fits
  refine ⟨?_, ?_, fun hrun => absurd hrun hstatus⟩
  · rw [hplaceholders]
    exact hnonneg
  · rw [htokens, hplaceholders]
    exact hfits

/-- Promotion and lookup leave the request queued. -/
theorem Serving.touches {st : State} {skipped : Bool} {id : ReqId} (h : Serving cfg skipped id st)
    {s' : Scheduler} {led' : Ledger} (htouches : Touches st.sched s' id)
    (hskips : led'.stepSkippedWaiting = st.led.stepSkippedWaiting) :
    Serving cfg skipped id ⟨s', led'⟩ := by
  obtain ⟨r, hrequests, htokens, hplaceholders, hstatus⟩ := htouches.request
  obtain ⟨hwaiting, hskipped⟩ := popRequest_sameQueues skipped id htouches.queues
  have hqueued := h.queued id List.mem_cons_self
  have hstatus := hstatus hqueued
  have hok : RequestOk cfg r := (h.ok id).requeue htokens hplaceholders hstatus
  rw [Serving]
  dsimp only
  rw [hrequests, htouches.running, hwaiting, hskipped, hskips]
  exact Coherent.update h id r hok
    ⟨fun hrun => absurd hrun hstatus, fun hrun => absurd hrun hqueued⟩

theorem Serving.ongoing {st : State} {skipped : Bool} {id : ReqId} (h : Serving cfg skipped id st)
    (hmem : if skipped = true then id ∈ st.sched.skippedWaiting else id ∈ st.sched.waiting) :
    Ongoing cfg st := by
  refine Coherent.perm h ?_
  have hpop := popRequest_perm hmem
  exact (hpop.append_left st.led.stepSkippedWaiting).trans List.perm_middle

/-- The served request is set aside for the step. -/
theorem Serving.skips {st : State} {skipped : Bool} {id : ReqId} (h : Serving cfg skipped id st) :
    Ongoing cfg (skipWaiting skipped id st) := by
  rw [Ongoing, skipWaiting]
  dsimp only
  rw [popRequest_requests, popRequest_running]
  exact h

theorem Serving.loads {st : State} {skipped : Bool} {id : ReqId} {c : Computed}
    (h : Serving cfg skipped id st) : Ongoing cfg (startLoad skipped id c st) := by
  have hqueued := h.queued id List.mem_cons_self
  have hskipped := h.skips
  have hrequest : (skipWaiting skipped id st).sched.requests id = st.sched.requests id :=
    congrFun (popRequest_requests st.sched skipped id) id
  refine hskipped.update id _ ?_ ?_
  · exact (hskipped.ok id).requeue rfl rfl nofun
  · rw [hrequest]
    exact ⟨nofun, fun hrun => absurd hrun hqueued⟩

theorem Serving.admits {st st' : State} {skipped : Bool} {id : ReqId} {c : Computed}
    {a : Admission} {blocks : KVCacheBlocks} (h : Serving cfg skipped id st)
    (hleft : c.numComputedTokens < (st.sched.requests id).numTokens)
    (hadmitted : admitRequest cfg skipped id c a blocks st = .ok st') : Ongoing cfg st' := by
  obtain ⟨-, rfl⟩ := admitRequest_admits hadmitted
  have hok := h.ok id
  have hnonneg := hok.placeholders
  rw [Ongoing]
  dsimp only
  show Coherent cfg (Function.update (popRequest st.sched skipped id).requests id _) _ _
  rw [popRequest_requests, popRequest_running]
  refine Coherent.admits h ?_ rfl
  refine ⟨hok.placeholders, hok.fits, fun _ _ => ?_⟩
  dsimp only
  omega

/-! ## The turns -/

theorem admitTurn_ongoing {st st' : State} {skipped stop : Bool} {id : ReqId} {c : Computed}
    (h : Serving cfg skipped id st)
    (hmem : if skipped = true then id ∈ st.sched.skippedWaiting else id ∈ st.sched.waiting)
    (hturn : admitTurn cfg env ctx skipped id c st = .ok (st', stop)) : Ongoing cfg st' := by
  obtain ⟨planned, hplan, hturn⟩ := bind_ok hturn
  cases planned with
  | none =>
    cases hturn
    exact h.ongoing hmem
  | some a =>
    dsimp only at hturn
    have hticked : Serving cfg skipped id
        { st with led := { st.led with tick := a.plan.tick + 2 } } := h
    split at hturn
    · cases hturn
      exact hticked.ongoing hmem
    split at hturn
    · cases hturn
      exact hticked.loads
    rename_i hasync
    obtain ⟨final, hadmitted, hturn⟩ := bind_ok hturn
    cases hturn
    exact hticked.admits (planWaiting_left (Bool.eq_false_iff.mpr hasync) hplan) hadmitted

theorem openTurn_ongoing {st st' : State} {skipped stop : Bool} {id : ReqId}
    (h : Serving cfg skipped id st)
    (hmem : if skipped = true then id ∈ st.sched.skippedWaiting else id ∈ st.sched.waiting)
    (hturn : openTurn cfg env ctx skipped id st = .ok (st', stop)) : Ongoing cfg st' := by
  rw [openTurn] at hturn
  split at hturn
  · cases hturn
    exact h.skips
  obtain ⟨⟨computed, mid⟩, hlookup, hturn⟩ := bind_ok hturn
  obtain ⟨tick, hled⟩ := lookupComputed_led hlookup
  have htouches := lookupComputed_touches hlookup
  have hmid : Serving cfg skipped id mid := h.touches htouches (by rw [hled])
  cases computed with
  | none =>
    cases hturn
    exact hmid.skips
  | some c =>
    refine admitTurn_ongoing hmid ?_ hturn
    rw [htouches.queues.1, htouches.queues.2]
    exact hmem

theorem waitingTurn_ongoing {st st' : State} {skipped stop : Bool} {id : ReqId}
    (h : Ongoing cfg st) (hselect : selectWaitingQueue cfg st.sched = some (skipped, id))
    (hturn : waitingTurn cfg env ctx skipped id st = .ok (st', stop)) : Ongoing cfg st' := by
  have hserving := h.serves hselect
  have hmem := selectWaitingQueue_mem hselect
  rw [waitingTurn] at hturn
  split at hturn
  · cases hturn
    exact h
  split at hturn
  · obtain ⟨⟨promoted, sched⟩, hpromote, hturn⟩ := bind_ok hturn
    have htouches := tryPromote_touches hpromote
    have hmid : Serving cfg skipped id { st with sched := sched } := hserving.touches htouches rfl
    dsimp only at hturn
    split at hturn
    · refine openTurn_ongoing hmid ?_ hturn
      dsimp only
      rw [htouches.queues.1, htouches.queues.2]
      exact hmem
    · cases hturn
      exact hmid.skips
  · exact openTurn_ongoing hserving hmem hturn

/-! ## The step -/

theorem initialState_ongoing {s : Scheduler} (h : WellFormed cfg s) :
    Ongoing cfg (initialState cfg s) := by
  obtain ⟨turns, hbegin⟩ := beginStep_eq cfg s
  have hsched : (initialState cfg s).sched =
      { s with currentStep := s.currentStep + 1, longPrefillLastScheduled := turns } := hbegin
  rw [Ongoing]
  rw [hsched]
  exact h

/-- What was set aside goes back in front of the skipped queue. -/
theorem Ongoing.requeues {st : State} (h : Ongoing cfg st) :
    WellFormed cfg (requeueSkipped ctx st).sched := by
  have hperm : (st.sched.waiting ++
      (st.led.stepSkippedWaiting.reverse ++ st.sched.skippedWaiting)).Perm
      (st.led.stepSkippedWaiting ++ (st.sched.waiting ++ st.sched.skippedWaiting)) := by
    refine (List.perm_append_comm_assoc _ _ _).trans ?_
    exact (List.reverse_perm _).append_right _
  have hrequeued := Coherent.perm h hperm
  rw [requeueSkipped]
  dsimp only
  split
  · exact hrequeued
  · exact hrequeued

/-- The running loop of a step leaves the requests in order. -/
theorem scheduleRunning_ongoing {s : Scheduler} {throttle : Bool} {run : State}
    (h : WellFormed cfg s) (hrun : scheduleRunning cfg env throttle s = .ok run) :
    Ongoing cfg run := by
  apply runningLoop_keeps (P := Ongoing cfg) ?_ (initialState_ongoing h) hrun
  exact fun _ _ _ _ hst _ _ hturn => runningTurn_ongoing hst hturn

/-- Without a waiting loop nothing more is set aside. -/
theorem Ongoing.wellFormed {st : State} (h : Ongoing cfg st) : WellFormed cfg st.sched :=
  ⟨h.ok, h.nodup, h.running, fun id hid => h.queued id (List.mem_append_right _ hid),
    (List.nodup_append.mp h.queueNodup).2.1⟩

theorem scheduleWaiting_wellFormed {st st' : State} (h : Ongoing cfg st)
    (hwaiting : scheduleWaiting cfg env ctx st = .ok st') : WellFormed cfg st'.sched := by
  rcases scheduleWaiting_cases hwaiting with ⟨-, rfl⟩ | ⟨-, mid, hloop, rfl⟩
  · exact h.wellFormed
  · have hmid : Ongoing cfg mid := by
      apply waitingLoop_keeps (P := Ongoing cfg) ?_ ?_ hloop
      · exact fun _ _ _ _ _ hst hselect _ hturn => waitingTurn_ongoing hst hselect hturn
      · exact h
    exact hmid.requeues

/-- Aging unused turns changes the turns and their counter. -/
theorem debitUnusedLongPrefillTurns_eq (cfg : SchedulerConfig) (ctx : StepContext)
    (booked : ReqDict ℤ) (s : Scheduler) :
    ∃ wasted turns, debitUnusedLongPrefillTurns cfg ctx booked s =
      { s with longPrefillWastedTurns := wasted, longPrefillLastScheduled := turns } := by
  rw [debitUnusedLongPrefillTurns]
  split
  · exact ⟨_, _, rfl⟩
  split
  · exact ⟨_, _, rfl⟩
  rename_i hrun
  clear hrun
  induction ctx.selectedLongPrefillIds generalizing s with
  | nil => exact ⟨_, _, rfl⟩
  | cons id ids ih =>
    rw [List.foldl_cons]
    split
    · exact ih s
    · obtain ⟨wasted, turns, heq⟩ := ih { s with
        longPrefillWastedTurns := s.longPrefillWastedTurns + 1
        longPrefillLastScheduled := s.longPrefillLastScheduled.insert id s.currentStep }
      exact ⟨wasted, turns, heq⟩

/-- The flag is set while tokens are left, so a prefill keeps some to compute. -/
theorem updateAfterSchedule_wellFormed {st : State} (h : WellFormed cfg st.sched) :
    WellFormed cfg (updateAfterSchedule st) := by
  rw [updateAfterSchedule]
  have hstart : WellFormed cfg { st.sched with resetPreemptedReqIds := [] } := h
  generalize { st.sched with resetPreemptedReqIds := [] } = s at hstart
  induction st.led.numScheduledTokens.entries generalizing s with
  | nil => exact hstart
  | cons entry entries ih =>
    rw [List.foldl_cons]
    refine ih _ (hstart.update entry.1 _ ?_ Iff.rfl)
    have hok := hstart.ok entry.1
    exact ⟨hok.placeholders, hok.fits, fun _ hchunk => of_decide_eq_true hchunk⟩

end

/-- A step leaves a well-formed scheduler well formed. -/
theorem schedule_wellFormed {cfg : SchedulerConfig} {env : Env} {throttle : Bool}
    {s : Scheduler} {out : State} (h : WellFormed cfg s)
    (hstep : schedule cfg env throttle s = .ok out) : WellFormed cfg (updateAfterSchedule out) := by
  obtain ⟨running, hrunning, hstep⟩ := bind_ok hstep
  obtain ⟨st, hwaiting, hstep⟩ := bind_ok hstep
  have hst := scheduleWaiting_wellFormed (scheduleRunning_ongoing h hrunning) hwaiting
  apply updateAfterSchedule_wellFormed
  split at hstep
  · cases hstep
    obtain ⟨wasted, turns, heq⟩ := debitUnusedLongPrefillTurns_eq cfg
      (stepContext cfg throttle s) st.led.numScheduledTokens st.sched
    dsimp only
    rw [heq]
    exact hst
  · cases hstep

/-- The running prefills of a well-formed scheduler stay within their tokens and the model. -/
theorem WellFormed.prefillsPending {cfg : SchedulerConfig} {s : Scheduler}
    (h : WellFormed cfg s) : PrefillsPending cfg s := by
  intro id hid hchunk
  have hok := h.ok id
  have hleft := hok.pending (h.running id hid) hchunk
  have hfits := hok.fits
  have hsampled := cfg.numSampledTokensPerStep_le
  constructor
  · omega
  · omega

/-! ## Runs of steps -/

/-- One step of the engine: schedule, and advance what was scheduled. -/
def serve (cfg : SchedulerConfig) (s : Scheduler) (step : Env × Bool) : Except String Scheduler := do
  let out ← schedule cfg step.1 step.2 s
  return updateAfterSchedule out

/-- Every step of a run starts from pending prefills that are listed once. -/
theorem serve_wellFormed {cfg : SchedulerConfig} {s s' : Scheduler} {steps : List (Env × Bool)}
    (h : WellFormed cfg s) (hrun : steps.foldlM (serve cfg) s = .ok s') :
    WellFormed cfg s' ∧ s'.running.Nodup ∧ PrefillsPending cfg s' := by
  have hend : WellFormed cfg s' := by
    refine foldlM_ok (I := fun _ s => WellFormed cfg s) h ?_ hrun
    intro _ step mid next _ hmid hstep
    obtain ⟨out, hout, hstep⟩ := bind_ok hstep
    cases hstep
    exact schedule_wellFormed hmid hout
  exact ⟨hend, hend.nodup, hend.prefillsPending⟩

end SparkKit.Sched.StepInvariant
