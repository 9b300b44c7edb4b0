import SparkKit.Sched.Schedule

/-!
# What the loops leave alone

No turn changes a request's prompt, its arrival or whether it is a prefill chunk, and only an
admission or a booking gives a request a turn. A turn of the waiting loop changes one request
and nothing else, except that it may admit it.
-/
namespace SparkKit.Sched.Frames

open SparkKit.Lib.Outcome SparkKit.Sched.Requests SparkKit.Sched.StepState
open SparkKit.Sched.Running SparkKit.Sched.Waiting SparkKit.Sched.Schedule

/-- What no turn changes of a request. -/
structure SameTask (r r' : Request) : Prop where
  prompt : r'.numPromptTokens = r.numPromptTokens
  arrival : r'.arrivalTime = r.arrivalTime
  chunk : r'.isPrefillChunk = r.isPrefillChunk

theorem SameTask.refl (r : Request) : SameTask r r := ⟨rfl, rfl, rfl⟩

theorem SameTask.trans {r r' r'' : Request} (h : SameTask r r') (h' : SameTask r' r'') :
    SameTask r r'' :=
  ⟨h'.prompt.trans h.prompt, h'.arrival.trans h.arrival, h'.chunk.trans h.chunk⟩

/-- Changing one request's other fields leaves every task the same. -/
theorem sameTask_update {requests : ReqId → Request} {id : ReqId} {r : Request}
    (h : SameTask (requests id) r) (x : ReqId) :
    SameTask (requests x) (Function.update requests id r x) := by
  by_cases hx : x = id
  · subst hx
    rw [Function.update_self]
    exact h
  · rw [Function.update_of_ne hx]
    exact .refl _

/-! ## The running loop -/

/-- What the running loop leaves alone, and what a step without preemptions does. -/
structure RunningFrame (s : Scheduler) (st : State) : Prop where
  running : st.sched.running.Sublist s.running
  scheduled : ∀ id ∈ st.led.scheduledRunningReqs, id ∈ s.running
  step : st.sched.currentStep = s.currentStep
  pause : st.sched.pauseState = s.pauseState
  task : ∀ id, SameTask (s.requests id) (st.sched.requests id)
  status : ∀ id, (st.sched.requests id).status = (s.requests id).status ∨
    (st.sched.requests id).status = .preempted
  calm : st.led.preemptedReqs = [] →
    ∀ id, (st.sched.requests id).status = (s.requests id).status

section
variable {cfg : SchedulerConfig} {env : Env} {ctx : StepContext} {s : Scheduler}

/-- The fields of the scheduler that a preemption keeps. -/
theorem preemptOne_keeps {st st' : State} {victim : ReqId}
    (h : preemptOne cfg st = .ok (st', victim)) :
    st'.sched.currentStep = st.sched.currentStep ∧ st'.sched.pauseState = st.sched.pauseState ∧
      st'.sched.longPrefillLastScheduled = st.sched.longPrefillLastScheduled ∧
      st'.led.preemptedReqs ≠ [] := by
  obtain ⟨-, -, rfl⟩ := preemptOne_ok h
  rw [dropRunning]
  cases cfg.policy with
  | fcfs => exact ⟨rfl, rfl, rfl, by simp⟩
  | priority => exact ⟨rfl, rfl, rfl, by simp⟩

theorem RunningFrame.refl (cfg : SchedulerConfig) (s : Scheduler) :
    RunningFrame (beginStep cfg s) (initialState cfg s) :=
  ⟨List.Sublist.refl _, fun _ hid => absurd hid List.not_mem_nil, rfl, rfl, fun _ => .refl _,
    fun _ => .inl rfl, fun _ _ => rfl⟩

theorem RunningFrame.preempts {st st' : State} {victim : ReqId} (h : RunningFrame s st)
    (hone : preemptOne cfg st = .ok (st', victim)) : RunningFrame s st' := by
  have hp := preemptOne_preempts hone
  obtain ⟨hstep, hpause, -, hsome⟩ := preemptOne_keeps hone
  obtain ⟨led, hled, hledger⟩ := hp.ledger
  refine ⟨hp.running.trans h.running, ?_, hstep.trans h.step, hpause.trans h.pause, ?_, ?_,
    fun hnone => absurd hnone hsome⟩
  · intro id hid
    rw [hledger] at hid
    rcases hled with rfl | rfl
    · exact h.scheduled id hid
    · exact h.scheduled id (List.mem_of_mem_erase hid)
  · intro id
    have hvictim : SameTask (st.sched.requests victim)
        (preempted cfg (st.sched.requests victim)) := ⟨rfl, rfl, rfl⟩
    rw [hp.requests]
    exact (h.task id).trans (sameTask_update hvictim id)
  · intro id
    by_cases hid : id = victim
    · subst hid
      rw [hp.victim]
      exact .inr rfl
    · rw [hp.others hid]
      exact h.status id

theorem RunningFrame.ticked {st : State} (h : RunningFrame s st) (tick : ℕ) :
    RunningFrame s { st with led := { st.led with tick := tick } } :=
  ⟨h.running, h.scheduled, h.step, h.pause, h.task, h.status, h.calm⟩

theorem RunningFrame.allocates {st st' : State} {fuel : ℕ} {id : ReqId} {n : ℤ}
    {blocks : Option KVCacheBlocks} (h : RunningFrame s st)
    (halloc : allocateSlots cfg env fuel st id n = .ok (st', blocks)) : RunningFrame s st' :=
  allocateSlots_keeps (P := RunningFrame s)
    (fun _ hst => hst.ticked _) (fun _ _ _ hst hone => hst.preempts hone) h halloc

theorem RunningFrame.commits {st : State} {id : ReqId} {plan : Plan} {blocks : KVCacheBlocks}
    (h : RunningFrame s st) (hid : id ∈ s.running) :
    RunningFrame s (commitRunning cfg id plan blocks st) := by
  have hbooked : SameTask (st.sched.requests id)
      { st.sched.requests id with specTokenIds := [] } := ⟨rfl, rfl, rfl⟩
  have hstatus : ∀ x, ((commitRunning cfg id plan blocks st).sched.requests x).status =
      (st.sched.requests x).status := by
    intro x
    show (Function.update st.sched.requests id _ x).status = _
    by_cases hx : x = id
    · subst hx
      rw [Function.update_self]
    · rw [Function.update_of_ne hx]
  refine ⟨h.running, ?_, h.step, h.pause, ?_, ?_, ?_⟩
  · intro x hx
    have hx : x ∈ st.led.scheduledRunningReqs ++ [id] := hx
    rcases List.mem_append.mp hx with hx | hx
    · exact h.scheduled x hx
    · rw [List.mem_singleton.mp hx]
      exact hid
  · exact fun x => (h.task x).trans (sameTask_update hbooked x)
  · intro x
    rw [hstatus x]
    exact h.status x
  · intro hnone x
    rw [hstatus x]
    exact h.calm hnone x

theorem runningTurn_frame {st st' : State} {id : ReqId} {stop : Bool} (h : RunningFrame s st)
    (hid : st.sched.running[st.led.reqIndex]? = some id)
    (hturn : runningTurn cfg env ctx st id = .ok (st', stop)) : RunningFrame s st' := by
  cases runningTurn_cases hturn with
  | skip gateSkips tick skips =>
    exact ⟨h.running, h.scheduled, h.step, h.pause, h.task, h.status, h.calm⟩
  | fail hplan halloc => exact (h.ticked _).allocates halloc
  | commit hpass hgate hopen hplan hne halloc =>
    exact ((h.ticked _).allocates halloc).commits (h.running.subset (List.mem_of_getElem? hid))

theorem runningLoop_frame {fuel : ℕ} {st st' : State} (h : RunningFrame s st)
    (hloop : runningLoop cfg env ctx fuel st = .ok st') : RunningFrame s st' :=
  runningLoop_keeps (P := RunningFrame s)
    (fun _ _ _ _ hst hid _ hturn => runningTurn_frame hst hid hturn) h hloop

end

/-! ## A turn of the waiting loop -/

/-- Only one request changes, and not its task. -/
structure Moves (s s' : Scheduler) (id : ReqId) : Prop where
  others : ∀ x, x ≠ id → s'.requests x = s.requests x
  task : SameTask (s.requests id) (s'.requests id)
  running : s'.running = s.running
  step : s'.currentStep = s.currentStep
  pause : s'.pauseState = s.pauseState
  turns : s'.longPrefillLastScheduled = s.longPrefillLastScheduled

theorem Moves.refl (s : Scheduler) (id : ReqId) : Moves s s id :=
  ⟨fun _ _ => rfl, .refl _, rfl, rfl, rfl, rfl⟩

theorem Moves.trans {s s' s'' : Scheduler} {id : ReqId} (h : Moves s s' id) (h' : Moves s' s'' id) :
    Moves s s'' id :=
  ⟨fun x hx => (h'.others x hx).trans (h.others x hx), h.task.trans h'.task,
    h'.running.trans h.running, h'.step.trans h.step, h'.pause.trans h.pause,
    h'.turns.trans h.turns⟩

/-- A change of one request's other fields. -/
theorem Moves.set {s s' : Scheduler} {id : ReqId} {r : Request} (h : Moves s s' id)
    (hr : SameTask (s'.requests id) r) : Moves s (s'.setRequest id r) id := by
  refine h.trans ⟨fun x hx => Function.update_of_ne hx _ _, ?_, rfl, rfl, rfl, rfl⟩
  show SameTask _ (Function.update s'.requests id r id)
  rw [Function.update_self]
  exact hr

/-- No task changes. -/
theorem Moves.tasks {s s' : Scheduler} {id : ReqId} (h : Moves s s' id) (x : ReqId) :
    SameTask (s.requests x) (s'.requests x) := by
  by_cases hx : x = id
  · subst hx
    exact h.task
  · rw [h.others x hx]
    exact .refl _

theorem Moves.pop {s : Scheduler} (skipped : Bool) (id : ReqId) :
    Moves s (popRequest s skipped id) id := by
  cases skipped with
  | true => exact ⟨fun _ _ => rfl, .refl _, rfl, rfl, rfl, rfl⟩
  | false => exact ⟨fun _ _ => rfl, .refl _, rfl, rfl, rfl, rfl⟩

/-- An admission as it is planned. -/
structure Planned where
  id : ReqId
  led : Ledger
  request : Request
  computed : Computed
  admission : Admission

/-- What `openTurn` admits. -/
def openAdmission (cfg : SchedulerConfig) (env : Env) (ctx : StepContext) (id : ReqId) (st : State) :
    Option Planned :=
  if skipsRequest cfg st.led (st.sched.requests id) = true then none
  else
    match lookupComputed cfg env st id with
    | .ok (some c, st') =>
        match planWaiting cfg env ctx st'.led (st'.sched.requests id) c with
        | .ok (some a) =>
            match env.allocateSlots a.plan.tick id a.plan.numNewTokens with
            | none => none
            | some _ =>
                if c.loadKvAsync = true then none
                else some ⟨id, st'.led, st'.sched.requests id, c, a⟩
        | _ => none
    | _ => none

/-- What `waitingTurn` admits. -/
def turnAdmission (cfg : SchedulerConfig) (env : Env) (ctx : StepContext) (id : ReqId) (st : State) :
    Option Planned :=
  if st.sched.running.length + st.sched.numWaitingForStreamingInput ≥ cfg.maxNumRunningReqs then none
  else if (st.sched.requests id).status.isBlockedWaiting = true then
    match tryPromoteBlockedWaitingRequest st.sched id with
    | .ok (true, sched) => openAdmission cfg env ctx id { st with sched := sched }
    | _ => none
  else openAdmission cfg env ctx id st

/-- What `waitingLoop` admits, in order. -/
def loopAdmissions (cfg : SchedulerConfig) (env : Env) (ctx : StepContext) :
    ℕ → State → List Planned
  | 0, _ => []
  | fuel + 1, st =>
      match selectWaitingQueue cfg st.sched with
      | none => []
      | some (skipped, id) =>
          if st.led.tokenBudget > 0 then
            (turnAdmission cfg env ctx id st).toList ++
              match waitingTurn cfg env ctx skipped id st with
              | .ok (st', false) => loopAdmissions cfg env ctx fuel st'
              | _ => []
          else []

/-- The state the waiting loop starts from. -/
def waitingStart (cfg : SchedulerConfig) (st : State) : State :=
  { st with led := { st.led with scheduledLoras := runningLoras cfg st } }

/-- What a step admits, in order. -/
def stepAdmissions (cfg : SchedulerConfig) (env : Env) (throttle : Bool) (s : Scheduler) :
    List Planned :=
  match scheduleRunning cfg env throttle s with
  | .error _ => []
  | .ok st =>
      if st.led.preemptedReqs = [] ∧ st.sched.pauseState = .unpaused then
        loopAdmissions cfg env (stepContext cfg throttle s)
          (st.sched.waiting.length + st.sched.skippedWaiting.length) (waitingStart cfg st)
      else []

/-- What a waiting turn does to its request: it stays queued or is set aside, or it is planned
and admitted. -/
inductive WaitingEffect (cfg : SchedulerConfig) (env : Env) (ctx : StepContext) (skipped : Bool)
    (st : State) (id : ReqId) : State → Bool → Option Planned → Prop
  | stays {st' : State} {stop : Bool} {tick : ℕ} {aside : List ReqId}
      (hmoves : Moves st.sched st'.sched id)
      (hled : st'.led = { st.led with tick := tick, stepSkippedWaiting := aside }) :
      WaitingEffect cfg env ctx skipped st id st' stop none
  | admits {mid st' : State} {tick : ℕ} {c : Computed} {a : Admission} {blocks : KVCacheBlocks}
      (hmoves : Moves st.sched mid.sched id)
      (hled : mid.led = { st.led with tick := tick })
      (hplan : planWaiting cfg env ctx mid.led (mid.sched.requests id) c = .ok (some a))
      (hlocal : c.loadKvAsync = false)
      (hadmitted : admitRequest cfg skipped id c a blocks
        { mid with led := { mid.led with tick := a.plan.tick + 2 } } = .ok st') :
      WaitingEffect cfg env ctx skipped st id st' false
        (some ⟨id, mid.led, mid.sched.requests id, c, a⟩)

section
variable {cfg : SchedulerConfig} {env : Env} {ctx : StepContext}

theorem tryPromote_moves {s s' : Scheduler} {id : ReqId} {promoted : Bool}
    (h : tryPromoteBlockedWaitingRequest s id = .ok (promoted, s')) : Moves s s' id := by
  have hreceived : Moves s (updateWaitingForRemoteKv s id) id := by
    simp only [updateWaitingForRemoteKv]
    split
    · exact ⟨fun _ _ => rfl, .refl _, rfl, rfl, rfl, rfl⟩
    split
    · have hset : Moves s (s.setRequest id
          { s.requests id with numComputedTokens := (s.requests id).numTokens - 1 }) id :=
        (Moves.refl s id).set ⟨rfl, rfl, rfl⟩
      exact ⟨hset.others, hset.task, rfl, rfl, rfl, rfl⟩
    · exact ⟨fun _ _ => rfl, .refl _, rfl, rfl, rfl, rfl⟩
  rw [tryPromoteBlockedWaitingRequest] at h
  dsimp only at h
  split at h
  · split at h
    · cases h
      exact hreceived.set ⟨rfl, rfl, rfl⟩
    · cases h
      exact .refl s id
  · split at h
    · cases h
      exact .refl s id
    · cases h
      exact ⟨fun _ _ => rfl, .refl _, rfl, rfl, rfl, rfl⟩
    · cases h
      exact (Moves.refl s id).set ⟨rfl, rfl, rfl⟩
  · split at h
    · cases h
    · cases h
      exact .refl s id
  · cases h

theorem lookupComputed_moves {st st' : State} {id : ReqId} {c : Option Computed}
    (h : lookupComputed cfg env st id = .ok (c, st')) : Moves st.sched st'.sched id := by
  have hlooked : ∀ boundary, Moves st.sched (afterLookup id boundary st).sched id :=
    fun _ => (Moves.refl st.sched id).set ⟨rfl, rfl, rfl⟩
  rw [lookupComputed] at h
  dsimp only at h
  split at h
  swap
  · cases h
    exact .refl _ id
  split at h
  · cases h
    exact hlooked _
  split at h
  · cases h
  split at h
  · cases h
    exact hlooked _
  split at h
  · cases h
  · cases h
    exact hlooked _

theorem WaitingEffect.aside {st mid : State} {skipped : Bool} {id : ReqId} {tick : ℕ}
    (hmoves : Moves st.sched mid.sched id) (hled : mid.led = { st.led with tick := tick }) :
    WaitingEffect cfg env ctx skipped st id (skipWaiting skipped id mid) false none := by
  have hskipped : (skipWaiting skipped id mid).led =
      { st.led with tick := tick, stepSkippedWaiting := id :: st.led.stepSkippedWaiting } := by
    show ({ mid.led with stepSkippedWaiting := id :: mid.led.stepSkippedWaiting } : Ledger) = _
    rw [hled]
  exact .stays (hmoves.trans (Moves.pop skipped id)) hskipped

theorem openTurn_effect {st mid st' : State} {skipped stop : Bool} {id : ReqId}
    (hmoves : Moves st.sched mid.sched id) (hled : mid.led = st.led)
    (h : openTurn cfg env ctx skipped id mid = .ok (st', stop)) :
    WaitingEffect cfg env ctx skipped st id st' stop (openAdmission cfg env ctx id mid) := by
  rw [openTurn] at h
  rw [openAdmission]
  by_cases hskip : skipsRequest cfg mid.led (mid.sched.requests id) = true
  · rw [if_pos hskip] at h ⊢
    cases h
    exact .aside hmoves hled
  rw [if_neg hskip] at h ⊢
  obtain ⟨⟨computed, looked⟩, hlookup, h⟩ := bind_ok h
  obtain ⟨tick, hlooked⟩ := lookupComputed_led hlookup
  have hmoved := hmoves.trans (lookupComputed_moves hlookup)
  rw [hled] at hlooked
  rw [hlookup]
  cases computed with
  | none =>
    cases h
    exact .aside hmoved hlooked
  | some c =>
    obtain ⟨planned, hplan, h⟩ := bind_ok h
    dsimp only
    rw [hplan]
    have hstays : ∀ tick' aside,
        ({ looked.led with tick := tick', stepSkippedWaiting := aside } : Ledger) =
          { st.led with tick := tick', stepSkippedWaiting := aside } := by
      intro tick' aside
      rw [hlooked]
    cases planned with
    | none =>
      cases h
      exact .stays hmoved hlooked
    | some a =>
      dsimp only at h ⊢
      cases halloc : env.allocateSlots a.plan.tick id a.plan.numNewTokens with
      | none =>
        rw [halloc] at h
        cases h
        exact .stays hmoved (hstays _ looked.led.stepSkippedWaiting)
      | some blocks =>
        rw [halloc] at h
        dsimp only at h ⊢
        by_cases hasync : c.loadKvAsync = true
        · rw [if_pos hasync] at h ⊢
          cases h
          exact .stays (hmoved.trans ((Moves.pop skipped id).set ⟨rfl, rfl, rfl⟩))
            (hstays _ (id :: looked.led.stepSkippedWaiting))
        · rw [if_neg hasync] at h ⊢
          obtain ⟨final, hadmitted, h⟩ := bind_ok h
          cases h
          exact .admits hmoved hlooked hplan (Bool.eq_false_iff.mpr hasync) hadmitted

theorem waitingTurn_effect {st st' : State} {skipped stop : Bool} {id : ReqId}
    (h : waitingTurn cfg env ctx skipped id st = .ok (st', stop)) :
    WaitingEffect cfg env ctx skipped st id st' stop (turnAdmission cfg env ctx id st) := by
  rw [waitingTurn] at h
  rw [turnAdmission]
  by_cases hfull : st.sched.running.length + st.sched.numWaitingForStreamingInput ≥
      cfg.maxNumRunningReqs
  · rw [if_pos hfull] at h ⊢
    cases h
    exact .stays (.refl _ id) rfl
  rw [if_neg hfull] at h ⊢
  by_cases hblocked : (st.sched.requests id).status.isBlockedWaiting = true
  · rw [if_pos hblocked] at h ⊢
    obtain ⟨⟨promoted, sched⟩, hpromote, h⟩ := bind_ok h
    have hmoves : Moves st.sched ({ st with sched := sched } : State).sched id :=
      tryPromote_moves hpromote
    rw [hpromote]
    cases promoted with
    | true => exact openTurn_effect hmoves rfl h
    | false =>
      cases h
      exact .aside hmoves rfl
  · rw [if_neg hblocked] at h ⊢
    exact openTurn_effect (.refl _ id) rfl h

/-- What every turn keeps of a state and its admissions, the loop keeps. -/
theorem waitingLoop_logs {R : List Planned → State → Prop}
    (hturn : ∀ ps st st' skipped id stop, R ps st →
      selectWaitingQueue cfg st.sched = some (skipped, id) → 0 < st.led.tokenBudget →
      waitingTurn cfg env ctx skipped id st = .ok (st', stop) →
      R (ps ++ (turnAdmission cfg env ctx id st).toList) st')
    {fuel : ℕ} {ps : List Planned} {st st' : State} (h : R ps st)
    (hloop : waitingLoop cfg env ctx fuel st = .ok st') :
    R (ps ++ loopAdmissions cfg env ctx fuel st) st' := by
  induction fuel generalizing ps st with
  | zero =>
    cases hloop
    rw [loopAdmissions, List.append_nil]
    exact h
  | succ fuel ih =>
    rw [waitingLoop] at hloop
    rw [loopAdmissions]
    cases hselect : selectWaitingQueue cfg st.sched with
    | none =>
      rw [hselect] at hloop
      cases hloop
      rw [List.append_nil]
      exact h
    | some next =>
      obtain ⟨skipped, id⟩ := next
      rw [hselect] at hloop
      dsimp only at hloop ⊢
      by_cases hbudget : st.led.tokenBudget > 0
      swap
      · rw [if_neg hbudget] at hloop ⊢
        cases hloop
        rw [List.append_nil]
        exact h
      rw [if_pos hbudget] at hloop ⊢
      obtain ⟨⟨mid, stop⟩, hone, hloop⟩ := bind_ok hloop
      have hmid := hturn _ _ _ _ _ _ h hselect hbudget hone
      rw [hone, ← List.append_assoc]
      cases stop with
      | true =>
        cases hloop
        rw [List.append_nil]
        exact hmid
      | false => exact ih hmid hloop

/-- An admission sets its request running with a place on the books. -/
theorem admitRequest_ok {st st' : State} {skipped : Bool} {id : ReqId} {c : Computed}
    {a : Admission} {blocks : KVCacheBlocks}
    (h : admitRequest cfg skipped id c a blocks st = .ok st') :
    ((st.sched.requests id).status = .waiting ∨ (st.sched.requests id).status = .preempted) ∧
      st'.sched.requests = Function.update st.sched.requests id
        { st.sched.requests id with status := .running, numComputedTokens := c.numComputedTokens } ∧
      st'.sched.currentStep = st.sched.currentStep ∧ st'.sched.pauseState = st.sched.pauseState ∧
      st'.sched.longPrefillLastScheduled =
        (if cfg.enableDecodeAwarePrefill = true ∧
            isLongPrefillRequest cfg (st.sched.requests id) = true then
          st.sched.longPrefillLastScheduled.insert id st.sched.currentStep
        else st.sched.longPrefillLastScheduled) ∧
      st'.led = admitLedger cfg (st.sched.requests id) id a blocks st.led := by
  obtain ⟨hstatus, rfl⟩ := admitRequest_admits h
  refine ⟨hstatus, ?_, ?_, ?_, ?_, rfl⟩
  · show Function.update (popRequest st.sched skipped id).requests id _ = _
    rw [popRequest_requests]
  · exact (Moves.pop skipped id).step
  · exact (Moves.pop skipped id).pause
  · show (if _ then _ else _) = _
    rw [(Moves.pop skipped id).turns, (Moves.pop skipped id).step]

/-- A turn leaves every other request as it is. -/
theorem WaitingEffect.others {st st' : State} {skipped stop : Bool} {id x : ReqId}
    {admission : Option Planned} (h : WaitingEffect cfg env ctx skipped st id st' stop admission)
    (hx : x ≠ id) : st'.sched.requests x = st.sched.requests x := by
  cases h with
  | stays hmoves hled => exact hmoves.others x hx
  | admits hmoves hled hplan hlocal hadmitted =>
    obtain ⟨-, hrequests, -⟩ := admitRequest_ok hadmitted
    rw [hrequests, Function.update_of_ne hx]
    exact hmoves.others x hx

/-! ## The halves of a step -/

/-- The waiting half: nothing after a preemption or in a pause, or else the loop. -/
theorem scheduleWaiting_cases {st st' : State} (h : scheduleWaiting cfg env ctx st = .ok st') :
    (¬(st.led.preemptedReqs = [] ∧ st.sched.pauseState = .unpaused) ∧ st' = waitingStart cfg st) ∨
      (st.led.preemptedReqs = [] ∧ st.sched.pauseState = .unpaused) ∧ ∃ mid,
        waitingLoop cfg env ctx (st.sched.waiting.length + st.sched.skippedWaiting.length)
          (waitingStart cfg st) = .ok mid ∧ st' = requeueSkipped ctx mid := by
  rw [scheduleWaiting] at h
  dsimp only at h
  split at h
  · cases h
  split at h
  · rename_i hopen
    obtain ⟨mid, hloop, h⟩ := bind_ok h
    cases h
    exact .inr ⟨hopen, mid, hloop, rfl⟩
  · rename_i hclosed
    cases h
    exact .inl ⟨hclosed, rfl⟩

/-- A step is its running half, its waiting half and the aging of the turns. -/
theorem schedule_halves {throttle : Bool} {s : Scheduler} {out : State}
    (h : schedule cfg env throttle s = .ok out) :
    ∃ running st, scheduleRunning cfg env throttle s = .ok running ∧
      scheduleWaiting cfg env (stepContext cfg throttle s) running = .ok st ∧ out.led = st.led ∧
      out.sched = debitUnusedLongPrefillTurns cfg (stepContext cfg throttle s)
        st.led.numScheduledTokens st.sched := by
  obtain ⟨running, hrunning, h⟩ := bind_ok h
  obtain ⟨st, hwaiting, h⟩ := bind_ok h
  split at h
  · cases h
    exact ⟨running, st, hrunning, hwaiting, rfl, rfl⟩
  · cases h

end

end SparkKit.Sched.Frames
