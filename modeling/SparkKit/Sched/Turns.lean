import SparkKit.Sched.Selection
import SparkKit.Sched.LongPrefills

/-!
# The turns of a step

Three places give a request a turn: a booking in the running loop, an admission, and the aging
of unused turns at the end. Together they give one to every selected request, and none to a
running long prefill that was not selected.
-/
namespace SparkKit.Sched.Turns

open SparkKit.Lib.Outcome SparkKit.Sched.Requests SparkKit.Sched.StepState
open SparkKit.Sched.Running SparkKit.Sched.Waiting SparkKit.Sched.Schedule SparkKit.Sched.Frames
open SparkKit.Sched.StepInvariant SparkKit.Sched.LongPrefills SparkKit.Sched.Selection

/-- The turns given so far in the step that started from `s`. -/
structure TurnsInv (cfg : SchedulerConfig) (ctx : StepContext) (s : Scheduler) (st : State) :
    Prop where
  moved : ∀ id, st.sched.longPrefillLastScheduled.lookup id = s.longPrefillLastScheduled.lookup id ∨
    st.sched.longPrefillLastScheduled.lookup id = some s.currentStep
  booked : ∀ id ∈ st.led.numScheduledTokens, isLongPrefillRequest cfg (s.requests id) = true →
    st.sched.longPrefillLastScheduled.lookup id = some s.currentStep
  passed : ∀ id ∈ runningCandidates cfg s, id ∉ ctx.selectedLongPrefillIds →
    st.sched.longPrefillLastScheduled.lookup id = s.longPrefillLastScheduled.lookup id

section
variable {cfg : SchedulerConfig} {env : Env} {ctx : StepContext} {s : Scheduler}

/-! ## The running loop -/

/-- No turn is given and nobody is booked. -/
theorem TurnsInv.keeps {st st' : State} (h : TurnsInv cfg ctx s st)
    (hturns : st'.sched.longPrefillLastScheduled = st.sched.longPrefillLastScheduled)
    (hbooked : ∀ id ∈ st'.led.numScheduledTokens, id ∈ st.led.numScheduledTokens) :
    TurnsInv cfg ctx s st' := by
  refine ⟨?_, ?_, ?_⟩
  · rw [hturns]
    exact h.moved
  · rw [hturns]
    exact fun id hid hlong => h.booked id (hbooked id hid) hlong
  · rw [hturns]
    exact h.passed

theorem TurnsInv.allocates {st st' : State} {tick fuel : ℕ} {id : ReqId} {n : ℤ}
    {blocks : Option KVCacheBlocks} (h : TurnsInv cfg ctx s st)
    (halloc : allocateSlots cfg env fuel { st with led := { st.led with tick := tick } } id n =
      .ok (st', blocks)) : TurnsInv cfg ctx s st' := by
  apply allocateSlots_keeps (P := TurnsInv cfg ctx s) ?_ ?_ ?_ halloc
  · exact fun _ hst => hst.keeps rfl fun _ hx => hx
  · intro _ _ _ hst hone
    obtain ⟨-, -, hturns, -⟩ := preemptOne_keeps hone
    exact hst.keeps hturns fun _ hx => (preemptOne_preempts hone).booked hx
  · exact h.keeps rfl fun _ hx => hx

/-- A booked request gets a turn if it is debited, and nobody else does. -/
theorem TurnsInv.give {st st' : State} {id : ReqId} {n : ℤ} {debited : Prop} [Decidable debited]
    (h : TurnsInv cfg ctx s st)
    (hafter : st'.sched.longPrefillLastScheduled =
      if debited then st.sched.longPrefillLastScheduled.insert id s.currentStep
      else st.sched.longPrefillLastScheduled)
    (htokens : st'.led.numScheduledTokens = st.led.numScheduledTokens.insert id n)
    (hdebited : isLongPrefillRequest cfg (s.requests id) = true → debited)
    (hpassed : ¬(id ∈ runningCandidates cfg s ∧ id ∉ ctx.selectedLongPrefillIds)) :
    TurnsInv cfg ctx s st' := by
  have hothers : ∀ x, x ≠ id → st'.sched.longPrefillLastScheduled.lookup x =
      st.sched.longPrefillLastScheduled.lookup x := by
    intro x hx
    rw [hafter]
    split
    · exact AList.lookup_insert_ne hx
    · rfl
  refine ⟨fun x => ?_, fun x hx hlong => ?_, fun x hx hout => ?_⟩
  · by_cases hxid : x = id
    · subst hxid
      rw [hafter]
      split
      · exact .inr (AList.lookup_insert _)
      · exact h.moved x
    · rw [hothers x hxid]
      exact h.moved x
  · by_cases hxid : x = id
    · subst hxid
      rw [hafter, if_pos (hdebited hlong)]
      exact AList.lookup_insert _
    · rw [htokens] at hx
      rw [hothers x hxid]
      exact h.booked x (((AList.mem_insert _).mp hx).resolve_left hxid) hlong
  · by_cases hxid : x = id
    · subst hxid
      exact absurd ⟨hx, hout⟩ hpassed
    · rw [hothers x hxid]
      exact h.passed x hx hout

theorem runningTurn_turnsInv (henable : cfg.enableDecodeAwarePrefill = true)
    (hrunning : ∀ id ∈ s.running, (s.requests id).status = .running) {st st' : State} {id : ReqId}
    {stop : Bool} (hframe : RunningFrame s st) (h : TurnsInv cfg ctx s st)
    (hid : st.sched.running[st.led.reqIndex]? = some id)
    (hturn : runningTurn cfg env ctx st id = .ok (st', stop)) : TurnsInv cfg ctx s st' := by
  cases runningTurn_cases hturn with
  | skip gateSkips tick skips => exact h.keeps rfl fun _ hx => hx
  | fail hplan halloc => exact h.allocates halloc
  | @commit plan mid blocks hpass hgate hopen hplan hne halloc =>
    have hmid : RunningFrame s mid := (hframe.ticked _).allocates halloc
    have hserved : id ∈ s.running := hframe.running.subset (List.mem_of_getElem? hid)
    have hafter : (commitRunning cfg id plan blocks mid).sched.longPrefillLastScheduled =
        if budgeted cfg (mid.sched.requests id) = true ∧
            isLongPrefillRequest cfg (mid.sched.requests id) = true then
          mid.sched.longPrefillLastScheduled.insert id s.currentStep
        else mid.sched.longPrefillLastScheduled := by
      rw [← hmid.step]
      rfl
    refine (h.allocates halloc).give (n := plan.numNewTokens) hafter rfl (fun hlong => ?_) ?_
    · -- a running long prefill is a prefill chunk, so the booking is debited
      have hchunk : (mid.sched.requests id).isPrefillChunk = true := by
        rw [(hmid.task id).chunk]
        rcases (isLongPrefillRequest_iff.mp hlong).2 with ⟨-, hchunk⟩ | hqueued
        · exact hchunk
        · rw [hrunning id hserved] at hqueued
          rcases hqueued with hqueued | hqueued <;> cases hqueued
      have hbudgeted : budgeted cfg (mid.sched.requests id) = true := by
        rw [budgeted, henable, hchunk]
        rfl
      exact ⟨hbudgeted, isLongPrefillRequest_stays (hmid.task id) (hmid.status id) hlong⟩
    · intro hout
      have hlong : isLongPrefillRequest cfg (st.sched.requests id) = true :=
        isLongPrefillRequest_stays (hframe.task id) (hframe.status id) (List.mem_filter.mp hout.1).2
      rw [gated, henable, hlong] at hgate
      simp [hout.2] at hgate

theorem runningLoop_turnsInv (henable : cfg.enableDecodeAwarePrefill = true)
    (hrunning : ∀ id ∈ s.running, (s.requests id).status = .running) {fuel : ℕ} {st st' : State}
    (hframe : RunningFrame s st) (h : TurnsInv cfg ctx s st)
    (hloop : runningLoop cfg env ctx fuel st = .ok st') :
    RunningFrame s st' ∧ TurnsInv cfg ctx s st' := by
  apply runningLoop_keeps (P := fun st => RunningFrame s st ∧ TurnsInv cfg ctx s st) ?_ ⟨hframe, h⟩
    hloop
  exact fun _ _ _ _ hst hid _ hturn => ⟨runningTurn_frame hst.1 hid hturn,
    runningTurn_turnsInv henable hrunning hst.1 hst.2 hid hturn⟩

/-! ## The waiting loop -/

/-- The waiting loop serves queued requests, so running ones keep their state and their turns. -/
structure WaitingFrame (cfg : SchedulerConfig) (ctx : StepContext) (s : Scheduler) (st : State) :
    Prop where
  ongoing : Ongoing cfg st
  step : st.sched.currentStep = s.currentStep
  pause : st.sched.pauseState = s.pauseState
  task : ∀ id, SameTask (s.requests id) (st.sched.requests id)
  runs : ∀ id, (s.requests id).status = .running → (st.sched.requests id).status = .running
  turns : TurnsInv cfg ctx s st

theorem waitingTurn_frame (henable : cfg.enableDecodeAwarePrefill = true)
    (hrunning : ∀ id ∈ s.running, (s.requests id).status = .running) {st st' : State}
    {skipped stop : Bool} {id : ReqId} (h : WaitingFrame cfg ctx s st)
    (hselect : selectWaitingQueue cfg st.sched = some (skipped, id))
    (hturn : waitingTurn cfg env ctx skipped id st = .ok (st', stop)) :
    WaitingFrame cfg ctx s st' := by
  have hne : ∀ x, (s.requests x).status = .running → x ≠ id :=
    fun x hx => h.ongoing.served_ne hselect (h.runs x hx)
  have hongoing := waitingTurn_ongoing h.ongoing hselect hturn
  have heffect := waitingTurn_effect hturn
  have hruns : ∀ x, (s.requests x).status = .running → (st'.sched.requests x).status = .running := by
    intro x hx
    rw [heffect.others (hne x hx)]
    exact h.runs x hx
  generalize turnAdmission cfg env ctx id st = admission at heffect
  cases heffect with
  | stays hmoves hled =>
    refine ⟨hongoing, hmoves.step.trans h.step, hmoves.pause.trans h.pause,
      fun x => (h.task x).trans (hmoves.tasks x), hruns, h.turns.keeps hmoves.turns ?_⟩
    rw [hled]
    exact fun _ hx => hx
  | @admits mid _ tick c a blocks hmoves hled hplan hlocal hadmitted =>
    obtain ⟨hstatus, hrequests, hstep, hpause, hafter, hadmittedLed⟩ := admitRequest_ok hadmitted
    have hstatus : (mid.sched.requests id).status = .waiting ∨
        (mid.sched.requests id).status = .preempted := hstatus
    have hafter : st'.sched.longPrefillLastScheduled =
        if cfg.enableDecodeAwarePrefill = true ∧
            isLongPrefillRequest cfg (mid.sched.requests id) = true then
          st.sched.longPrefillLastScheduled.insert id s.currentStep
        else st.sched.longPrefillLastScheduled := by
      rw [hafter, ← h.step, ← hmoves.step, ← hmoves.turns]
    have htokens : st'.led.numScheduledTokens =
        st.led.numScheduledTokens.insert id a.plan.numNewTokens := by
      rw [hadmittedLed, hled]
      rfl
    have htask : ∀ x, SameTask (s.requests x) (mid.sched.requests x) :=
      fun x => (h.task x).trans (hmoves.tasks x)
    refine ⟨hongoing, (hstep.trans hmoves.step).trans h.step,
      (hpause.trans hmoves.pause).trans h.pause, fun x => ?_, hruns, ?_⟩
    · rw [hrequests]
      refine (htask x).trans (sameTask_update ?_ x)
      exact ⟨rfl, rfl, rfl⟩
    · refine h.turns.give hafter htokens (fun hlong => ?_) ?_
      · have hprompt := (isLongPrefillRequest_iff.mp hlong).1
        rw [← (htask id).prompt] at hprompt
        exact ⟨henable, isLongPrefillRequest_iff.mpr ⟨hprompt, .inr hstatus⟩⟩
      · intro hout
        exact hne id (hrunning id (List.mem_filter.mp hout.1).1) rfl

/-! ## The unused turns -/

theorem agedTurns_lookup (booked : ReqDict ℤ) (ids : List ReqId) (s : Scheduler) (id : ReqId) :
    AList.lookup id (ids.foldl (fun s id =>
      if id ∈ booked then s
      else { s with
        longPrefillWastedTurns := s.longPrefillWastedTurns + 1
        longPrefillLastScheduled := s.longPrefillLastScheduled.insert id s.currentStep })
      s).longPrefillLastScheduled =
      if id ∈ ids ∧ id ∉ booked then some s.currentStep
      else s.longPrefillLastScheduled.lookup id := by
  induction ids generalizing s with
  | nil => exact (if_neg fun h => List.not_mem_nil h.1).symm
  | cons head ids ih =>
    rw [List.foldl_cons, ih]
    by_cases hbooked : head ∈ booked
    · rw [if_pos hbooked]
      by_cases hid : id ∈ ids ∧ id ∉ booked
      · rw [if_pos hid, if_pos ⟨List.mem_cons_of_mem _ hid.1, hid.2⟩]
      · rw [if_neg hid, if_neg]
        intro h
        rcases List.mem_cons.mp h.1 with rfl | hmem
        · exact h.2 hbooked
        · exact hid ⟨hmem, h.2⟩
    · rw [if_neg hbooked]
      by_cases hhead : id = head
      · subst hhead
        rw [if_pos (show id ∈ id :: ids ∧ id ∉ booked from ⟨List.mem_cons_self, hbooked⟩)]
        split
        · rfl
        · exact AList.lookup_insert _
      · have hmem : (id ∈ head :: ids ∧ id ∉ booked) ↔ (id ∈ ids ∧ id ∉ booked) := by
          rw [List.mem_cons, or_iff_right hhead]
        rw [if_congr hmem rfl rfl]
        split
        · rfl
        · exact AList.lookup_insert_ne hhead

/-- Aging gives a turn to every selected request without tokens, and to nobody else. -/
theorem debit_lookup (cfg : SchedulerConfig) (ctx : StepContext) (booked : ReqDict ℤ)
    (s : Scheduler) (id : ReqId) :
    (debitUnusedLongPrefillTurns cfg ctx booked s).longPrefillLastScheduled.lookup id =
      if cfg.enableDecodeAwarePrefill = true ∧ ¬(ctx.deferPrefills = true ∨ s.pauseState = .pausedAll) ∧
          id ∈ ctx.selectedLongPrefillIds ∧ id ∉ booked then
        some s.currentStep
      else s.longPrefillLastScheduled.lookup id := by
  rw [debitUnusedLongPrefillTurns]
  by_cases hoff : cfg.enableDecodeAwarePrefill = false ∨ ctx.selectedLongPrefillIds = []
  · rw [if_pos hoff, if_neg]
    intro h
    rcases hoff with hoff | hnone
    · rw [h.1] at hoff
      cases hoff
    · rw [hnone] at h
      exact List.not_mem_nil h.2.2.1
  rw [if_neg hoff]
  have henable : cfg.enableDecodeAwarePrefill = true :=
    Bool.eq_true_of_not_eq_false fun heq => hoff (.inl heq)
  by_cases hclosed : ctx.deferPrefills = true ∨ s.pauseState = .pausedAll
  · rw [if_pos hclosed, if_neg fun h => h.2.1 hclosed]
  · rw [if_neg hclosed, agedTurns_lookup]
    simp only [henable, hclosed, true_and, not_false_eq_true]

end

/-! ## The step -/

/-- What a step does to the last turns. -/
structure StepTurns (cfg : SchedulerConfig) (selected : List ReqId) (s s' : Scheduler) : Prop where
  step : s'.currentStep = s.currentStep + 1
  moved : ∀ id ∈ s.active,
    s'.longPrefillLastScheduled.lookup id = s.longPrefillLastScheduled.lookup id ∨
      s'.longPrefillLastScheduled.lookup id = some (s.currentStep + 1)
  given : ∀ id ∈ selected, s'.longPrefillLastScheduled.lookup id = some (s.currentStep + 1)
  passed : ∀ id ∈ runningCandidates cfg s, id ∈ s.active → id ∉ selected →
    s'.longPrefillLastScheduled.lookup id = s.longPrefillLastScheduled.lookup id
  past : TurnsPast s → TurnsPast s'

section
variable {cfg : SchedulerConfig} {env : Env} {throttle : Bool} {s : Scheduler}

/-- The turns after both loops. -/
theorem loops_turnsInv (henable : cfg.enableDecodeAwarePrefill = true) (hwf : WellFormed cfg s)
    {run st : State} (hrun : scheduleRunning cfg env throttle s = .ok run)
    (hwaiting : scheduleWaiting cfg env (stepContext cfg throttle s) run = .ok st) :
    TurnsInv cfg (stepContext cfg throttle s) (beginStep cfg s) st ∧
      st.sched.currentStep = s.currentStep + 1 ∧ st.sched.pauseState = s.pauseState := by
  obtain ⟨hrequests, hstep, -, -, hlist⟩ := beginStep_requests cfg s
  have hpause : (beginStep cfg s).pauseState = s.pauseState := by
    obtain ⟨turns, hbegin⟩ := beginStep_eq cfg s
    rw [hbegin]
  have hrunning : ∀ id ∈ (beginStep cfg s).running,
      ((beginStep cfg s).requests id).status = .running := by
    rw [hrequests, hlist]
    exact hwf.running
  have hstart : TurnsInv cfg (stepContext cfg throttle s) (beginStep cfg s) (initialState cfg s) :=
    ⟨fun _ => .inl rfl, fun id hid => absurd hid (AList.notMem_empty id), fun _ _ _ => rfl⟩
  obtain ⟨hframe, hturns⟩ :=
    runningLoop_turnsInv henable hrunning (RunningFrame.refl cfg s) hstart hrun
  rcases scheduleWaiting_cases hwaiting with ⟨-, rfl⟩ | ⟨⟨hcalm, -⟩, mid, hloop, rfl⟩
  · exact ⟨hturns.keeps rfl fun _ hx => hx, hframe.step.trans hstep, hframe.pause.trans hpause⟩
  · have hongoing : Ongoing cfg run := scheduleRunning_ongoing hwf hrun
    have hopen : WaitingFrame cfg (stepContext cfg throttle s) (beginStep cfg s)
        (waitingStart cfg run) := by
      refine ⟨hongoing, hframe.step, hframe.pause, hframe.task, fun id hid => ?_,
        hturns.keeps rfl fun _ hx => hx⟩
      rw [← hid]
      exact hframe.calm hcalm id
    have hend : WaitingFrame cfg (stepContext cfg throttle s) (beginStep cfg s) mid := by
      apply waitingLoop_keeps
        (P := WaitingFrame cfg (stepContext cfg throttle s) (beginStep cfg s)) ?_ hopen hloop
      exact fun _ _ _ _ _ hst hselect _ hturn => waitingTurn_frame henable hrunning hst hselect hturn
    have hafter : (requeueSkipped (stepContext cfg throttle s) mid).sched.longPrefillLastScheduled =
        mid.sched.longPrefillLastScheduled ∧
        (requeueSkipped (stepContext cfg throttle s) mid).sched.currentStep = mid.sched.currentStep ∧
        (requeueSkipped (stepContext cfg throttle s) mid).sched.pauseState = mid.sched.pauseState := by
      rw [requeueSkipped]
      dsimp only
      split
      · exact ⟨rfl, rfl, rfl⟩
      · exact ⟨rfl, rfl, rfl⟩
    obtain ⟨hturned, hcount, hpaused⟩ := hafter
    exact ⟨hend.turns.keeps hturned fun _ hx => hx, (hcount.trans hend.step).trans hstep,
      (hpaused.trans hend.pause).trans hpause⟩

/-- The turns after a step that is neither deferred nor paused: those of both loops, and one for
every selected request that got no tokens. -/
theorem schedule_lookup (henable : cfg.enableDecodeAwarePrefill = true) (hwf : WellFormed cfg s)
    (hopen : (stepContext cfg throttle s).deferPrefills = false) (hunpaused : s.pauseState ≠ .pausedAll)
    {out : State} (h : schedule cfg env throttle s = .ok out) :
    ∃ st, TurnsInv cfg (stepContext cfg throttle s) (beginStep cfg s) st ∧
      out.sched.currentStep = s.currentStep + 1 ∧
      ∀ id, out.sched.longPrefillLastScheduled.lookup id =
        if id ∈ (stepContext cfg throttle s).selectedLongPrefillIds ∧
            id ∉ st.led.numScheduledTokens then some (s.currentStep + 1)
        else st.sched.longPrefillLastScheduled.lookup id := by
  obtain ⟨run, st, hrun, hwaiting, -, hout⟩ := schedule_halves h
  obtain ⟨hturns, hcount, hpaused⟩ := loops_turnsInv henable hwf hrun hwaiting
  have hclosed : ¬((stepContext cfg throttle s).deferPrefills = true ∨
      st.sched.pauseState = .pausedAll) := by
    intro hclosed
    rcases hclosed with hdefer | hpause
    · rw [hopen] at hdefer
      cases hdefer
    · exact hunpaused (hpaused.symm.trans hpause)
  refine ⟨st, hturns, ?_, fun id => ?_⟩
  · obtain ⟨wasted, turns, hdebit⟩ := debitUnusedLongPrefillTurns_eq cfg
      (stepContext cfg throttle s) st.led.numScheduledTokens st.sched
    rw [hout, hdebit]
    exact hcount
  · rw [hout, debit_lookup, hcount]
    simp only [henable, hclosed, true_and, not_false_eq_true]

/-- A step that is neither deferred nor paused gives a turn to every selected request, and to no
running long prefill that was not selected. -/
theorem schedule_turns (henable : cfg.enableDecodeAwarePrefill = true) (hwf : WellFormed cfg s)
    (hopen : (stepContext cfg throttle s).deferPrefills = false) (hunpaused : s.pauseState ≠ .pausedAll)
    {out : State} (h : schedule cfg env throttle s = .ok out) :
    StepTurns cfg (stepContext cfg throttle s).selectedLongPrefillIds s out.sched := by
  obtain ⟨st, hturns, hafter, hlookup⟩ := schedule_lookup henable hwf hopen hunpaused h
  obtain ⟨-, hstep, -, hrunning, -⟩ := beginStep_requests cfg s
  have hmoved : ∀ id, out.sched.longPrefillLastScheduled.lookup id =
        (beginStep cfg s).longPrefillLastScheduled.lookup id ∨
      out.sched.longPrefillLastScheduled.lookup id = some (s.currentStep + 1) := by
    intro id
    rw [hlookup id]
    split
    · exact .inr rfl
    · have hkept := hturns.moved id
      rw [hstep] at hkept
      exact hkept
  refine ⟨hafter, fun id hid => ?_, fun id hid => ?_, fun id hid hactive hnot => ?_, ?_⟩
  · rw [← beginStep_lookup_active hid]
    exact hmoved id
  · rw [hlookup id]
    by_cases hbooked : id ∈ st.led.numScheduledTokens
    · rw [if_neg fun h => h.2 hbooked, ← hstep]
      refine hturns.booked id hbooked ?_
      rw [stepContext_selected henable] at hid
      exact longPrefillCandidates_long (mem_candidates_of_selected hid)
    · rw [if_pos ⟨hid, hbooked⟩]
  · rw [hlookup id, if_neg fun h => hnot h.1, ← beginStep_lookup_active hactive]
    rw [← hrunning] at hid
    exact hturns.passed id hid hnot
  · intro hpast id turn hturn
    rw [hafter]
    rcases hmoved id with hsame | hnow
    · rw [hsame] at hturn
      have hle : turn ≤ (beginStep cfg s).currentStep := beginStep_turnsPast hpast id turn hturn
      rw [hstep] at hle
      exact hle
    · rw [hnow] at hturn
      exact le_of_eq (Option.some.inj hturn).symm

end

end SparkKit.Sched.Turns
