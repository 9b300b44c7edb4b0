import SparkKit.Sched.Output
import SparkKit.Sched.RunningBooks
import SparkKit.Sched.StepInvariant
import SparkKit.Sched.Frames

/-!
# Requests whose output is skipped

A step counts the tokens of a request as computed before they are. When the runner's output
does not name the request, `update_from_output` skips it and the count stays. The lost tokens are
never scheduled again, and what is left of the request is what was left beside them: for a
decode, nothing.
-/
namespace SparkKit.Sched.SkippedOutput

open SparkKit.Lib.Outcome SparkKit.Sched.Requests SparkKit.Sched.Chunk SparkKit.Sched.StepState
open SparkKit.Sched.Running SparkKit.Sched.Waiting SparkKit.Sched.Schedule SparkKit.Sched.Budget
open SparkKit.Sched.StepInvariant SparkKit.Sched.RunningBooks SparkKit.Sched.Frames
open SparkKit.Sched.Output

/-! ## Being picked up -/

/-- A turn with room for `n` tokens of a request: it is not skipped, the budgets and the model
length admit them, and neither the encoder inputs, the alignment nor the cache stand in the way. -/
structure Room (cfg : SchedulerConfig) (env : Env) (ctx : StepContext) (st : State) (id : ReqId)
    (n : ℤ) : Prop where
  reached : passedOver ctx st.sched (st.sched.requests id) = false
  ungated : gated cfg ctx (st.sched.requests id) id = false
  budget : n ≤ st.led.tokenBudget
  prefill : budgeted cfg (st.sched.requests id) = true → n ≤ remainingPrefillBudget ctx st.led
  threshold : budgeted cfg (st.sched.requests id) = false → 0 < cfg.longPrefillTokenThreshold →
    n ≤ cfg.longPrefillTokenThreshold
  length : n ≤ cfg.maxModelLen - (st.sched.requests id).numComputedTokens -
    cfg.numSampledTokensPerStep
  encoder : (st.sched.requests id).hasEncoderInputs = true → ∃ scan,
    tryScheduleEncoderInputs cfg env st.led.tick (st.sched.requests id)
      (st.sched.requests id).numComputedTokens n st.led.encoderComputeBudget
      (if cfg.useEagle = true then 1 else 0) = .ok scan ∧ scan.numNewTokens = n
  aligned : cfg.needMambaBlockAlignedSplit = true →
    mambaBlockAlignedSplit cfg (st.sched.requests id) n 0 0 = n
  cache : ∀ tick, env.allocateSlots tick id n ≠ none

/-- Any later turn of the request with room for `n` tokens schedules them. -/
def PickedUp (cfg : SchedulerConfig) (id : ReqId) (r : Request) (n : ℤ) : Prop :=
  ∀ env ctx st, st.sched.requests id = r → Room cfg env ctx st id n →
    ∃ st', runningTurn cfg env ctx st id = .ok (st', false) ∧
      st'.led.numScheduledTokens.lookup id = some n

/-- A request as it would be had the step not booked `n` of its tokens. -/
def withoutStep (r : Request) (n : ℤ) : Request :=
  { r with
    numComputedTokens := r.numComputedTokens - n
    numInFlightTokens := r.numInFlightTokens - n
    isPrefillChunk := r.numComputedTokens - n < r.numTokens + r.numOutputPlaceholders }

/-- The skipped request `r` has become `r'`: the `n` lost tokens are left again, from where they
would be left had the step not booked them, and later turns pick them up. -/
structure SchedulableAgain (cfg : SchedulerConfig) (id : ReqId) (r r' : Request) (n : ℤ) : Prop where
  positive : 0 < tokensLeft r'
  lost : tokensLeft r' = n
  computed : r'.numComputedTokens = (withoutStep r n).numComputedTokens
  pickedUp : PickedUp cfg id r' n

/-- No step schedules the request as long as nothing else changes it. -/
def NeverScheduled (cfg : SchedulerConfig) (id : ReqId) (r : Request) : Prop :=
  ∀ env throttle s out, env.WindowBounded → WellFormed cfg s → id ∈ s.running → s.requests id = r →
    schedule cfg env throttle s = .ok out → id ∉ out.led.numScheduledTokens

section
variable {cfg : SchedulerConfig} {env : Env} {ctx : StepContext} {id : ReqId}

theorem Room.tokens {st : State} {n : ℤ} (h : Room cfg env ctx st id n)
    (hleft : tokensLeft (st.sched.requests id) = n) :
    runningTokens cfg ctx st.led (st.sched.requests id) = n := by
  have hraw : (st.sched.requests id).numTokensWithSpec +
      (st.sched.requests id).numOutputPlaceholders - (st.sched.requests id).numComputedTokens = n :=
    hleft
  have hthreshold : ¬(budgeted cfg (st.sched.requests id) = false ∧
      0 < cfg.longPrefillTokenThreshold ∧ cfg.longPrefillTokenThreshold < n) :=
    fun hlong => absurd (h.threshold hlong.1 hlong.2.1) (not_le.mpr hlong.2.2)
  simp only [runningTokens]
  rw [hraw, if_neg hthreshold, min_eq_left h.budget]
  split
  · rename_i hbudgeted
    rw [min_eq_left (h.prefill hbudgeted), min_eq_left h.length]
  · rw [min_eq_left h.length]

theorem Room.plan {st : State} {n : ℤ} (h : Room cfg env ctx st id n)
    (hleft : tokensLeft (st.sched.requests id) = n) :
    ∃ plan, planRunning cfg env ctx st.led (st.sched.requests id) = .ok plan ∧
      plan.numNewTokens = n := by
  have halign : ∀ p : Plan, p.numNewTokens = n →
      (alignRunning cfg (st.sched.requests id) p).numNewTokens = n := by
    intro p hp
    rw [alignRunning]
    split
    · rename_i hmamba
      show mambaBlockAlignedSplit cfg _ p.numNewTokens 0 0 = n
      rw [hp]
      exact h.aligned hmamba
    · exact hp
  simp only [planRunning]
  rw [h.tokens hleft]
  split
  · rename_i hencoder
    obtain ⟨scan, hscan, hn⟩ := h.encoder hencoder
    rw [hscan]
    exact ⟨_, rfl, halign _ hn⟩
  · exact ⟨_, rfl, halign _ rfl⟩

/-- Exactly the tokens left are picked up. -/
theorem pickedUp_of_left {r : Request} {n : ℤ} (hpos : 0 < n) (hleft : tokensLeft r = n) :
    PickedUp cfg id r n := by
  intro env ctx st hr hroom
  rw [← hr] at hleft
  obtain ⟨plan, hplan, hn⟩ := hroom.plan hleft
  have hopen : ¬(budgeted cfg (st.sched.requests id) = true ∧
      remainingPrefillBudget ctx st.led ≤ 0) := by
    intro hclosed
    have hfits := hroom.prefill hclosed.1
    omega
  have hne : plan.numNewTokens ≠ 0 := by omega
  rw [runningTurn]
  dsimp only
  rw [if_neg (by rw [hroom.reached]; exact Bool.false_ne_true),
    if_neg (by rw [hroom.ungated]; exact Bool.false_ne_true), if_neg hopen, hplan]
  show ∃ st', (if plan.numNewTokens = 0 then _ else _) = _ ∧ _
  rw [if_neg hne, allocateSlots]
  cases hblocks : env.allocateSlots plan.tick id plan.numNewTokens with
  | none =>
    rw [hn] at hblocks
    exact absurd hblocks (hroom.cache plan.tick)
  | some blocks =>
    refine ⟨_, rfl, ?_⟩
    show AList.lookup id (st.led.numScheduledTokens.insert id plan.numNewTokens) = _
    rw [AList.lookup_insert, hn]

/-! ## Being stuck -/

/-- A running request with no token left. -/
structure Exhausted (cfg : SchedulerConfig) (s : Scheduler) (id : ReqId) : Prop where
  running : id ∈ s.running
  left : tokensLeft (s.requests id) = 0
  fits : (s.requests id).numComputedTokens + cfg.numSampledTokensPerStep ≤ cfg.maxModelLen

/-- The turn of a request with no token left plans none. -/
theorem Exhausted.plan {s : Scheduler} {led : Ledger} {plan : Plan} (h : Exhausted cfg s id)
    (hwindow : env.WindowBounded) (hbudget : 0 < led.tokenBudget)
    (hopen : budgeted cfg (s.requests id) = true → 0 < remainingPrefillBudget ctx led)
    (hplan : planRunning cfg env ctx led (s.requests id) = .ok plan) : plan.numNewTokens = 0 := by
  have hraw : (s.requests id).numTokensWithSpec + (s.requests id).numOutputPlaceholders -
      (s.requests id).numComputedTokens = 0 := h.left
  have hle : runningTokens cfg ctx led (s.requests id) ≤ 0 := by
    rw [← hraw]
    exact runningTokens_le_left
  have hnonneg : 0 ≤ runningTokens cfg ctx led (s.requests id) :=
    runningTokens_nonneg (by omega) h.fits (le_of_lt hbudget) fun hb => le_of_lt (hopen hb)
  obtain ⟨hplan0, hplanle⟩ := planRunning_le hwindow hnonneg hplan
  exact le_antisymm (hplanle.trans hle) hplan0

theorem runningTurn_exhausted {s : Scheduler} (hexhausted : Exhausted cfg s id)
    (hwindow : env.WindowBounded) {st st' : State} {x : ReqId} {stop : Bool}
    (hloop : LoopInv cfg s st) (h : id ∉ st.led.numScheduledTokens)
    (hx : st.sched.running[st.led.reqIndex]? = some x) (hbudget : 0 < st.led.tokenBudget)
    (hturn : runningTurn cfg env ctx st x = .ok (st', stop)) : id ∉ st'.led.numScheduledTokens := by
  cases runningTurn_cases hturn with
  | skip gateSkips tick skips => exact h
  | fail hplan halloc => exact fun hmem => h (allocateSlots_booked halloc hmem)
  | @commit plan mid blocks hpass hgate hopen hplan hne halloc =>
    intro hmem
    have hmem : id ∈ mid.led.numScheduledTokens.insert x plan.numNewTokens := hmem
    rcases (AList.mem_insert _).mp hmem with rfl | hmem
    · rw [(hloop.turning hx).2] at hplan hopen
      exact hne (hexhausted.plan hwindow hbudget hopen hplan)
    · exact h (allocateSlots_booked halloc hmem)

/-- A waiting turn serves a queued request, so it books no running one. -/
theorem waitingTurn_unbooked {st st' : State} {skipped stop : Bool} {x : ReqId}
    (h : Ongoing cfg st ∧ (st.sched.requests id).status = .running ∧
      id ∉ st.led.numScheduledTokens)
    (hselect : selectWaitingQueue cfg st.sched = some (skipped, x))
    (hturn : waitingTurn cfg env ctx skipped x st = .ok (st', stop)) :
    Ongoing cfg st' ∧ (st'.sched.requests id).status = .running ∧
      id ∉ st'.led.numScheduledTokens := by
  obtain ⟨hongoing, hrunning, hunbooked⟩ := h
  have hne : id ≠ x := hongoing.served_ne hselect hrunning
  have heffect := waitingTurn_effect hturn
  refine ⟨waitingTurn_ongoing hongoing hselect hturn, ?_, ?_⟩
  · rw [heffect.others hne]
    exact hrunning
  generalize turnAdmission cfg env ctx x st = admission at heffect
  cases heffect with
  | stays hmoves hled =>
    rw [hled]
    exact hunbooked
  | @admits mid _ tick c a blocks hmoves hled hplan hlocal hadmitted =>
    obtain ⟨-, -, -, -, -, hadmittedLed⟩ := admitRequest_ok hadmitted
    rw [hadmittedLed, hled]
    intro hmem
    have hmem : id ∈ st.led.numScheduledTokens.insert x a.plan.numNewTokens := hmem
    rcases (AList.mem_insert _).mp hmem with heq | hmem
    · exact hne heq
    · exact hunbooked hmem

/-- No step schedules a running request that has no token left. -/
theorem schedule_exhausted {s : Scheduler} {throttle : Bool} {out : State}
    (hexhausted : Exhausted cfg s id) (hwindow : env.WindowBounded) (hwf : WellFormed cfg s)
    (h : schedule cfg env throttle s = .ok out) : id ∉ out.led.numScheduledTokens := by
  obtain ⟨run, st, hrun, hwaiting, hled, -⟩ := schedule_halves h
  have hloops : LoopInv cfg s run ∧ id ∉ run.led.numScheduledTokens := by
    apply runningLoop_keeps (P := fun st => LoopInv cfg s st ∧ id ∉ st.led.numScheduledTokens)
      ?_ ?_ hrun
    · exact fun _ _ _ _ hst hx hbudget hturn => ⟨runningTurn_loopInv hst.1 hx hturn,
        runningTurn_exhausted hexhausted hwindow hst.1 hst.2 hx hbudget hturn⟩
    · exact ⟨initialState_loopInv hwf.nodup, AList.notMem_empty id⟩
  rw [hled]
  rcases scheduleWaiting_cases hwaiting with ⟨-, rfl⟩ | ⟨⟨hcalm, -⟩, mid, hloop, rfl⟩
  · exact hloops.2
  · have hongoing : Ongoing cfg run := scheduleRunning_ongoing hwf hrun
    have hstatus : (run.sched.requests id).status = .running := by
      rw [(runningLoop_frame (RunningFrame.refl cfg s) hrun).calm hcalm id]
      obtain ⟨turns, hbegin⟩ := beginStep_eq cfg s
      rw [hbegin]
      exact hwf.running id hexhausted.running
    have hend : Ongoing cfg mid ∧ (mid.sched.requests id).status = .running ∧
        id ∉ mid.led.numScheduledTokens := by
      apply waitingLoop_keeps (P := fun st => Ongoing cfg st ∧
        (st.sched.requests id).status = .running ∧ id ∉ st.led.numScheduledTokens) ?_ ?_ hloop
      · exact fun _ _ _ _ _ hst hselect _ hturn => waitingTurn_unbooked hst hselect hturn
      · exact ⟨hongoing, hstatus, hloops.2⟩
    exact hend.2.2

end

/-- Taking a booking back leaves what was computed before it. -/
theorem updateAfterSchedule_withoutStep {out : State} {id : ReqId} {n : ℤ}
    (hn : out.led.numScheduledTokens.lookup id = some n) :
    (withoutStep ((updateAfterSchedule out).requests id) n).numComputedTokens =
        (out.sched.requests id).numComputedTokens ∧
      (withoutStep ((updateAfterSchedule out).requests id) n).numInFlightTokens =
        (out.sched.requests id).numInFlightTokens := by
  have hbooked : (updateAfterSchedule out).requests id = bookRequest (out.sched.requests id) n := by
    rw [updateAfterSchedule_requests, hn]
    rfl
  rw [hbooked, withoutStep, bookRequest]
  constructor
  · exact add_sub_cancel_right _ _
  · exact add_sub_cancel_right _ _

section
variable {cfg : SchedulerConfig} {env : OutputEnv} {failed : List ReqId}
variable {numScheduledTokens : ReqDict ℤ} {specs : ReqDict (List ℤ)} {output : RunnerOutput}
variable {s s' : Scheduler} {id : ReqId} {n : ℤ}

/-- A skipped request keeps its counts, and had tokens booked. -/
theorem skipped_request (homitted : Omitted failed output s id)
    (hn : numScheduledTokens.lookup id = some n)
    (h : updateFromOutput cfg env failed numScheduledTokens specs output s = .ok s') :
    (s'.requests id).numComputedTokens = (s.requests id).numComputedTokens ∧
      tokensLeft (s'.requests id) = tokensLeft (s.requests id) ∧ 0 < n := by
  obtain ⟨hskipped, hscheduled⟩ := updateFromOutput_skips homitted h
  obtain ⟨inFlight, hrequest⟩ := hskipped.request
  refine ⟨?_, ?_, hscheduled ⟨id, n⟩ (AList.mem_lookup_iff.mp hn)⟩
  · rw [hrequest]
  · rw [hrequest]
    rfl

/-- A request whose output is skipped has as many tokens left as it lost, and later turns pick up
as many, exactly when it had `n` more left beside the lost ones. -/
theorem skipped_left_iff (homitted : Omitted failed output s id)
    (hn : numScheduledTokens.lookup id = some n)
    (h : updateFromOutput cfg env failed numScheduledTokens specs output s = .ok s') :
    (tokensLeft (s'.requests id) = n ∧ PickedUp cfg id (s'.requests id) n) ↔
      tokensLeft (s.requests id) = n := by
  obtain ⟨-, hleft, hpos⟩ := skipped_request homitted hn h
  rw [hleft]
  refine ⟨fun hagain => hagain.1, fun heq => ⟨heq, ?_⟩⟩
  apply pickedUp_of_left hpos
  exact hleft.trans heq

end

/-- A request whose output is skipped is never left the lost tokens again: they stay counted as
computed. With none left beside them, no later step schedules it at all. -/
theorem skipped_never_schedulable {cfg : SchedulerConfig} {env : OutputEnv} {failed : List ReqId}
    {numScheduledTokens : ReqDict ℤ} {specs : ReqDict (List ℤ)} {output : RunnerOutput}
    {s s' : Scheduler} {id : ReqId} {n : ℤ} (homitted : Omitted failed output s id)
    (hn : numScheduledTokens.lookup id = some n)
    (h : updateFromOutput cfg env failed numScheduledTokens specs output s = .ok s') :
    ¬SchedulableAgain cfg id (s.requests id) (s'.requests id) n ∧
      (tokensLeft (s.requests id) = 0 →
        (s.requests id).numComputedTokens + cfg.numSampledTokensPerStep ≤ cfg.maxModelLen →
        NeverScheduled cfg id (s'.requests id)) := by
  obtain ⟨hcomputed, hleft, hpos⟩ := skipped_request homitted hn h
  constructor
  · intro hagain
    have hback : (s'.requests id).numComputedTokens = (s.requests id).numComputedTokens - n :=
      hagain.computed
    omega
  · intro hnone hfits laterEnv throttle later out hwindow hwf hrunning hsame hlater
    refine schedule_exhausted ⟨hrunning, ?_, ?_⟩ hwindow hwf hlater
    · rw [hsame]
      exact hleft.trans hnone
    · rw [hsame, hcomputed]
      exact hfits

/-! ## Small outputs -/

/-- Components that stop nobody. -/
def smallOutputEnv : OutputEnv where
  recomputeKvLoadFailures := true
  checkStop := fun _ _ => false
  isPooling := fun _ => false
  poolerOutput := fun _ => false
  grammarRejects := fun _ _ => false
  delayFreeBlocks := fun _ => false

/-- An output that names request `1` alone, with one token. -/
def secondOutput : RunnerOutput := ⟨AList.singleton 1 0, [[5]]⟩

/-- A running request with `computed` of its `prompt` tokens computed, and beside it a decode. -/
def pairScheduler (prompt computed : ℤ) : Scheduler :=
  smallScheduler [smallRequest 0 1 prompt computed [], smallRequest 1 2 20 19 []]

/-- The scheduler after a step of which only the decode's output comes back. -/
def afterLostOutput (out : State) : Except String Scheduler :=
  updateFromOutput smallConfig smallOutputEnv [] out.led.numScheduledTokens
    out.led.scheduledSpecDecodeTokens secondOutput (updateAfterSchedule out)

instance (failed : List ReqId) (output : RunnerOutput) (s : Scheduler) (id : ReqId) :
    Decidable (Omitted failed output s id) :=
  decidable_of_iff (id ∈ s.active ∧ (s.requests id).status ≠ .finished ∧
    (s.requests id).numStaleOutputTokens ≤ 0 ∧ id ∉ failed ∧ id ∉ s.grammarCompileErrorReqs ∧
    id ∉ output.reqIdToIndex)
    ⟨fun h => ⟨h.1, h.2.1, h.2.2.1, h.2.2.2.1, h.2.2.2.2.1, h.2.2.2.2.2⟩,
      fun h => ⟨h.active, h.unfinished, h.fresh, h.loaded, h.compiled, h.absent⟩⟩

/-- Half of a prefill is lost. As many tokens are left as were lost, but not the same ones. -/
theorem skipped_never_schedulable_chunk :
    ∃ out s', schedule smallConfig (smallEnv none) false (pairScheduler 32 0) = .ok out ∧
      Omitted [] secondOutput (updateAfterSchedule out) 0 ∧
      out.led.numScheduledTokens.lookup 0 = some 16 ∧
      out.led.numScheduledTokens.lookup 1 = some 1 ∧ afterLostOutput out = .ok s' ∧
      tokensLeft (s'.requests 0) = 16 ∧ tokensLeft (s'.requests 1) = 1 ∧
      ¬SchedulableAgain smallConfig 0 ((updateAfterSchedule out).requests 0) (s'.requests 0) 16 := by
  have hstep : (schedule smallConfig (smallEnv none) false (pairScheduler 32 0)).bind (fun out =>
      (afterLostOutput out).map fun s' =>
        (decide (Omitted [] secondOutput (updateAfterSchedule out) 0),
          out.led.numScheduledTokens.lookup 0, out.led.numScheduledTokens.lookup 1,
          tokensLeft (s'.requests 0), tokensLeft (s'.requests 1))) =
        .ok (true, some 16, some 1, 16, 1) := by
    decide +kernel
  obtain ⟨out, hout, hstep⟩ := bind_ok hstep
  cases hlost : afterLostOutput out with
  | error e =>
    rw [hlost] at hstep
    cases hstep
  | ok s' =>
    rw [hlost] at hstep
    obtain ⟨homitted, hrest⟩ := Prod.mk.inj (Except.ok.inj hstep)
    obtain ⟨hn, hrest⟩ := Prod.mk.inj hrest
    obtain ⟨hother, hrest⟩ := Prod.mk.inj hrest
    obtain ⟨hleft, hdecode⟩ := Prod.mk.inj hrest
    have homitted := of_decide_eq_true homitted
    exact ⟨out, s', hout, homitted, hn, hother, hlost, hleft, hdecode,
      (skipped_never_schedulable homitted hn hlost).1⟩

/-- A decode loses the output of its only token: nothing is left of it, and the next step
schedules the other decode and not this one. -/
theorem skipped_not_schedulable :
    ∃ out s' later, schedule smallConfig (smallEnv none) false (pairScheduler 9 8) = .ok out ∧
      Omitted [] secondOutput (updateAfterSchedule out) 0 ∧
      out.led.numScheduledTokens.lookup 0 = some 1 ∧ afterLostOutput out = .ok s' ∧
      ¬0 < tokensLeft (s'.requests 0) ∧
      ¬SchedulableAgain smallConfig 0 ((updateAfterSchedule out).requests 0) (s'.requests 0) 1 ∧
      0 ∈ s'.running ∧ schedule smallConfig (smallEnv none) false s' = .ok later ∧
      later.led.numScheduledTokens.keys = [1] := by
  have hstep : (schedule smallConfig (smallEnv none) false (pairScheduler 9 8)).bind (fun out =>
      (afterLostOutput out).bind fun s' =>
        (schedule smallConfig (smallEnv none) false s').map fun later =>
          (decide (Omitted [] secondOutput (updateAfterSchedule out) 0),
            out.led.numScheduledTokens.lookup 0, tokensLeft (s'.requests 0),
            decide (0 ∈ s'.running), later.led.numScheduledTokens.keys)) =
        .ok (true, some 1, 0, true, [1]) := by
    decide +kernel
  obtain ⟨out, hout, hstep⟩ := bind_ok hstep
  obtain ⟨s', hlost, hstep⟩ := bind_ok hstep
  cases hlater : schedule smallConfig (smallEnv none) false s' with
  | error e =>
    rw [hlater] at hstep
    cases hstep
  | ok later =>
    rw [hlater] at hstep
    obtain ⟨homitted, hrest⟩ := Prod.mk.inj (Except.ok.inj hstep)
    obtain ⟨hn, hrest⟩ := Prod.mk.inj hrest
    obtain ⟨hleft, hrest⟩ := Prod.mk.inj hrest
    obtain ⟨hrunning, hnext⟩ := Prod.mk.inj hrest
    have hnone : ¬0 < tokensLeft (s'.requests 0) := by
      rw [hleft]
      exact lt_irrefl 0
    exact ⟨out, s', later, hout, of_decide_eq_true homitted, hn, hlost, hnone,
      fun hagain => hnone hagain.positive, of_decide_eq_true hrunning, hlater,
      hnext⟩

end SparkKit.Sched.SkippedOutput
