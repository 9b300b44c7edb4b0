import SparkKit.Sched.Frames
import SparkKit.Sched.StepInvariant

/-!
# The cap on long prefills

The selection names at most `max_long_prefills_per_step` requests, and the running loop books
no other long prefill. The waiting loop does not look at it.
-/
namespace SparkKit.Sched.LongPrefills

open SparkKit.Lib.Outcome SparkKit.Sched.Requests SparkKit.Sched.StepState
open SparkKit.Sched.Running SparkKit.Sched.Waiting SparkKit.Sched.Schedule SparkKit.Sched.Frames
open SparkKit.Sched.StepInvariant

/-- The requests that are long prefills when the step starts and get tokens in it. -/
def longScheduled (cfg : SchedulerConfig) (s : Scheduler) (led : Ledger) : List ReqId :=
  led.numScheduledTokens.keys.filter fun id => isLongPrefillRequest cfg (s.requests id)

/-- The requests newly admitted from the waiting queues. -/
def admittedReqs (led : Ledger) : List ReqId := led.scheduledNewReqs ++ led.scheduledResumedReqs

/-- A long prefill on the books has a turn, or it was admitted. -/
def TurnsHeld (cfg : SchedulerConfig) (ctx : StepContext) (s : Scheduler) (led : Ledger) : Prop :=
  ∀ id ∈ led.numScheduledTokens, isLongPrefillRequest cfg (s.requests id) = true →
    id ∈ ctx.selectedLongPrefillIds ∨ id ∈ admittedReqs led

section
variable {cfg : SchedulerConfig} {env : Env} {ctx : StepContext} {s : Scheduler}

theorem isLongPrefillRequest_iff {r : Request} :
    isLongPrefillRequest cfg r = true ↔
      cfg.longPrefillTokenThreshold < r.numPromptTokens ∧
        (r.status = .running ∧ r.isPrefillChunk = true ∨ r.status = .waiting ∨
          r.status = .preempted) := by
  rw [isLongPrefillRequest]
  split
  · rename_i hshort
    constructor
    · intro h
      cases h
    · intro h
      exact absurd hshort (not_le.mpr h.1)
  · rename_i hlong
    have hlong : cfg.longPrefillTokenThreshold < r.numPromptTokens := not_le.mp hlong
    split
    · rename_i hrunning
      simp [hlong, hrunning]
    · rename_i hqueued
      simp [hlong, hqueued]

/-- A preemption or a booking leaves a long prefill long. -/
theorem isLongPrefillRequest_stays {r r' : Request} (htask : SameTask r r')
    (hstatus : r'.status = r.status ∨ r'.status = .preempted)
    (h : isLongPrefillRequest cfg r = true) : isLongPrefillRequest cfg r' = true := by
  rw [isLongPrefillRequest_iff] at h ⊢
  obtain ⟨hprompt, hkind⟩ := h
  rw [htask.prompt, htask.chunk]
  refine ⟨hprompt, ?_⟩
  rcases hstatus with hsame | hpreempted
  · rw [hsame]
    exact hkind
  · exact .inr (.inr hpreempted)

/-- The selection has at most as many turns as a step may give. -/
theorem selected_length_le (throttle : Bool) :
    (stepContext cfg throttle s).selectedLongPrefillIds.length ≤ cfg.maxLongPrefillsPerStep := by
  rw [stepContext]
  dsimp only
  split
  · exact List.length_take_le _ _
  · exact Nat.zero_le _

/-! ## The running loop -/

theorem TurnsHeld.preempts {st st' : State} {victim : ReqId} (h : TurnsHeld cfg ctx s st.led)
    (hone : preemptOne cfg st = .ok (st', victim)) : TurnsHeld cfg ctx s st'.led := by
  obtain ⟨led, hled, hledger⟩ := (preemptOne_preempts hone).ledger
  rw [hledger]
  intro id hid hlong
  rcases hled with rfl | rfl
  · exact h id hid hlong
  · have hid : id ∈ st.led.numScheduledTokens.erase victim := hid
    exact h id (AList.mem_erase.mp hid).2 hlong

theorem runningTurn_turnsHeld (henable : cfg.enableDecodeAwarePrefill = true) {st st' : State}
    {id : ReqId} {stop : Bool} (hframe : RunningFrame s st) (h : TurnsHeld cfg ctx s st.led)
    (hturn : runningTurn cfg env ctx st id = .ok (st', stop)) : TurnsHeld cfg ctx s st'.led := by
  have hallocates : ∀ {tick fuel : ℕ} {n : ℤ} {mid : State} {blocks : Option KVCacheBlocks},
      allocateSlots cfg env fuel { st with led := { st.led with tick := tick } } id n =
        .ok (mid, blocks) → TurnsHeld cfg ctx s mid.led := by
    intro tick fuel n mid blocks halloc
    apply allocateSlots_keeps (P := fun st => TurnsHeld cfg ctx s st.led) ?_ ?_ ?_ halloc
    · exact fun _ hst => hst
    · exact fun _ _ _ hst hone => hst.preempts hone
    · exact h
  cases runningTurn_cases hturn with
  | skip gateSkips tick skips => exact h
  | fail hplan halloc => exact hallocates halloc
  | @commit plan mid blocks hpass hgate hopen hplan hne halloc =>
    intro x hx hlong
    have hx : x ∈ mid.led.numScheduledTokens.insert id plan.numNewTokens := hx
    rcases (AList.mem_insert _).mp hx with rfl | hx
    · have hlong : isLongPrefillRequest cfg (st.sched.requests x) = true :=
        isLongPrefillRequest_stays (hframe.task x) (hframe.status x) hlong
      rw [gated, henable, hlong] at hgate
      exact .inl (by simpa using hgate)
    · exact hallocates halloc x hx hlong

theorem runningLoop_turnsHeld (henable : cfg.enableDecodeAwarePrefill = true) {fuel : ℕ}
    {st st' : State} (hframe : RunningFrame s st) (h : TurnsHeld cfg ctx s st.led)
    (hloop : runningLoop cfg env ctx fuel st = .ok st') : TurnsHeld cfg ctx s st'.led := by
  have hkept : RunningFrame s st' ∧ TurnsHeld cfg ctx s st'.led := by
    apply runningLoop_keeps (P := fun st => RunningFrame s st ∧ TurnsHeld cfg ctx s st.led) ?_
      ⟨hframe, h⟩ hloop
    exact fun _ _ _ _ hst hid _ hturn => ⟨runningTurn_frame hst.1 hid hturn,
      runningTurn_turnsHeld henable hst.1 hst.2 hturn⟩
  exact hkept.2

/-! ## The waiting loop -/

/-- An admission puts its request on the books and among the admitted ones. -/
theorem TurnsHeld.admits {led : Ledger} {r : Request} {id : ReqId} {a : Admission}
    {blocks : KVCacheBlocks} {tick : ℕ} (h : TurnsHeld cfg ctx s led)
    (hstatus : r.status = .waiting ∨ r.status = .preempted) :
    TurnsHeld cfg ctx s (admitLedger cfg r id a blocks { led with tick := tick }) := by
  have hadmits : ∀ x, x = id ∨ x ∈ admittedReqs led →
      x ∈ admittedReqs (admitLedger cfg r id a blocks { led with tick := tick }) := by
    intro x hx
    show x ∈ (if r.status = .waiting then led.scheduledNewReqs ++ [id] else led.scheduledNewReqs) ++
      (if r.status = .preempted then led.scheduledResumedReqs ++ [id] else led.scheduledResumedReqs)
    rw [admittedReqs, List.mem_append] at hx
    rcases hstatus with hwaiting | hpreempted
    · rw [hwaiting, if_pos rfl, if_neg (by simp)]
      simp only [List.mem_append, List.mem_singleton]
      tauto
    · rw [hpreempted, if_neg (by simp), if_pos rfl]
      simp only [List.mem_append, List.mem_singleton]
      tauto
  intro x hx hlong
  have hx : x ∈ led.numScheduledTokens.insert id a.plan.numNewTokens := hx
  rcases (AList.mem_insert _).mp hx with hxid | hx
  · exact .inr (hadmits x (.inl hxid))
  · rcases h x hx hlong with hturn | hadmitted
    · exact .inl hturn
    · exact .inr (hadmits x (.inr hadmitted))

theorem waitingTurn_turnsHeld {st st' : State} {skipped stop : Bool} {id : ReqId}
    (h : TurnsHeld cfg ctx s st.led)
    (hturn : waitingTurn cfg env ctx skipped id st = .ok (st', stop)) :
    TurnsHeld cfg ctx s st'.led := by
  have heffect := waitingTurn_effect hturn
  generalize turnAdmission cfg env ctx id st = admission at heffect
  cases heffect with
  | stays hmoves hled =>
    rw [hled]
    exact h
  | admits hmoves hled hplan hlocal hadmitted =>
    obtain ⟨hstatus, -, -, -, -, hadmittedLed⟩ := admitRequest_ok hadmitted
    rw [hadmittedLed, hled]
    exact h.admits hstatus

/-! ## The step -/

/-- Whoever a step books as a long prefill has a turn or was admitted. -/
theorem schedule_turnsHeld (henable : cfg.enableDecodeAwarePrefill = true) {throttle : Bool}
    {out : State} (h : schedule cfg env throttle s = .ok out) :
    TurnsHeld cfg (stepContext cfg throttle s) s out.led := by
  obtain ⟨run, st, hrun, hwaiting, hled, -⟩ := schedule_halves h
  have hrequests : (beginStep cfg s).requests = s.requests := by
    obtain ⟨turns, hbegin⟩ := beginStep_eq cfg s
    rw [hbegin]
  have hstart : TurnsHeld cfg (stepContext cfg throttle s) (beginStep cfg s)
      (initialState cfg s).led := fun id hid => absurd hid (AList.notMem_empty id)
  have hheld := runningLoop_turnsHeld henable (RunningFrame.refl cfg s) hstart hrun
  have hend : TurnsHeld cfg (stepContext cfg throttle s) (beginStep cfg s) st.led := by
    rcases scheduleWaiting_cases hwaiting with ⟨-, rfl⟩ | ⟨-, mid, hloop, rfl⟩
    · exact hheld
    · have hmid : TurnsHeld cfg (stepContext cfg throttle s) (beginStep cfg s) mid.led := by
        apply waitingLoop_keeps
          (P := fun st => TurnsHeld cfg (stepContext cfg throttle s) (beginStep cfg s) st.led) ?_ ?_
          hloop
        · exact fun _ _ _ _ _ hst _ _ hturn => waitingTurn_turnsHeld hst hturn
        · exact hheld
      exact hmid
  rw [hled]
  intro id hid hlong
  rw [← hrequests] at hlong
  exact hend id hid hlong

end

/-- At most `max_long_prefills_per_step` long prefills get tokens as running requests. Any other
long prefill that gets tokens without a turn was admitted from the waiting queues in the step. -/
theorem long_prefills_capped {cfg : SchedulerConfig} {env : Env} {throttle : Bool} {s : Scheduler}
    {out : State} (henable : cfg.enableDecodeAwarePrefill = true)
    (h : schedule cfg env throttle s = .ok out) :
    ((longScheduled cfg s out.led).filter fun id => id ∉ admittedReqs out.led).length ≤
        cfg.maxLongPrefillsPerStep ∧
      (longScheduled cfg s out.led).length ≤ cfg.maxLongPrefillsPerStep +
        ((admittedReqs out.led).filter fun id =>
          id ∉ (stepContext cfg throttle s).selectedLongPrefillIds).length := by
  have hheld := schedule_turnsHeld henable h
  have hnodup : (longScheduled cfg s out.led).Nodup := out.led.numScheduledTokens.keys_nodup.filter _
  have hturn : ∀ id ∈ longScheduled cfg s out.led,
      id ∈ (stepContext cfg throttle s).selectedLongPrefillIds ∨ id ∈ admittedReqs out.led := by
    intro id hid
    obtain ⟨hkey, hlong⟩ := List.mem_filter.mp hid
    exact hheld id (AList.mem_keys.mp hkey) hlong
  have hselected : (stepContext cfg throttle s).selectedLongPrefillIds.length ≤
      cfg.maxLongPrefillsPerStep := selected_length_le throttle
  constructor
  · have hsub : ((longScheduled cfg s out.led).filter fun id => id ∉ admittedReqs out.led) ⊆
        (stepContext cfg throttle s).selectedLongPrefillIds := by
      intro id hid
      obtain ⟨hmem, hrunning⟩ := List.mem_filter.mp hid
      exact (hturn id hmem).resolve_right (of_decide_eq_true hrunning)
    exact (List.subperm_of_subset (hnodup.filter _) hsub).length_le.trans hselected
  · have hsub : longScheduled cfg s out.led ⊆ (stepContext cfg throttle s).selectedLongPrefillIds ++
        (admittedReqs out.led).filter fun id =>
          id ∉ (stepContext cfg throttle s).selectedLongPrefillIds := by
      intro id hid
      by_cases hmem : id ∈ (stepContext cfg throttle s).selectedLongPrefillIds
      · exact List.mem_append_left _ hmem
      · have hadmitted := (hturn id hid).resolve_left hmem
        exact List.mem_append_right _ (List.mem_filter.mpr ⟨hadmitted, decide_eq_true hmem⟩)
    have hlength := (List.subperm_of_subset hnodup hsub).length_le
    rw [List.length_append] at hlength
    omega

/-- A running prefill with ten tokens to go, and a waiting one, both with a long prompt. -/
def twoLongPrefills : Scheduler :=
  { smallScheduler [smallRequest 0 1 90 80 [],
      { smallRequest 1 2 90 0 [] with status := .waiting }] with
    running := [0]
    waiting := [1] }

theorem long_prefills_capped_small :
    smallConfig.enableDecodeAwarePrefill = true ∧
      ∃ out, schedule smallConfig (smallEnv none) false twoLongPrefills = .ok out ∧
        ((longScheduled smallConfig twoLongPrefills out.led).filter fun id =>
            id ∉ admittedReqs out.led).length ≤ smallConfig.maxLongPrefillsPerStep ∧
          (longScheduled smallConfig twoLongPrefills out.led).length ≤
            smallConfig.maxLongPrefillsPerStep + ((admittedReqs out.led).filter fun id =>
              id ∉ (stepContext smallConfig false twoLongPrefills).selectedLongPrefillIds).length := by
  refine ⟨rfl, ?_⟩
  cases h : schedule smallConfig (smallEnv none) false twoLongPrefills with
  | error e =>
    have hok : (schedule smallConfig (smallEnv none) false twoLongPrefills).isOk = true := by
      decide +kernel
    rw [h] at hok
    cases hok
  | ok out => exact ⟨out, rfl, long_prefills_capped rfl h⟩

/-- The waiting prefill gets the fourteen tokens the running one leaves, beside the only turn. -/
theorem long_prefills_not_capped :
    smallConfig.enableDecodeAwarePrefill = true ∧ smallConfig.maxLongPrefillsPerStep = 1 ∧
      WellFormed smallConfig twoLongPrefills ∧
      ∃ out, schedule smallConfig (smallEnv none) false twoLongPrefills = .ok out ∧
        ¬(longScheduled smallConfig twoLongPrefills out.led).length ≤
          smallConfig.maxLongPrefillsPerStep := by
  have hcount : (schedule smallConfig (smallEnv none) false twoLongPrefills).map
      (fun out => (longScheduled smallConfig twoLongPrefills out.led).length) = .ok 2 := by
    decide +kernel
  have hwf : WellFormed smallConfig twoLongPrefills :=
    smallScheduler_wellFormed (by decide) (by decide) (by decide) (by decide) (by decide)
  refine ⟨rfl, rfl, hwf, ?_⟩
  cases h : schedule smallConfig (smallEnv none) false twoLongPrefills with
  | error e =>
    rw [h] at hcount
    cases hcount
  | ok out =>
    rw [h] at hcount
    have hcount : (longScheduled smallConfig twoLongPrefills out.led).length = 2 :=
      Except.ok.inj hcount
    refine ⟨out, rfl, fun hle => ?_⟩
    rw [hcount] at hle
    exact absurd hle (by decide)

end SparkKit.Sched.LongPrefills
