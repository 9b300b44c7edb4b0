import SparkKit.Sched.RunningBooks

/-!
# The log of the running loop

What the running loop does, in order: the preemptions of each allocation, and the bookings. A
request is still scheduled when it was booked and no preemption has taken the booking back.
-/
namespace SparkKit.Sched.RunningLog

open SparkKit.Lib.Outcome SparkKit.Sched.Requests SparkKit.Sched.StepState
open SparkKit.Sched.Running SparkKit.Sched.Schedule SparkKit.Sched.RunningBooks

/-! ## Events -/

/-- A preemption: the state it starts from, and its victim. -/
structure Preemption where
  before : State
  victim : ReqId

/-- A booking: the request as its turn finds it, and what the turn plans for it. -/
structure Booking where
  id : ReqId
  request : Request
  plan : Plan

/-- The drafts that a booking records. -/
def Booking.drafts (b : Booking) : Option (List ℤ) := recordedSpecs b.request b.plan.numNewTokens

inductive LoopEvent where
  | preempts (p : Preemption)
  | books (b : Booking)

/-- The event preempts a prefill that this step has scheduled already. -/
def LoopEvent.HitsPrefill : LoopEvent → Prop
  | .preempts p => p.victim ∈ p.before.led.scheduledRunningReqs ∧
      (p.before.sched.requests p.victim).isPrefillChunk = true
  | .books _ => False

/-- The event schedules a prefill. -/
def LoopEvent.BooksPrefill : LoopEvent → Prop
  | .preempts _ => False
  | .books b => b.request.isPrefillChunk = true

instance (e : LoopEvent) : Decidable e.HitsPrefill :=
  match e with
  | .preempts p => inferInstanceAs (Decidable (p.victim ∈ p.before.led.scheduledRunningReqs ∧
      (p.before.sched.requests p.victim).isPrefillChunk = true))
  | .books _ => inferInstanceAs (Decidable False)

/-- The preemptions `allocateSlots` makes. -/
def allocationEvents (cfg : SchedulerConfig) (env : Env) :
    ℕ → State → ReqId → ℤ → List LoopEvent
  | 0, _, _, _ => []
  | fuel + 1, st, id, n =>
      match env.allocateSlots st.led.tick id n with
      | some _ => []
      | none =>
          match preemptOne cfg st.ticked with
          | .error _ => []
          | .ok (st', victim) =>
              .preempts ⟨st.ticked, victim⟩ ::
                if victim = id then [] else allocationEvents cfg env fuel st' id n

/-- What `runningTurn` does. -/
def turnEvents (cfg : SchedulerConfig) (env : Env) (ctx : StepContext) (st : State)
    (id : ReqId) : List LoopEvent :=
  let r := st.sched.requests id
  if passedOver ctx st.sched r = true then []
  else if gated cfg ctx r id = true then []
  else if budgeted cfg r = true ∧ remainingPrefillBudget ctx st.led ≤ 0 then []
  else
    match planRunning cfg env ctx st.led r with
    | .error _ => []
    | .ok plan =>
        if plan.numNewTokens = 0 then []
        else
          let planned : State := { st with led := { st.led with tick := plan.tick } }
          let fuel := st.sched.running.length + 1
          allocationEvents cfg env fuel planned id plan.numNewTokens ++
            match allocateSlots cfg env fuel planned id plan.numNewTokens with
            | .ok (_, some _) => [.books ⟨id, r, plan⟩]
            | _ => []

/-- What the first turns of `runningLoop` do. -/
def loopEvents (cfg : SchedulerConfig) (env : Env) (ctx : StepContext) :
    ℕ → State → List LoopEvent
  | 0, _ => []
  | fuel + 1, st =>
      match st.sched.running[st.led.reqIndex]? with
      | none => []
      | some id =>
          if st.led.tokenBudget > 0 then
            turnEvents cfg env ctx st id ++
              match runningTurn cfg env ctx st id with
              | .ok (st', false) => loopEvents cfg env ctx fuel st'
              | _ => []
          else []

/-- The bookings after one more event. -/
def keepBookings (cfg : SchedulerConfig) (kept : List Booking) : LoopEvent → List Booking
  | .books b => kept ++ [b]
  | .preempts p =>
      if cfg.policy = .priority ∧ p.victim ∈ p.before.led.scheduledRunningReqs then
        kept.filter fun b => b.id != p.victim
      else kept

/-- The bookings that no preemption has taken back. -/
def keptBookings (cfg : SchedulerConfig) (events : List LoopEvent) : List Booking :=
  events.foldl (keepBookings cfg) []

/-- The bookings of a step in its running loop. -/
def stepBookings (cfg : SchedulerConfig) (env : Env) (throttle : Bool) (s : Scheduler) :
    List Booking :=
  keptBookings cfg (loopEvents cfg env (stepContext cfg throttle s) s.running.length
    (initialState cfg s))

@[simp] theorem keptBookings_append (cfg : SchedulerConfig) (events : List LoopEvent)
    (e : LoopEvent) :
    keptBookings cfg (events ++ [e]) = keepBookings cfg (keptBookings cfg events) e := by
  rw [keptBookings, List.foldl_append]
  rfl

/-! ## Rules for the log -/

section
variable {cfg : SchedulerConfig} {env : Env} {ctx : StepContext}

/-- The three ways a turn ends, with what it did. -/
inductive TurnLog (cfg : SchedulerConfig) (env : Env) (ctx : StepContext) (st : State)
    (id : ReqId) : State → List LoopEvent → Prop
  | skip (gateSkips tick skips : ℕ) :
      TurnLog cfg env ctx st id
        { sched := { st.sched with longPrefillGateSkips := gateSkips }
          led := { st.led with
            tick := tick, gateSkippedRunning := skips, reqIndex := st.led.reqIndex + 1 } } []
  | fail {plan : Plan} {st' : State}
      (halloc : allocateSlots cfg env (st.sched.running.length + 1)
        { st with led := { st.led with tick := plan.tick } } id plan.numNewTokens = .ok (st', none)) :
      TurnLog cfg env ctx st id st'
        (allocationEvents cfg env (st.sched.running.length + 1)
          { st with led := { st.led with tick := plan.tick } } id plan.numNewTokens)
  | commit {plan : Plan} {mid : State} {blocks : KVCacheBlocks}
      (hopen : budgeted cfg (st.sched.requests id) = true → 0 < remainingPrefillBudget ctx st.led)
      (hplan : planRunning cfg env ctx st.led (st.sched.requests id) = .ok plan)
      (hne : plan.numNewTokens ≠ 0)
      (halloc : allocateSlots cfg env (st.sched.running.length + 1)
        { st with led := { st.led with tick := plan.tick } } id plan.numNewTokens =
          .ok (mid, some blocks)) :
      TurnLog cfg env ctx st id (commitRunning cfg id plan blocks mid)
        (allocationEvents cfg env (st.sched.running.length + 1)
          { st with led := { st.led with tick := plan.tick } } id plan.numNewTokens ++
            [.books ⟨id, st.sched.requests id, plan⟩])

/-- A turn does what its log says. -/
theorem runningTurn_log {st st' : State} {id : ReqId} {stop : Bool}
    (h : runningTurn cfg env ctx st id = .ok (st', stop)) :
    TurnLog cfg env ctx st id st' (turnEvents cfg env ctx st id) := by
  rw [runningTurn] at h
  rw [turnEvents]
  dsimp only at h ⊢
  by_cases hpass : passedOver ctx st.sched (st.sched.requests id) = true
  · rw [if_pos hpass] at h ⊢
    cases h
    exact .skip _ _ _
  rw [if_neg hpass] at h ⊢
  by_cases hgate : gated cfg ctx (st.sched.requests id) id = true
  · rw [if_pos hgate] at h ⊢
    cases h
    exact .skip _ _ _
  rw [if_neg hgate] at h ⊢
  by_cases hclosed : budgeted cfg (st.sched.requests id) = true ∧
      remainingPrefillBudget ctx st.led ≤ 0
  · rw [if_pos hclosed] at h ⊢
    cases h
    exact .skip _ _ _
  rw [if_neg hclosed] at h ⊢
  obtain ⟨plan, hplan, h⟩ := bind_ok h
  rw [hplan]
  dsimp only at h ⊢
  by_cases hzero : plan.numNewTokens = 0
  · rw [if_pos hzero] at h ⊢
    cases h
    exact .skip _ _ _
  rw [if_neg hzero] at h ⊢
  obtain ⟨⟨mid, blocks⟩, halloc, h⟩ := bind_ok h
  rw [halloc]
  cases blocks with
  | none =>
    cases h
    rw [List.append_nil]
    exact .fail halloc
  | some blocks =>
    cases h
    exact .commit (fun hb => lt_of_not_ge fun hle => hclosed ⟨hb, hle⟩) hplan hzero halloc

variable {R : List LoopEvent → State → Prop} {es : List LoopEvent}

/-- What every preemption keeps of a state and its log, the allocation keeps. -/
theorem allocateSlots_logs (htick : ∀ es st, R es st → R es st.ticked)
    (hpreempt : ∀ es st st' victim, R es st → preemptOne cfg st = .ok (st', victim) →
      R (es ++ [.preempts ⟨st, victim⟩]) st')
    {fuel : ℕ} {st st' : State} {id : ReqId} {n : ℤ} {blocks : Option KVCacheBlocks}
    (h : R es st) (halloc : allocateSlots cfg env fuel st id n = .ok (st', blocks)) :
    R (es ++ allocationEvents cfg env fuel st id n) st' := by
  induction fuel generalizing es st with
  | zero =>
    cases halloc
    rw [allocationEvents, List.append_nil]
    exact h
  | succ fuel ih =>
    rw [allocateSlots] at halloc
    rw [allocationEvents]
    cases hblocks : env.allocateSlots st.led.tick id n with
    | some got =>
      rw [hblocks] at halloc
      cases halloc
      rw [List.append_nil]
      exact htick es st h
    | none =>
      rw [hblocks] at halloc
      obtain ⟨⟨mid, victim⟩, hone, halloc⟩ := bind_ok halloc
      have hmid := hpreempt _ _ _ _ (htick es st h) hone
      rw [hone]
      dsimp only at halloc ⊢
      rw [List.append_cons]
      by_cases hself : victim = id
      · rw [if_pos hself] at halloc ⊢
        cases halloc
        rw [List.append_nil]
        exact hmid
      · rw [if_neg hself] at halloc ⊢
        exact ih hmid halloc

/-- What every turn keeps of a state and its log, the loop keeps. -/
theorem runningLoop_logs
    (hturn : ∀ es st st' id stop, R es st → st.sched.running[st.led.reqIndex]? = some id →
      0 < st.led.tokenBudget → runningTurn cfg env ctx st id = .ok (st', stop) →
      R (es ++ turnEvents cfg env ctx st id) st')
    {fuel : ℕ} {st st' : State} (h : R es st) (hloop : runningLoop cfg env ctx fuel st = .ok st') :
    R (es ++ loopEvents cfg env ctx fuel st) st' := by
  induction fuel generalizing es st with
  | zero =>
    cases hloop
    rw [loopEvents, List.append_nil]
    exact h
  | succ fuel ih =>
    rw [runningLoop] at hloop
    rw [loopEvents]
    cases hid : st.sched.running[st.led.reqIndex]? with
    | none =>
      rw [hid] at hloop
      cases hloop
      rw [List.append_nil]
      exact h
    | some id =>
      rw [hid] at hloop
      dsimp only at hloop ⊢
      by_cases hbudget : st.led.tokenBudget > 0
      swap
      · rw [if_neg hbudget] at hloop ⊢
        cases hloop
        rw [List.append_nil]
        exact h
      rw [if_pos hbudget] at hloop ⊢
      obtain ⟨⟨mid, stop⟩, hone, hloop⟩ := bind_ok hloop
      have hmid := hturn _ _ _ _ _ h hid hbudget hone
      rw [hone, ← List.append_assoc]
      cases stop with
      | true =>
        cases hloop
        rw [List.append_nil]
        exact hmid
      | false => exact ih hmid hloop

end

/-! ## Kept bookings -/

/-- The scheduled requests are those of the kept bookings, with their tokens. -/
structure KeptInv (cfg : SchedulerConfig) (s : Scheduler) (es : List LoopEvent) (led : Ledger) :
    Prop where
  scheduled : led.scheduledRunningReqs = (keptBookings cfg es).map Booking.id
  booked : ∀ b ∈ keptBookings cfg es, b.request = s.requests b.id ∧
    led.numScheduledTokens.lookup b.id = some b.plan.numNewTokens

section
variable {cfg : SchedulerConfig} {env : Env} {ctx : StepContext} {s : Scheduler}
variable {es : List LoopEvent}

theorem KeptInv.preempts {st st' : State} {victim : ReqId} (h : KeptInv cfg s es st.led)
    (hnodup : st.led.scheduledRunningReqs.Nodup) (hone : preemptOne cfg st = .ok (st', victim)) :
    KeptInv cfg s (es ++ [.preempts ⟨st, victim⟩]) st'.led := by
  obtain ⟨-, hled⟩ := preemptOne_drops hone
  rw [hled, dropRunning]
  cases hpolicy : cfg.policy with
  | fcfs =>
    have hkept : keptBookings cfg (es ++ [.preempts ⟨st, victim⟩]) = keptBookings cfg es := by
      rw [keptBookings_append, keepBookings, hpolicy, if_neg fun hboth => absurd hboth.1 (by decide)]
    constructor
    · rw [hkept]
      exact h.scheduled
    · rw [hkept]
      exact h.booked
  | priority =>
    dsimp only
    by_cases hscheduled : victim ∈ st.led.scheduledRunningReqs
    · have hkept : keptBookings cfg (es ++ [.preempts ⟨st, victim⟩]) =
          (keptBookings cfg es).filter fun b => b.id != victim := by
        rw [keptBookings_append, keepBookings, if_pos ⟨hpolicy, hscheduled⟩]
      rw [if_pos hscheduled]
      constructor
      · show st.led.scheduledRunningReqs.erase victim = _
        rw [hkept, hnodup.erase_eq_filter, h.scheduled, List.filter_map]
        rfl
      · intro b hb
        rw [hkept] at hb
        obtain ⟨hb, hne⟩ := List.mem_filter.mp hb
        obtain ⟨hrequest, htokens⟩ := h.booked b hb
        refine ⟨hrequest, ?_⟩
        show (st.led.numScheduledTokens.erase victim).lookup b.id = _
        rw [AList.lookup_erase_ne (bne_iff_ne.mp hne)]
        exact htokens
    · have hkept : keptBookings cfg (es ++ [.preempts ⟨st, victim⟩]) = keptBookings cfg es := by
        rw [keptBookings_append, keepBookings, if_neg fun hboth => hscheduled hboth.2]
      rw [if_neg hscheduled]
      constructor
      · rw [hkept]
        exact h.scheduled
      · rw [hkept]
        exact h.booked

theorem KeptInv.commits {led : Ledger} {id : ReqId} {plan : Plan} {blocks : KVCacheBlocks}
    (h : KeptInv cfg s es led) (hnew : id ∉ led.scheduledRunningReqs) :
    KeptInv cfg s (es ++ [.books ⟨id, s.requests id, plan⟩])
      (commitLedger cfg (s.requests id) id plan blocks led) := by
  have hkept : keptBookings cfg (es ++ [.books ⟨id, s.requests id, plan⟩]) =
      keptBookings cfg es ++ [⟨id, s.requests id, plan⟩] := by
    rw [keptBookings_append, keepBookings]
  constructor
  · show led.scheduledRunningReqs ++ [id] = _
    rw [hkept, h.scheduled, List.map_append]
    rfl
  · intro b hb
    show _ ∧ (led.numScheduledTokens.insert id plan.numNewTokens).lookup b.id = _
    rw [hkept] at hb
    rcases List.mem_append.mp hb with hb | hb
    · obtain ⟨hrequest, htokens⟩ := h.booked b hb
      have hne : b.id ≠ id := by
        intro heq
        apply hnew
        rw [h.scheduled, ← heq]
        exact List.mem_map_of_mem hb
      refine ⟨hrequest, ?_⟩
      rw [AList.lookup_insert_ne hne]
      exact htokens
    · rw [List.mem_singleton.mp hb]
      exact ⟨rfl, AList.lookup_insert _⟩

theorem runningTurn_kept {st st' : State} {id : ReqId} {stop : Bool} (hloop : LoopInv cfg s st)
    (h : KeptInv cfg s es st.led) (hid : st.sched.running[st.led.reqIndex]? = some id)
    (hturn : runningTurn cfg env ctx st id = .ok (st', stop)) :
    KeptInv cfg s (es ++ turnEvents cfg env ctx st id) st'.led := by
  obtain ⟨hturning, hrequest⟩ := hloop.turning hid
  have hallocates : ∀ {tick fuel : ℕ} {n : ℤ} {mid : State} {blocks : Option KVCacheBlocks},
      allocateSlots cfg env fuel { st with led := { st.led with tick := tick } } id n =
        .ok (mid, blocks) →
      Turning cfg s id mid ∧ KeptInv cfg s
        (es ++ allocationEvents cfg env fuel { st with led := { st.led with tick := tick } } id n)
        mid.led := by
    intro tick fuel n mid blocks halloc
    apply allocateSlots_logs (R := fun es st => Turning cfg s id st ∧ KeptInv cfg s es st.led)
      ?_ ?_ ⟨hturning.ticked tick, h.scheduled, h.booked⟩ halloc
    · exact fun _ _ hst => ⟨hst.1.ticked _, hst.2.scheduled, hst.2.booked⟩
    · exact fun _ _ _ _ hst hone =>
        ⟨hst.1.preempts hone, hst.2.preempts hst.1.inv.booked.nodup hone⟩
  have hlog := runningTurn_log hturn
  generalize turnEvents cfg env ctx st id = events at hlog ⊢
  cases hlog with
  | skip gateSkips tick skips =>
    rw [List.append_nil]
    exact ⟨h.scheduled, h.booked⟩
  | fail halloc => exact (hallocates halloc).2
  | @commit plan mid blocks hopen hplan hne halloc =>
    obtain ⟨hmid, hkept⟩ := hallocates halloc
    have hmrequest : mid.sched.requests id = s.requests id := by
      rw [allocateSlots_request halloc]
      exact hrequest
    rw [← List.append_assoc, hrequest]
    show KeptInv cfg s _ (commitLedger cfg (mid.sched.requests id) id plan blocks mid.led)
    rw [hmrequest]
    exact hkept.commits hmid.unscheduled

end

/-- The running half of a step schedules the requests of its kept bookings. -/
theorem scheduleRunning_kept {cfg : SchedulerConfig} {env : Env} {throttle : Bool} {s : Scheduler}
    {st : State} (hnodup : s.running.Nodup)
    (hrun : scheduleRunning cfg env throttle s = .ok st) :
    KeptInv cfg s (loopEvents cfg env (stepContext cfg throttle s) s.running.length
      (initialState cfg s)) st.led := by
  have hstart : LoopInv cfg s (initialState cfg s) ∧ KeptInv cfg s [] (initialState cfg s).led :=
    ⟨initialState_loopInv hnodup, rfl, fun _ hb => absurd hb List.not_mem_nil⟩
  have hend := runningLoop_logs (R := fun es st => LoopInv cfg s st ∧ KeptInv cfg s es st.led)
    (fun _ _ _ _ _ hst hid _ hturn => ⟨runningTurn_loopInv hst.1 hid hturn,
      runningTurn_kept hst.1 hst.2 hid hturn⟩) hstart hrun
  exact hend.2

end SparkKit.Sched.RunningLog
