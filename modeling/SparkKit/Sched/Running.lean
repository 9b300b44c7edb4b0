import SparkKit.Sched.Chunk
import SparkKit.Sched.StepState

/-!
# The running loop

One turn looks at the request under `req_index`, passes it over or decides how many tokens
it gets, allocates its slots, preempting others while that fails, and commits it.
-/
namespace SparkKit.Sched.Running

open SparkKit.Lib.Outcome SparkKit.Sched.Requests SparkKit.Sched.Chunk SparkKit.Sched.StepState

/-- The previous step has certainly reached `max_tokens`. -/
def reachedMaxTokens (r : Request) : Bool :=
  r.numOutputPlaceholders > 0 &&
    r.numComputedTokens + 2 - r.numOutputPlaceholders ≥ r.numPromptTokens + r.maxTokens

/-- The request is skipped for reasons that do not depend on the prefill policy. -/
def passedOver (ctx : StepContext) (s : Scheduler) (r : Request) : Bool :=
  reachedMaxTokens r || s.currentStep < r.nextDecodeEligibleStep ||
    (ctx.deferPrefills && r.isPrefillChunk)

/-- A long prefill without a turn. -/
def gated (cfg : SchedulerConfig) (ctx : StepContext) (r : Request) (id : ReqId) : Bool :=
  cfg.enableDecodeAwarePrefill && isLongPrefillRequest cfg r &&
    id ∉ ctx.selectedLongPrefillIds

/-- The request is debited to the prefill budget. -/
def budgeted (cfg : SchedulerConfig) (r : Request) : Bool :=
  cfg.enableDecodeAwarePrefill && r.isPrefillChunk

/-- `remaining_prefill_budget` -/
def remainingPrefillBudget (ctx : StepContext) (led : Ledger) : ℤ :=
  ctx.prefillTokenBudget - led.prefillTokensScheduled

/-- The tokens of a request before its encoder inputs and alignment are looked at. -/
def runningTokens (cfg : SchedulerConfig) (ctx : StepContext) (led : Ledger) (r : Request) : ℤ :=
  let n := r.numTokensWithSpec + r.numOutputPlaceholders - r.numComputedTokens
  let n :=
    if budgeted cfg r = false ∧ 0 < cfg.longPrefillTokenThreshold ∧
        cfg.longPrefillTokenThreshold < n then
      cfg.longPrefillTokenThreshold
    else n
  let n := min n led.tokenBudget
  let n := if budgeted cfg r = true then min n (remainingPrefillBudget ctx led) else n
  min n (cfg.maxModelLen - r.numComputedTokens - cfg.numSampledTokensPerStep)

/-- What a turn decides to schedule for a request. -/
structure Plan where
  numNewTokens : ℤ
  encoderInputs : List ℕ
  newEncoderComputeBudget : ℤ
  externalLoads : List ℕ
  tick : ℕ

def alignRunning (cfg : SchedulerConfig) (r : Request) (plan : Plan) : Plan :=
  if cfg.needMambaBlockAlignedSplit = true then
    { plan with numNewTokens := mambaBlockAlignedSplit cfg r plan.numNewTokens 0 0 }
  else plan

def planRunning (cfg : SchedulerConfig) (env : Env) (ctx : StepContext) (led : Ledger)
    (r : Request) : Except String Plan := do
  let n := runningTokens cfg ctx led r
  if r.hasEncoderInputs = true then
    let scan ← tryScheduleEncoderInputs cfg env led.tick r r.numComputedTokens n
      led.encoderComputeBudget (if cfg.useEagle = true then 1 else 0)
    return alignRunning cfg r
      ⟨scan.numNewTokens, scan.inputs, scan.computeBudget, scan.externalLoads, scan.tick⟩
  else return alignRunning cfg r ⟨n, [], led.encoderComputeBudget, [], led.tick⟩

/-- Allocate slots, preempting one request after each failure until that is the request
itself. Each failure takes a request off the running list, so the list bounds the turns. -/
def allocateSlots (cfg : SchedulerConfig) (env : Env) :
    ℕ → State → ReqId → ℤ → Except String (State × Option KVCacheBlocks)
  | 0, st, _, _ => .ok (st, none)
  | fuel + 1, st, id, n =>
      match env.allocateSlots st.led.tick id n with
      | some blocks => .ok (st.ticked, some blocks)
      | none => do
          let (st', victim) ← preemptOne cfg st.ticked
          if victim = id then return (st', none) else allocateSlots cfg env fuel st' id n

/-- The speculative tokens that fit in the scheduled ones. -/
def scheduledSpecTokens (r : Request) (numNewTokens : ℤ) : List ℤ :=
  r.specTokenIds.take
    (numNewTokens + r.numComputedTokens - r.numTokens - r.numOutputPlaceholders).toNat

/-- Book a scheduled request. -/
def commitLedger (cfg : SchedulerConfig) (r : Request) (id : ReqId) (plan : Plan)
    (blocks : KVCacheBlocks) (led : Ledger) : Ledger :=
  let n := plan.numNewTokens
  { led with
    scheduledRunningReqs := led.scheduledRunningReqs ++ [id]
    prefillScheduled := led.prefillScheduled || r.isPrefillChunk
    reqToNewBlocks := led.reqToNewBlocks.insert id blocks
    numScheduledTokens := led.numScheduledTokens.insert id n
    tokenBudget := led.tokenBudget - n
    prefillTokensScheduled :=
      if budgeted cfg r = true then led.prefillTokensScheduled + n else led.prefillTokensScheduled
    reqIndex := led.reqIndex + 1
    scheduledSpecDecodeTokens :=
      if r.specTokenIds ≠ [] ∧
          n + r.numComputedTokens - r.numTokens - r.numOutputPlaceholders > 0 then
        led.scheduledSpecDecodeTokens.insert id (scheduledSpecTokens r n)
      else led.scheduledSpecDecodeTokens
    scheduledEncoderInputs :=
      if plan.encoderInputs ≠ [] then led.scheduledEncoderInputs.insert id plan.encoderInputs
      else led.scheduledEncoderInputs
    encoderComputeBudget :=
      if plan.encoderInputs ≠ [] then plan.newEncoderComputeBudget else led.encoderComputeBudget }

def commitRunning (cfg : SchedulerConfig) (id : ReqId) (plan : Plan) (blocks : KVCacheBlocks)
    (st : State) : State :=
  let r := st.sched.requests id
  let turns := st.sched.longPrefillLastScheduled
  { sched := { st.sched.setRequest id { r with specTokenIds := [] } with
      longPrefillLastScheduled :=
        if budgeted cfg r = true ∧ isLongPrefillRequest cfg r = true then
          turns.insert id st.sched.currentStep
        else turns }
    led := commitLedger cfg r id plan blocks st.led }

/-- Skip a long prefill that lost its turn. -/
def gateSkip (st : State) : State :=
  { sched := { st.sched with longPrefillGateSkips := st.sched.longPrefillGateSkips + 1 }
    led := { st.led with
      gateSkippedRunning := st.led.gateSkippedRunning + 1
      reqIndex := st.led.reqIndex + 1 } }

/-- One turn; the flag is the loop's `break`. -/
def runningTurn (cfg : SchedulerConfig) (env : Env) (ctx : StepContext) (st : State)
    (id : ReqId) : Except String (State × Bool) :=
  let r := st.sched.requests id
  if passedOver ctx st.sched r = true then .ok (st.advance, false)
  else if gated cfg ctx r id = true then .ok (gateSkip st, false)
  else if budgeted cfg r = true ∧ remainingPrefillBudget ctx st.led ≤ 0 then .ok (st.advance, false)
  else do
    let plan ← planRunning cfg env ctx st.led r
    let planned : State := { st with led := { st.led with tick := plan.tick } }
    if plan.numNewTokens = 0 then return (planned.advance, false)
    else
      let (st', new_blocks) ←
        allocateSlots cfg env (st.sched.running.length + 1) planned id plan.numNewTokens
      match new_blocks with
      | none => return (st', true)
      | some blocks => return (commitRunning cfg id plan blocks st', false)

/-- `while req_index < len(self.running) and token_budget > 0`. A turn moves the index on or
shortens the list, so the length of the list bounds the turns. -/
def runningLoop (cfg : SchedulerConfig) (env : Env) (ctx : StepContext) :
    ℕ → State → Except String State
  | 0, st => .ok st
  | fuel + 1, st =>
      match st.sched.running[st.led.reqIndex]? with
      | none => .ok st
      | some id =>
          if st.led.tokenBudget > 0 then do
            let (st', stop) ← runningTurn cfg env ctx st id
            if stop = true then return st' else runningLoop cfg env ctx fuel st'
          else .ok st

/-! ## Rules for the loops -/

section
variable {cfg : SchedulerConfig} {env : Env} {ctx : StepContext}

/-- What a preemption and a call of another component keep, the allocation keeps. -/
theorem allocateSlots_keeps {P : State → Prop} (htick : ∀ st, P st → P st.ticked)
    (hpreempt : ∀ st st' victim, P st → preemptOne cfg st = .ok (st', victim) → P st')
    {fuel : ℕ} {st st' : State} {id : ReqId} {n : ℤ} {blocks : Option KVCacheBlocks}
    (hst : P st) (h : allocateSlots cfg env fuel st id n = .ok (st', blocks)) : P st' := by
  induction fuel generalizing st with
  | zero =>
    cases h
    exact hst
  | succ fuel ih =>
    rw [allocateSlots] at h
    split at h
    · cases h
      exact htick st hst
    obtain ⟨⟨mid, victim⟩, hone, h⟩ := bind_ok h
    have hmid := hpreempt _ _ _ (htick st hst) hone
    dsimp only at h
    split at h
    · cases h
      exact hmid
    · exact ih hmid h

/-- The allocation of a turn books nobody. -/
theorem allocateSlots_lookup {fuel tick : ℕ} {st st' : State} {id x : ReqId} {n k : ℤ}
    {blocks : Option KVCacheBlocks}
    (h : allocateSlots cfg env fuel { st with led := { st.led with tick := tick } } id n =
      .ok (st', blocks)) (hx : st'.led.numScheduledTokens.lookup x = some k) :
    st.led.numScheduledTokens.lookup x = some k := by
  apply allocateSlots_keeps (P := fun mid => mid.led.numScheduledTokens.lookup x = some k →
    st.led.numScheduledTokens.lookup x = some k) ?_ ?_ ?_ h hx
  · exact fun _ hst => hst
  · exact fun _ _ _ hst hone hx => hst ((preemptOne_preempts hone).lookup hx)
  · exact fun hx => hx

theorem allocateSlots_booked {fuel tick : ℕ} {st st' : State} {id x : ReqId} {n : ℤ}
    {blocks : Option KVCacheBlocks}
    (h : allocateSlots cfg env fuel { st with led := { st.led with tick := tick } } id n =
      .ok (st', blocks)) (hx : x ∈ st'.led.numScheduledTokens) : x ∈ st.led.numScheduledTokens := by
  obtain ⟨k, hk⟩ := Option.isSome_iff_exists.mp (AList.lookup_isSome.mpr hx)
  exact AList.lookup_isSome.mp (Option.isSome_iff_exists.mpr ⟨k, allocateSlots_lookup h hk⟩)

/-- The three ways a turn ends. -/
inductive TurnCases (cfg : SchedulerConfig) (env : Env) (ctx : StepContext) (st : State)
    (id : ReqId) : State → Bool → Prop
  | skip (gateSkips tick skips : ℕ) :
      TurnCases cfg env ctx st id
        { sched := { st.sched with longPrefillGateSkips := gateSkips }
          led := { st.led with
            tick := tick, gateSkippedRunning := skips, reqIndex := st.led.reqIndex + 1 } } false
  | fail {plan : Plan} {st' : State}
      (hplan : planRunning cfg env ctx st.led (st.sched.requests id) = .ok plan)
      (halloc : allocateSlots cfg env (st.sched.running.length + 1)
        { st with led := { st.led with tick := plan.tick } } id plan.numNewTokens = .ok (st', none)) :
      TurnCases cfg env ctx st id st' true
  | commit {plan : Plan} {mid : State} {blocks : KVCacheBlocks}
      (hpass : passedOver ctx st.sched (st.sched.requests id) = false)
      (hgate : gated cfg ctx (st.sched.requests id) id = false)
      (hopen : budgeted cfg (st.sched.requests id) = true → 0 < remainingPrefillBudget ctx st.led)
      (hplan : planRunning cfg env ctx st.led (st.sched.requests id) = .ok plan)
      (hne : plan.numNewTokens ≠ 0)
      (halloc : allocateSlots cfg env (st.sched.running.length + 1)
        { st with led := { st.led with tick := plan.tick } } id plan.numNewTokens =
          .ok (mid, some blocks)) :
      TurnCases cfg env ctx st id (commitRunning cfg id plan blocks mid) false

theorem runningTurn_cases {st st' : State} {id : ReqId} {stop : Bool}
    (h : runningTurn cfg env ctx st id = .ok (st', stop)) : TurnCases cfg env ctx st id st' stop := by
  rw [runningTurn] at h
  dsimp only at h
  split at h
  · cases h
    exact .skip _ _ _
  rename_i hpass
  split at h
  · cases h
    exact .skip _ _ _
  rename_i hgate
  split at h
  · cases h
    exact .skip _ _ _
  rename_i hopen
  obtain ⟨plan, hplan, h⟩ := bind_ok h
  split at h
  · cases h
    exact .skip _ _ _
  rename_i hne
  obtain ⟨⟨mid, blocks⟩, halloc, h⟩ := bind_ok h
  cases blocks with
  | none =>
    cases h
    exact .fail hplan halloc
  | some blocks =>
    cases h
    exact .commit (Bool.eq_false_iff.mpr hpass) (Bool.eq_false_iff.mpr hgate)
      (fun hb => lt_of_not_ge fun hle => hopen ⟨hb, hle⟩) hplan hne halloc

/-- What every turn keeps, the loop keeps. -/
theorem runningLoop_keeps {P : State → Prop}
    (hturn : ∀ st st' id stop, P st → st.sched.running[st.led.reqIndex]? = some id →
      0 < st.led.tokenBudget → runningTurn cfg env ctx st id = .ok (st', stop) → P st')
    {fuel : ℕ} {st st' : State} (hst : P st) (h : runningLoop cfg env ctx fuel st = .ok st') :
    P st' := by
  induction fuel generalizing st with
  | zero =>
    cases h
    exact hst
  | succ fuel ih =>
    rw [runningLoop] at h
    split at h
    · cases h
      exact hst
    rename_i id hid
    split at h
    swap
    · cases h
      exact hst
    rename_i hbudget
    obtain ⟨⟨mid, stop⟩, hone, h⟩ := bind_ok h
    have hmid := hturn _ _ _ _ hst hid hbudget hone
    dsimp only at h
    split at h
    · cases h
      exact hmid
    · exact ih hmid h

/-! ## The list bounds the turns -/

/-- The allocation never runs out of victims before it runs out of fuel. -/
theorem allocateSlots_fuel {fuel : ℕ} {st : State} {id : ReqId} {n : ℤ}
    (hfuel : st.sched.running.length < fuel) :
    allocateSlots cfg env (fuel + 1) st id n = allocateSlots cfg env fuel st id n := by
  induction fuel generalizing st with
  | zero => exact absurd hfuel (Nat.not_lt_zero _)
  | succ fuel ih =>
    rw [allocateSlots, allocateSlots]
    cases env.allocateSlots st.led.tick id n with
    | some blocks => rfl
    | none =>
      dsimp only
      cases hone : preemptOne cfg st.ticked with
      | error e => rfl
      | ok out =>
        obtain ⟨mid, victim⟩ := out
        have hshorter : mid.sched.running.length + 1 = st.sched.running.length :=
          (preemptOne_preempts hone).shorter
        have hrest : allocateSlots cfg env (fuel + 1) mid id n = allocateSlots cfg env fuel mid id n :=
          ih (by omega)
        show (if victim = id then _ else _) = (if victim = id then _ else _)
        rw [hrest]

/-- What is left of the running list past the index. -/
def turnsLeft (st : State) : ℕ := st.sched.running.length - st.led.reqIndex

theorem preempts_turnsLeft {st st' : State} {victim : ReqId} (h : Preempts cfg st st' victim) :
    turnsLeft st' ≤ turnsLeft st := by
  have hshorter := h.shorter
  obtain ⟨led, hled, hledger⟩ := h.ledger
  have hindex : st'.led.reqIndex = led.reqIndex := by rw [hledger]
  simp only [turnsLeft]
  rcases hled with rfl | rfl
  · omega
  · have hback : st'.led.reqIndex = st.led.reqIndex - 1 := hindex
    omega

/-- A turn that does not end the loop leaves fewer turns. -/
theorem runningTurn_turnsLeft {st st' : State} {id : ReqId}
    (hid : st.sched.running[st.led.reqIndex]? = some id)
    (h : runningTurn cfg env ctx st id = .ok (st', false)) : turnsLeft st' < turnsLeft st := by
  have hindex : st.led.reqIndex < st.sched.running.length := (List.getElem?_eq_some_iff.mp hid).1
  have hpos : 0 < turnsLeft st := Nat.sub_pos_of_lt hindex
  cases runningTurn_cases h with
  | skip gateSkips tick skips =>
    show st.sched.running.length - (st.led.reqIndex + 1) < _
    rw [turnsLeft]
    omega
  | @commit plan mid blocks hpass hgate hopen hplan hne halloc =>
    have hmid : turnsLeft mid ≤ turnsLeft st := by
      apply allocateSlots_keeps (P := fun x => turnsLeft x ≤ turnsLeft st) ?_ ?_ ?_ halloc
      · exact fun x hx => hx
      · exact fun x x' victim hx hone => (preempts_turnsLeft (preemptOne_preempts hone)).trans hx
      · exact le_refl _
    have hlast : turnsLeft (commitRunning cfg id plan blocks mid) = turnsLeft mid - 1 := by
      show mid.sched.running.length - (mid.led.reqIndex + 1) = _
      rw [turnsLeft]
      omega
    omega

/-- The length of the list is fuel enough. -/
theorem runningLoop_fuel {fuel : ℕ} {st : State} (hfuel : turnsLeft st ≤ fuel) :
    runningLoop cfg env ctx (fuel + 1) st = runningLoop cfg env ctx fuel st := by
  induction fuel generalizing st with
  | zero =>
    have hend : st.sched.running[st.led.reqIndex]? = none := by
      apply List.getElem?_eq_none
      rw [turnsLeft] at hfuel
      omega
    rw [runningLoop, runningLoop, hend]
  | succ fuel ih =>
    rw [runningLoop, runningLoop]
    cases hid : st.sched.running[st.led.reqIndex]? with
    | none => rfl
    | some id =>
      dsimp only
      by_cases hbudget : st.led.tokenBudget > 0
      · rw [if_pos hbudget, if_pos hbudget]
        cases hturn : runningTurn cfg env ctx st id with
        | error e => rfl
        | ok out =>
          obtain ⟨mid, stop⟩ := out
          show (if stop = true then _ else _) = (if stop = true then _ else _)
          cases stop with
          | true => rfl
          | false =>
            have hless : turnsLeft mid < turnsLeft st := runningTurn_turnsLeft hid hturn
            have hmid : turnsLeft mid ≤ fuel := by omega
            exact ih hmid
      · rw [if_neg hbudget, if_neg hbudget]

/-! ## The tokens of a turn -/

/-- The tokens of a plan are at most the ones the turn started from, and not negative when
those are not. -/
theorem planRunning_le (hwindow : env.WindowBounded) {led : Ledger} {r : Request} {plan : Plan}
    (hn : 0 ≤ runningTokens cfg ctx led r) (h : planRunning cfg env ctx led r = .ok plan) :
    0 ≤ plan.numNewTokens ∧ plan.numNewTokens ≤ runningTokens cfg ctx led r := by
  have halign : ∀ p : Plan, 0 ≤ p.numNewTokens →
      0 ≤ (alignRunning cfg r p).numNewTokens ∧
        (alignRunning cfg r p).numNewTokens ≤ p.numNewTokens := by
    intro p hp
    rw [alignRunning]
    split
    · have hle := mambaBlockAlignedSplit_le cfg r p.numNewTokens 0 0
      rw [max_eq_left hp] at hle
      exact ⟨hle.2 hp, hle.1⟩
    · exact ⟨hp, le_refl _⟩
  unfold planRunning at h
  dsimp only at h
  split at h
  · obtain ⟨scan, hscan, h⟩ := bind_ok h
    cases h
    obtain ⟨hnonneg, hle⟩ := encoder_le hwindow hn hscan
    have := halign ⟨scan.numNewTokens, scan.inputs, scan.computeBudget, scan.externalLoads,
      scan.tick⟩ hnonneg
    exact ⟨this.1, this.2.trans hle⟩
  · cases h
    exact halign _ hn

/-- A plan has no tokens beyond the ones its turn started from. -/
theorem planRunning_le_max (hwindow : env.WindowBounded) {led : Ledger} {r : Request} {plan : Plan}
    (h : planRunning cfg env ctx led r = .ok plan) :
    plan.numNewTokens ≤ max (runningTokens cfg ctx led r) 0 := by
  have halign : ∀ p : Plan, (alignRunning cfg r p).numNewTokens ≤ max p.numNewTokens 0 := by
    intro p
    rw [alignRunning]
    split
    · exact (mambaBlockAlignedSplit_le cfg r p.numNewTokens 0 0).1
    · exact le_max_left _ _
  unfold planRunning at h
  dsimp only at h
  split at h
  · obtain ⟨scan, hscan, h⟩ := bind_ok h
    cases h
    exact (halign _).trans (max_le (encoder_le_max hwindow hscan) (le_max_right _ _))
  · cases h
    exact halign _

/-- A turn starts from no more tokens than the request has left. -/
theorem runningTokens_le_left {led : Ledger} {r : Request} :
    runningTokens cfg ctx led r ≤
      r.numTokensWithSpec + r.numOutputPlaceholders - r.numComputedTokens := by
  rw [runningTokens]
  refine (min_le_left _ _).trans ?_
  split
  · refine (min_le_left _ _).trans ((min_le_left _ _).trans ?_)
    split
    · rename_i hlong
      exact le_of_lt hlong.2.2
    · exact le_refl _
  · refine (min_le_left _ _).trans ?_
    split
    · rename_i hlong
      exact le_of_lt hlong.2.2
    · exact le_refl _

/-- The tokens of a turn are not negative when the request has some left and fits. -/
theorem runningTokens_nonneg {led : Ledger} {r : Request}
    (hraw : r.numComputedTokens ≤ r.numTokensWithSpec + r.numOutputPlaceholders)
    (hroom : r.numComputedTokens + cfg.numSampledTokensPerStep ≤ cfg.maxModelLen)
    (hbudget : 0 ≤ led.tokenBudget)
    (hremaining : budgeted cfg r = true → 0 ≤ remainingPrefillBudget ctx led) :
    0 ≤ runningTokens cfg ctx led r := by
  unfold runningTokens
  dsimp only
  refine le_min ?_ (by omega)
  have hcount : 0 ≤ min (if budgeted cfg r = false ∧ 0 < cfg.longPrefillTokenThreshold ∧
      cfg.longPrefillTokenThreshold <
        r.numTokensWithSpec + r.numOutputPlaceholders - r.numComputedTokens then
        cfg.longPrefillTokenThreshold
      else r.numTokensWithSpec + r.numOutputPlaceholders - r.numComputedTokens)
      led.tokenBudget := by
    refine le_min ?_ hbudget
    split
    · rename_i hthreshold
      exact le_of_lt hthreshold.2.1
    · omega
  split
  · rename_i hb
    exact le_min hcount (hremaining hb)
  · exact hcount

/-- A debited request stays within the remaining prefill budget. -/
theorem runningTokens_le_remaining {led : Ledger} {r : Request} (hb : budgeted cfg r = true) :
    runningTokens cfg ctx led r ≤ remainingPrefillBudget ctx led := by
  unfold runningTokens
  dsimp only
  rw [if_pos hb]
  exact (min_le_left _ _).trans (min_le_right _ _)

end

end SparkKit.Sched.Running
