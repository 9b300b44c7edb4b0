import SparkKit.Sched.Frames
import Mathlib.Algebra.Order.BigOperators.Group.List

/-!
# The aggregate prefill budget

Every token of a prefill, running or newly admitted, is debited to one counter before it is
booked, and a preemption takes tokens off the books but never off the counter. So the
counter bounds the booked tokens, and the two loops keep the counter within the budget.
-/
namespace SparkKit.Sched.Budget

open SparkKit.Lib.Outcome SparkKit.Sched.Requests SparkKit.Sched.Chunk SparkKit.Sched.StepState
open SparkKit.Sched.Running SparkKit.Sched.Waiting SparkKit.Sched.Schedule
open SparkKit.Sched.Frames (scheduleWaiting_cases)

/-! ## Booked tokens -/

/-- The tokens booked for the requests that satisfy `P`. -/
def tokensOf (P : ReqId → Bool) (d : ReqDict ℤ) : ℤ :=
  ((d.entries.filter fun e => P e.1).map Sigma.snd).sum

/-- The requests whose tokens count: prefill chunks at the start of the step, and the ones
admitted in it. -/
def counted (s : Scheduler) (led : Ledger) (id : ReqId) : Bool :=
  (s.requests id).isPrefillChunk || id ∈ led.scheduledNewReqs || id ∈ led.scheduledResumedReqs

/-- The tokens of the step for prefill chunks and admitted requests. -/
def scheduledPrefillTokens (s : Scheduler) (out : State) : ℤ :=
  tokensOf (counted s out.led) out.led.numScheduledTokens

/-- No running prefill is past its tokens or past the model length. -/
def PrefillsPending (cfg : SchedulerConfig) (s : Scheduler) : Prop :=
  ∀ id ∈ s.running, (s.requests id).isPrefillChunk = true →
    (s.requests id).numComputedTokens ≤
        (s.requests id).numTokens + (s.requests id).numOutputPlaceholders ∧
      (s.requests id).numComputedTokens + cfg.numSampledTokensPerStep ≤ cfg.maxModelLen

/-- Booked tokens are not negative, and the counter lies between them and the budget. -/
structure BudgetInv (ctx : StepContext) (P : ReqId → Bool) (led : Ledger) : Prop where
  nonneg : ∀ e ∈ led.numScheduledTokens.entries, P e.1 = true → 0 ≤ e.2
  total : tokensOf P led.numScheduledTokens ≤ led.prefillTokensScheduled
  within : led.prefillTokensScheduled ≤ ctx.prefillTokenBudget

theorem tokensOf_sublist {P : ReqId → Bool} {entries kept : List (Sigma fun _ : ReqId => ℤ)}
    (hnonneg : ∀ e ∈ entries, P e.1 = true → 0 ≤ e.2) (hsub : kept.Sublist entries) :
    ((kept.filter fun e => P e.1).map Sigma.snd).sum ≤
      ((entries.filter fun e => P e.1).map Sigma.snd).sum := by
  apply ((hsub.filter _).map _).sum_le_sum
  intro n hn
  obtain ⟨e, he, rfl⟩ := List.mem_map.mp hn
  obtain ⟨he, hP⟩ := List.mem_filter.mp he
  exact hnonneg e he hP

section
variable {ctx : StepContext} {P P' : ReqId → Bool} {led led' : Ledger}

/-- What an erasure leaves are the entries of the other requests. -/
theorem mem_kerase {d : ReqDict ℤ} {id : ReqId} {e : Sigma fun _ : ReqId => ℤ}
    (he : e ∈ d.entries.kerase id) : e ∈ d.entries ∧ e.1 ≠ id := by
  refine ⟨(List.kerase_sublist id d.entries).subset he, fun heq => ?_⟩
  have hkey := List.mem_keys_of_mem he
  rw [heq] at hkey
  exact List.notMem_keys_kerase id d.nodupKeys hkey

/-- An insertion adds at most its tokens, whether or not the request was booked before. -/
theorem tokensOf_insert {d : ReqDict ℤ} {id : ReqId} {n : ℤ}
    (hnonneg : ∀ e ∈ d.entries, P e.1 = true → 0 ≤ e.2) (hP : ∀ x, x ≠ id → P' x = P x) :
    tokensOf P' (d.insert id n) ≤ tokensOf P d + if P' id = true then n else 0 := by
  have hkept : (d.entries.kerase id).filter (fun e => P' e.1) =
      (d.entries.kerase id).filter fun e => P e.1 :=
    List.filter_congr fun e he => hP e.1 (mem_kerase he).2
  have hle : (((d.entries.kerase id).filter fun e => P e.1).map Sigma.snd).sum ≤ tokensOf P d :=
    tokensOf_sublist hnonneg (List.kerase_sublist id d.entries)
  simp only [tokensOf] at hle ⊢
  rw [AList.entries_insert, List.filter_cons]
  dsimp only
  rw [hkept]
  split
  · rw [List.map_cons, List.sum_cons]
    dsimp only
    omega
  · omega

/-- Booking a request whose tokens are debited, or one that does not count. -/
theorem BudgetInv.book (h : BudgetInv ctx P led) (id : ReqId) (n : ℤ)
    (hP : ∀ x, x ≠ id → P' x = P x)
    (hn : P' id = true → 0 ≤ n ∧ n ≤ remainingPrefillBudget ctx led)
    (hbooked : led'.numScheduledTokens = led.numScheduledTokens.insert id n)
    (hdebit : led'.prefillTokensScheduled =
      if P' id = true then led.prefillTokensScheduled + n else led.prefillTokensScheduled) :
    BudgetInv ctx P' led' := by
  refine ⟨?_, ?_, ?_⟩
  · intro e he hcount
    rw [hbooked, AList.entries_insert] at he
    rcases List.mem_cons.mp he with rfl | he
    · exact (hn hcount).1
    · obtain ⟨he, hne⟩ := mem_kerase he
      exact h.nonneg e he ((hP e.1 hne).symm.trans hcount)
  · have htotal := h.total
    have hinsert := tokensOf_insert (n := n) h.nonneg hP
    rw [hbooked, hdebit]
    split
    · rename_i hcount
      rw [if_pos hcount] at hinsert
      omega
    · rename_i hcount
      rw [if_neg hcount] at hinsert
      omega
  · have hwithin := h.within
    rw [hdebit]
    split
    · rename_i hcount
      have hroom := (hn hcount).2
      rw [remainingPrefillBudget] at hroom
      omega
    · exact hwithin

/-- Taking a request off the books. -/
theorem BudgetInv.unbook {id : ReqId} (h : BudgetInv ctx P led)
    (hbooked : led'.numScheduledTokens = led.numScheduledTokens.erase id)
    (hdebit : led'.prefillTokensScheduled = led.prefillTokensScheduled) : BudgetInv ctx P led' := by
  have hentries : led'.numScheduledTokens.entries = led.numScheduledTokens.entries.kerase id := by
    rw [hbooked]
    rfl
  have hsub := List.kerase_sublist id led.numScheduledTokens.entries
  refine ⟨?_, ?_, ?_⟩
  · intro e he
    rw [hentries] at he
    exact h.nonneg e (hsub.subset he)
  · rw [tokensOf, hentries, hdebit]
    exact (tokensOf_sublist h.nonneg hsub).trans h.total
  · rw [hdebit]
    exact h.within

end

/-! ## The running loop -/

/-- The running requests that count. -/
def chunkOf (s : Scheduler) (id : ReqId) : Bool := (s.requests id).isPrefillChunk

/-- What the running loop keeps. -/
structure RunningInv (cfg : SchedulerConfig) (ctx : StepContext) (s₀ : Scheduler) (st : State) :
    Prop where
  budget : BudgetInv ctx (chunkOf s₀) st.led
  unadmitted : st.led.scheduledNewReqs = [] ∧ st.led.scheduledResumedReqs = []
  chunk : ∀ id, chunkOf st.sched id = chunkOf s₀ id
  nodup : st.sched.running.Nodup
  pending : PrefillsPending cfg st.sched

section
variable {cfg : SchedulerConfig} {env : Env} {ctx : StepContext} {s₀ : Scheduler}

theorem RunningInv.preempts {st st' : State} {victim : ReqId} (h : RunningInv cfg ctx s₀ st)
    (hp : Preempts cfg st st' victim) :
    RunningInv cfg ctx s₀ st' ∧ st'.led.prefillTokensScheduled = st.led.prefillTokensScheduled := by
  obtain ⟨led, hled, hledger⟩ := hp.ledger
  have hdebit : led.prefillTokensScheduled = st.led.prefillTokensScheduled := by
    rcases hled with rfl | rfl <;> rfl
  have hunadmitted : led.scheduledNewReqs = [] ∧ led.scheduledResumedReqs = [] := by
    rcases hled with rfl | rfl <;> exact h.unadmitted
  have hbudget : BudgetInv ctx (chunkOf s₀) led := by
    rcases hled with rfl | rfl
    · exact h.budget
    · exact h.budget.unbook rfl rfl
  refine ⟨⟨?_, ?_, ?_, h.nodup.sublist hp.running, ?_⟩, ?_⟩
  · rw [hledger]
    exact ⟨hbudget.nonneg, hbudget.total, hbudget.within⟩
  · rw [hledger]
    exact hunadmitted
  · intro id
    by_cases hid : id = victim
    · subst hid
      rw [← h.chunk id, chunkOf, hp.victim]
      rfl
    · rw [← h.chunk id, chunkOf, hp.others hid, chunkOf]
  · intro id hid
    have hne : id ≠ victim := fun heq => hp.removed h.nodup (heq ▸ hid)
    rw [hp.others hne]
    exact h.pending id (hp.running.subset hid)
  · rw [hledger]
    exact hdebit

/-- The allocation keeps the invariant and the counter. -/
theorem RunningInv.allocates {st st' : State} {fuel : ℕ} {id : ReqId} {n : ℤ}
    {blocks : Option KVCacheBlocks} (h : RunningInv cfg ctx s₀ st)
    (halloc : allocateSlots cfg env fuel st id n = .ok (st', blocks)) :
    RunningInv cfg ctx s₀ st' ∧ st'.led.prefillTokensScheduled = st.led.prefillTokensScheduled := by
  apply allocateSlots_keeps (P := fun mid => RunningInv cfg ctx s₀ mid ∧
    mid.led.prefillTokensScheduled = st.led.prefillTokensScheduled) ?_ ?_ ⟨h, rfl⟩ halloc
  · intro mid hmid
    obtain ⟨⟨hbudget, hunadmitted, hchunk, hnodup, hpending⟩, hsame⟩ := hmid
    exact ⟨⟨⟨hbudget.nonneg, hbudget.total, hbudget.within⟩, hunadmitted, hchunk, hnodup,
      hpending⟩, hsame⟩
  · intro mid next victim hmid hone
    obtain ⟨hinv, hsame⟩ := hmid.1.preempts (preemptOne_preempts hone)
    exact ⟨hinv, hsame.trans hmid.2⟩

/-- Booking a running request within the remaining budget. -/
theorem RunningInv.commits (henable : cfg.enableDecodeAwarePrefill = true) {st : State}
    {id : ReqId} {plan : Plan} {blocks : KVCacheBlocks} (h : RunningInv cfg ctx s₀ st)
    (hn : chunkOf s₀ id = true →
      0 ≤ plan.numNewTokens ∧ plan.numNewTokens ≤ remainingPrefillBudget ctx st.led) :
    RunningInv cfg ctx s₀ (commitRunning cfg id plan blocks st) := by
  have hbudgeted : budgeted cfg (st.sched.requests id) = chunkOf s₀ id := by
    rw [budgeted, henable, Bool.true_and]
    exact h.chunk id
  have hrequest : ∀ x, ∃ spec, (commitRunning cfg id plan blocks st).sched.requests x =
      { st.sched.requests x with specTokenIds := spec } := by
    intro x
    by_cases hx : x = id
    · subst hx
      exact ⟨[], by simp [commitRunning, Scheduler.setRequest]⟩
    · exact ⟨(st.sched.requests x).specTokenIds, by simp [commitRunning, Scheduler.setRequest, hx]⟩
  refine ⟨?_, h.unadmitted, ?_, h.nodup, ?_⟩
  · apply h.budget.book id plan.numNewTokens (fun _ _ => rfl) hn rfl
    rw [← hbudgeted]
    rfl
  · intro x
    obtain ⟨spec, hx⟩ := hrequest x
    rw [chunkOf, hx]
    exact h.chunk x
  · intro x hx
    obtain ⟨spec, hreq⟩ := hrequest x
    rw [hreq]
    exact h.pending x hx

/-- A counted request is planned with tokens that fit in what is left of the budget. -/
theorem RunningInv.plan_tokens (henable : cfg.enableDecodeAwarePrefill = true)
    (hwindow : env.WindowBounded) {st : State} {id : ReqId} {plan : Plan}
    (h : RunningInv cfg ctx s₀ st) (hbudget : 0 < st.led.tokenBudget) (hid : id ∈ st.sched.running)
    (hchunk : chunkOf s₀ id = true)
    (hopen : budgeted cfg (st.sched.requests id) = true → 0 < remainingPrefillBudget ctx st.led)
    (hplan : planRunning cfg env ctx st.led (st.sched.requests id) = .ok plan) :
    0 ≤ plan.numNewTokens ∧ plan.numNewTokens ≤ remainingPrefillBudget ctx st.led := by
  have hchunk' : (st.sched.requests id).isPrefillChunk = true := (h.chunk id).trans hchunk
  have hb : budgeted cfg (st.sched.requests id) = true := by
    rw [budgeted, henable, hchunk']
    rfl
  obtain ⟨htokens, hroom⟩ := h.pending id hid hchunk'
  have hraw : (st.sched.requests id).numComputedTokens ≤
      (st.sched.requests id).numTokensWithSpec + (st.sched.requests id).numOutputPlaceholders := by
    rw [Request.numTokensWithSpec]
    omega
  have hnonneg := runningTokens_nonneg hraw hroom (le_of_lt hbudget)
    (fun hb => le_of_lt (hopen hb))
  obtain ⟨hplan0, hplanle⟩ := planRunning_le hwindow hnonneg hplan
  exact ⟨hplan0, hplanle.trans (runningTokens_le_remaining hb)⟩

theorem runningTurn_inv (henable : cfg.enableDecodeAwarePrefill = true)
    (hwindow : env.WindowBounded) {st st' : State} {id : ReqId} {stop : Bool}
    (h : RunningInv cfg ctx s₀ st) (hbudget : 0 < st.led.tokenBudget)
    (hid : st.sched.running[st.led.reqIndex]? = some id)
    (hturn : runningTurn cfg env ctx st id = .ok (st', stop)) : RunningInv cfg ctx s₀ st' := by
  cases runningTurn_cases hturn with
  | skip gateSkips tick skips =>
    exact ⟨⟨h.budget.nonneg, h.budget.total, h.budget.within⟩, h.unadmitted, h.chunk, h.nodup,
      h.pending⟩
  | @fail plan _ hplan halloc =>
    have hticked : RunningInv cfg ctx s₀ { st with led := { st.led with tick := plan.tick } } :=
      ⟨⟨h.budget.nonneg, h.budget.total, h.budget.within⟩, h.unadmitted, h.chunk, h.nodup,
        h.pending⟩
    exact (hticked.allocates halloc).1
  | @commit plan mid blocks hpass hgate hopen hplan hne halloc =>
    have hticked : RunningInv cfg ctx s₀ { st with led := { st.led with tick := plan.tick } } :=
      ⟨⟨h.budget.nonneg, h.budget.total, h.budget.within⟩, h.unadmitted, h.chunk, h.nodup,
        h.pending⟩
    obtain ⟨hmid, hsame⟩ := hticked.allocates halloc
    refine hmid.commits henable fun hchunk => ?_
    have hplanned := h.plan_tokens henable hwindow hbudget (List.mem_of_getElem? hid) hchunk hopen
      hplan
    rw [remainingPrefillBudget]
    rw [hsame]
    exact hplanned

/-- The running loop keeps its invariant. -/
theorem runningLoop_inv (henable : cfg.enableDecodeAwarePrefill = true)
    (hwindow : env.WindowBounded) {fuel : ℕ} {st st' : State} (h : RunningInv cfg ctx s₀ st)
    (hloop : runningLoop cfg env ctx fuel st = .ok st') : RunningInv cfg ctx s₀ st' :=
  runningLoop_keeps (P := RunningInv cfg ctx s₀)
    (fun _ _ _ _ hst hid hbudget hturn => runningTurn_inv henable hwindow hst hbudget hid hturn)
    h hloop

/-! ## The waiting loop -/

/-- Until a waiting request is admitted, only running chunks count. -/
theorem counted_unadmitted {led : Ledger}
    (h : led.scheduledNewReqs = [] ∧ led.scheduledResumedReqs = []) :
    counted s₀ led = chunkOf s₀ := by
  funext id
  rw [counted, chunkOf]
  rw [h.1, h.2]
  simp

/-- An admission makes its request count, and no other. -/
theorem admitLedger_counted {led : Ledger} {r : Request} {id : ReqId} {a : Admission}
    {blocks : KVCacheBlocks} (hstatus : r.status = .waiting ∨ r.status = .preempted) (x : ReqId) :
    counted s₀ (admitLedger cfg r id a blocks led) x = (x = id || counted s₀ led x) := by
  simp only [counted, admitLedger]
  rcases hstatus with hwaiting | hpreempted
  · have hne : r.status ≠ .preempted := by
      rw [hwaiting]
      decide
    simp only [hwaiting, if_pos, List.mem_append, List.mem_singleton, Bool.decide_or]
    cases (s₀.requests x).isPrefillChunk <;> by_cases hx : x = id <;> simp [hx]
  · simp only [hpreempted, if_pos, List.mem_append, List.mem_singleton, Bool.decide_or]
    cases (s₀.requests x).isPrefillChunk <;> by_cases hx : x = id <;> simp [hx]

theorem admitCases_budget (henable : cfg.enableDecodeAwarePrefill = true) {led led' : Ledger}
    (hcases : AdmitCases cfg ctx led led') (h : BudgetInv ctx (counted s₀ led) led) :
    BudgetInv ctx (counted s₀ led') led' := by
  cases hcases with
  | same tick skipped => exact ⟨h.nonneg, h.total, h.within⟩
  | @admitted tick r id a blocks hstatus hpos hbudget hprefill =>
    have hcount : counted s₀ (admitLedger cfg r id a blocks { led with tick := tick }) id = true := by
      rw [admitLedger_counted hstatus]
      simp
    apply h.book id a.plan.numNewTokens
    · intro x hx
      rw [admitLedger_counted hstatus, decide_eq_false hx, Bool.false_or]
      rfl
    · exact fun _ => ⟨le_of_lt hpos, hprefill henable⟩
    · rfl
    · rw [if_pos hcount]
      show (if cfg.enableDecodeAwarePrefill = true then _ else _) = _
      rw [if_pos henable]

theorem waitingLoop_budget (henable : cfg.enableDecodeAwarePrefill = true)
    (hwindow : env.WindowBounded) {fuel : ℕ} {st st' : State}
    (h : BudgetInv ctx (counted s₀ st.led) st.led)
    (hloop : waitingLoop cfg env ctx fuel st = .ok st') :
    BudgetInv ctx (counted s₀ st'.led) st'.led :=
  waitingLoop_keeps (P := fun st => BudgetInv ctx (counted s₀ st.led) st.led)
    (fun _ _ _ _ _ hst _ _ hturn => admitCases_budget henable (waitingTurn_cases hwindow hturn) hst) h hloop

theorem scheduleWaiting_budget (henable : cfg.enableDecodeAwarePrefill = true)
    (hwindow : env.WindowBounded) {st st' : State} (h : BudgetInv ctx (counted s₀ st.led) st.led)
    (hwaiting : scheduleWaiting cfg env ctx st = .ok st') :
    BudgetInv ctx (counted s₀ st'.led) st'.led := by
  rcases scheduleWaiting_cases hwaiting with ⟨-, rfl⟩ | ⟨-, mid, hloop, rfl⟩
  · exact ⟨h.nonneg, h.total, h.within⟩
  · have hmid : BudgetInv ctx (counted s₀ mid.led) mid.led := by
      apply waitingLoop_budget henable hwindow ?_ hloop
      exact ⟨h.nonneg, h.total, h.within⟩
    exact hmid

/-! ## The step -/

theorem initialState_inv (henable : cfg.enableDecodeAwarePrefill = true) {s : Scheduler}
    (hnodup : s.running.Nodup) (hpending : PrefillsPending cfg s) (throttle : Bool) :
    RunningInv cfg (stepContext cfg throttle s) s (initialState cfg s) := by
  obtain ⟨turns, hbegin⟩ := beginStep_eq cfg s
  have hsched : (initialState cfg s).sched =
      { s with currentStep := s.currentStep + 1, longPrefillLastScheduled := turns } := hbegin
  refine ⟨⟨?_, ?_, prefillTokenBudget_nonneg henable s⟩, ⟨rfl, rfl⟩, ?_, ?_, ?_⟩
  · intro e he
    cases he
  · exact le_refl _
  · intro id
    rw [hsched]
    rfl
  · rw [hsched]
    exact hnodup
  · rw [hsched]
    exact hpending

end

/-- The tokens of prefill chunks and of admitted requests stay within the prefill budget of
the step and within `max_num_scheduled_tokens`, whatever is preempted on the way. -/
theorem prefill_within_budget {cfg : SchedulerConfig} {env : Env} {throttle : Bool} {s : Scheduler}
    {out : State} (henable : cfg.enableDecodeAwarePrefill = true) (hwindow : env.WindowBounded)
    (hnodup : s.running.Nodup) (hpending : PrefillsPending cfg s)
    (h : schedule cfg env throttle s = .ok out) :
    scheduledPrefillTokens s out ≤ configuredPrefillBudget cfg s ∧
      scheduledPrefillTokens s out ≤ cfg.maxNumScheduledTokens := by
  obtain ⟨running, hrunning, h⟩ := bind_ok h
  obtain ⟨st, hwaiting, h⟩ := bind_ok h
  have hrun := runningLoop_inv henable hwindow (initialState_inv henable hnodup hpending throttle)
    hrunning
  have hstart : BudgetInv (stepContext cfg throttle s) (counted s running.led) running.led := by
    rw [counted_unadmitted hrun.unadmitted]
    exact hrun.budget
  have hend := scheduleWaiting_budget henable hwindow hstart hwaiting
  have hled : out.led = st.led := by
    split at h
    · cases h
      rfl
    · cases h
  have htotal : scheduledPrefillTokens s out ≤ prefillTokenBudget cfg s := by
    rw [scheduledPrefillTokens]
    rw [hled]
    exact hend.total.trans hend.within
  rw [prefillTokenBudget] at htotal
  rw [if_pos henable] at htotal
  exact ⟨htotal.trans (min_le_left _ _), htotal.trans (min_le_right _ _)⟩

/-- Two prefills and a decode; the second allocation fails, and the first prefill is preempted
after its tokens were debited. -/
def preemptingScheduler : Scheduler :=
  smallScheduler [smallRequest 0 5 40 30 [], smallRequest 1 1 40 10 [], smallRequest 2 1 9 8 [7, 8]]

theorem prefill_within_budget_preempting :
    ∃ out, schedule smallConfig (smallEnv (some 1)) false preemptingScheduler = .ok out ∧
      scheduledPrefillTokens preemptingScheduler out ≤
        configuredPrefillBudget smallConfig preemptingScheduler ∧
      scheduledPrefillTokens preemptingScheduler out ≤ smallConfig.maxNumScheduledTokens := by
  cases h : schedule smallConfig (smallEnv (some 1)) false preemptingScheduler with
  | error e =>
    have hok : (schedule smallConfig (smallEnv (some 1)) false preemptingScheduler).isOk = true := by
      decide +kernel
    rw [h] at hok
    cases hok
  | ok out =>
    exact ⟨out, rfl, prefill_within_budget rfl (smallEnv_windowBounded _) (by decide)
      (by unfold PrefillsPending; decide) h⟩

end SparkKit.Sched.Budget
