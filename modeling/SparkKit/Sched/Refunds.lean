import SparkKit.Sched.RunningLog
import SparkKit.Sched.StepInvariant

/-!
# What a preemption refunds

Preempting a request that the step has scheduled gives back its tokens, its blocks, its
speculative tokens and its encoder inputs. The two prefill marks are not given back:
`prefill_tokens_scheduled` and `prefill_scheduled` stay as they are. So they agree with the
books as long as no preemption hits a prefill that is already scheduled, and no longer. Without
decode-aware prefill the tokens of a prefill are never counted, and the marks agree until the
first one is booked.
-/
namespace SparkKit.Sched.Refunds

open SparkKit.Lib.Outcome SparkKit.Sched.Requests SparkKit.Sched.StepState
open SparkKit.Sched.Running SparkKit.Sched.Schedule SparkKit.Sched.Budget SparkKit.Sched.Frames
open SparkKit.Sched.StepInvariant SparkKit.Sched.RunningBooks SparkKit.Sched.RunningLog

/-! ## Exact books -/

/-- The two prefill marks agree with the requests still scheduled. -/
structure PrefillExact (s : Scheduler) (led : Ledger) : Prop where
  tokens : led.prefillTokensScheduled = tokensOf (chunkOf s) led.numScheduledTokens
  flag : led.prefillScheduled = true ↔ ∃ id ∈ led.scheduledRunningReqs, chunkOf s id = true

/-- Everything the ledger says is said by the requests still scheduled. -/
structure LedgerExact (cfg : SchedulerConfig) (s : Scheduler) (led : Ledger) : Prop where
  booked : Booked cfg s led
  prefill : PrefillExact s led

/-- With decode-aware prefill nothing has hit a scheduled prefill, and without it no prefill is
booked. -/
structure KeepsMarks (cfg : SchedulerConfig) (es : List LoopEvent) : Prop where
  spared : cfg.enableDecodeAwarePrefill = true → ∀ e ∈ es, ¬e.HitsPrefill
  unbooked : cfg.enableDecodeAwarePrefill = false → ∀ e ∈ es, ¬e.BooksPrefill

section
variable {cfg : SchedulerConfig} {env : Env} {ctx : StepContext} {s : Scheduler} {led : Ledger}
variable {es : List LoopEvent}

theorem KeepsMarks.left {es' : List LoopEvent} (h : KeepsMarks cfg (es ++ es')) :
    KeepsMarks cfg es :=
  ⟨fun henable e he => h.spared henable e (List.mem_append_left _ he),
    fun henable e he => h.unbooked henable e (List.mem_append_left _ he)⟩

/-- With decode-aware prefill every prefill chunk is debited. -/
theorem budgeted_chunk (henable : cfg.enableDecodeAwarePrefill = true) (s : Scheduler)
    (id : ReqId) : budgeted cfg (s.requests id) = chunkOf s id := by
  rw [budgeted, henable, Bool.true_and]
  rfl

/-- Unbooking a request that is not a scheduled prefill leaves the marks right. -/
theorem PrefillExact.unschedule (h : PrefillExact s led) (hbooked : Booked cfg s led)
    {r : Request} {id : ReqId} (hspared : id ∈ led.scheduledRunningReqs → chunkOf s id = false) :
    PrefillExact s (led.unschedule r id) := by
  constructor
  · show led.prefillTokensScheduled = tokensOf _ (led.numScheduledTokens.erase id)
    rw [tokensOf_erase, h.tokens]
    split
    · rename_i hchunk
      have hunscheduled : id ∉ led.numScheduledTokens := by
        intro hid
        rw [hspared ((hbooked.tokens id).mp hid)] at hchunk
        cases hchunk
      rw [AList.lookup_eq_none.mpr hunscheduled]
      exact (sub_zero _).symm
    · exact (sub_zero _).symm
  · show led.prefillScheduled = true ↔ ∃ x ∈ led.scheduledRunningReqs.erase id, chunkOf s x = true
    rw [h.flag]
    constructor
    · intro hscheduled
      obtain ⟨x, hx, hchunk⟩ := hscheduled
      have hne : x ≠ id := by
        intro heq
        subst heq
        rw [hspared hx] at hchunk
        cases hchunk
      exact ⟨x, (List.mem_erase_of_ne hne).mpr hx, hchunk⟩
    · intro hkept
      obtain ⟨x, hx, hchunk⟩ := hkept
      exact ⟨x, List.mem_of_mem_erase hx, hchunk⟩

/-- Booking a new request marks its tokens, if they are debited. -/
theorem PrefillExact.commits (h : PrefillExact s led) {id : ReqId} {plan : Plan}
    {blocks : KVCacheBlocks} (hnew : id ∉ led.numScheduledTokens)
    (hdebited : budgeted cfg (s.requests id) = chunkOf s id) :
    PrefillExact s (commitLedger cfg (s.requests id) id plan blocks led) := by
  constructor
  · show (if budgeted cfg (s.requests id) = true then _ else _) =
      tokensOf _ (led.numScheduledTokens.insert id plan.numNewTokens)
    rw [tokensOf_insert_new hnew, ← h.tokens, hdebited]
    split
    · rfl
    · exact (add_zero _).symm
  · show (led.prefillScheduled || chunkOf s id) = true ↔
      ∃ x ∈ led.scheduledRunningReqs ++ [id], chunkOf s x = true
    rw [Bool.or_eq_true, h.flag]
    constructor
    · intro hmarked
      rcases hmarked with ⟨x, hx, hchunk⟩ | hchunk
      · exact ⟨x, List.mem_append_left _ hx, hchunk⟩
      · exact ⟨id, List.mem_append_right _ List.mem_cons_self, hchunk⟩
    · intro hscheduled
      obtain ⟨x, hx, hchunk⟩ := hscheduled
      rcases List.mem_append.mp hx with hx | hx
      · exact .inl ⟨x, hx, hchunk⟩
      · rw [List.mem_singleton.mp hx] at hchunk
        exact .inr hchunk

/-- Chunks are as at the start of the step, the flag tells whether one was booked, and while
nothing puts the marks out of step they are right. -/
structure SparedInv (cfg : SchedulerConfig) (s : Scheduler) (es : List LoopEvent) (st : State) :
    Prop where
  chunk : ∀ id, chunkOf st.sched id = chunkOf s id
  flag : st.led.prefillScheduled = true ↔ ∃ e ∈ es, e.BooksPrefill
  marks : KeepsMarks cfg es → PrefillExact s st.led

theorem SparedInv.preempts {st st' : State} {victim : ReqId} (h : SparedInv cfg s es st)
    (hbooked : Booked cfg s st.led) (hp : Preempts cfg st st' victim) :
    SparedInv cfg s (es ++ [.preempts ⟨st, victim⟩]) st' := by
  obtain ⟨led, hled, hledger⟩ := hp.ledger
  refine ⟨fun id => ?_, ?_, fun hkeeps => ?_⟩
  · rw [← h.chunk id, chunkOf]
    by_cases hid : id = victim
    · subst hid
      rw [hp.victim]
      rfl
    · rw [hp.others hid, chunkOf]
  · have hsame : st'.led.prefillScheduled = st.led.prefillScheduled := by
      rw [hledger]
      rcases hled with rfl | rfl
      · rfl
      · rfl
    rw [hsame, h.flag]
    constructor
    · intro hbooks
      obtain ⟨e, he, hbooks⟩ := hbooks
      exact ⟨e, List.mem_append_left _ he, hbooks⟩
    · intro hbooks
      obtain ⟨e, he, hbooks⟩ := hbooks
      rcases List.mem_append.mp he with he | he
      · exact ⟨e, he, hbooks⟩
      · rw [List.mem_singleton.mp he] at hbooks
        exact hbooks.elim
  · have hexact := h.marks hkeeps.left
    have hvictim : victim ∈ st.led.scheduledRunningReqs → chunkOf s victim = false := by
      intro hscheduled
      apply Bool.eq_false_iff.mpr
      intro hchunk
      cases henable : cfg.enableDecodeAwarePrefill with
      | true =>
        apply hkeeps.spared henable (.preempts ⟨st, victim⟩)
          (List.mem_append_right _ List.mem_cons_self)
        exact ⟨hscheduled, (h.chunk victim).trans hchunk⟩
      | false =>
        obtain ⟨e, he, hbooks⟩ := h.flag.mp (hexact.flag.mpr ⟨victim, hscheduled, hchunk⟩)
        exact hkeeps.left.unbooked henable e he hbooks
    rw [hledger]
    rcases hled with rfl | rfl
    · exact ⟨hexact.tokens, hexact.flag⟩
    · have hafter := hexact.unschedule (r := st.sched.requests victim) hbooked hvictim
      exact ⟨hafter.tokens, hafter.flag⟩

theorem SparedInv.same {st st' : State} (h : SparedInv cfg s es st)
    (hchunk : ∀ id, chunkOf st'.sched id = chunkOf st.sched id)
    (hcounter : st'.led.prefillTokensScheduled = st.led.prefillTokensScheduled)
    (hflag : st'.led.prefillScheduled = st.led.prefillScheduled)
    (htokens : st'.led.numScheduledTokens = st.led.numScheduledTokens)
    (hscheduled : st'.led.scheduledRunningReqs = st.led.scheduledRunningReqs) :
    SparedInv cfg s es st' := by
  refine ⟨fun id => (hchunk id).trans (h.chunk id), ?_, fun hkeeps => ?_⟩
  · rw [hflag]
    exact h.flag
  · have hexact := h.marks hkeeps
    constructor
    · rw [hcounter, htokens]
      exact hexact.tokens
    · rw [hflag, hscheduled]
      exact hexact.flag

theorem commitRunning_chunk (st : State) (id : ReqId) (plan : Plan) (blocks : KVCacheBlocks)
    (x : ReqId) : chunkOf (commitRunning cfg id plan blocks st).sched x = chunkOf st.sched x := by
  show (Function.update st.sched.requests id _ x).isPrefillChunk = _
  by_cases hx : x = id
  · subst hx
    rw [Function.update_self]
    rfl
  · rw [Function.update_of_ne hx]
    rfl

/-- Booking the request of the turn. -/
theorem SparedInv.commits {st : State} {id : ReqId} {plan : Plan} {blocks : KVCacheBlocks}
    (h : SparedInv cfg s es st) (hturning : Turning cfg s id st)
    (hrequest : st.sched.requests id = s.requests id) :
    SparedInv cfg s (es ++ [.books ⟨id, s.requests id, plan⟩])
      (commitRunning cfg id plan blocks st) := by
  refine ⟨fun x => (commitRunning_chunk st id plan blocks x).trans (h.chunk x), ?_,
    fun hkeeps => ?_⟩
  · show (st.led.prefillScheduled || chunkOf st.sched id) = true ↔ _
    rw [Bool.or_eq_true, h.flag, h.chunk id]
    constructor
    · intro hmarked
      rcases hmarked with ⟨e, he, hbooks⟩ | hchunk
      · exact ⟨e, List.mem_append_left _ he, hbooks⟩
      · exact ⟨_, List.mem_append_right _ List.mem_cons_self, hchunk⟩
    · intro hbooks
      obtain ⟨e, he, hbooks⟩ := hbooks
      rcases List.mem_append.mp he with he | he
      · exact .inl ⟨e, he, hbooks⟩
      · rw [List.mem_singleton.mp he] at hbooks
        exact .inr hbooks
  · have hnew : id ∉ st.led.numScheduledTokens :=
      fun hid => hturning.unscheduled ((hturning.inv.booked.tokens id).mp hid)
    have hdebited : budgeted cfg (s.requests id) = chunkOf s id := by
      cases henable : cfg.enableDecodeAwarePrefill with
      | true => exact budgeted_chunk henable s id
      | false =>
        have hdecode : ¬(s.requests id).isPrefillChunk = true :=
          hkeeps.unbooked henable _ (List.mem_append_right _ List.mem_cons_self)
        rw [budgeted, henable, Bool.false_and]
        exact (Bool.eq_false_iff.mpr hdecode).symm
    have hafter : PrefillExact s (commitLedger cfg (s.requests id) id plan blocks st.led) :=
      (h.marks hkeeps.left).commits hnew hdebited
    rw [← hrequest] at hafter
    exact hafter

theorem initialState_spared : SparedInv cfg s [] (initialState cfg s) := by
  obtain ⟨turns, hbegin⟩ := beginStep_eq cfg s
  have hsched : (initialState cfg s).sched =
      { s with currentStep := s.currentStep + 1, longPrefillLastScheduled := turns } := hbegin
  refine ⟨fun id => ?_, iff_of_false Bool.false_ne_true fun hbooks => ?_, fun _ => ⟨rfl, ?_⟩⟩
  · rw [hsched]
    rfl
  · obtain ⟨e, he, -⟩ := hbooks
    cases he
  · refine iff_of_false Bool.false_ne_true fun hscheduled => ?_
    obtain ⟨id, hid, -⟩ := hscheduled
    cases hid

end

/-! ## Hits are never made up for -/

/-- Booked prefills have tokens. With decode-aware prefill the counter covers them, and is ahead of
them after a hit. Without it the counter stays at zero. -/
structure Overcount (cfg : SchedulerConfig) (s : Scheduler) (es : List LoopEvent) (led : Ledger) :
    Prop where
  positive : ∀ e ∈ led.numScheduledTokens.entries, chunkOf s e.1 = true → 0 < e.2
  covered : cfg.enableDecodeAwarePrefill = true →
    tokensOf (chunkOf s) led.numScheduledTokens ≤ led.prefillTokensScheduled
  ahead : cfg.enableDecodeAwarePrefill = true → (∃ e ∈ es, e.HitsPrefill) →
    tokensOf (chunkOf s) led.numScheduledTokens < led.prefillTokensScheduled
  idle : cfg.enableDecodeAwarePrefill = false → led.prefillTokensScheduled = 0

section
variable {cfg : SchedulerConfig} {env : Env} {ctx : StepContext} {s : Scheduler} {led : Ledger}
variable {es : List LoopEvent}

/-- Erasing lowers the booked prefill tokens, and those of a booked prefill strictly. -/
theorem Overcount.erase (h : Overcount cfg s es led) (id : ReqId) :
    tokensOf (chunkOf s) (led.numScheduledTokens.erase id) ≤
        tokensOf (chunkOf s) led.numScheduledTokens ∧
      (id ∈ led.numScheduledTokens → chunkOf s id = true →
        tokensOf (chunkOf s) (led.numScheduledTokens.erase id) <
          tokensOf (chunkOf s) led.numScheduledTokens) := by
  have hbooked : ∀ n, led.numScheduledTokens.lookup id = some n → chunkOf s id = true → 0 < n :=
    fun n hn hchunk => h.positive ⟨id, n⟩ (AList.mem_lookup_iff.mp hn) hchunk
  rw [tokensOf_erase]
  cases hlookup : led.numScheduledTokens.lookup id with
  | none =>
    refine ⟨?_, fun hid => absurd hid (AList.lookup_eq_none.mp hlookup)⟩
    rw [Option.getD_none, ite_self]
    omega
  | some n =>
    rw [Option.getD_some]
    constructor
    · split
      · rename_i hchunk
        have hn := hbooked n hlookup hchunk
        omega
      · omega
    · intro _ hchunk
      have hn := hbooked n hlookup hchunk
      rw [if_pos hchunk]
      omega

/-- A booked prefill makes the booked prefill tokens positive. -/
theorem Overcount.booked_pos (h : Overcount cfg s es led) {id : ReqId}
    (hid : id ∈ led.numScheduledTokens) (hchunk : chunkOf s id = true) :
    0 < tokensOf (chunkOf s) led.numScheduledTokens := by
  have hlt := (h.erase id).2 hid hchunk
  have hnonneg : 0 ≤ tokensOf (chunkOf s) (led.numScheduledTokens.erase id) := by
    apply List.sum_nonneg
    intro n hn
    obtain ⟨e, he, rfl⟩ := List.mem_map.mp hn
    obtain ⟨he, hchunk⟩ := List.mem_filter.mp he
    exact le_of_lt (h.positive e ((List.kerase_sublist _ _).subset he) hchunk)
  omega

/-- A hit leaves the counter where it was, and any other preemption does not bring it back. -/
theorem Overcount.preempts (hpolicy : cfg.policy = .priority) {st st' : State} {victim : ReqId}
    (h : Overcount cfg s es st.led) (hchunks : ∀ id, chunkOf st.sched id = chunkOf s id)
    (hbooked : Booked cfg s st.led) (hone : preemptOne cfg st = .ok (st', victim)) :
    Overcount cfg s (es ++ [.preempts ⟨st, victim⟩]) st'.led := by
  obtain ⟨-, hled⟩ := preemptOne_drops hone
  rw [hled, dropRunning]
  simp only [hpolicy]
  by_cases hscheduled : victim ∈ st.led.scheduledRunningReqs
  · rw [if_pos hscheduled]
    obtain ⟨hle, hlt⟩ := h.erase victim
    refine ⟨fun e he => h.positive e ((List.kerase_sublist _ _).subset he),
      fun henable => hle.trans (h.covered henable), fun henable hhit => ?_, h.idle⟩
    show tokensOf (chunkOf s) (st.led.numScheduledTokens.erase victim) < _
    obtain ⟨e, he, hhit⟩ := hhit
    rcases List.mem_append.mp he with he | he
    · exact hle.trans_lt (h.ahead henable ⟨e, he, hhit⟩)
    · rw [List.mem_singleton.mp he] at hhit
      have hchunk : chunkOf s victim = true := (hchunks victim).symm.trans hhit.2
      exact (hlt ((hbooked.tokens victim).mpr hscheduled) hchunk).trans_le (h.covered henable)
  · rw [if_neg hscheduled]
    refine ⟨h.positive, h.covered, fun henable hhit => ?_, h.idle⟩
    obtain ⟨e, he, hhit⟩ := hhit
    rcases List.mem_append.mp he with he | he
    · exact h.ahead henable ⟨e, he, hhit⟩
    · rw [List.mem_singleton.mp he] at hhit
      exact absurd hhit.1 hscheduled

/-- A booking moves the counter and the books alike, or the counter is not kept. -/
theorem Overcount.commits {id : ReqId} {plan : Plan} {blocks : KVCacheBlocks}
    (h : Overcount cfg s es led) (hnew : id ∉ led.numScheduledTokens)
    (hpos : chunkOf s id = true → 0 < plan.numNewTokens) :
    Overcount cfg s (es ++ [.books ⟨id, s.requests id, plan⟩])
      (commitLedger cfg (s.requests id) id plan blocks led) := by
  refine ⟨?_, fun henable => ?_, fun henable hhit => ?_, fun henable => ?_⟩
  · intro e he hchunk
    have he : e ∈ (led.numScheduledTokens.insert id plan.numNewTokens).entries := he
    rw [AList.entries_insert_of_notMem hnew] at he
    rcases List.mem_cons.mp he with rfl | he
    · exact hpos hchunk
    · exact h.positive e he hchunk
  · have hcovered := h.covered henable
    show tokensOf (chunkOf s) (led.numScheduledTokens.insert id plan.numNewTokens) ≤
      if budgeted cfg (s.requests id) = true then _ else _
    rw [tokensOf_insert_new hnew, budgeted_chunk henable]
    split
    · omega
    · omega
  · have hearlier : ∃ e ∈ es, e.HitsPrefill := by
      obtain ⟨e, he, hhit⟩ := hhit
      rcases List.mem_append.mp he with he | he
      · exact ⟨e, he, hhit⟩
      · rw [List.mem_singleton.mp he] at hhit
        exact hhit.elim
    have hahead := h.ahead henable hearlier
    show tokensOf (chunkOf s) (led.numScheduledTokens.insert id plan.numNewTokens) <
      if budgeted cfg (s.requests id) = true then _ else _
    rw [tokensOf_insert_new hnew, budgeted_chunk henable]
    split
    · omega
    · omega
  · show (if budgeted cfg (s.requests id) = true then _ else _) = (0 : ℤ)
    rw [budgeted, henable, Bool.false_and, if_neg Bool.false_ne_true]
    exact h.idle henable

/-- A booked prefill has tokens. -/
theorem chunk_positive (hwindow : env.WindowBounded) (hpending : PrefillsPending cfg s) {id : ReqId}
    {plan : Plan} (hid : id ∈ s.running) (hchunk : chunkOf s id = true)
    (hbudget : 0 < led.tokenBudget)
    (hopen : budgeted cfg (s.requests id) = true → 0 < remainingPrefillBudget ctx led)
    (hplan : planRunning cfg env ctx led (s.requests id) = .ok plan) (hne : plan.numNewTokens ≠ 0) :
    0 < plan.numNewTokens := by
  obtain ⟨hleft, hroom⟩ := hpending id hid hchunk
  have hraw : (s.requests id).numComputedTokens ≤
      (s.requests id).numTokensWithSpec + (s.requests id).numOutputPlaceholders := by
    rw [Request.numTokensWithSpec]
    omega
  have hn := runningTokens_nonneg hraw hroom (le_of_lt hbudget) fun hb => le_of_lt (hopen hb)
  exact lt_of_le_of_ne (planRunning_le hwindow hn hplan).1 (Ne.symm hne)

end

/-! ## The loop -/

/-- What the running loop keeps of the books and the marks. -/
structure MarksInv (cfg : SchedulerConfig) (s : Scheduler) (es : List LoopEvent) (st : State) :
    Prop where
  loop : LoopInv cfg s st
  frame : RunningFrame (beginStep cfg s) st
  spared : SparedInv cfg s es st
  overcount : Overcount cfg s es st.led

section
variable {cfg : SchedulerConfig} {env : Env} {ctx : StepContext} {s : Scheduler}
variable {es : List LoopEvent}

/-- A turn keeps the books, and what is known of the marks. -/
theorem runningTurn_marks (hpolicy : cfg.policy = .priority) (hwindow : env.WindowBounded)
    (hpending : PrefillsPending cfg s) {st st' : State} {id : ReqId} {stop : Bool}
    (h : MarksInv cfg s es st) (hid : st.sched.running[st.led.reqIndex]? = some id)
    (hbudget : 0 < st.led.tokenBudget)
    (hturn : runningTurn cfg env ctx st id = .ok (st', stop)) :
    MarksInv cfg s (es ++ turnEvents cfg env ctx st id) st' := by
  have hloop := runningTurn_loopInv h.loop hid hturn
  have hframe := runningTurn_frame h.frame hid hturn
  obtain ⟨hturning, hrequest⟩ := h.loop.turning hid
  have hallocates : ∀ {tick fuel : ℕ} {n : ℤ} {mid : State} {blocks : Option KVCacheBlocks},
      allocateSlots cfg env fuel { st with led := { st.led with tick := tick } } id n =
        .ok (mid, blocks) →
      let es' := es ++
        allocationEvents cfg env fuel { st with led := { st.led with tick := tick } } id n
      Turning cfg s id mid ∧ SparedInv cfg s es' mid ∧ Overcount cfg s es' mid.led := by
    intro tick fuel n mid blocks halloc
    apply allocateSlots_logs (R := fun es st => Turning cfg s id st ∧ SparedInv cfg s es st ∧
      Overcount cfg s es st.led) ?_ ?_ ⟨hturning.ticked tick,
        h.spared.same (fun _ => rfl) rfl rfl rfl rfl,
        h.overcount.positive, h.overcount.covered, h.overcount.ahead, h.overcount.idle⟩ halloc
    · intro _ _ hst
      exact ⟨hst.1.ticked _, hst.2.1.same (fun _ => rfl) rfl rfl rfl rfl, hst.2.2.positive,
        hst.2.2.covered, hst.2.2.ahead, hst.2.2.idle⟩
    · intro _ _ _ _ hst hone
      exact ⟨hst.1.preempts hone, hst.2.1.preempts hst.1.inv.booked (preemptOne_preempts hone),
        hst.2.2.preempts hpolicy hst.2.1.chunk hst.1.inv.booked hone⟩
  have hlog := runningTurn_log hturn
  generalize turnEvents cfg env ctx st id = events at hlog ⊢
  cases hlog with
  | skip gateSkips tick skips =>
    rw [List.append_nil]
    exact ⟨hloop, hframe, h.spared.same (fun _ => rfl) rfl rfl rfl rfl, h.overcount.positive,
      h.overcount.covered, h.overcount.ahead, h.overcount.idle⟩
  | fail halloc =>
    obtain ⟨-, hspared, hover⟩ := hallocates halloc
    exact ⟨hloop, hframe, hspared, hover⟩
  | @commit plan mid blocks hopen hplan hne halloc =>
    obtain ⟨hmid, hspared, hover⟩ := hallocates halloc
    have hmrequest : mid.sched.requests id = s.requests id := by
      rw [allocateSlots_request halloc]
      exact hrequest
    have hnew : id ∉ mid.led.numScheduledTokens :=
      fun hmem => hmid.unscheduled ((hmid.inv.booked.tokens id).mp hmem)
    rw [hrequest] at hopen hplan
    have hmem : id ∈ s.running := by
      obtain ⟨turns, hbegin⟩ := beginStep_eq cfg s
      have hmem := h.frame.running.subset (List.mem_of_getElem? hid)
      rw [hbegin] at hmem
      exact hmem
    have hpos : chunkOf s id = true → 0 < plan.numNewTokens :=
      fun hchunk => chunk_positive hwindow hpending hmem hchunk hbudget hopen hplan hne
    rw [← List.append_assoc, hrequest]
    refine ⟨hloop, hframe, hspared.commits hmid hmrequest, ?_⟩
    have hafter : Overcount cfg s _ (commitLedger cfg (s.requests id) id plan blocks mid.led) :=
      hover.commits hnew hpos
    rw [← hmrequest] at hafter
    rw [← hmrequest]
    exact hafter

/-- The running loop keeps the books, and what is known of the marks. -/
theorem runningLoop_marks {throttle : Bool} (hpolicy : cfg.policy = .priority)
    (hwindow : env.WindowBounded) (hwf : WellFormed cfg s) {turns : ℕ} {st : State}
    (hloop : runningLoop cfg env (stepContext cfg throttle s) turns (initialState cfg s) = .ok st) :
    MarksInv cfg s (loopEvents cfg env (stepContext cfg throttle s) turns (initialState cfg s))
      st := by
  have hstart : Overcount cfg s [] (initialState cfg s).led := by
    refine ⟨fun e he => ?_, fun _ => le_refl _, fun _ hhit => ?_, fun _ => rfl⟩
    · cases he
    · obtain ⟨e, he, -⟩ := hhit
      cases he
  have hbegin : MarksInv cfg s [] (initialState cfg s) :=
    ⟨initialState_loopInv hwf.nodup, .refl cfg s, initialState_spared, hstart⟩
  have hend := runningLoop_logs (R := MarksInv cfg s)
    (fun _ _ _ _ _ hst hid hbudget hturn =>
      runningTurn_marks hpolicy hwindow hwf.prefillsPending hst hid hbudget hturn) hbegin hloop
  exact hend

/-- Marks that agree with the books were never put out of step. -/
theorem MarksInv.keepsMarks {st : State} (h : MarksInv cfg s es st)
    (hexact : PrefillExact s st.led) : KeepsMarks cfg es := by
  constructor
  · intro henable e he hhit
    have hahead := h.overcount.ahead henable ⟨e, he, hhit⟩
    have htokens := hexact.tokens
    omega
  · intro henable e he hbooks
    -- The flag says that a prefill is scheduled, so tokens are booked that nobody counted.
    obtain ⟨id, hid, hchunk⟩ := hexact.flag.mp (h.spared.flag.mpr ⟨e, he, hbooks⟩)
    have hpos := h.overcount.booked_pos ((h.loop.booked.tokens id).mpr hid) hchunk
    have hidle := h.overcount.idle henable
    have htokens := hexact.tokens
    omega

end

/-- At every iteration of the running loop the token budget and the dictionaries are those of
the requests still scheduled. The prefill marks are too exactly as long as, with decode-aware
prefill, no preemption has hit a prefill already scheduled, and, without it, no prefill is
booked. -/
theorem ledger_exact_iff {cfg : SchedulerConfig} {env : Env} {throttle : Bool} {s : Scheduler}
    {turns : ℕ} {st : State} (hpolicy : cfg.policy = .priority) (hwf : WellFormed cfg s)
    (hwindow : env.WindowBounded)
    (hloop : runningLoop cfg env (stepContext cfg throttle s) turns (initialState cfg s) = .ok st) :
    Booked cfg s st.led ∧
      (LedgerExact cfg s st.led ↔ KeepsMarks cfg
        (loopEvents cfg env (stepContext cfg throttle s) turns (initialState cfg s))) := by
  have hinv := runningLoop_marks hpolicy hwindow hwf hloop
  refine ⟨hinv.loop.booked, fun hexact => ?_, fun hkeeps => ?_⟩
  · exact hinv.keepsMarks hexact.prefill
  · exact ⟨hinv.loop.booked, hinv.spared.marks hkeeps⟩

/-- The first turns of a step in which the second allocation fails. -/
def preemptingTurns (s : Scheduler) (turns : ℕ) : Except String State :=
  runningLoop smallConfig (smallEnv (some 1)) (stepContext smallConfig false s) turns
    (initialState smallConfig s)

/-- What these turns do. -/
def preemptingEvents (s : Scheduler) (turns : ℕ) : List LoopEvent :=
  loopEvents smallConfig (smallEnv (some 1)) (stepContext smallConfig false s) turns
    (initialState smallConfig s)

/-- A decode of the lowest priority, a prefill and another decode. -/
def sparingScheduler : Scheduler :=
  smallScheduler [smallRequest 0 5 9 8 [], smallRequest 1 1 40 10 [], smallRequest 2 2 9 8 []]

/-- The prefill takes the place of the decode, which is preempted after it was scheduled. -/
theorem ledger_exact_iff_preempting :
    ∃ st, preemptingTurns sparingScheduler 2 = .ok st ∧ st.led.preemptedReqs = [0] ∧
      LedgerExact smallConfig sparingScheduler st.led := by
  have hpreempts : (preemptingTurns sparingScheduler 2).map (fun st => st.led.preemptedReqs) =
      .ok [0] := by decide +kernel
  cases h : preemptingTurns sparingScheduler 2 with
  | error e =>
    rw [h] at hpreempts
    cases hpreempts
  | ok st =>
    rw [h] at hpreempts
    have hwf : WellFormed smallConfig sparingScheduler :=
      smallScheduler_wellFormed (by decide) (by decide) (by decide) (by decide) (by decide)
    refine ⟨st, rfl, Except.ok.inj hpreempts,
      (ledger_exact_iff rfl hwf (smallEnv_windowBounded _) h).2.mpr ⟨fun _ => ?_, nofun⟩⟩
    have hspared : ∀ e ∈ preemptingEvents sparingScheduler 2, ¬e.HitsPrefill := by
      decide +kernel
    exact hspared

/-- Ten tokens of the preempted prefill stay on the counter beside the six still booked. -/
theorem prefill_marks_kept :
    ∃ st, preemptingTurns preemptingScheduler 2 = .ok st ∧
      ¬LedgerExact smallConfig preemptingScheduler st.led := by
  have hcounts : (preemptingTurns preemptingScheduler 2).map (fun st =>
      (st.led.prefillTokensScheduled,
        tokensOf (chunkOf preemptingScheduler) st.led.numScheduledTokens)) = .ok (16, 6) := by
    decide +kernel
  cases h : preemptingTurns preemptingScheduler 2 with
  | error e =>
    rw [h] at hcounts
    cases hcounts
  | ok st =>
    refine ⟨st, rfl, fun hexact => ?_⟩
    rw [h] at hcounts
    have hpair := Except.ok.inj hcounts
    have htokens := hexact.prefill.tokens
    rw [(Prod.mk.inj hpair).1, (Prod.mk.inj hpair).2] at htokens
    omega

end SparkKit.Sched.Refunds
