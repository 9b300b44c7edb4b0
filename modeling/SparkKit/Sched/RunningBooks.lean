import SparkKit.Sched.Budget

/-!
# The books of the running loop

The entries of a step's dictionaries belong to the requests scheduled so far, and to nobody
else: a request is booked once, because the index never goes back to it, and a preemption
takes it off every dictionary.
-/
namespace SparkKit.Sched.RunningBooks

open SparkKit.Lib.Outcome SparkKit.Sched.Requests SparkKit.Sched.StepState
open SparkKit.Sched.Running SparkKit.Sched.Schedule SparkKit.Sched.Budget

/-! ## Positions past the index -/

/-- What lies past a position after an erasure lay past it before. -/
theorem mem_drop_erase {ids : List ReqId} {v x : ReqId} {k : ℕ}
    (h : x ∈ (ids.erase v).drop k) : x ∈ ids.drop k := by
  induction ids generalizing k with
  | nil => exact h
  | cons id ids ih =>
    rw [List.erase_cons] at h
    cases k with
    | zero =>
      split at h
      · exact List.mem_cons_of_mem id h
      · rcases List.mem_cons.mp h with rfl | h
        · exact List.mem_cons_self
        · exact List.mem_cons_of_mem id (List.mem_of_mem_erase h)
    | succ k =>
      split at h
      · exact (List.drop_sublist_drop_left ids (Nat.le_succ k)).subset h
      · exact ih h

/-- The erasure of a visited request moves the others back by one. -/
theorem mem_drop_erase_visited {ids : List ReqId} {v x : ReqId} {i k : ℕ} (hv : v ∈ ids.take i)
    (h : x ∈ (ids.erase v).drop (i - 1 + k)) : x ∈ ids.drop (i + k) := by
  have hsplit : ids.erase v = (ids.take i).erase v ++ ids.drop i := by
    conv_lhs => rw [← List.take_append_drop i ids]
    exact List.erase_append_left _ hv
  have hlen := List.length_erase_add_one hv
  rw [List.length_take] at hlen
  rw [hsplit, List.drop_append, List.mem_append] at h
  rcases h with h | h
  · rw [List.drop_eq_nil_of_le (by omega)] at h
    cases h
  · rw [List.drop_drop] at h
    refine (List.drop_sublist_drop_left ids ?_).subset h
    omega

section
variable {cfg : SchedulerConfig} {env : Env} {ctx : StepContext}

/-- The lists and the ledger after a preemption. -/
theorem preemptOne_drops {st st' : State} {victim : ReqId}
    (h : preemptOne cfg st = .ok (st', victim)) :
    st'.sched.running = (dropRunning cfg st victim).sched.running ∧
      st'.led = { (dropRunning cfg st victim).led with
        preemptedReqs := (dropRunning cfg st victim).led.preemptedReqs ++ [victim] } := by
  obtain ⟨-, -, rfl⟩ := preemptOne_ok h
  exact ⟨rfl, rfl⟩

/-- No scheduled request lies past the index. -/
def Unvisited (st : State) : Prop :=
  ∀ x ∈ st.sched.running.drop st.led.reqIndex, x ∉ st.led.scheduledRunningReqs

/-- A preemption brings nobody past the index who was not there. -/
theorem preemptOne_behind {st st' : State} {victim x : ReqId} {k : ℕ} (hahead : Unvisited st)
    (hmem : victim ∈ st.sched.running) (h : preemptOne cfg st = .ok (st', victim))
    (hx : x ∈ st'.sched.running.drop (st'.led.reqIndex + k)) :
    x ∈ st.sched.running.drop (st.led.reqIndex + k) := by
  obtain ⟨hrunning, hled⟩ := preemptOne_drops h
  rw [hrunning, hled] at hx
  rw [dropRunning] at hx
  cases hpolicy : cfg.policy with
  | fcfs =>
    simp only [hpolicy] at hx
    exact ((List.dropLast_sublist _).drop _).subset hx
  | priority =>
    simp only [hpolicy] at hx
    by_cases hscheduled : victim ∈ st.led.scheduledRunningReqs
    · rw [if_pos hscheduled] at hx
      refine mem_drop_erase_visited ?_ hx
      rw [← List.take_append_drop st.led.reqIndex st.sched.running] at hmem
      rcases List.mem_append.mp hmem with hbehind | hpast
      · exact hbehind
      · exact absurd hscheduled (hahead victim hpast)
    · rw [if_neg hscheduled] at hx
      exact mem_drop_erase hx

/-! ## Booked requests -/

/-- The speculative tokens a request brings when `n` of its tokens are booked. -/
def recordedSpecs (r : Request) (n : ℤ) : Option (List ℤ) :=
  if r.specTokenIds ≠ [] ∧ n + r.numComputedTokens - r.numTokens - r.numOutputPlaceholders > 0 then
    some (scheduledSpecTokens r n)
  else none

/-- All booked tokens. -/
def bookedTokens (led : Ledger) : ℤ := tokensOf (fun _ => true) led.numScheduledTokens

/-- The dictionaries hold the scheduled requests, each with what it brought, and the token
budget is what they leave. -/
structure Booked (cfg : SchedulerConfig) (s : Scheduler) (led : Ledger) : Prop where
  nodup : led.scheduledRunningReqs.Nodup
  tokens : ∀ id, id ∈ led.numScheduledTokens ↔ id ∈ led.scheduledRunningReqs
  blocks : ∀ id, id ∈ led.reqToNewBlocks ↔ id ∈ led.scheduledRunningReqs
  specs : ∀ id, led.scheduledSpecDecodeTokens.lookup id =
    (led.numScheduledTokens.lookup id).bind (recordedSpecs (s.requests id))
  budget : led.tokenBudget = initialTokenBudget cfg s - bookedTokens led

/-- Booking a request that is not booked adds its tokens. -/
theorem tokensOf_insert_new {P : ReqId → Bool} {d : ReqDict ℤ} {id : ReqId} {n : ℤ} (hid : id ∉ d) :
    tokensOf P (d.insert id n) = tokensOf P d + if P id = true then n else 0 := by
  simp only [tokensOf]
  rw [AList.entries_insert_of_notMem hid, List.filter_cons]
  dsimp only
  split
  · rw [List.map_cons, List.sum_cons]
    dsimp only
    omega
  · omega

/-- Unbooking a request takes its tokens off. -/
theorem tokensOf_erase {P : ReqId → Bool} {d : ReqDict ℤ} {id : ReqId} :
    tokensOf P (d.erase id) = tokensOf P d - if P id = true then (d.lookup id).getD 0 else 0 := by
  by_cases hid : id ∈ d
  · obtain ⟨n, before, after, hbefore, hentries, hkept⟩ := List.exists_of_kerase (AList.mem_keys.mp hid)
    have hlookup : d.lookup id = some n := by
      apply AList.mem_lookup_iff.mpr
      rw [hentries]
      exact List.mem_append_right _ List.mem_cons_self
    have herase : (d.erase id).entries = before ++ after := hkept
    simp only [tokensOf]
    rw [herase, hentries, hlookup, List.filter_append, List.filter_append, List.filter_cons]
    simp only [List.map_append, List.sum_append, Option.getD_some]
    split
    · rw [List.map_cons, List.sum_cons]
      dsimp only
      omega
    · omega
  · have herase : (d.erase id).entries = d.entries := List.kerase_of_notMem_keys hid
    rw [AList.lookup_eq_none.mpr hid]
    simp only [tokensOf, herase, Option.getD_none, ite_self, sub_zero]

section
variable {s : Scheduler} {led led' : Ledger}

/-- A ledger that differs in none of the books. -/
theorem Booked.same (h : Booked cfg s led)
    (hscheduled : led'.scheduledRunningReqs = led.scheduledRunningReqs)
    (htokens : led'.numScheduledTokens = led.numScheduledTokens)
    (hblocks : led'.reqToNewBlocks = led.reqToNewBlocks)
    (hspecs : led'.scheduledSpecDecodeTokens = led.scheduledSpecDecodeTokens)
    (hbudget : led'.tokenBudget = led.tokenBudget) : Booked cfg s led' := by
  refine ⟨?_, ?_, ?_, ?_, ?_⟩
  · rw [hscheduled]
    exact h.nodup
  · rw [htokens, hscheduled]
    exact h.tokens
  · rw [hblocks, hscheduled]
    exact h.blocks
  · rw [hspecs, htokens]
    exact h.specs
  · rw [hbudget, bookedTokens, htokens]
    exact h.budget

/-- Taking a request off the books undoes its booking. -/
theorem Booked.unschedule (h : Booked cfg s led) (r : Request) (id : ReqId) :
    Booked cfg s (led.unschedule r id) := by
  refine ⟨h.nodup.erase id, ?_, ?_, ?_, ?_⟩
  · intro x
    show x ∈ led.numScheduledTokens.erase id ↔ x ∈ led.scheduledRunningReqs.erase id
    rw [AList.mem_erase, h.nodup.mem_erase_iff, h.tokens x]
  · intro x
    show x ∈ led.reqToNewBlocks.erase id ↔ x ∈ led.scheduledRunningReqs.erase id
    rw [AList.mem_erase, h.nodup.mem_erase_iff, h.blocks x]
  · intro x
    show (led.scheduledSpecDecodeTokens.erase id).lookup x =
      ((led.numScheduledTokens.erase id).lookup x).bind _
    by_cases hx : x = id
    · subst hx
      rw [AList.lookup_erase, AList.lookup_erase]
      rfl
    · rw [AList.lookup_erase_ne hx, AList.lookup_erase_ne hx]
      exact h.specs x
  · have hbudget := h.budget
    show led.tokenBudget + (led.numScheduledTokens.lookup id).getD 0 =
      initialTokenBudget cfg s - tokensOf (fun _ => true) (led.numScheduledTokens.erase id)
    rw [tokensOf_erase, if_pos rfl]
    rw [bookedTokens] at hbudget
    omega

/-- Booking a request for the first time. -/
theorem Booked.commits (h : Booked cfg s led) {id : ReqId} {plan : Plan} {blocks : KVCacheBlocks}
    (hnew : id ∉ led.scheduledRunningReqs) :
    Booked cfg s (commitLedger cfg (s.requests id) id plan blocks led) := by
  have hid : id ∉ led.numScheduledTokens := fun hid => hnew ((h.tokens id).mp hid)
  have hnone : led.scheduledSpecDecodeTokens.lookup id = none := by
    rw [h.specs id, AList.lookup_eq_none.mpr hid]
    rfl
  refine ⟨?_, ?_, ?_, ?_, ?_⟩
  · show (led.scheduledRunningReqs ++ [id]).Nodup
    refine List.nodup_append.mpr ⟨h.nodup, List.nodup_singleton id, fun x hx y hy heq => ?_⟩
    rw [List.mem_singleton.mp hy] at heq
    exact hnew (heq ▸ hx)
  · intro x
    show x ∈ led.numScheduledTokens.insert id plan.numNewTokens ↔
      x ∈ led.scheduledRunningReqs ++ [id]
    rw [AList.mem_insert, List.mem_append, List.mem_singleton, h.tokens x, or_comm]
  · intro x
    show x ∈ led.reqToNewBlocks.insert id blocks ↔ x ∈ led.scheduledRunningReqs ++ [id]
    rw [AList.mem_insert, List.mem_append, List.mem_singleton, h.blocks x, or_comm]
  · intro x
    show AList.lookup x (if _ then _ else _) =
      ((led.numScheduledTokens.insert id plan.numNewTokens).lookup x).bind _
    by_cases hx : x = id
    · subst hx
      rw [AList.lookup_insert, Option.bind_some, recordedSpecs]
      split
      · exact AList.lookup_insert _
      · exact hnone
    · rw [AList.lookup_insert_ne hx, ← h.specs x]
      split
      · exact AList.lookup_insert_ne hx
      · rfl
  · have hbudget := h.budget
    show led.tokenBudget - plan.numNewTokens = initialTokenBudget cfg s -
      tokensOf (fun _ => true) (led.numScheduledTokens.insert id plan.numNewTokens)
    rw [tokensOf_insert_new hid, if_pos rfl]
    rw [bookedTokens] at hbudget
    omega

end

/-! ## The running loop -/

/-- The books are in order, and the requests past the index are as the step found them. -/
structure LoopInv (cfg : SchedulerConfig) (s : Scheduler) (st : State) : Prop where
  booked : Booked cfg s st.led
  nodup : st.sched.running.Nodup
  unvisited : Unvisited st
  untouched : ∀ x ∈ st.sched.running.drop st.led.reqIndex, st.sched.requests x = s.requests x

/-- The request of the turn is neither scheduled nor still to come. -/
structure Turning (cfg : SchedulerConfig) (s : Scheduler) (id : ReqId) (st : State) : Prop where
  inv : LoopInv cfg s st
  unscheduled : id ∉ st.led.scheduledRunningReqs
  passed : id ∉ st.sched.running.drop (st.led.reqIndex + 1)

section
variable {s : Scheduler} {st st' : State} {id victim : ReqId}

theorem LoopInv.preempts (h : LoopInv cfg s st) (hone : preemptOne cfg st = .ok (st', victim)) :
    LoopInv cfg s st' ∧ st'.led.scheduledRunningReqs ⊆ st.led.scheduledRunningReqs := by
  have hp := preemptOne_preempts hone
  obtain ⟨led, hled, hledger⟩ := hp.ledger
  have hscheduled : st'.led.scheduledRunningReqs ⊆ st.led.scheduledRunningReqs := by
    rw [hledger]
    rcases hled with rfl | rfl
    · exact fun _ hx => hx
    · exact fun _ hx => List.mem_of_mem_erase hx
  have hbooked : Booked cfg s led := by
    rcases hled with rfl | rfl
    · exact h.booked
    · exact h.booked.unschedule _ victim
  have hbehind : ∀ x ∈ st'.sched.running.drop st'.led.reqIndex,
      x ∈ st.sched.running.drop st.led.reqIndex :=
    fun x hx => preemptOne_behind (k := 0) h.unvisited hp.mem hone hx
  refine ⟨⟨?_, h.nodup.sublist hp.running, ?_, ?_⟩, hscheduled⟩
  · rw [hledger]
    exact hbooked.same rfl rfl rfl rfl rfl
  · exact fun x hx hmem => h.unvisited x (hbehind x hx) (hscheduled hmem)
  · intro x hx
    have hne : x ≠ victim := by
      rintro rfl
      exact hp.removed h.nodup (List.mem_of_mem_drop hx)
    rw [hp.others hne]
    exact h.untouched x (hbehind x hx)

theorem Turning.preempts (h : Turning cfg s id st)
    (hone : preemptOne cfg st = .ok (st', victim)) : Turning cfg s id st' := by
  obtain ⟨hinv, hscheduled⟩ := h.inv.preempts hone
  refine ⟨hinv, fun hid => h.unscheduled (hscheduled hid), fun hid => h.passed ?_⟩
  exact preemptOne_behind h.inv.unvisited (preemptOne_preempts hone).mem hone hid

theorem Turning.ticked (h : Turning cfg s id st) (tick : ℕ) :
    Turning cfg s id { st with led := { st.led with tick := tick } } :=
  ⟨⟨h.inv.booked.same rfl rfl rfl rfl rfl, h.inv.nodup, h.inv.unvisited, h.inv.untouched⟩,
    h.unscheduled, h.passed⟩

/-- The request that gets its slots was never the victim. -/
theorem allocateSlots_request {fuel : ℕ} {n : ℤ} {blocks : KVCacheBlocks}
    (halloc : allocateSlots cfg env fuel st id n = .ok (st', some blocks)) :
    st'.sched.requests id = st.sched.requests id := by
  induction fuel generalizing st with
  | zero => cases halloc
  | succ fuel ih =>
    rw [allocateSlots] at halloc
    split at halloc
    · cases halloc
      rfl
    obtain ⟨⟨mid, victim⟩, hone, halloc⟩ := bind_ok halloc
    dsimp only at halloc
    split at halloc
    · cases halloc
    rename_i hne
    rw [ih halloc]
    exact (preemptOne_preempts hone).others (Ne.symm hne)

/-- The head of what is still to come starts its turn. -/
theorem LoopInv.turning (h : LoopInv cfg s st) (hid : st.sched.running[st.led.reqIndex]? = some id) :
    Turning cfg s id st ∧ st.sched.requests id = s.requests id := by
  obtain ⟨hlt, hget⟩ := List.getElem?_eq_some_iff.mp hid
  have hdrop : st.sched.running.drop st.led.reqIndex =
      id :: st.sched.running.drop (st.led.reqIndex + 1) := by
    rw [List.drop_eq_getElem_cons hlt, hget]
  have hhead : id ∈ st.sched.running.drop st.led.reqIndex := by
    rw [hdrop]
    exact List.mem_cons_self
  have hnodup := h.nodup.sublist (List.drop_sublist st.led.reqIndex _)
  rw [hdrop] at hnodup
  exact ⟨⟨h, h.unvisited id hhead, (List.nodup_cons.mp hnodup).1⟩, h.untouched id hhead⟩

/-- Moving the index past a request. -/
theorem LoopInv.advances (h : LoopInv cfg s st) (hrunning : st'.sched.running = st.sched.running)
    (hrequests : st'.sched.requests = st.sched.requests)
    (hindex : st'.led.reqIndex = st.led.reqIndex + 1)
    (hscheduled : st'.led.scheduledRunningReqs = st.led.scheduledRunningReqs)
    (hbooked : Booked cfg s st'.led) : LoopInv cfg s st' := by
  have hlater : ∀ x ∈ st'.sched.running.drop st'.led.reqIndex,
      x ∈ st.sched.running.drop st.led.reqIndex := by
    intro x hx
    rw [hrunning, hindex] at hx
    exact (List.drop_sublist_drop_left _ (Nat.le_succ _)).subset hx
  refine ⟨hbooked, ?_, ?_, ?_⟩
  · rw [hrunning]
    exact h.nodup
  · intro x hx
    rw [hscheduled]
    exact h.unvisited x (hlater x hx)
  · intro x hx
    rw [hrequests]
    exact h.untouched x (hlater x hx)

theorem Turning.commits (h : Turning cfg s id st) (hrequest : st.sched.requests id = s.requests id)
    {plan : Plan} {blocks : KVCacheBlocks} :
    LoopInv cfg s (commitRunning cfg id plan blocks st) := by
  have hlater : ∀ x ∈ st.sched.running.drop (st.led.reqIndex + 1), x ≠ id ∧
      x ∈ st.sched.running.drop st.led.reqIndex :=
    fun x hx => ⟨fun heq => h.passed (heq ▸ hx),
      (List.drop_sublist_drop_left _ (Nat.le_succ _)).subset hx⟩
  refine ⟨?_, h.inv.nodup, ?_, ?_⟩
  · have hbooked : Booked cfg s (commitLedger cfg (s.requests id) id plan blocks st.led) :=
      h.inv.booked.commits h.unscheduled
    rw [← hrequest] at hbooked
    exact hbooked
  · intro x hx
    obtain ⟨hne, hx⟩ := hlater x hx
    show x ∉ st.led.scheduledRunningReqs ++ [id]
    rw [List.mem_append, List.mem_singleton]
    exact not_or.mpr ⟨h.inv.unvisited x hx, hne⟩
  · intro x hx
    obtain ⟨hne, hx⟩ := hlater x hx
    show Function.update st.sched.requests id _ x = _
    rw [Function.update_of_ne hne]
    exact h.inv.untouched x hx

theorem runningTurn_loopInv {stop : Bool} (h : LoopInv cfg s st)
    (hid : st.sched.running[st.led.reqIndex]? = some id)
    (hturn : runningTurn cfg env ctx st id = .ok (st', stop)) : LoopInv cfg s st' := by
  obtain ⟨hturning, hrequest⟩ := h.turning hid
  have hallocates : ∀ {tick fuel : ℕ} {n : ℤ} {mid : State} {blocks : Option KVCacheBlocks},
      allocateSlots cfg env fuel { st with led := { st.led with tick := tick } } id n =
        .ok (mid, blocks) → Turning cfg s id mid :=
    fun halloc => allocateSlots_keeps (P := Turning cfg s id) (fun _ hst => hst.ticked _)
      (fun _ _ _ hst hone => hst.preempts hone) (hturning.ticked _) halloc
  cases runningTurn_cases hturn with
  | skip gateSkips tick skips =>
    exact h.advances rfl rfl rfl rfl (h.booked.same rfl rfl rfl rfl rfl)
  | fail hplan halloc => exact (hallocates halloc).inv
  | commit hpass hgate hopen hplan hne halloc =>
    refine (hallocates halloc).commits ?_
    rw [allocateSlots_request halloc]
    exact hrequest

theorem initialState_loopInv (hnodup : s.running.Nodup) : LoopInv cfg s (initialState cfg s) := by
  obtain ⟨turns, hbegin⟩ := beginStep_eq cfg s
  have hsched : (initialState cfg s).sched =
      { s with currentStep := s.currentStep + 1, longPrefillLastScheduled := turns } := hbegin
  have hempty : ∀ id, id ∉ ([] : List ReqId) := fun _ => List.not_mem_nil
  refine ⟨⟨List.nodup_nil, ?_, ?_, ?_, ?_⟩, ?_, fun x _ => hempty x, ?_⟩
  · exact fun id => iff_of_false (AList.notMem_empty id) (hempty id)
  · exact fun id => iff_of_false (AList.notMem_empty id) (hempty id)
  · exact fun id => rfl
  · exact (sub_zero _).symm
  · rw [hsched]
    exact hnodup
  · intro x _
    rw [hsched]

end

/-! ## What is left of a request -/

/-- The tokens a request has left, its drafts included. -/
def tokensLeft (r : Request) : ℤ :=
  r.numTokensWithSpec + r.numOutputPlaceholders - r.numComputedTokens

/-- Nobody is booked beyond what is left of it. -/
def WithinLeft (s : Scheduler) (led : Ledger) : Prop :=
  ∀ id n, led.numScheduledTokens.lookup id = some n → n ≤ max (tokensLeft (s.requests id)) 0

section
variable {s : Scheduler}

theorem runningTurn_withinLeft (hwindow : env.WindowBounded) {st st' : State} {id : ReqId}
    {stop : Bool} (hloop : LoopInv cfg s st) (h : WithinLeft s st.led)
    (hid : st.sched.running[st.led.reqIndex]? = some id)
    (hturn : runningTurn cfg env ctx st id = .ok (st', stop)) : WithinLeft s st'.led := by
  cases runningTurn_cases hturn with
  | skip gateSkips tick skips => exact h
  | fail hplan halloc => exact fun x n hx => h x n (allocateSlots_lookup halloc hx)
  | @commit plan mid blocks hpass hgate hopen hplan hne halloc =>
    intro x n hx
    have hx : (mid.led.numScheduledTokens.insert id plan.numNewTokens).lookup x = some n := hx
    by_cases hxid : x = id
    · subst hxid
      rw [AList.lookup_insert] at hx
      obtain rfl := Option.some.inj hx
      have hle := planRunning_le_max hwindow hplan
      rw [(hloop.turning hid).2] at hle
      exact hle.trans (max_le_max runningTokens_le_left (le_refl 0))
    · rw [AList.lookup_insert_ne hxid] at hx
      exact h x n (allocateSlots_lookup halloc hx)

theorem runningLoop_withinLeft (hwindow : env.WindowBounded) (hnodup : s.running.Nodup)
    {turns : ℕ} {st : State}
    (hrun : runningLoop cfg env ctx turns (initialState cfg s) = .ok st) :
    LoopInv cfg s st ∧ WithinLeft s st.led := by
  apply runningLoop_keeps (P := fun st => LoopInv cfg s st ∧ WithinLeft s st.led) ?_ ?_ hrun
  · exact fun _ _ _ _ hst hid _ hturn =>
      ⟨runningTurn_loopInv hst.1 hid hturn, runningTurn_withinLeft hwindow hst.1 hst.2 hid hturn⟩
  · refine ⟨initialState_loopInv hnodup, fun x n hx => ?_⟩
    cases hx

end

end

end SparkKit.Sched.RunningBooks
