import SparkKit.Sched.StepInvariant

/-!
# What a step moves

A step moves requests between the running list and the queues and forgets none. Of a request
it keeps the tokens and the tokens in flight; a preemption counts itself and marks what is in
flight as stale.
-/
namespace SparkKit.Sched.Shuffle

open SparkKit.Lib.Outcome SparkKit.Sched.Requests SparkKit.Sched.StepState SparkKit.Sched.Running
open SparkKit.Sched.Waiting SparkKit.Sched.Schedule SparkKit.Sched.StepInvariant
open SparkKit.Sched.Frames (scheduleWaiting_cases schedule_halves)

/-- What scheduling keeps of a request. -/
structure Carries (r r' : Request) : Prop where
  name : r'.requestId = r.requestId
  tokens : r'.numTokens = r.numTokens
  placeholders : r'.numOutputPlaceholders = r.numOutputPlaceholders ∨ r'.numOutputPlaceholders = 0
  unfinished : r'.status = .finished → r.status = .finished
  streaming : r'.status = .waitingForStreamingReq ↔ r.status = .waitingForStreamingReq
  inFlight : r'.numInFlightTokens = r.numInFlightTokens
  stale : (r'.numPreemptions = r.numPreemptions ∧
      r'.numStaleOutputTokens = r.numStaleOutputTokens) ∨
    (r.numPreemptions < r'.numPreemptions ∧ r'.numStaleOutputTokens = r.numInFlightTokens)

theorem Carries.refl (r : Request) : Carries r r :=
  ⟨rfl, rfl, .inl rfl, fun h => h, .rfl, rfl, .inl ⟨rfl, rfl⟩⟩

theorem Carries.trans {r r' r'' : Request} (h : Carries r r') (h' : Carries r' r'') :
    Carries r r'' := by
  refine ⟨h'.name.trans h.name, h'.tokens.trans h.tokens, ?_, fun hf => h.unfinished (h'.unfinished hf),
    h'.streaming.trans h.streaming, h'.inFlight.trans h.inFlight, ?_⟩
  · rcases h'.placeholders with hp | hp
    · rw [hp]
      exact h.placeholders
    · exact .inr hp
  · rcases h'.stale with ⟨hn', hs'⟩ | ⟨hn', hs'⟩
    · rw [hn', hs']
      exact h.stale
    · right
      rw [hs', h.inFlight]
      refine ⟨lt_of_le_of_lt ?_ hn', rfl⟩
      rcases h.stale with ⟨hn, -⟩ | ⟨hn, -⟩
      · exact le_of_eq hn.symm
      · exact le_of_lt hn

/-- A request that neither waits for its next input nor finishes changes its status. -/
theorem carries_status {r : Request} {status : RequestStatus} {computed : ℤ}
    (hbefore : r.status ≠ .waitingForStreamingReq) (hafter : status ≠ .waitingForStreamingReq)
    (hunfinished : status ≠ .finished) :
    Carries r { r with status := status, numComputedTokens := computed } :=
  ⟨rfl, rfl, .inl rfl, fun hf => absurd hf hunfinished,
    ⟨fun hs => absurd hs hafter, fun hs => absurd hs hbefore⟩, rfl, .inl ⟨rfl, rfl⟩⟩

theorem carries_preempted (cfg : SchedulerConfig) {r : Request} (h : r.status = .running) :
    Carries r (preempted cfg r) := by
  refine ⟨rfl, rfl, .inr rfl, nofun, ⟨nofun, fun hs => ?_⟩, rfl, .inr ⟨Nat.lt_succ_self _, rfl⟩⟩
  rw [h] at hs
  cases hs

/-- Everyone in the running list, set aside or queued. -/
def roster (st : State) : List ReqId :=
  st.sched.running ++
    (st.led.stepSkippedWaiting ++ (st.sched.waiting ++ st.sched.skippedWaiting))

/-- A change of the request `id`, which moves nobody out. -/
structure Alters (id : ReqId) (st st' : State) : Prop where
  request : ∃ r, st'.sched.requests = Function.update st.sched.requests id r ∧
    Carries (st.sched.requests id) r
  roster : (roster st').Perm (roster st)
  active : st'.sched.active = st.sched.active
  streams : st'.sched.numWaitingForStreamingInput = st.sched.numWaitingForStreamingInput

theorem Alters.of_same {id : ReqId} {st st' : State} (hrequests : st'.sched.requests = st.sched.requests)
    (hroster : (Shuffle.roster st').Perm (Shuffle.roster st))
    (hactive : st'.sched.active = st.sched.active)
    (hstreams : st'.sched.numWaitingForStreamingInput = st.sched.numWaitingForStreamingInput) :
    Alters id st st' := by
  refine ⟨⟨st.sched.requests id, ?_, .refl _⟩, hroster, hactive, hstreams⟩
  rw [hrequests, Function.update_eq_self]

theorem Alters.refl (id : ReqId) (st : State) : Alters id st st := .of_same rfl (.refl _) rfl rfl

theorem Alters.trans {id : ReqId} {st st' st'' : State} (h : Alters id st st')
    (h' : Alters id st' st'') : Alters id st st'' := by
  obtain ⟨r, hr, hcarries⟩ := h.request
  obtain ⟨r', hr', hcarries'⟩ := h'.request
  rw [hr, Function.update_self] at hcarries'
  refine ⟨⟨r', ?_, hcarries.trans hcarries'⟩, h'.roster.trans h.roster, h'.active.trans h.active,
    h'.streams.trans h.streams⟩
  rw [hr', hr, Function.update_idem]

theorem Alters.carries {id : ReqId} {st st' : State} (h : Alters id st st') :
    Carries (st.sched.requests id) (st'.sched.requests id) := by
  obtain ⟨r, hr, hcarries⟩ := h.request
  rw [hr, Function.update_self]
  exact hcarries

/-- The state of a step against the scheduler it started from. -/
structure Shuffles (s : Scheduler) (st : State) : Prop where
  roster : (roster st).Perm (s.running ++ (s.waiting ++ s.skippedWaiting))
  others : ∀ id, id ∉ s.running ++ (s.waiting ++ s.skippedWaiting) →
    st.sched.requests id = s.requests id
  carries : ∀ id, Carries (s.requests id) (st.sched.requests id)
  active : st.sched.active = s.active
  streams : st.sched.numWaitingForStreamingInput = s.numWaitingForStreamingInput

theorem Shuffles.alters {s : Scheduler} {st st' : State} {id : ReqId} (h : Shuffles s st)
    (hmem : id ∈ Shuffle.roster st) (ha : Alters id st st') : Shuffles s st' := by
  obtain ⟨r, hr, hcarries⟩ := ha.request
  have hlisted := h.roster.mem_iff.mp hmem
  refine ⟨ha.roster.trans h.roster, fun x hx => ?_, fun x => ?_, ha.active.trans h.active,
    ha.streams.trans h.streams⟩
  · rw [hr, Function.update_of_ne (ne_of_mem_of_not_mem hlisted hx).symm]
    exact h.others x hx
  · rw [hr]
    by_cases hx : x = id
    · subst hx
      rw [Function.update_self]
      exact (h.carries x).trans hcarries
    · rw [Function.update_of_ne hx]
      exact h.carries x

/-! ## The running loop -/

section
variable {cfg : SchedulerConfig} {env : Env} {ctx : StepContext}

theorem preemptOne_skips {st st' : State} {victim : ReqId}
    (h : preemptOne cfg st = .ok (st', victim)) :
    st'.led.stepSkippedWaiting = st.led.stepSkippedWaiting := by
  obtain ⟨led, hled, hledger⟩ := (preemptOne_preempts h).ledger
  rw [hledger]
  rcases hled with rfl | rfl
  · rfl
  · rfl

/-- The running loop sets nobody aside. -/
theorem runningTurn_skips {st st' : State} {id : ReqId} {stop : Bool}
    (h : runningTurn cfg env ctx st id = .ok (st', stop)) :
    st'.led.stepSkippedWaiting = st.led.stepSkippedWaiting := by
  have halloc : ∀ {fuel tick : ℕ} {n : ℤ} {mid : State} {blocks : Option KVCacheBlocks},
      allocateSlots cfg env fuel { st with led := { st.led with tick := tick } } id n =
        .ok (mid, blocks) → mid.led.stepSkippedWaiting = st.led.stepSkippedWaiting := by
    intro fuel tick n mid blocks halloc
    apply allocateSlots_keeps
      (P := fun x => x.led.stepSkippedWaiting = st.led.stepSkippedWaiting) ?_ ?_ ?_ halloc
    · exact fun _ hst => hst
    · exact fun _ _ _ hst hone => (preemptOne_skips hone).trans hst
    · rfl
  cases runningTurn_cases h with
  | skip gateSkips tick skips => rfl
  | fail hplan hfail => exact halloc hfail
  | @commit plan mid blocks hpass hgate hopen hplan hne hdone =>
    show mid.led.stepSkippedWaiting = _
    exact halloc hdone

/-- The victim moves from the running list to the queue. -/
theorem preemptOne_alters {st st' : State} {victim : ReqId}
    (h : preemptOne cfg st = .ok (st', victim)) : victim ∈ roster st ∧ Alters victim st st' := by
  have hp := preemptOne_preempts h
  have hmoved : (victim :: st'.sched.running).Perm st.sched.running ∧
      st'.sched.active = st.sched.active ∧
      st'.sched.numWaitingForStreamingInput = st.sched.numWaitingForStreamingInput := by
    obtain ⟨hv, -, rfl⟩ := preemptOne_ok h
    unfold preemptedReq at hv
    unfold dropRunning
    cases hpolicy : cfg.policy with
    | priority => exact ⟨(List.perm_cons_erase hp.mem).symm, rfl, rfl⟩
    | fcfs =>
      rw [hpolicy] at hv
      have hsplit : st.sched.running.dropLast ++ [victim] = st.sched.running :=
        List.dropLast_append_getLast? victim (Option.mem_def.mpr hv)
      refine ⟨?_, rfl, rfl⟩
      show (victim :: st.sched.running.dropLast).Perm st.sched.running
      rw [← hsplit, List.dropLast_concat]
      exact (List.perm_append_singleton _ _).symm
  refine ⟨List.mem_append_left _ hp.mem, ⟨_, hp.requests, carries_preempted cfg hp.status⟩, ?_,
    hmoved.2.1, hmoved.2.2⟩
  rw [roster, roster, hp.waiting, hp.skippedWaiting, preemptOne_skips h]
  refine List.Perm.trans ?_ (hmoved.1.append_right _)
  refine (List.Perm.append_left _ List.perm_middle).trans ?_
  exact List.perm_middle

theorem Shuffles.allocates {s : Scheduler} {st st' : State} {fuel : ℕ} {id : ReqId} {n : ℤ}
    {blocks : Option KVCacheBlocks} (h : Shuffles s st)
    (halloc : allocateSlots cfg env fuel st id n = .ok (st', blocks)) : Shuffles s st' := by
  refine allocateSlots_keeps (P := Shuffles s) ?_ ?_ h halloc
  · exact fun _ hst => ⟨hst.roster, hst.others, hst.carries, hst.active, hst.streams⟩
  · intro _ _ _ hst hone
    obtain ⟨hmem, halters⟩ := preemptOne_alters hone
    exact hst.alters hmem halters

theorem runningTurn_shuffles {s : Scheduler} {st st' : State} {id : ReqId} {stop : Bool}
    (h : Shuffles s st) (hid : id ∈ st.sched.running)
    (hturn : runningTurn cfg env ctx st id = .ok (st', stop)) : Shuffles s st' := by
  cases runningTurn_cases hturn with
  | skip gateSkips tick skips => exact ⟨h.roster, h.others, h.carries, h.active, h.streams⟩
  | @fail plan _ hplan halloc =>
    have hticked : Shuffles s { st with led := { st.led with tick := plan.tick } } :=
      ⟨h.roster, h.others, h.carries, h.active, h.streams⟩
    exact hticked.allocates halloc
  | @commit plan mid blocks hpass hgate hopen hplan hne halloc =>
    have hticked : Shuffles s { st with led := { st.led with tick := plan.tick } } :=
      ⟨h.roster, h.others, h.carries, h.active, h.streams⟩
    have hmid := hticked.allocates halloc
    have hlisted : id ∈ roster mid :=
      hmid.roster.mem_iff.mpr (h.roster.mem_iff.mp (List.mem_append_left _ hid))
    refine hmid.alters hlisted ⟨⟨_, rfl, ?_⟩, .refl _, rfl, rfl⟩
    exact ⟨rfl, rfl, .inl rfl, fun hf => hf, .rfl, rfl, .inl ⟨rfl, rfl⟩⟩

/-! ## The waiting loop -/

/-- A promoted request no longer waits for anything. -/
theorem tryPromote_alters {st : State} {sched : Scheduler} {id : ReqId} {promoted : Bool}
    (h : tryPromoteBlockedWaitingRequest st.sched id = .ok (promoted, sched)) :
    Alters id st { st with sched := sched } ∧
      (promoted = true → (sched.requests id).status ≠ .waitingForStreamingReq) := by
  rw [tryPromoteBlockedWaitingRequest] at h
  dsimp only at h
  split at h
  · rename_i hremote
    have hbefore : (st.sched.requests id).status ≠ .waitingForStreamingReq := by
      rw [hremote]
      decide
    split at h
    · cases h
      obtain ⟨computed, hrequests, hrunning, hwaiting, hskipped⟩ :=
        updateWaitingForRemoteKv_requests st.sched id
      have hframe : (updateWaitingForRemoteKv st.sched id).active = st.sched.active ∧
          (updateWaitingForRemoteKv st.sched id).numWaitingForStreamingInput =
            st.sched.numWaitingForStreamingInput := by
        rw [updateWaitingForRemoteKv]
        dsimp only
        split
        · exact ⟨rfl, rfl⟩
        split
        · exact ⟨rfl, rfl⟩
        · exact ⟨rfl, rfl⟩
      let status : RequestStatus :=
        if (st.sched.requests id).numPreemptions > 0 then .preempted else .waiting
      have hstatus : status ≠ .waitingForStreamingReq ∧ status ≠ .finished := by
        simp only [status]
        split
        · decide
        · decide
      refine ⟨⟨⟨{ st.sched.requests id with numComputedTokens := computed, status := status }, ?_,
        carries_status hbefore hstatus.1 hstatus.2⟩, ?_, hframe.1, hframe.2⟩, fun _ => ?_⟩
      · show Function.update (updateWaitingForRemoteKv st.sched id).requests id _ = _
        rw [hrequests, Function.update_idem, Function.update_self]
      · show ((updateWaitingForRemoteKv st.sched id).running ++ (st.led.stepSkippedWaiting ++
          ((updateWaitingForRemoteKv st.sched id).waiting ++
            (updateWaitingForRemoteKv st.sched id).skippedWaiting))).Perm _
        rw [hrunning, hwaiting, hskipped, roster]
      · rw [setRequest_self]
        exact hstatus.1
    · cases h
      exact ⟨.refl id st, fun h => absurd h Bool.false_ne_true⟩
  · rename_i hgrammar
    split at h
    · cases h
      exact ⟨.refl id st, fun h => absurd h Bool.false_ne_true⟩
    · cases h
      exact ⟨.of_same rfl (.refl _) rfl rfl, fun h => absurd h Bool.false_ne_true⟩
    · cases h
      have hbefore : (st.sched.requests id).status ≠ .waitingForStreamingReq := by
        rw [hgrammar]
        decide
      refine ⟨⟨⟨_, rfl, carries_status hbefore (by decide) (by decide)⟩, .refl _, rfl, rfl⟩, fun _ => ?_⟩
      rw [setRequest_self]
      show RequestStatus.waiting ≠ .waitingForStreamingReq
      decide
  · split at h
    · cases h
    · cases h
      exact ⟨.refl id st, fun h => absurd h Bool.false_ne_true⟩
  · cases h

theorem lookupComputed_alters {st st' : State} {id : ReqId} {c : Option Computed}
    (h : lookupComputed cfg env st id = .ok (c, st')) : Alters id st st' := by
  have hlooked : ∀ boundary, Alters id st (afterLookup id boundary st) := fun _ =>
    ⟨⟨_, rfl, ⟨rfl, rfl, .inl rfl, fun hf => hf, .rfl, rfl, .inl ⟨rfl, rfl⟩⟩⟩, .refl _, rfl, rfl⟩
  rw [lookupComputed] at h
  dsimp only at h
  split at h
  swap
  · cases h
    exact .refl id _
  split at h
  · cases h
    exact hlooked _
  split at h
  · cases h
  split at h
  · cases h
    exact hlooked _
  split at h
  · cases h
  · cases h
    exact hlooked _

theorem popRequest_active (s : Scheduler) (skipped : Bool) (id : ReqId) :
    (popRequest s skipped id).active = s.active ∧
      (popRequest s skipped id).numWaitingForStreamingInput = s.numWaitingForStreamingInput := by
  cases skipped with
  | true => exact ⟨rfl, rfl⟩
  | false => exact ⟨rfl, rfl⟩

/-- The request to serve is set aside. -/
theorem skipWaiting_alters {st : State} {skipped : Bool} {id : ReqId}
    (hmem : if skipped = true then id ∈ st.sched.skippedWaiting else id ∈ st.sched.waiting) :
    Alters id st (skipWaiting skipped id st) := by
  obtain ⟨hactive, hstreams⟩ := popRequest_active st.sched skipped id
  refine .of_same (popRequest_requests _ _ _) ?_ hactive hstreams
  have hpop := popRequest_perm hmem
  rw [roster, roster, skipWaiting]
  dsimp only
  rw [popRequest_running]
  refine List.Perm.append_left _ ?_
  exact List.perm_middle.symm.trans ((hpop.symm).append_left st.led.stepSkippedWaiting)

theorem startLoad_alters {st : State} {skipped : Bool} {id : ReqId} {c : Computed}
    (hmem : if skipped = true then id ∈ st.sched.skippedWaiting else id ∈ st.sched.waiting)
    (hopen : (st.sched.requests id).status ≠ .waitingForStreamingReq) :
    Alters id st (startLoad skipped id c st) := by
  refine (skipWaiting_alters hmem).trans ?_
  have hrequest : (skipWaiting skipped id st).sched.requests id = st.sched.requests id :=
    congrFun (popRequest_requests st.sched skipped id) id
  refine ⟨⟨_, rfl, carries_status ?_ nofun nofun⟩, .refl _, rfl, rfl⟩
  rw [hrequest]
  exact hopen

/-- The request to serve moves from its queue to the running list. -/
theorem admitRequest_alters {st st' : State} {skipped : Bool} {id : ReqId} {c : Computed}
    {a : Admission} {blocks : KVCacheBlocks}
    (hmem : if skipped = true then id ∈ st.sched.skippedWaiting else id ∈ st.sched.waiting)
    (hadmitted : admitRequest cfg skipped id c a blocks st = .ok st') : Alters id st st' := by
  obtain ⟨hstatus, rfl⟩ := admitRequest_admits hadmitted
  have hpop := popRequest_perm hmem
  have hopen : (st.sched.requests id).status ≠ .waitingForStreamingReq := by
    rcases hstatus with hs | hs
    · rw [hs]
      exact nofun
    · rw [hs]
      exact nofun
  refine ⟨⟨{ st.sched.requests id with
      status := .running
      numComputedTokens := c.numComputedTokens }, ?_, carries_status hopen nofun nofun⟩, ?_,
    (popRequest_active _ _ _).1, (popRequest_active _ _ _).2⟩
  · show Function.update (popRequest st.sched skipped id).requests id _ = _
    rw [popRequest_requests]
  · show ((popRequest st.sched skipped id).running ++ [id] ++ (st.led.stepSkippedWaiting ++
      ((popRequest st.sched skipped id).waiting ++ (popRequest st.sched skipped id).skippedWaiting))).Perm _
    rw [popRequest_running, List.append_assoc, roster]
    refine List.Perm.append_left _ ?_
    refine List.Perm.trans ?_ ((hpop.symm).append_left st.led.stepSkippedWaiting)
    rw [List.singleton_append]
    exact List.perm_middle.symm

theorem admitTurn_alters {st st' : State} {skipped stop : Bool} {id : ReqId} {c : Computed}
    (hmem : if skipped = true then id ∈ st.sched.skippedWaiting else id ∈ st.sched.waiting)
    (hopen : (st.sched.requests id).status ≠ .waitingForStreamingReq)
    (hturn : admitTurn cfg env ctx skipped id c st = .ok (st', stop)) : Alters id st st' := by
  obtain ⟨planned, -, hturn⟩ := bind_ok hturn
  cases planned with
  | none =>
    cases hturn
    exact .refl id st
  | some a =>
    dsimp only at hturn
    have hticked : Alters id st { st with led := { st.led with tick := a.plan.tick + 2 } } :=
      .of_same rfl (.refl _) rfl rfl
    split at hturn
    · cases hturn
      exact hticked
    split at hturn
    · cases hturn
      exact hticked.trans (startLoad_alters hmem hopen)
    obtain ⟨final, hadmitted, hturn⟩ := bind_ok hturn
    cases hturn
    exact hticked.trans (admitRequest_alters hmem hadmitted)

theorem openTurn_alters {st st' : State} {skipped stop : Bool} {id : ReqId}
    (hmem : if skipped = true then id ∈ st.sched.skippedWaiting else id ∈ st.sched.waiting)
    (hopen : (st.sched.requests id).status ≠ .waitingForStreamingReq)
    (hturn : openTurn cfg env ctx skipped id st = .ok (st', stop)) : Alters id st st' := by
  rw [openTurn] at hturn
  split at hturn
  · cases hturn
    exact skipWaiting_alters hmem
  obtain ⟨⟨computed, mid⟩, hlookup, hturn⟩ := bind_ok hturn
  obtain ⟨hwaiting, hskipped⟩ := (lookupComputed_touches hlookup).queues
  have hmid : if skipped = true then id ∈ mid.sched.skippedWaiting else id ∈ mid.sched.waiting := by
    rw [hwaiting, hskipped]
    exact hmem
  have halters := lookupComputed_alters hlookup
  cases computed with
  | none =>
    cases hturn
    exact halters.trans (skipWaiting_alters hmid)
  | some c =>
    refine halters.trans (admitTurn_alters hmid (fun hs => hopen ?_) hturn)
    exact (halters.carries.streaming).mp hs

theorem waitingTurn_alters {st st' : State} {skipped stop : Bool} {id : ReqId}
    (hselect : selectWaitingQueue cfg st.sched = some (skipped, id))
    (hturn : waitingTurn cfg env ctx skipped id st = .ok (st', stop)) :
    id ∈ roster st ∧ Alters id st st' := by
  have hmem := selectWaitingQueue_mem hselect
  have hlisted : id ∈ roster st := by
    refine List.mem_append_right _ (List.mem_append_right _ ?_)
    cases skipped with
    | true => exact List.mem_append_right _ hmem
    | false => exact List.mem_append_left _ hmem
  refine ⟨hlisted, ?_⟩
  rw [waitingTurn] at hturn
  split at hturn
  · cases hturn
    exact .refl id st
  split at hturn
  · obtain ⟨⟨promoted, sched⟩, hpromote, hturn⟩ := bind_ok hturn
    obtain ⟨hwaiting, hskipped⟩ := (tryPromote_touches hpromote).queues
    have hmid : if skipped = true then id ∈ sched.skippedWaiting else id ∈ sched.waiting := by
      rw [hwaiting, hskipped]
      exact hmem
    obtain ⟨halters, hopen⟩ := tryPromote_alters hpromote
    dsimp only at hturn
    split at hturn
    · rename_i hpromoted
      exact halters.trans (openTurn_alters hmid (hopen hpromoted) hturn)
    · cases hturn
      exact halters.trans (skipWaiting_alters hmid)
  · rename_i hblocked
    refine openTurn_alters hmem (fun hs => hblocked ?_) hturn
    rw [hs]
    rfl

/-! ## The step -/

/-- What a whole step does to the scheduler. -/
structure Moved (s s' : Scheduler) : Prop where
  roster : (s'.running ++ (s'.waiting ++ s'.skippedWaiting)).Perm
    (s.running ++ (s.waiting ++ s.skippedWaiting))
  others : ∀ id, id ∉ s.running ++ (s.waiting ++ s.skippedWaiting) → s'.requests id = s.requests id
  carries : ∀ id, Carries (s.requests id) (s'.requests id)
  active : s'.active = s.active
  streams : s'.numWaitingForStreamingInput = s.numWaitingForStreamingInput

theorem initialState_shuffles (cfg : SchedulerConfig) (s : Scheduler) :
    Shuffles s (initialState cfg s) := by
  obtain ⟨turns, hbegin⟩ := beginStep_eq cfg s
  have hsched : (initialState cfg s).sched =
      { s with currentStep := s.currentStep + 1, longPrefillLastScheduled := turns } := hbegin
  refine ⟨?_, fun id _ => ?_, fun id => ?_, ?_, ?_⟩
  · rw [roster, hsched]
    exact .refl _
  · rw [hsched]
  · rw [hsched]
    exact .refl _
  · rw [hsched]
  · rw [hsched]

theorem scheduleRunning_shuffles {s : Scheduler} {throttle : Bool} {run : State}
    (h : scheduleRunning cfg env throttle s = .ok run) :
    Shuffles s run ∧ run.led.stepSkippedWaiting = [] := by
  have hstart := initialState_shuffles cfg s
  refine runningLoop_keeps (P := fun st => Shuffles s st ∧ st.led.stepSkippedWaiting = []) ?_
    ⟨hstart, rfl⟩ h
  intro st st' id stop ⟨hst, hnone⟩ hid _ hturn
  refine ⟨runningTurn_shuffles hst (List.mem_of_getElem? hid) hturn, ?_⟩
  exact (runningTurn_skips hturn).trans hnone

theorem Shuffles.requeues {s : Scheduler} {st : State} (h : Shuffles s st) :
    Moved s (requeueSkipped ctx st).sched := by
  have hperm : (st.sched.running ++ (st.sched.waiting ++
      (st.led.stepSkippedWaiting.reverse ++ st.sched.skippedWaiting))).Perm (Shuffle.roster st) := by
    refine List.Perm.append_left _ ?_
    refine (List.perm_append_comm_assoc _ _ _).trans ?_
    exact (List.reverse_perm _).append_right _
  have hmoved : Moved s { st.sched with
      skippedWaiting := st.led.stepSkippedWaiting.reverse ++ st.sched.skippedWaiting } :=
    ⟨hperm.trans h.roster, h.others, h.carries, h.active, h.streams⟩
  rw [requeueSkipped]
  dsimp only
  split
  · exact hmoved
  · exact ⟨hmoved.roster, hmoved.others, hmoved.carries, hmoved.active, hmoved.streams⟩

theorem scheduleWaiting_moves {s : Scheduler} {st st' : State} (h : Shuffles s st)
    (hnone : st.led.stepSkippedWaiting = []) (hwaiting : scheduleWaiting cfg env ctx st = .ok st') :
    Moved s st'.sched := by
  rcases scheduleWaiting_cases hwaiting with ⟨-, rfl⟩ | ⟨-, mid, hloop, rfl⟩
  · have hroster := h.roster
    rw [roster, hnone, List.nil_append] at hroster
    exact ⟨hroster, h.others, h.carries, h.active, h.streams⟩
  · have hmid : Shuffles s mid := by
      refine waitingLoop_keeps (P := Shuffles s) ?_ ?_ hloop
      · intro _ _ _ _ _ hst hselect _ hturn
        obtain ⟨hmem, halters⟩ := waitingTurn_alters hselect hturn
        exact hst.alters hmem halters
      · exact ⟨h.roster, h.others, h.carries, h.active, h.streams⟩
    exact hmid.requeues

/-- A step moves the requests and forgets none. -/
theorem schedule_moves {throttle : Bool} {s : Scheduler} {out : State}
    (h : schedule cfg env throttle s = .ok out) : Moved s out.sched := by
  obtain ⟨running, st, hrunning, hwaiting, -, hsched⟩ := schedule_halves h
  obtain ⟨hshuffles, hnone⟩ := scheduleRunning_shuffles hrunning
  have hmoved := scheduleWaiting_moves hshuffles hnone hwaiting
  obtain ⟨wasted, turns, heq⟩ := debitUnusedLongPrefillTurns_eq cfg (stepContext cfg throttle s)
    st.led.numScheduledTokens st.sched
  rw [hsched, heq]
  exact ⟨hmoved.roster, hmoved.others, hmoved.carries, hmoved.active, hmoved.streams⟩

end

end SparkKit.Sched.Shuffle
