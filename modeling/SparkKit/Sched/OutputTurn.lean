import SparkKit.Sched.Roster

/-!
# One request's output

A turn of the loop of `update_from_output` drains one request's tokens and may deliver its
output. The requests that stop stay listed until the loop ends, so what a turn keeps is the
roster without them.
-/
namespace SparkKit.Sched.OutputTurn

open SparkKit.Lib.Outcome SparkKit.Sched.Requests SparkKit.Sched.StepState
open SparkKit.Sched.StepInvariant SparkKit.Sched.Output SparkKit.Sched.EngineCore SparkKit.Sched.Roster

/-! ## One delivery -/

/-- Neither the tokens in flight nor the preemptions of a request changed. -/
structure SameFlight (r r' : Request) : Prop where
  name : r'.requestId = r.requestId
  inFlight : r'.numInFlightTokens = r.numInFlightTokens
  stale : r'.numStaleOutputTokens = r.numStaleOutputTokens
  preemptions : r'.numPreemptions = r.numPreemptions

theorem SameFlight.refl (r : Request) : SameFlight r r := ⟨rfl, rfl, rfl, rfl⟩

theorem SameFlight.trans {r r' r'' : Request} (h : SameFlight r r') (h' : SameFlight r' r'') :
    SameFlight r r'' :=
  ⟨h'.name.trans h.name, h'.inFlight.trans h.inFlight, h'.stale.trans h.stale,
    h'.preemptions.trans h.preemptions⟩

/-- A request while its tokens are appended: `n` of them so far, the prefill still ahead. -/
structure Appends (cfg : SchedulerConfig) (r r' : Request) (n : ℤ) : Prop where
  flight : SameFlight r r'
  placeholders : r'.numOutputPlaceholders = r.numOutputPlaceholders
  prefill : r'.isPrefillChunk = r.isPrefillChunk
  computed : r'.numComputedTokens = r.numComputedTokens
  fits : r'.numTokens ≤ cfg.maxModelLen
  appended : r'.numTokens ≤ r.numTokens + n

section
variable {cfg : SchedulerConfig} {env : OutputEnv}

/-- `check_stop` stops a request that has no room for another token. -/
def StopsWhenFull (cfg : SchedulerConfig) (env : OutputEnv) : Prop :=
  ∀ r appended, cfg.maxModelLen ≤ r.numTokens → env.checkStop r appended = true

/-- Appending goes on exactly while the request has room and is not told to stop. -/
theorem updateRequestWithOutput_appends (hstops : StopsWhenFull cfg env) {r : Request}
    (hroom : r.numTokens < cfg.maxModelLen) (appended tokens : List ℤ) :
    let out := updateRequestWithOutput env r appended tokens
    Appends cfg r out.1 tokens.length ∧
      (out.2.2 = true → out.1.status = .finished) ∧
      (out.2.2 = false → out.1.status = r.status ∧ out.1.numTokens = r.numTokens + tokens.length ∧
        out.1.numTokens < cfg.maxModelLen) := by
  induction tokens generalizing r appended with
  | nil =>
    refine ⟨⟨.refl r, rfl, rfl, rfl, le_of_lt hroom, ?_⟩, nofun, fun _ => ⟨rfl, ?_, hroom⟩⟩
    · exact le_of_eq (Int.add_zero _).symm
    · exact (Int.add_zero _).symm
  | cons token tokens ih =>
    rw [updateRequestWithOutput]
    dsimp only
    have hlength : ((token :: tokens).length : ℤ) = tokens.length + 1 := by
      rw [List.length_cons]
      exact Int.natCast_succ _
    rw [hlength]
    split
    · refine ⟨⟨⟨rfl, rfl, rfl, rfl⟩, rfl, rfl, rfl, ?_, ?_⟩, fun _ => rfl, nofun⟩
      · exact hroom
      · show r.numTokens + 1 ≤ r.numTokens + (tokens.length + 1)
        omega
    · rename_i hgoes
      have hroom' : ({ r with numTokens := r.numTokens + 1 } : Request).numTokens < cfg.maxModelLen := by
        by_contra hfull
        exact hgoes (hstops _ _ (not_lt.mp hfull))
      obtain ⟨happends, hstopped, hgoing⟩ := ih hroom' (appended ++ [token])
      have hflight := happends.flight
      refine ⟨⟨⟨hflight.name, hflight.inFlight, hflight.stale, hflight.preemptions⟩,
        happends.placeholders, happends.prefill, happends.computed, happends.fits, ?_⟩, hstopped,
        fun hout => ?_⟩
      · have hle := happends.appended
        dsimp only at hle
        omega
      · obtain ⟨hstatus, htokens, hfits⟩ := hgoing hout
        refine ⟨hstatus, ?_, hfits⟩
        dsimp only at htokens
        omega

/-- What a delivery makes of a request with room: it stops and is finished, or it goes on with
its status and has room again. -/
structure Delivered (cfg : SchedulerConfig) (r : Request) (d : Delivery) : Prop where
  flight : SameFlight r d.request
  before : d.statusBeforeStop = r.status
  placeholders : d.request.numOutputPlaceholders = 0
  ok : RequestOk cfg d.request
  stopped : d.stopped = true → d.request.status = .finished
  going : d.stopped = false → d.request.status = r.status ∧ d.request.numTokens < cfg.maxModelLen

theorem rollBackRejected_keeps {r : Request} (hplaceholders : r.numOutputPlaceholders = 0)
    (numDraftTokens numGenerated : ℤ) :
    ∃ computed, rollBackRejected cfg r numDraftTokens numGenerated =
        { r with numComputedTokens := computed } ∧
      (0 ≤ numDraftTokens → 0 ≤ cfg.numSampledTokensPerStep → 0 ≤ numGenerated →
        computed ≤ r.numComputedTokens + numGenerated) := by
  refine ⟨if r.numComputedTokens > 0 then
      r.numComputedTokens - (numDraftTokens - max (numGenerated - cfg.numSampledTokensPerStep) 0)
    else r.numComputedTokens, ?_, fun hdraft hsampled hgenerated => ?_⟩
  · have hnone : ¬r.numOutputPlaceholders > 0 := by omega
    rw [rollBackRejected, if_neg hnone]
  · split
    · omega
    · omega

/-- The tokens of a delivery, appended to a request that may have been rolled back. -/
theorem appends_cases (hstops : StopsWhenFull cfg env) {r : Request} (id : ReqId)
    (hroom : r.numTokens < cfg.maxModelLen) (generated : List ℤ) :
    let out :=
      if generated ≠ [] then updateRequestWithOutput env r [] generated
      else if env.isPooling id = true ∧ env.poolerOutput id = true then
        ({ r with status := .finished }, [], true)
      else (r, [], false)
    Appends cfg r out.1 generated.length ∧
      (out.2.2 = true → out.1.status = .finished) ∧
      (out.2.2 = false → out.1.status = r.status ∧
        out.1.numTokens = r.numTokens + generated.length ∧ out.1.numTokens < cfg.maxModelLen) := by
  have hnone : ∀ status : RequestStatus,
      Appends cfg r { r with status := status } ([] : List ℤ).length := fun status =>
    ⟨⟨rfl, rfl, rfl, rfl⟩, rfl, rfl, rfl, le_of_lt hroom, le_of_eq (Int.add_zero _).symm⟩
  dsimp only
  split
  · exact updateRequestWithOutput_appends hstops hroom [] generated
  rename_i hempty
  rw [not_not.mp hempty]
  split
  · exact ⟨hnone .finished, fun _ => rfl, nofun⟩
  · exact ⟨hnone r.status, nofun, fun _ => ⟨rfl, (Int.add_zero _).symm, hroom⟩⟩

theorem delivery_delivered (hstops : StopsWhenFull cfg env)
    (hsampled : 0 ≤ cfg.numSampledTokensPerStep) {r : Request} (hroom : Room cfg r)
    (hok : RequestOk cfg r) (id : ReqId) (stale : Bool) (specs generated : List ℤ) :
    Delivered cfg r (delivery cfg env id stale specs generated r) := by
  -- the drafts rejected are taken back before the tokens are appended
  have hrolled : ∃ computed ≤ r.numComputedTokens + generated.length,
      (if specs ≠ [] ∧ (generated ≠ [] ∨ cfg.numSampledTokensPerStep = 0) ∧ stale = false then
        rollBackRejected cfg r specs.length generated.length else r) =
      { r with numComputedTokens := computed } := by
    split
    · obtain ⟨computed, heq, hle⟩ :=
        rollBackRejected_keeps hroom.placeholders (specs.length : ℤ) (generated.length : ℤ)
      exact ⟨computed, hle (Int.natCast_nonneg _) hsampled (Int.natCast_nonneg _), heq⟩
    · refine ⟨r.numComputedTokens, ?_, rfl⟩
      have hlen := Int.natCast_nonneg generated.length
      omega
  obtain ⟨computed, hle, hrolled⟩ := hrolled
  obtain ⟨happends, hstopped, hgoing⟩ := appends_cases hstops id
    (r := { r with numComputedTokens := computed }) hroom.tokens generated
  rw [delivery]
  dsimp only
  rw [hrolled]
  generalize (if generated ≠ [] then
      updateRequestWithOutput env { r with numComputedTokens := computed } [] generated
    else if env.isPooling id = true ∧ env.poolerOutput id = true then
      ({ r with numComputedTokens := computed, status := .finished }, [], true)
    else ({ r with numComputedTokens := computed }, [], false)) = out at happends hstopped hgoing ⊢
  obtain ⟨updated, tokens, stopped⟩ := out
  dsimp only at happends hstopped hgoing ⊢
  generalize decide (tokens ≠ [] ∧ env.grammarRejects updated tokens = true) = rejected
  have hplaceholders : updated.numOutputPlaceholders = 0 :=
    happends.placeholders.trans hroom.placeholders
  have hfits := happends.fits
  have hflight := happends.flight
  refine ⟨⟨hflight.name, hflight.inFlight, hflight.stale, hflight.preemptions⟩, rfl, hplaceholders,
    ⟨le_of_eq hplaceholders.symm, ?_, fun hrun hprefill => ?_⟩, fun hstop => ?_, fun hgo => ?_⟩
  · show updated.numTokens + updated.numOutputPlaceholders ≤ cfg.maxModelLen
    omega
  · cases rejected with
    | true => cases hrun
    | false =>
      have hrun : updated.status = .running := hrun
      have hprefill : updated.isPrefillChunk = true := hprefill
      cases stopped with
      | true =>
        rw [hstopped rfl] at hrun
        cases hrun
      | false =>
        obtain ⟨hstatus, htokens, -⟩ := hgoing rfl
        have hahead := hok.pending (hstatus ▸ hrun) (happends.prefill ▸ hprefill)
        have hcomputed := happends.computed
        have hplaceholders' := hroom.placeholders
        show updated.numComputedTokens < updated.numTokens + updated.numOutputPlaceholders
        dsimp only at hcomputed htokens
        omega
  · cases rejected with
    | true => rfl
    | false =>
      rw [Bool.or_false] at hstop
      exact hstopped hstop
  · rw [Bool.or_eq_false_iff] at hgo
    obtain ⟨hgo, rfl⟩ := hgo
    obtain ⟨hstatus, -, hroom'⟩ := hgoing hgo
    exact ⟨hstatus, hroom'⟩

theorem delivery_before (cfg : SchedulerConfig) (env : OutputEnv) (id : ReqId) (stale : Bool)
    (specs generated : List ℤ) (r : Request) :
    (delivery cfg env id stale specs generated r).statusBeforeStop = r.status := by
  have hrolled : (if specs ≠ [] ∧ (generated ≠ [] ∨ cfg.numSampledTokensPerStep = 0) ∧ stale = false then
      rollBackRejected cfg r specs.length generated.length else r).status = r.status := by
    split
    · rfl
    · rfl
  exact hrolled

/-! ## Requests that stop -/

theorem filter_notMem_cons (ids stopped : List ReqId) (id : ReqId) :
    ids.filter (· ∉ id :: stopped) = (ids.filter (· ∉ stopped)).filter (· ≠ id) := by
  rw [List.filter_filter]
  refine List.filter_congr fun x _ => ?_
  rw [← Bool.decide_and]
  refine decide_eq_decide.mpr ?_
  rw [List.mem_cons, not_or]

theorem filter_ne_self {ids : List ReqId} {id : ReqId} (hid : id ∉ ids) :
    ids.filter (· ≠ id) = ids :=
  List.filter_eq_self.mpr fun _ hx => decide_eq_true (ne_of_mem_of_not_mem hx hid)

/-- A request is noted as stopped, by its status before. -/
def noteStopped (st : OutputState) (sched : Scheduler) (before : RequestStatus) (id : ReqId) :
    OutputState :=
  if before = .running then
    { st with sched := sched, stoppedRunningReqs := id :: st.stoppedRunningReqs }
  else { st with sched := sched, stoppedPreemptedReqs := id :: st.stoppedPreemptedReqs }

theorem noteStopped_sched (st : OutputState) (sched : Scheduler) (before : RequestStatus)
    (id : ReqId) : (noteStopped st sched before id).sched = sched := by
  rw [noteStopped]
  split
  · rfl
  · rfl

theorem freeRequest_active (env : OutputEnv) (s : Scheduler) (id : ReqId) (delay : Bool) :
    freeRequest env s id delay = s ∨ freeRequest env s id delay = { s with active := s.active.erase id } := by
  rw [freeRequest]
  split
  · exact .inl rfl
  · exact .inr rfl

/-- A request that stops for good leaves the roster. -/
theorem noteStopped_finished {st : OutputState} {id : ReqId} {r : Request}
    (h : Enrolled cfg (removeStopped st))
    (hidle : (st.sched.requests id).status ≠ .waitingForStreamingReq) (hok : RequestOk cfg r)
    (hfinished : r.status = .finished) (hname : r.requestId = (st.sched.requests id).requestId) :
    Enrolled cfg (removeStopped (noteStopped st (freeRequest env (st.sched.setRequest id r) id false)
      (st.sched.requests id).status id)) := by
  have hself := setRequest_self st.sched id r
  have hshare : streamShare (removeStopped st) id = 0 := streamShare_of_status hidle
  -- only the list its status names can hold it
  have hlists : ∀ s' : Scheduler, s'.requests = (st.sched.setRequest id r).requests →
      s'.running = (removeStopped st).running.filter (· ≠ id) →
      s'.waiting = (removeStopped st).waiting.filter (· ≠ id) →
      s'.skippedWaiting = (removeStopped st).skippedWaiting.filter (· ≠ id) →
      (s'.active = st.sched.active ∨ s'.active = st.sched.active.erase id) →
      s'.numWaitingForStreamingInput = st.sched.numWaitingForStreamingInput → Enrolled cfg s' := by
    intro s' hrequests hrunning hwaiting hskipped hactive hstreams
    refine h.removes id (fun x hx => ?_) ?_ ?_ ?_ hrunning hwaiting hskipped hactive ?_
    · rw [hrequests]
      exact setRequest_of_ne _ _ hx
    · rw [hrequests, hself]
      exact hfinished
    · rw [hrequests, hself]
      exact hok
    · rw [hrequests, hself]
      exact hname
    · rw [hshare, hstreams, Nat.sub_zero]
      rfl
  have hfree := freeRequest_active env (st.sched.setRequest id r) id false
  rw [noteStopped]
  split
  · rename_i hrun
    have hout : id ∉ (removeStopped st).waiting ++ (removeStopped st).skippedWaiting := fun hid =>
      h.wellFormed.queued id hid hrun
    rw [List.mem_append, not_or] at hout
    rcases hfree with hfree | hfree
    · rw [hfree]
      exact hlists _ rfl (filter_notMem_cons _ _ _) (filter_ne_self hout.1).symm
        (filter_ne_self hout.2).symm (.inl rfl) rfl
    · rw [hfree]
      exact hlists _ rfl (filter_notMem_cons _ _ _) (filter_ne_self hout.1).symm
        (filter_ne_self hout.2).symm (.inr rfl) rfl
  · rename_i hqueued
    have hout : id ∉ (removeStopped st).running := fun hid =>
      hqueued (h.wellFormed.running id hid)
    rcases hfree with hfree | hfree
    · rw [hfree]
      exact hlists _ rfl (filter_ne_self hout).symm (filter_notMem_cons _ _ _)
        (filter_notMem_cons _ _ _) (.inl rfl) rfl
    · rw [hfree]
      exact hlists _ rfl (filter_ne_self hout).symm (filter_notMem_cons _ _ _)
        (filter_notMem_cons _ _ _) (.inr rfl) rfl

/-- A request that stopped is finished, or its session takes its next turn. -/
theorem handleStopped_cases (r : Request) :
    ((handleStopped r).2 = true ∧ ∃ queue, (handleStopped r).1 = { r with streamingQueue := queue }) ∨
      ((handleStopped r).2 = false ∧ ((∃ update queue, (handleStopped r).1 =
          { updateRequestAsSession r update with streamingQueue := queue }) ∨
        (handleStopped r).1 = { r with status := .waitingForStreamingReq })) := by
  rw [handleStopped]
  split
  · exact .inl ⟨rfl, r.streamingQueue, rfl⟩
  split
  · rename_i queue _
    exact .inl ⟨rfl, some queue, rfl⟩
  · rename_i update queue _
    exact .inr ⟨rfl, .inl ⟨update, some queue, rfl⟩⟩
  · exact .inr ⟨rfl, .inr rfl⟩

theorem handleStopped_status {r : Request} (h : (handleStopped r).2 = false) :
    (handleStopped r).1.status = .waiting ∨ (handleStopped r).1.status = .waitingForStreamingReq := by
  rcases handleStopped_cases r with ⟨hfinished, -⟩ | ⟨-, ⟨update, queue, heq⟩ | heq⟩
  · rw [h] at hfinished
    cases hfinished
  · rw [heq]
    exact .inl rfl
  · rw [heq]
    exact .inr rfl

theorem handleStopped_flight (r : Request) : SameFlight r (handleStopped r).1 := by
  rcases handleStopped_cases r with ⟨-, queue, heq⟩ | ⟨-, ⟨update, queue, heq⟩ | heq⟩
  · rw [heq]
    exact ⟨rfl, rfl, rfl, rfl⟩
  · rw [heq]
    exact ⟨rfl, rfl, rfl, rfl⟩
  · rw [heq]
    exact ⟨rfl, rfl, rfl, rfl⟩

theorem handleStopped_placeholders (r : Request) :
    (handleStopped r).1.numOutputPlaceholders = r.numOutputPlaceholders := by
  rcases handleStopped_cases r with ⟨-, queue, heq⟩ | ⟨-, ⟨update, queue, heq⟩ | heq⟩
  · rw [heq]
  · rw [heq]
    rfl
  · rw [heq]

theorem enqueueWaitingRequest_cases (s : Scheduler) (id : ReqId) :
    enqueueWaitingRequest s id = { s with waiting := s.waiting ++ [id] } ∨
      enqueueWaitingRequest s id = { s with skippedWaiting := s.skippedWaiting ++ [id] } := by
  rw [enqueueWaitingRequest]
  split
  · exact .inr rfl
  · exact .inl rfl

/-- The scheduler once a session has taken its next turn and is queued for it. -/
def requeued (s : Scheduler) (id : ReqId) (next : Request) : Scheduler :=
  enqueueWaitingRequest
    { s.setRequest id next with
      numWaitingForStreamingInput :=
        if next.status = .waitingForStreamingReq then s.numWaitingForStreamingInput + 1
        else s.numWaitingForStreamingInput } id

theorem requeued_requests (s : Scheduler) (id : ReqId) (next : Request) :
    (requeued s id next).requests = (s.setRequest id next).requests := by
  rw [requeued, enqueueWaitingRequest]
  dsimp only
  split
  · rfl
  · rfl

theorem requeued_active (s : Scheduler) (id : ReqId) (next : Request) :
    (requeued s id next).active = s.active := by
  rw [requeued, enqueueWaitingRequest]
  dsimp only
  split
  · rfl
  · rfl

theorem setRequest_twice (s : Scheduler) (id : ReqId) (r next : Request) :
    (s.setRequest id r).setRequest id next = s.setRequest id next := by
  show { s with requests := Function.update (Function.update s.requests id r) id next } = _
  rw [Function.update_idem]
  rfl

/-- A running session whose turn is over waits in a queue. -/
theorem noteStopped_session {st : OutputState} {id : ReqId} {next : Request}
    (h : Enrolled cfg (removeStopped st)) (hactive : id ∈ st.sched.active)
    (hrun : (st.sched.requests id).status = .running) (hfresh : id ∉ st.stoppedPreemptedReqs)
    (hstatus : next.status = .waiting ∨ next.status = .waitingForStreamingReq)
    (hroom : Room cfg next) (hname : next.requestId = id) :
    Enrolled cfg (removeStopped (noteStopped st (requeued st.sched id next)
      (st.sched.requests id).status id)) := by
  have hself := setRequest_self st.sched id next
  have hout : id ∉ (removeStopped st).waiting ++ (removeStopped st).skippedWaiting := fun hid =>
    h.wellFormed.queued id hid hrun
  have hwaits : next.status ≠ .running ∧ next.status ≠ .finished := by
    rcases hstatus with hs | hs
    · rw [hs]
      exact ⟨nofun, nofun⟩
    · rw [hs]
      exact ⟨nofun, nofun⟩
  have hqueues : ∀ s' : Scheduler, s'.requests = (st.sched.setRequest id next).requests →
      s'.running = (removeStopped st).running.filter (· ≠ id) →
      (s'.waiting ++ s'.skippedWaiting).Perm
        (id :: ((removeStopped st).waiting ++ (removeStopped st).skippedWaiting)) →
      s'.active = st.sched.active →
      s'.numWaitingForStreamingInput =
        (if next.status = .waitingForStreamingReq then st.sched.numWaitingForStreamingInput + 1
        else st.sched.numWaitingForStreamingInput) → Enrolled cfg s' := by
    intro s' hrequests hrunning hqueue hsame hstreams
    have hnext : s'.requests id = next := by rw [hrequests, hself]
    refine h.enqueues id hout (fun x hx => ?_) ?_ ?_ ?_ ⟨?_, fun x => ?_⟩ hqueue
      ⟨hsame ▸ h.active, fun x => ?_⟩ ?_ ?_
    · rw [hrequests]
      exact setRequest_of_ne _ _ hx
    · rw [hnext]
      exact hwaits
    · rw [hnext]
      exact hroom
    · rw [hnext]
      exact hname
    · rw [hrunning]
      exact List.filter_sublist
    · rw [hrunning, List.mem_filter, decide_eq_true_iff]
    · rw [hsame]
      exact ⟨.inr, fun hor => hor.elim (fun heq => heq ▸ hactive) fun hx => hx⟩
    · exact streamShare_of_status (by show (st.sched.requests id).status ≠ _; rw [hrun]; exact nofun)
    · rw [hstreams]
      by_cases hs : next.status = .waitingForStreamingReq
      · have hshare : streamShare s' id = 1 := if_pos ⟨hsame ▸ hactive, by rw [hnext]; exact hs⟩
        rw [if_pos hs, hshare]
        rfl
      · rw [if_neg hs, streamShare_of_status (by rw [hnext]; exact hs)]
        rfl
  have hkeep : ∀ ids : List ReqId, (ids ++ [id]).filter (· ∉ st.stoppedPreemptedReqs) =
      ids.filter (· ∉ st.stoppedPreemptedReqs) ++ [id] := by
    intro ids
    have hsingle : [id].filter (· ∉ st.stoppedPreemptedReqs) = [id] := by
      rw [List.filter_singleton, decide_eq_true hfresh]
      rfl
    rw [List.filter_append, hsingle]
  rw [noteStopped, if_pos hrun, requeued]
  rcases enqueueWaitingRequest_cases { st.sched.setRequest id next with
    numWaitingForStreamingInput :=
      if next.status = .waitingForStreamingReq then st.sched.numWaitingForStreamingInput + 1
      else st.sched.numWaitingForStreamingInput } id with hqueue | hqueue
  · rw [hqueue]
    refine hqueues _ rfl (filter_notMem_cons st.sched.running st.stoppedRunningReqs id) ?_ rfl rfl
    show ((st.sched.waiting ++ [id]).filter _ ++ _).Perm _
    rw [hkeep, List.append_assoc]
    exact List.perm_middle
  · rw [hqueue]
    refine hqueues _ rfl (filter_notMem_cons st.sched.running st.stoppedRunningReqs id) ?_ rfl rfl
    show (_ ++ (st.sched.skippedWaiting ++ [id]).filter _).Perm _
    rw [hkeep, ← List.append_assoc]
    exact List.perm_append_singleton _ _

/-! ## One turn of the loop -/

/-- A delivery that an output may make of a request, with any of its tokens, once failed loads
have taken computed tokens back. -/
def Delivers (cfg : SchedulerConfig) (env : OutputEnv) (output : RunnerOutput) (r : Request)
    (id : ReqId) (d : Delivery) : Prop :=
  ∃ n computed stale specs generated, computed ≤ r.numComputedTokens ∧
    generated ∈ [] :: output.sampledTokenIds ∧
    d = delivery cfg env id stale specs generated
      (drainInFlight { r with numComputedTokens := computed } n)

/-- A turn of the loop touches one request, and leaves the running list to the end. -/
structure Visits (id : ReqId) (st st' : OutputState) : Prop where
  others : ∀ x, x ≠ id → st'.sched.requests x = st.sched.requests x
  active : ∀ x, x ≠ id → (x ∈ st'.sched.active ↔ x ∈ st.sched.active)
  known : ∀ x ∈ st'.sched.active, x ∈ st.sched.active
  running : st'.sched.running = st.sched.running
  queued : ∀ x, x ≠ id → (x ∈ st'.sched.waiting ++ st'.sched.skippedWaiting ↔
    x ∈ st.sched.waiting ++ st.sched.skippedWaiting)
  preempted : ∀ x, x ≠ id → (x ∈ st'.stoppedPreemptedReqs ↔ x ∈ st.stoppedPreemptedReqs)
  errors : st'.sched.grammarCompileErrorReqs = st.sched.grammarCompileErrorReqs

theorem visits_refl (id : ReqId) (st : OutputState) : Visits id st st :=
  ⟨fun _ _ => rfl, fun _ _ => .rfl, fun _ hx => hx, rfl, fun _ _ => .rfl, fun _ _ => .rfl, rfl⟩

theorem visits_set (st : OutputState) (id : ReqId) (r : Request) :
    Visits id st { st with sched := st.sched.setRequest id r } :=
  ⟨fun _ hx => setRequest_of_ne _ _ hx, fun _ _ => .rfl, fun _ hx => hx, rfl, fun _ _ => .rfl,
    fun _ _ => .rfl, rfl⟩

theorem Visits.trans {id : ReqId} {st st' st'' : OutputState} (h : Visits id st st')
    (h' : Visits id st' st'') : Visits id st st'' :=
  ⟨fun x hx => (h'.others x hx).trans (h.others x hx),
    fun x hx => (h'.active x hx).trans (h.active x hx), fun x hx => h.known x (h'.known x hx),
    h'.running.trans h.running, fun x hx => (h'.queued x hx).trans (h.queued x hx),
    fun x hx => (h'.preempted x hx).trans (h.preempted x hx), h'.errors.trans h.errors⟩

/-- Noting a request as stopped, with another scheduler that differs for it only. -/
theorem Visits.noteStopped {st : OutputState} {sched : Scheduler} {id : ReqId}
    (h : Visits id st { st with sched := sched }) (before : RequestStatus) :
    Visits id st (noteStopped st sched before id) := by
  rw [OutputTurn.noteStopped]
  split
  · exact ⟨h.others, h.active, h.known, h.running, h.queued, fun _ _ => .rfl, h.errors⟩
  · refine ⟨h.others, h.active, h.known, h.running, h.queued, fun x hx => ?_, h.errors⟩
    rw [List.mem_cons]
    exact or_iff_right hx

theorem visits_freeRequest (env : OutputEnv) (st : OutputState) (id : ReqId) (delay : Bool) :
    Visits id st { st with sched := freeRequest env st.sched id delay } := by
  rcases freeRequest_active env st.sched id delay with hfree | hfree
  · rw [hfree]
    exact visits_refl id st
  · rw [hfree]
    exact ⟨fun _ _ => rfl, fun _ hx => List.mem_erase_of_ne hx, fun _ hx => List.mem_of_mem_erase hx,
      rfl, fun _ _ => .rfl, fun _ _ => .rfl, rfl⟩

theorem visits_requeued (st : OutputState) (id : ReqId) (next : Request) :
    Visits id st { st with sched := requeued st.sched id next } := by
  have hback : ∀ (front back : List ReqId) (x : ReqId), x ≠ id →
      (x ∈ (front ++ [id]) ++ back ↔ x ∈ front ++ back) := by
    intro front back x hx
    rw [List.mem_append, List.mem_append, List.mem_append, List.mem_singleton, or_iff_left hx]
  rw [requeued]
  rcases enqueueWaitingRequest_cases { st.sched.setRequest id next with
    numWaitingForStreamingInput :=
      if next.status = .waitingForStreamingReq then st.sched.numWaitingForStreamingInput + 1
      else st.sched.numWaitingForStreamingInput } id with hqueue | hqueue
  · rw [hqueue]
    exact ⟨fun _ hx => setRequest_of_ne _ _ hx, fun _ _ => .rfl, fun _ hx => hx, rfl,
      fun x hx => hback _ _ x hx, fun _ _ => .rfl, rfl⟩
  · rw [hqueue]
    refine ⟨fun _ hx => setRequest_of_ne _ _ hx, fun _ _ => .rfl, fun _ hx => hx, rfl,
      fun x hx => ?_, fun _ _ => .rfl, rfl⟩
    have hend := hback (st.sched.waiting ++ st.sched.skippedWaiting) [] x hx
    rw [List.append_nil, List.append_nil, List.append_assoc] at hend
    exact hend

theorem freeRequest_requests (env : OutputEnv) (s : Scheduler) (id : ReqId) (delay : Bool) :
    (freeRequest env s id delay).requests = s.requests := by
  rw [freeRequest]
  split
  · rfl
  · rfl

/-- A delivery goes on, or it stops the request for good or for its session's next turn. -/
theorem deliverOutput_cases (cfg : SchedulerConfig) (env : OutputEnv) (id : ReqId) (stale : Bool)
    (specs generated : List ℤ) (st : OutputState) :
    let d := delivery cfg env id stale specs generated (st.sched.requests id)
    let st' := deliverOutput cfg env id stale specs generated st
    (d.stopped = false ∧ st' = { st with sched := st.sched.setRequest id d.request }) ∨
      (d.stopped = true ∧ (handleStopped d.request).2 = true ∧ ∃ queue,
        st' = noteStopped st (freeRequest env (st.sched.setRequest id
          { d.request with streamingQueue := queue }) id false) d.statusBeforeStop id) ∨
      (d.stopped = true ∧ (handleStopped d.request).2 = false ∧
        st' = noteStopped st (requeued st.sched id (handleStopped d.request).1)
          d.statusBeforeStop id) := by
  dsimp only
  rw [deliverOutput]
  dsimp only
  generalize delivery cfg env id stale specs generated (st.sched.requests id) = d
  cases hstop : d.stopped with
  | false => exact .inl ⟨rfl, rfl⟩
  | true =>
    right
    have hself := setRequest_self st.sched id d.request
    rw [handleStoppedRequest, hself]
    dsimp only
    rcases handleStopped_cases d.request with ⟨hfinished, queue, heq⟩ | ⟨hnext, -⟩
    · refine .inl ⟨rfl, hfinished, queue, ?_⟩
      rw [if_pos hfinished, heq, setRequest_twice]
      rfl
    · refine .inr ⟨rfl, hnext, ?_⟩
      rw [if_neg (Bool.eq_false_iff.mp hnext), setRequest_twice]
      rfl

theorem deliverOutput_visits (cfg : SchedulerConfig) (env : OutputEnv) (id : ReqId) (stale : Bool)
    (specs generated : List ℤ) (st : OutputState) :
    Visits id st (deliverOutput cfg env id stale specs generated st) := by
  rcases deliverOutput_cases cfg env id stale specs generated st with
    ⟨-, heq⟩ | ⟨-, -, queue, heq⟩ | ⟨-, -, heq⟩
  · rw [heq]
    exact visits_set st id _
  · rw [heq]
    apply Visits.noteStopped
    exact (visits_set st id _).trans (visits_freeRequest env _ id false)
  · rw [heq]
    exact (visits_requeued st id _).noteStopped _

/-- The turn of a session that a delivery ends is one of a running session, and its next input
fits in the model. -/
def SessionOk (cfg : SchedulerConfig) (status : RequestStatus) (d : Delivery) : Prop :=
  d.stopped = true → (handleStopped d.request).2 = false →
    status = .running ∧ (handleStopped d.request).1.numTokens < cfg.maxModelLen

theorem updateRequestWithOutput_resumable (env : OutputEnv) (r : Request) (appended tokens : List ℤ) :
    (updateRequestWithOutput env r appended tokens).1.resumable = r.resumable := by
  induction tokens generalizing r appended with
  | nil => rfl
  | cons token tokens ih =>
    rw [updateRequestWithOutput]
    dsimp only
    split
    · rfl
    · exact ih { r with numTokens := r.numTokens + 1 } (appended ++ [token])

/-- A delivery makes no session of a request. -/
theorem delivery_resumable (cfg : SchedulerConfig) (env : OutputEnv) (id : ReqId) (stale : Bool)
    (specs generated : List ℤ) {r : Request} (h : r.resumable = false) :
    (delivery cfg env id stale specs generated r).request.resumable = false := by
  rw [delivery]
  dsimp only
  have hrolled : (if specs ≠ [] ∧ (generated ≠ [] ∨ cfg.numSampledTokensPerStep = 0) ∧ stale = false then
      rollBackRejected cfg r specs.length generated.length else r).resumable = false := by
    split
    · exact h
    · exact h
  generalize (if specs ≠ [] ∧ (generated ≠ [] ∨ cfg.numSampledTokensPerStep = 0) ∧ stale = false then
    rollBackRejected cfg r specs.length generated.length else r) = rolled at hrolled ⊢
  have hout : (if generated ≠ [] then updateRequestWithOutput env rolled [] generated
      else if env.isPooling id = true ∧ env.poolerOutput id = true then
        ({ rolled with status := .finished }, [], true) else (rolled, [], false)).1.resumable =
        false := by
    split
    · exact (updateRequestWithOutput_resumable env rolled [] generated).trans hrolled
    split
    · exact hrolled
    · exact hrolled
  generalize (if generated ≠ [] then updateRequestWithOutput env rolled [] generated
    else if env.isPooling id = true ∧ env.poolerOutput id = true then
      ({ rolled with status := .finished }, [], true) else (rolled, [], false)) = out at hout ⊢
  split
  · rfl
  · exact hout

/-- Requests that are no session have no next turn. -/
theorem Delivers.sessionOk {output : RunnerOutput} {r : Request} {id : ReqId} {d : Delivery}
    (h : Delivers cfg env output r id d) (hr : r.resumable = false) (status : RequestStatus) :
    SessionOk cfg status d := by
  obtain ⟨n, computed, stale, specs, generated, -, -, rfl⟩ := h
  intro _ hnext
  have hnone := delivery_resumable cfg env id stale specs generated
    (r := drainInFlight { r with numComputedTokens := computed } n) hr
  rw [handleStopped, if_pos hnone] at hnext
  cases hnext

/-- A request whose output is delivered. -/
structure TurnOk (cfg : SchedulerConfig) (status : RequestStatus) (d : Delivery) : Prop where
  unfinished : status ≠ .finished
  idle : status ≠ .waitingForStreamingReq
  session : SessionOk cfg status d

/-- What a delivery does to the roster. -/
theorem deliverOutput_enrolled (hstops : StopsWhenFull cfg env)
    (hsampled : 0 ≤ cfg.numSampledTokensPerStep) {st : OutputState} {id : ReqId}
    (h : Enrolled cfg (removeStopped st)) (hactive : id ∈ st.sched.active)
    (hfresh : id ∉ st.stoppedPreemptedReqs) (stale : Bool) (specs generated : List ℤ)
    (hturn : TurnOk cfg (st.sched.requests id).status
      (delivery cfg env id stale specs generated (st.sched.requests id))) :
    let st' := deliverOutput cfg env id stale specs generated st
    Enrolled cfg (removeStopped st') ∧
      SameFlight (st.sched.requests id) (st'.sched.requests id) := by
  have hlive : Live (removeStopped st) id := ⟨hactive, hturn.unfinished⟩
  have hname : (st.sched.requests id).requestId = id := h.name id hactive
  have hd : Delivered cfg (st.sched.requests id)
      (delivery cfg env id stale specs generated (st.sched.requests id)) :=
    delivery_delivered hstops hsampled (h.room id hlive) (h.wellFormed.ok id) id stale specs generated
  have hcases := deliverOutput_cases cfg env id stale specs generated st
  dsimp only at hcases ⊢
  generalize delivery cfg env id stale specs generated (st.sched.requests id) = d at hd hcases hturn
  rcases hcases with ⟨hgo, heq⟩ | ⟨hstop, -, queue, heq⟩ | ⟨hstop, hnext, heq⟩
  · obtain ⟨hstatus, htokens⟩ := hd.going hgo
    rw [heq]
    refine ⟨?_, by rw [setRequest_self]; exact hd.flight⟩
    exact h.set (sameStage_of_status hd.flight.name hstatus) hd.ok fun _ => ⟨hd.placeholders, htokens⟩
  · rw [heq]
    refine ⟨?_, ?_⟩
    · rw [hd.before]
      exact noteStopped_finished h hturn.idle ⟨hd.ok.placeholders, hd.ok.fits, hd.ok.pending⟩
        (hd.stopped hstop) hd.flight.name
    · rw [noteStopped_sched, freeRequest_requests, setRequest_self]
      exact ⟨hd.flight.name, hd.flight.inFlight, hd.flight.stale, hd.flight.preemptions⟩
  · obtain ⟨hrun, htokens⟩ := hturn.session hstop hnext
    have hflight := hd.flight.trans (handleStopped_flight d.request)
    rw [heq]
    refine ⟨?_, ?_⟩
    · rw [hd.before]
      exact noteStopped_session h hactive hrun hfresh (handleStopped_status hnext)
        ⟨(handleStopped_placeholders _).trans hd.placeholders, htokens⟩ (hflight.name.trans hname)
    · rw [noteStopped_sched, requeued_requests, setRequest_self]
      exact hflight

theorem room_drain {r : Request} (h : Room cfg r) (n : ℤ) : Room cfg (drainInFlight r n) :=
  ⟨h.placeholders, h.tokens⟩

theorem ok_drain {r : Request} (h : RequestOk cfg r) (n : ℤ) : RequestOk cfg (drainInFlight r n) :=
  ⟨h.placeholders, h.fits, h.pending⟩

/-- The tokens of a known request are drained, whatever becomes of its output. -/
def drainTurn (st : OutputState) (id : ReqId) (n : ℤ) : OutputState :=
  if id ∈ st.sched.active then
    { st with sched := st.sched.setRequest id (drainInFlight (st.sched.requests id) n) }
  else st

theorem drainTurn_visits (st : OutputState) (id : ReqId) (n : ℤ) : Visits id st (drainTurn st id n) := by
  rw [drainTurn]
  split
  · exact visits_set st id _
  · exact visits_refl id st

/-- The stale share of a request covers what is drained. -/
def Covered (s : Scheduler) (id : ReqId) (n : ℤ) : Prop :=
  id ∈ s.active → 0 < (s.requests id).numStaleOutputTokens →
    n ≤ (s.requests id).numStaleOutputTokens

/-- A turn whose assertions hold drains the request, and delivers its output if it is there and
the request is known, unfinished and its output neither failed nor dropped. -/
theorem processOutput_cases (cfg : SchedulerConfig) (env : OutputEnv) (failed : List ReqId)
    (specs : ReqDict (List ℤ)) (output : RunnerOutput) {st : OutputState} {id : ReqId} {n : ℤ}
    (hpos : 0 < n) (hcovered : Covered st.sched id n) :
    let turn := processOutput cfg env failed specs output st ⟨id, n⟩
    turn = .ok (drainTurn st id n) ∨ turn = .error "list index out of range" ∨
      (id ∈ st.sched.active ∧ (st.sched.requests id).status ≠ .finished ∧
        id ∈ output.reqIdToIndex ∧ ∃ stale generated, generated ∈ [] :: output.sampledTokenIds ∧
          turn = .ok (deliverOutput cfg env id stale ((specs.lookup id).getD []) generated
            (drainTurn st id n))) := by
  dsimp only
  rw [processOutput]
  dsimp only
  rw [if_neg (not_le.mpr hpos), if_neg]
  swap
  · rintro ⟨⟨hknown, hstale⟩, hlt⟩
    exact absurd (hcovered hknown hstale) (not_le.mpr hlt)
  split
  · exact .inl rfl
  split
  · exact .inl rfl
  rename_i hlive
  rw [not_or, not_not] at hlive
  split
  · exact .inl rfl
  cases hindex : output.reqIdToIndex.lookup id with
  | none => exact .inl rfl
  | some reqIndex =>
    have hpresent : id ∈ output.reqIdToIndex := by
      rw [← AList.lookup_isSome, hindex]
      rfl
    dsimp only
    split
    · exact .inr (.inr ⟨hlive.1, hlive.2, hpresent, _, _, List.mem_cons_self, rfl⟩)
    split
    · exact .inr (.inl rfl)
    · rename_i generated hsampled
      have hmem := List.mem_cons_of_mem [] (List.mem_of_getElem? hsampled)
      exact .inr (.inr ⟨hlive.1, hlive.2, hpresent, _, generated, hmem, rfl⟩)

/-- A turn that succeeds has booked tokens to drain, and a stale share that covers them. -/
theorem processOutput_asserted {failed : List ReqId} {specs : ReqDict (List ℤ)}
    {output : RunnerOutput} {st st' : OutputState} {id : ReqId} {n : ℤ}
    (h : processOutput cfg env failed specs output st ⟨id, n⟩ = .ok st') :
    0 < n ∧ Covered st.sched id n := by
  rw [processOutput] at h
  dsimp only at h
  split at h
  · cases h
  rename_i hpos
  split at h
  · cases h
  rename_i hcovered
  exact ⟨not_le.mp hpos, fun hknown hstale => not_lt.mp fun hlt => hcovered ⟨⟨hknown, hstale⟩, hlt⟩⟩

theorem processOutput_visits {failed : List ReqId} {specs : ReqDict (List ℤ)}
    {output : RunnerOutput} {st st' : OutputState} {id : ReqId} {n : ℤ}
    (h : processOutput cfg env failed specs output st ⟨id, n⟩ = .ok st') : Visits id st st' := by
  obtain ⟨hpos, hcovered⟩ := processOutput_asserted h
  rcases processOutput_cases cfg env failed specs output hpos hcovered with hturn | hturn | ⟨-, -, -, stale, generated, -, hturn⟩
  · rw [hturn] at h
    cases h
    exact drainTurn_visits st id n
  · rw [hturn] at h
    cases h
  · rw [hturn] at h
    cases h
    exact (drainTurn_visits st id n).trans (deliverOutput_visits cfg env id stale _ generated _)

/-- What a turn does to the roster and to the tokens in flight of its request. -/
structure Serves (cfg : SchedulerConfig) (id : ReqId) (n : ℤ) (st st' : OutputState) : Prop where
  enrolled : Enrolled cfg (removeStopped st')
  drained : id ∈ st.sched.active →
    SameFlight (drainInFlight (st.sched.requests id) n) (st'.sched.requests id)

theorem drainTurn_serves {st : OutputState} (h : Enrolled cfg (removeStopped st)) (id : ReqId) (n : ℤ) :
    Serves cfg id n st (drainTurn st id n) := by
  rw [drainTurn]
  split
  · refine ⟨?_, fun _ => ?_⟩
    · exact h.set (sameStage_of_status rfl rfl) (ok_drain (h.wellFormed.ok id) n) fun hlive =>
        room_drain (h.room id hlive) n
    · dsimp only
      rw [setRequest_self]
      exact .refl _
  · rename_i hunknown
    exact ⟨h, fun hknown => absurd hknown hunknown⟩

theorem processOutput_serves (hstops : StopsWhenFull cfg env)
    (hsampled : 0 ≤ cfg.numSampledTokensPerStep) {failed : List ReqId} {specs : ReqDict (List ℤ)}
    {output : RunnerOutput} {st st' : OutputState} {id : ReqId} {n : ℤ}
    (h : Enrolled cfg (removeStopped st)) (hfresh : id ∉ st.stoppedPreemptedReqs)
    (hidle : Streams st.sched id → id ∉ output.reqIdToIndex)
    (hsession : id ∈ st.sched.active → id ∈ output.reqIdToIndex →
      ∀ d, Delivers cfg env output (st.sched.requests id) id d →
        SessionOk cfg (st.sched.requests id).status d)
    (hturn : processOutput cfg env failed specs output st ⟨id, n⟩ = .ok st') :
    Serves cfg id n st st' := by
  obtain ⟨hpos, hcovered⟩ := processOutput_asserted hturn
  have hdrained := drainTurn_serves h id n
  rcases processOutput_cases cfg env failed specs output hpos hcovered with heq | heq |
    ⟨hknown, hunfinished, hpresent, stale, generated, hgenerated, heq⟩
  · rw [heq] at hturn
    cases hturn
    exact hdrained
  · rw [heq] at hturn
    cases hturn
  · rw [heq] at hturn
    cases hturn
    have hmid : drainTurn st id n =
        { st with sched := st.sched.setRequest id (drainInFlight (st.sched.requests id) n) } :=
      if_pos hknown
    have hstatus : ((drainTurn st id n).sched.requests id).status = (st.sched.requests id).status := by
      rw [hmid]
      dsimp only
      rw [setRequest_self]
      rfl
    have hdelivers : Delivers cfg env output (st.sched.requests id) id (delivery cfg env id stale
        ((specs.lookup id).getD []) generated ((drainTurn st id n).sched.requests id)) := by
      refine ⟨n, (st.sched.requests id).numComputedTokens, stale, (specs.lookup id).getD [], generated,
        le_refl _, hgenerated, ?_⟩
      rw [hmid]
      dsimp only
      rw [setRequest_self]
    have hok : TurnOk cfg ((drainTurn st id n).sched.requests id).status (delivery cfg env id stale
        ((specs.lookup id).getD []) generated ((drainTurn st id n).sched.requests id)) := by
      rw [hstatus]
      exact ⟨hunfinished, fun hs => hidle ⟨hknown, hs⟩ hpresent, hsession hknown hpresent _ hdelivers⟩
    obtain ⟨henrolled, hflight⟩ := deliverOutput_enrolled hstops hsampled hdrained.enrolled
      (by rw [hmid]; exact hknown) (by rw [hmid]; exact hfresh) stale _ generated hok
    exact ⟨henrolled, fun hactive => (hdrained.drained hactive).trans hflight⟩

end

end SparkKit.Sched.OutputTurn
