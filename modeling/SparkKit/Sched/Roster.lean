import SparkKit.Sched.EngineCore
import SparkKit.Sched.Shuffle

/-!
# The roster

The running list and the two queues hold exactly the requests that are not finished, each
once, and the status says which. Most calls change one request; what such a change has to
respect is stated once.
-/
namespace SparkKit.Sched.Roster

open SparkKit.Lib.Outcome SparkKit.Sched.Requests SparkKit.Sched.StepState
open SparkKit.Sched.Schedule SparkKit.Sched.StepInvariant SparkKit.Sched.Output SparkKit.Sched.EngineCore
open SparkKit.Sched.Shuffle

/-- Everyone running or queued. -/
def everyone (s : Scheduler) : List ReqId := s.running ++ (s.waiting ++ s.skippedWaiting)

/-- A request the scheduler knows and that is not finished. -/
def Live (s : Scheduler) (id : ReqId) : Prop := id ∈ s.active ∧ (s.requests id).status ≠ .finished

/-- The request waits for its session's next input. -/
def Streams (s : Scheduler) (id : ReqId) : Prop :=
  id ∈ s.active ∧ (s.requests id).status = .waitingForStreamingReq

instance (s : Scheduler) (id : ReqId) : Decidable (Live s id) := inferInstanceAs (Decidable (_ ∧ _))

instance (s : Scheduler) (id : ReqId) : Decidable (Streams s id) :=
  inferInstanceAs (Decidable (_ ∧ _))

/-- A request can take one more token. -/
structure Room (cfg : SchedulerConfig) (r : Request) : Prop where
  placeholders : r.numOutputPlaceholders = 0
  tokens : r.numTokens < cfg.maxModelLen

/-- The scheduler between two calls. -/
structure Enrolled (cfg : SchedulerConfig) (s : Scheduler) : Prop where
  wellFormed : WellFormed cfg s
  active : s.active.Nodup
  listed : ∀ id, id ∈ everyone s ↔ Live s id
  name : ∀ id ∈ s.active, (s.requests id).requestId = id
  room : ∀ id, Live s id → Room cfg (s.requests id)
  streams : s.numWaitingForStreamingInput = s.active.countP fun id => Streams s id

section
variable {cfg : SchedulerConfig} {s s' : Scheduler} {id : ReqId}

theorem Enrolled.running_iff (h : Enrolled cfg s) (id : ReqId) :
    id ∈ s.running ↔ id ∈ s.active ∧ (s.requests id).status = .running := by
  constructor
  · intro hid
    have hlive := (h.listed id).mp (List.mem_append_left _ hid)
    exact ⟨hlive.1, h.wellFormed.running id hid⟩
  · rintro ⟨hactive, hrun⟩
    have hlive : Live s id := ⟨hactive, by rw [hrun]; exact nofun⟩
    rcases List.mem_append.mp ((h.listed id).mpr hlive) with hid | hid
    · exact hid
    · exact absurd hrun (h.wellFormed.queued id hid)

theorem Enrolled.nodup (h : Enrolled cfg s) : (everyone s).Nodup := by
  rw [everyone, List.nodup_append]
  refine ⟨h.wellFormed.nodup, h.wellFormed.queueNodup, fun x hx y hy heq => ?_⟩
  subst heq
  exact h.wellFormed.queued x hy (h.wellFormed.running x hx)

/-- One if the request waits for its session's next input. -/
def streamShare (s : Scheduler) (id : ReqId) : ℕ := if Streams s id then 1 else 0

theorem countP_streams (s : Scheduler) (id : ReqId) :
    s.active.countP (fun x => Streams s x) =
      (s.active.erase id).countP (fun x => Streams s x) + streamShare s id := by
  by_cases hid : id ∈ s.active
  · rw [(List.perm_cons_erase hid).countP_eq, List.countP_cons, streamShare]
    simp
  · have hnot : ¬Streams s id := fun hstreams => hid hstreams.1
    rw [List.erase_of_not_mem hid, streamShare, if_neg hnot, Nat.add_zero]

/-- The count when one request changes. -/
theorem countP_streams_change (h : s.active.Nodup) (h' : s'.active.Nodup)
    (hactive : ∀ x, x ≠ id → (x ∈ s'.active ↔ x ∈ s.active))
    (hrequests : ∀ x, x ≠ id → s'.requests x = s.requests x) :
    s'.active.countP (fun x => Streams s' x) + streamShare s id =
      s.active.countP (fun x => Streams s x) + streamShare s' id := by
  have hperm : (s'.active.erase id).Perm (s.active.erase id) := by
    rw [List.perm_ext_iff_of_nodup (h'.erase id) (h.erase id)]
    intro x
    rw [h'.mem_erase_iff, h.mem_erase_iff]
    exact and_congr_right fun hx => hactive x hx
  have hrest : (s'.active.erase id).countP (fun x => Streams s' x) =
      (s.active.erase id).countP (fun x => Streams s x) := by
    rw [hperm.countP_eq]
    refine List.countP_congr fun x hx => ?_
    have hne : x ≠ id := ((h.mem_erase_iff).mp hx).1
    rw [decide_eq_true_iff, decide_eq_true_iff, Streams, Streams, hactive x hne, hrequests x hne]
  rw [countP_streams s' id, countP_streams s id, hrest]
  omega

/-- A change of the request `id` that a roster survives. -/
structure Replaces (cfg : SchedulerConfig) (id : ReqId) (s s' : Scheduler) : Prop where
  requests : ∀ x, x ≠ id → s'.requests x = s.requests x
  running : ∀ x, x ≠ id → (x ∈ s'.running ↔ x ∈ s.running)
  queued : ∀ x, x ≠ id → (x ∈ s'.waiting ++ s'.skippedWaiting ↔ x ∈ s.waiting ++ s.skippedWaiting)
  active : ∀ x, x ≠ id → (x ∈ s'.active ↔ x ∈ s.active)
  runningNodup : s'.running.Nodup
  queueNodup : (s'.waiting ++ s'.skippedWaiting).Nodup
  activeNodup : s'.active.Nodup
  ok : RequestOk cfg (s'.requests id)
  runs : id ∈ s'.running → (s'.requests id).status = .running
  waits : id ∈ s'.waiting ++ s'.skippedWaiting → (s'.requests id).status ≠ .running
  listed : id ∈ everyone s' ↔ Live s' id
  name : id ∈ s'.active → (s'.requests id).requestId = id
  room : Live s' id → Room cfg (s'.requests id)
  streams : s'.numWaitingForStreamingInput + streamShare s id =
    s.numWaitingForStreamingInput + streamShare s' id

theorem Enrolled.replace (h : Enrolled cfg s) (id : ReqId) (hr : Replaces cfg id s s') : Enrolled cfg s' := by
  have hcoherent : Coherent cfg s'.requests s'.running (s'.waiting ++ s'.skippedWaiting) := by
    refine ⟨fun x => ?_, hr.runningNodup, fun x hx => ?_, fun x hx => ?_, hr.queueNodup⟩
    · by_cases hid : x = id
      · exact hid ▸ hr.ok
      · rw [hr.requests x hid]
        exact h.wellFormed.ok x
    · by_cases hid : x = id
      · subst hid
        exact hr.runs hx
      · rw [hr.requests x hid]
        exact h.wellFormed.running x ((hr.running x hid).mp hx)
    · by_cases hid : x = id
      · subst hid
        exact hr.waits hx
      · rw [hr.requests x hid]
        exact h.wellFormed.queued x ((hr.queued x hid).mp hx)
  have hlive : ∀ x, x ≠ id → (Live s' x ↔ Live s x) := fun x hx => by
    rw [Live, Live, hr.active x hx, hr.requests x hx]
  refine ⟨hcoherent, hr.activeNodup, fun x => ?_, fun x hx => ?_, fun x hx => ?_, ?_⟩
  · by_cases hid : x = id
    · exact hid ▸ hr.listed
    · rw [hlive x hid, ← h.listed x, everyone, everyone, List.mem_append,
        List.mem_append (s := s.running)]
      exact or_congr (hr.running x hid) (hr.queued x hid)
  · by_cases hid : x = id
    · subst hid
      exact hr.name hx
    · rw [hr.requests x hid]
      exact h.name x ((hr.active x hid).mp hx)
  · by_cases hid : x = id
    · subst hid
      exact hr.room hx
    · rw [hr.requests x hid]
      exact h.room x ((hlive x hid).mp hx)
  · have hcount := countP_streams_change h.active hr.activeNodup hr.active hr.requests
    have hbefore := h.streams
    have hchange := hr.streams
    omega

theorem streamShare_le (h : Enrolled cfg s) (id : ReqId) :
    streamShare s id ≤ s.numWaitingForStreamingInput := by
  rw [h.streams, countP_streams s id]
  exact Nat.le_add_left _ _

theorem streamShare_of_status (hstatus : (s.requests id).status ≠ .waitingForStreamingReq) :
    streamShare s id = 0 := if_neg fun h => hstatus h.2

/-! ## Changes of one request -/

/-- Another state of a request, in the same place of the roster. -/
structure SameStage (r r' : Request) : Prop where
  name : r'.requestId = r.requestId
  running : r'.status = .running ↔ r.status = .running
  finished : r'.status = .finished ↔ r.status = .finished
  streaming : r'.status = .waitingForStreamingReq ↔ r.status = .waitingForStreamingReq

theorem sameStage_of_status {r r' : Request} (hname : r'.requestId = r.requestId)
    (hstatus : r'.status = r.status) : SameStage r r' := by
  refine ⟨hname, ?_, ?_, ?_⟩
  · rw [hstatus]
  · rw [hstatus]
  · rw [hstatus]

/-- Requests change without leaving their places. -/
theorem Enrolled.restage (h : Enrolled cfg s) (hrunning : s'.running = s.running)
    (hwaiting : s'.waiting = s.waiting) (hskipped : s'.skippedWaiting = s.skippedWaiting)
    (hactive : s'.active = s.active)
    (hcount : s'.numWaitingForStreamingInput = s.numWaitingForStreamingInput)
    (hstage : ∀ id, SameStage (s.requests id) (s'.requests id))
    (hok : ∀ id, RequestOk cfg (s'.requests id))
    (hroom : ∀ id, Live s' id → Room cfg (s'.requests id)) : Enrolled cfg s' := by
  have hlive : ∀ id, Live s' id ↔ Live s id := fun id => by
    rw [Live, Live, hactive, ne_eq, ne_eq, (hstage id).finished]
  refine ⟨⟨hok, hrunning ▸ h.wellFormed.nodup, fun id hid => ?_, fun id hid => ?_, ?_⟩,
    hactive ▸ h.active, fun id => ?_, fun id hid => ?_, hroom, ?_⟩
  · exact (hstage id).running.mpr (h.wellFormed.running id (hrunning ▸ hid))
  · rw [hwaiting, hskipped] at hid
    exact fun hrun => h.wellFormed.queued id hid ((hstage id).running.mp hrun)
  · rw [hwaiting, hskipped]
    exact h.wellFormed.queueNodup
  · rw [hlive id, ← h.listed id, everyone, everyone, hrunning, hwaiting, hskipped]
  · rw [(hstage id).name]
    exact h.name id (hactive ▸ hid)
  · rw [hcount, h.streams, hactive]
    refine List.countP_congr fun id _ => ?_
    rw [decide_eq_true_iff, decide_eq_true_iff, Streams, Streams, hactive, (hstage id).streaming]

theorem SameStage.refl (r : Request) : SameStage r r := sameStage_of_status rfl rfl

/-- One request changes without leaving its place. -/
theorem Enrolled.set (h : Enrolled cfg s) {r : Request} (hstage : SameStage (s.requests id) r)
    (hok : RequestOk cfg r) (hroom : Live s id → Room cfg r) :
    Enrolled cfg (s.setRequest id r) := by
  refine h.restage rfl rfl rfl rfl rfl (fun x => ?_) (fun x => ?_) fun x hx => ?_
  · by_cases hid : x = id
    · subst hid
      rw [setRequest_self]
      exact hstage
    · rw [setRequest_of_ne _ _ hid]
      exact .refl _
  · by_cases hid : x = id
    · subst hid
      rw [setRequest_self]
      exact hok
    · rw [setRequest_of_ne _ _ hid]
      exact h.wellFormed.ok x
  · by_cases hid : x = id
    · subst hid
      obtain ⟨hknown, hunfinished⟩ := hx
      rw [setRequest_self] at hunfinished ⊢
      exact hroom ⟨hknown, fun hf => hunfinished (hstage.finished.mpr hf)⟩
    · obtain ⟨hknown, hunfinished⟩ := hx
      rw [setRequest_of_ne _ _ hid] at hunfinished ⊢
      exact h.room x ⟨hknown, hunfinished⟩

/-- The request is finished and leaves all lists, and the known requests now or later. -/
theorem Enrolled.removes (h : Enrolled cfg s) (id : ReqId)
    (hrequests : ∀ x, x ≠ id → s'.requests x = s.requests x)
    (hfinished : (s'.requests id).status = .finished) (hok : RequestOk cfg (s'.requests id))
    (hname : (s'.requests id).requestId = (s.requests id).requestId)
    (hrunning : s'.running = s.running.filter (· ≠ id))
    (hwaiting : s'.waiting = s.waiting.filter (· ≠ id))
    (hskipped : s'.skippedWaiting = s.skippedWaiting.filter (· ≠ id))
    (hactive : s'.active = s.active ∨ s'.active = s.active.erase id)
    (hstreams : s'.numWaitingForStreamingInput = s.numWaitingForStreamingInput - streamShare s id) :
    Enrolled cfg s' := by
  have hqueue : s'.waiting ++ s'.skippedWaiting =
      (s.waiting ++ s.skippedWaiting).filter (· ≠ id) := by
    rw [hwaiting, hskipped, List.filter_append]
  have hmem : ∀ {l : List ReqId} {x : ReqId}, x ∈ l.filter (· ≠ id) ↔ x ∈ l ∧ x ≠ id := by
    intro l x
    rw [List.mem_filter, decide_eq_true_iff]
  have hout : id ∉ everyone s' := by
    rw [everyone, hrunning, hqueue, List.mem_append, hmem, hmem]
    exact fun hor => hor.elim (fun hid => hid.2 rfl) fun hid => hid.2 rfl
  have hdead : ¬Live s' id := fun hlive => hlive.2 hfinished
  have hsub : ∀ x ∈ s'.active, x ∈ s.active := by
    intro x hx
    rcases hactive with hsame | herased
    · exact hsame ▸ hx
    · rw [herased] at hx
      exact List.mem_of_mem_erase hx
  refine h.replace id ⟨hrequests, fun x hx => ?_, fun x hx => ?_, fun x hx => ?_, ?_, ?_, ?_,
    hok, fun hid => ?_, fun hid => ?_, ⟨fun hid => absurd hid hout, fun hid => absurd hid hdead⟩,
    fun hid => ?_, fun hid => absurd hid hdead, ?_⟩
  · rw [hrunning, hmem]
    exact ⟨fun hin => hin.1, fun hin => ⟨hin, hx⟩⟩
  · rw [hqueue, hmem]
    exact ⟨fun hin => hin.1, fun hin => ⟨hin, hx⟩⟩
  · rcases hactive with hsame | herased
    · rw [hsame]
    · rw [herased]
      exact List.mem_erase_of_ne hx
  · rw [hrunning]
    exact h.wellFormed.nodup.filter _
  · rw [hqueue]
    exact h.wellFormed.queueNodup.filter _
  · rcases hactive with hsame | herased
    · exact hsame ▸ h.active
    · exact herased ▸ h.active.erase id
  · exact absurd (List.mem_append_left _ hid) hout
  · exact absurd (List.mem_append_right _ hid) hout
  · rw [hname]
    exact h.name id (hsub id hid)
  · have hle := streamShare_le h id
    have hzero : streamShare s' id = 0 := by
      apply streamShare_of_status
      rw [hfinished]
      exact nofun
    rw [hstreams, hzero]
    omega

/-- A request enters a queue: a running one that has to wait again, or a new one. -/
theorem Enrolled.enqueues (h : Enrolled cfg s) (id : ReqId) (hout : id ∉ s.waiting ++ s.skippedWaiting)
    (hrequests : ∀ x, x ≠ id → s'.requests x = s.requests x)
    (hstatus : (s'.requests id).status ≠ .running ∧ (s'.requests id).status ≠ .finished)
    (hroom : Room cfg (s'.requests id)) (hname : (s'.requests id).requestId = id)
    (hrunning : s'.running.Sublist s.running ∧ ∀ x, x ∈ s'.running ↔ x ∈ s.running ∧ x ≠ id)
    (hqueue : (s'.waiting ++ s'.skippedWaiting).Perm (id :: (s.waiting ++ s.skippedWaiting)))
    (hactive : s'.active.Nodup ∧ ∀ x, x ∈ s'.active ↔ x = id ∨ x ∈ s.active)
    (hbefore : streamShare s id = 0)
    (hstreams : s'.numWaitingForStreamingInput =
      s.numWaitingForStreamingInput + streamShare s' id) : Enrolled cfg s' := by
  have hmem : ∀ x, x ∈ s'.waiting ++ s'.skippedWaiting ↔ x = id ∨ x ∈ s.waiting ++ s.skippedWaiting :=
    fun x => by rw [hqueue.mem_iff, List.mem_cons]
  have hin : id ∈ s'.waiting ++ s'.skippedWaiting := (hmem id).mpr (.inl rfl)
  have hgone : id ∉ s'.running := fun hid => ((hrunning.2 id).mp hid).2 rfl
  have hlive : Live s' id := ⟨(hactive.2 id).mpr (.inl rfl), hstatus.2⟩
  have hfits := hroom.tokens
  refine h.replace id ⟨hrequests, fun x hx => ?_, fun x hx => ?_, fun x hx => ?_, ?_, ?_,
    hactive.1, ?_, fun hid => absurd hid hgone, fun _ => hstatus.1,
    ⟨fun _ => hlive, fun _ => List.mem_append_right _ hin⟩, fun _ => hname, fun _ => hroom, ?_⟩
  · rw [hrunning.2]
    exact ⟨fun hx' => hx'.1, fun hx' => ⟨hx', hx⟩⟩
  · rw [hmem]
    exact ⟨fun hor => hor.resolve_left hx, .inr⟩
  · rw [hactive.2]
    exact ⟨fun hor => hor.resolve_left hx, .inr⟩
  · exact h.wellFormed.nodup.sublist hrunning.1
  · exact hqueue.nodup_iff.mpr (List.nodup_cons.mpr ⟨hout, h.wellFormed.queueNodup⟩)
  · refine ⟨le_of_eq hroom.placeholders.symm, ?_, fun hrun => absurd hrun hstatus.1⟩
    rw [hroom.placeholders]
    omega
  · rw [hbefore, hstreams]
    rfl

/-! ## Calls from outside -/

theorem requestOk_finished {r : Request} (h : RequestOk cfg r) :
    RequestOk cfg { r with status := .finished } := ⟨h.placeholders, h.fits, nofun⟩

/-- What `finish_requests` does to a request that is not finished. -/
structure Finishes (s s' : Scheduler) (id : ReqId) : Prop where
  live : Live s id
  requests : s'.requests = Function.update s.requests id { s.requests id with status := .finished }
  running : s'.running = s.running.filter (· ≠ id)
  waiting : s'.waiting = s.waiting.filter (· ≠ id)
  skippedWaiting : s'.skippedWaiting = s.skippedWaiting.filter (· ≠ id)
  active : s'.active = s.active ∨ s'.active = s.active.erase id
  streams : s'.numWaitingForStreamingInput =
    if (s.requests id).status = .waitingForStreamingReq then s.numWaitingForStreamingInput - 1
    else s.numWaitingForStreamingInput

theorem finishRequest_cases (env : OutputEnv) (s : Scheduler) (id : ReqId) :
    finishRequest env s id = s ∨ Finishes s (finishRequest env s id) id := by
  rw [finishRequest]
  dsimp only
  split
  · exact .inl rfl
  rename_i hknown
  rw [not_or, not_not] at hknown
  right
  rw [freeRequest]
  split
  · exact ⟨hknown, rfl, rfl, rfl, rfl, .inl rfl, rfl⟩
  · exact ⟨hknown, rfl, rfl, rfl, rfl, .inr rfl, rfl⟩

theorem Finishes.request {s s' : Scheduler} {id : ReqId} (h : Finishes s s' id) :
    s'.requests id = { s.requests id with status := .finished } := by
  rw [h.requests, Function.update_self]

theorem finishRequest_enrolled (h : Enrolled cfg s) (env : OutputEnv) (id : ReqId) :
    Enrolled cfg (finishRequest env s id) := by
  rcases finishRequest_cases env s id with hsame | hf
  · rw [hsame]
    exact h
  refine h.removes id (fun x hx => ?_) ?_ ?_ ?_ hf.running hf.waiting hf.skippedWaiting
    hf.active ?_
  · rw [hf.requests, Function.update_of_ne hx]
  · rw [hf.request]
  · rw [hf.request]
    exact requestOk_finished (h.wellFormed.ok id)
  · rw [hf.request]
  · rw [hf.streams, streamShare]
    by_cases hstreams : (s.requests id).status = .waitingForStreamingReq
    · rw [if_pos hstreams, if_pos ⟨hf.live.1, hstreams⟩]
    · rw [if_neg hstreams, if_neg fun hc => hstreams hc.2, Nat.sub_zero]

theorem finishRequests_enrolled (h : Enrolled cfg s) (env : OutputEnv) (ids : List ReqId) :
    Enrolled cfg (ids.foldl (finishRequest env) s) := by
  induction ids generalizing s with
  | nil => exact h
  | cons id ids ih =>
    rw [List.foldl_cons]
    exact ih (finishRequest_enrolled h env id)

/-- A request that `add_request` may bring. -/
structure NewRequest (cfg : SchedulerConfig) (r : Request) : Prop where
  status : r.status = .waiting ∨ r.status = .waitingForStructuredOutputGrammar
  room : Room cfg r
  inFlight : r.numInFlightTokens = 0
  stale : r.numStaleOutputTokens = 0

theorem withStreamingQueue_eq (r : Request) :
    ∃ queue, withStreamingQueue r = { r with streamingQueue := queue } := by
  rw [withStreamingQueue]
  split
  · exact ⟨some [], rfl⟩
  · exact ⟨r.streamingQueue, rfl⟩

/-- What the callers of `add_request` promise: a new request is well formed, and the input of a
session fits in the model. -/
structure AddOk (cfg : SchedulerConfig) (s : Scheduler) (update : Option StreamingUpdate)
    (r : Request) : Prop where
  fresh : r.requestId ∉ s.active → NewRequest cfg r
  fits : ∀ u, update = some u → r.requestId ∈ s.active →
    (updateRequestAsSession (s.requests r.requestId) u).numTokens < cfg.maxModelLen

/-- A new request is known and queued. -/
theorem addNew_enrolled (h : Enrolled cfg s) {r : Request} (hfresh : r.requestId ∉ s.active)
    (hnew : NewRequest cfg r) :
    Enrolled cfg { enqueueWaitingRequest (s.setRequest r.requestId r) r.requestId with
      active := s.active ++ [r.requestId] } := by
  have hout : r.requestId ∉ s.waiting ++ s.skippedWaiting := fun hid =>
    hfresh ((h.listed r.requestId).mp (List.mem_append_right _ hid)).1
  have hgone : r.requestId ∉ s.running := fun hid =>
    hfresh ((h.listed r.requestId).mp (List.mem_append_left _ hid)).1
  have hbefore : streamShare s r.requestId = 0 := if_neg fun hs => hfresh hs.1
  have hself := setRequest_self s r.requestId r
  have hstatus : r.status ≠ .running ∧ r.status ≠ .finished ∧ r.status ≠ .waitingForStreamingReq := by
    rcases hnew.status with hs | hs
    · rw [hs]
      exact ⟨nofun, nofun, nofun⟩
    · rw [hs]
      exact ⟨nofun, nofun, nofun⟩
  -- the queue it enters depends on whether it waits for its grammar
  have henters : ∀ waiting skipped : List ReqId,
      (waiting ++ skipped).Perm (r.requestId :: (s.waiting ++ s.skippedWaiting)) →
      Enrolled cfg { s.setRequest r.requestId r with
        waiting := waiting, skippedWaiting := skipped, active := s.active ++ [r.requestId] } := by
    intro waiting skipped hperm
    refine h.enqueues r.requestId hout (fun x hx => setRequest_of_ne s r hx) ?_ ?_ ?_
      ⟨.refl _, fun x => ?_⟩ hperm ⟨?_, fun x => ?_⟩ hbefore ?_
    · show ((s.setRequest _ r).requests _).status ≠ _ ∧ ((s.setRequest _ r).requests _).status ≠ _
      rw [hself]
      exact ⟨hstatus.1, hstatus.2.1⟩
    · show Room cfg ((s.setRequest _ r).requests _)
      rw [hself]
      exact hnew.room
    · show ((s.setRequest _ r).requests _).requestId = _
      rw [hself]
    · exact ⟨fun hx => ⟨hx, ne_of_mem_of_not_mem hx hgone⟩, fun hx => hx.1⟩
    · exact List.nodup_append.mpr ⟨h.active, List.nodup_singleton _, fun x hx y hy heq => by
        rw [List.mem_singleton.mp hy] at heq
        exact hfresh (heq ▸ hx)⟩
    · show x ∈ s.active ++ [r.requestId] ↔ _
      rw [List.mem_append, List.mem_singleton, or_comm]
    · show s.numWaitingForStreamingInput = _ + streamShare _ _
      rw [streamShare, if_neg, Nat.add_zero]
      intro hs
      have hstreams : ((s.setRequest r.requestId r).requests r.requestId).status =
        .waitingForStreamingReq := hs.2
      rw [hself] at hstreams
      exact hstatus.2.2 hstreams
  rw [enqueueWaitingRequest]
  split
  · refine henters s.waiting (s.skippedWaiting ++ [r.requestId]) ?_
    rw [← List.append_assoc]
    exact List.perm_append_singleton _ _
  · refine henters (s.waiting ++ [r.requestId]) s.skippedWaiting ?_
    rw [List.append_assoc]
    exact List.perm_middle

/-- The next input of a session takes it out of its wait; it stays in its queue. -/
theorem continueSession_enrolled (h : Enrolled cfg s) (hstreams : Streams s id)
    {u : StreamingUpdate}
    (hfits : (updateRequestAsSession (s.requests id) u).numTokens < cfg.maxModelLen) :
    Enrolled cfg { s.setRequest id (updateRequestAsSession (s.requests id) u) with
      numWaitingForStreamingInput := s.numWaitingForStreamingInput - 1 } := by
  have hlive : Live s id := ⟨hstreams.1, by rw [hstreams.2]; exact nofun⟩
  have hself := setRequest_self s id (updateRequestAsSession (s.requests id) u)
  have hroom : Room cfg (updateRequestAsSession (s.requests id) u) :=
    ⟨(h.room id hlive).placeholders, hfits⟩
  have hout : id ∉ s.running := fun hid => by
    have hrun := h.wellFormed.running id hid
    rw [hstreams.2] at hrun
    cases hrun
  have hshare : streamShare s id = 1 := if_pos hstreams
  have hle := streamShare_le h id
  refine h.replace id ⟨fun x hx => setRequest_of_ne s _ hx, fun _ _ => .rfl, fun _ _ => .rfl,
    fun _ _ => .rfl, h.wellFormed.nodup, h.wellFormed.queueNodup, h.active, ?_,
    fun hid => absurd hid hout, fun _ => ?_, ?_, fun hid => ?_, fun _ => ?_, ?_⟩
  · show RequestOk cfg ((s.setRequest id _).requests id)
    rw [hself]
    refine ⟨le_of_eq hroom.placeholders.symm, ?_, nofun⟩
    rw [hroom.placeholders]
    omega
  · show ((s.setRequest id _).requests id).status ≠ _
    rw [hself]
    exact nofun
  · have hin : id ∈ everyone s := (h.listed id).mpr hlive
    refine ⟨fun _ => ⟨hlive.1, ?_⟩, fun _ => hin⟩
    show ((s.setRequest id _).requests id).status ≠ _
    rw [hself]
    exact nofun
  · show ((s.setRequest id _).requests id).requestId = _
    rw [hself]
    exact h.name id hid
  · show Room cfg ((s.setRequest id _).requests id)
    rw [hself]
    exact hroom
  · rw [hshare, streamShare, if_neg, Nat.add_zero]
    · show s.numWaitingForStreamingInput - 1 + 1 = _
      omega
    · intro hs
      have hstatus : ((s.setRequest id (updateRequestAsSession (s.requests id) u)).requests id).status =
        .waitingForStreamingReq := hs.2
      rw [hself] at hstatus
      cases hstatus

theorem addRequest_enrolled (h : Enrolled cfg s) {env : OutputEnv}
    {update : Option StreamingUpdate} {r : Request} (hadd : AddOk cfg s update r)
    (hok : addRequest env update r s = .ok s') : Enrolled cfg s' := by
  rw [addRequest] at hok
  dsimp only at hok
  split at hok
  swap
  · rename_i hfresh
    cases hok
    obtain ⟨queue, hqueue⟩ := withStreamingQueue_eq r
    have hnew := hadd.fresh hfresh
    rw [hqueue]
    exact addNew_enrolled h (r := { r with streamingQueue := queue }) hfresh
      ⟨hnew.status, ⟨hnew.room.placeholders, hnew.room.tokens⟩, hnew.inFlight, hnew.stale⟩
  rename_i hknown
  split at hok
  · split at hok
    · cases hok
    · cases hok
      refine h.set (sameStage_of_status rfl rfl) ?_ fun hlive =>
        ⟨(h.room _ hlive).placeholders, (h.room _ hlive).tokens⟩
      have hkept := h.wellFormed.ok r.requestId
      exact ⟨hkept.placeholders, hkept.fits, hkept.pending⟩
  rename_i hstreams
  rw [not_not] at hstreams
  cases update with
  | none =>
    cases hok
    exact finishRequest_enrolled h env r.requestId
  | some u =>
    cases hok
    exact continueSession_enrolled h ⟨hknown, hstreams⟩ (hadd.fits u rfl hknown)

/-- One preemption of a reset. -/
theorem preemptDropping_ok {rest : List ReqId} (hlast : s.running = rest ++ [id])
    (hok : preemptDropping cfg s id = .ok s') :
    (s.requests id).status = .running ∧
      s'.requests = Function.update s.requests id
        { preempted cfg (s.requests id) with dropStaleOutput := true } ∧
      s'.running = rest ∧ s'.waiting = id :: s.waiting ∧ s'.skippedWaiting = s.skippedWaiting ∧
      s'.active = s.active ∧ s'.numWaitingForStreamingInput = s.numWaitingForStreamingInput := by
  obtain ⟨mid, hpreempt, hok⟩ := bind_ok hok
  obtain ⟨hstatus, rfl⟩ := preemptRequest_ok hpreempt
  cases hok
  refine ⟨hstatus, ?_, ?_, rfl, rfl, rfl, rfl⟩
  · show Function.update (Function.update s.requests id (preempted cfg (s.requests id))) id
      { Function.update s.requests id (preempted cfg (s.requests id)) id with
        dropStaleOutput := true } = _
    rw [Function.update_idem, Function.update_self]
  · show s.running.dropLast = rest
    rw [hlast, List.dropLast_concat]

theorem preemptDropping_enrolled (h : Enrolled cfg s) {rest : List ReqId}
    (hlast : s.running = rest ++ [id]) (hok : preemptDropping cfg s id = .ok s') :
    Enrolled cfg s' := by
  obtain ⟨hstatus, hrequests, hrunning, hwaiting, hskipped, hactive, hstreams⟩ :=
    preemptDropping_ok hlast hok
  have hself : s'.requests id = { preempted cfg (s.requests id) with dropStaleOutput := true } := by
    rw [hrequests, Function.update_self]
  have hmem : id ∈ s.running := by
    rw [hlast]
    exact List.mem_append_right _ (List.mem_singleton.mpr rfl)
  have hlive := (h.listed id).mp (List.mem_append_left _ hmem)
  have hsplit := h.wellFormed.nodup
  rw [hlast] at hsplit
  obtain ⟨-, -, hdisjoint⟩ := List.nodup_append.mp hsplit
  refine h.enqueues id (fun hid => h.wellFormed.queued id hid hstatus) (fun x hx => ?_) ?_ ?_
    ?_ ⟨?_, fun x => ?_⟩ ?_ ⟨hactive ▸ h.active, fun x => ?_⟩ ?_ ?_
  · rw [hrequests, Function.update_of_ne hx]
  · rw [hself]
    exact ⟨nofun, nofun⟩
  · rw [hself]
    exact ⟨rfl, (h.room id hlive).tokens⟩
  · rw [hself]
    exact h.name id hlive.1
  · rw [hrunning, hlast]
    exact List.sublist_append_left _ _
  · rw [hrunning, hlast, List.mem_append, List.mem_singleton]
    constructor
    · exact fun hx => ⟨.inl hx, hdisjoint x hx id (List.mem_singleton.mpr rfl)⟩
    · exact fun hx => hx.1.resolve_right hx.2
  · rw [hwaiting, hskipped]
    exact .refl _
  · rw [hactive]
    exact ⟨.inr, fun hx => hx.elim (fun heq => heq ▸ hlive.1) fun hx => hx⟩
  · exact streamShare_of_status (by rw [hstatus]; exact nofun)
  · rw [hstreams, streamShare_of_status (by rw [hself]; exact nofun), Nat.add_zero]

/-! ## A step -/

/-- A step schedules, and what it books is counted. -/
theorem schedule_enrolled (h : Enrolled cfg s) {env : Env} {throttle : Bool} {out : State}
    (hstep : schedule cfg env throttle s = .ok out) : Enrolled cfg (updateAfterSchedule out) := by
  have hwell := schedule_wellFormed h.wellFormed hstep
  have hmoved := schedule_moves hstep
  have hframe := updateAfterSchedule_frame out
  have hrequests := updateAfterSchedule_requests out
  generalize updateAfterSchedule out = s' at hwell hframe hrequests
  have hkept : ∀ id, (s'.requests id).requestId = (out.sched.requests id).requestId ∧
      (s'.requests id).status = (out.sched.requests id).status ∧
      (s'.requests id).numTokens = (out.sched.requests id).numTokens ∧
      (s'.requests id).numOutputPlaceholders = (out.sched.requests id).numOutputPlaceholders := by
    intro id
    rw [hrequests id]
    cases out.led.numScheduledTokens.lookup id with
    | none => exact ⟨rfl, rfl, rfl, rfl⟩
    | some n => exact ⟨rfl, rfl, rfl, rfl⟩
  have heveryone : everyone s' = everyone out.sched := by
    rw [hframe]
    rfl
  have hactive : s'.active = s.active := by
    rw [hframe]
    exact hmoved.active
  have hunfinished : ∀ id, (s'.requests id).status ≠ .finished ↔ (s.requests id).status ≠ .finished := by
    intro id
    rw [(hkept id).2.1]
    by_cases hid : id ∈ everyone s
    · have hlive := ((h.listed id).mp hid).2
      exact ⟨fun _ => hlive, fun _ hf => hlive ((hmoved.carries id).unfinished hf)⟩
    · rw [hmoved.others id hid]
  have hlive : ∀ id, Live s' id ↔ Live s id := fun id => by
    rw [Live, Live, hactive, hunfinished id]
  refine ⟨hwell, hactive ▸ h.active, fun id => ?_, fun id hid => ?_, fun id hid => ?_, ?_⟩
  · rw [heveryone, hlive id, ← h.listed id]
    exact hmoved.roster.mem_iff
  · rw [(hkept id).1, (hmoved.carries id).name]
    exact h.name id (hactive ▸ hid)
  · obtain ⟨hplaceholders, htokens⟩ := h.room id ((hlive id).mp hid)
    refine ⟨?_, ?_⟩
    · rw [(hkept id).2.2.2]
      rcases (hmoved.carries id).placeholders with hp | hp
      · rw [hp]
        exact hplaceholders
      · exact hp
    · rw [(hkept id).2.2.1, (hmoved.carries id).tokens]
      exact htokens
  · have hcount : s'.active.countP (fun id => Streams s' id) =
        s.active.countP (fun id => Streams s id) := by
      rw [hactive]
      refine List.countP_congr fun id _ => ?_
      rw [decide_eq_true_iff, decide_eq_true_iff, Streams, Streams, hactive, (hkept id).2.1,
        (hmoved.carries id).streaming]
    have hstreams : s'.numWaitingForStreamingInput = s.numWaitingForStreamingInput := by
      rw [hframe]
      exact hmoved.streams
    rw [hcount, hstreams]
    exact h.streams

end

end SparkKit.Sched.Roster
