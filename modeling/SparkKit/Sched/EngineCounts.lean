import SparkKit.Sched.EngineRun

/-!
# What the engine asks of the scheduler

The engine goes on while there are unfinished requests, or finished ones it has not been told
of. Both are read off lengths of lists, so they are right because every unfinished request is
in exactly one list.
-/
namespace SparkKit.Sched.EngineCounts

open SparkKit.Sched.Requests SparkKit.Sched.StepState SparkKit.Sched.Schedule
open SparkKit.Sched.EngineCore SparkKit.Sched.Roster SparkKit.Sched.EngineRun

/-- `get_num_unfinished_requests` -/
def getNumUnfinishedRequests (s : Scheduler) : ℤ :=
  match s.pauseState with
  | .pausedAll => 0
  | .pausedNew => s.running.length
  | .unpaused =>
      s.waiting.length + s.skippedWaiting.length - s.numWaitingForStreamingInput + s.running.length

/-- `has_finished_requests`; `finishedReqIds` are those not reported yet. -/
def hasFinishedRequests (cfg : SchedulerConfig) (finishedReqIds : List ReqId) (s : Scheduler) : Bool :=
  if finishedReqIds ≠ [] then true
  else if cfg.hasConnector = false then false
  else s.active.length > s.waiting.length + s.skippedWaiting.length + s.running.length

section
variable {cfg : SchedulerConfig} {s : Scheduler}

/-- The lists together hold the unfinished requests, once each. -/
theorem everyone_perm (h : Enrolled cfg s) :
    (everyone s).Perm (s.active.filter fun id => (s.requests id).status ≠ .finished) := by
  rw [List.perm_ext_iff_of_nodup h.nodup (h.active.filter _)]
  intro id
  rw [h.listed id, List.mem_filter, decide_eq_true_iff, Live]

theorem everyone_length (h : Enrolled cfg s) :
    s.running.length + (s.waiting.length + s.skippedWaiting.length) =
      s.active.countP fun id => (s.requests id).status ≠ .finished := by
  rw [← List.length_append, ← List.length_append, List.countP_eq_length_filter]
  exact (everyone_perm h).length_eq

theorem running_length (h : Enrolled cfg s) :
    s.running.length = s.active.countP fun id => (s.requests id).status = .running := by
  rw [List.countP_eq_length_filter]
  apply List.Perm.length_eq
  rw [List.perm_ext_iff_of_nodup h.wellFormed.nodup (h.active.filter _)]
  intro id
  rw [h.running_iff id, List.mem_filter, decide_eq_true_iff]

/-- A request that can be scheduled or waits for something else than its session's next input. -/
def HasWork (r : Request) : Prop := r.status ≠ .finished ∧ r.status ≠ .waitingForStreamingReq

instance (r : Request) : Decidable (HasWork r) := inferInstanceAs (Decidable (_ ∧ _))

/-- Sessions without input are unfinished, and the other unfinished requests have work. -/
theorem countP_streams_add (s : Scheduler) :
    (s.active.countP fun id => (s.requests id).status ≠ .finished) =
      (s.active.countP fun id => Streams s id) + s.active.countP fun id => HasWork (s.requests id) := by
  rw [List.countP_eq_countP_filter_add _ _ fun id => Streams s id, List.countP_filter,
    List.countP_filter]
  congr 1
  · refine List.countP_congr fun id _ => ?_
    rw [Bool.and_eq_true, decide_eq_true_iff, decide_eq_true_iff]
    refine ⟨fun hboth => hboth.2, fun hs => ⟨?_, hs⟩⟩
    rw [hs.2]
    exact nofun
  · refine List.countP_congr fun id hid => ?_
    rw [Bool.and_eq_true, decide_eq_true_iff, decide_eq_true_iff, Bool.not_eq_true',
      decide_eq_false_iff_not]
    exact ⟨fun ⟨hf, hs⟩ => ⟨hf, fun hw => hs ⟨hid, hw⟩⟩, fun ⟨hf, hw⟩ => ⟨hf, fun hs => hw hs.2⟩⟩

/-- The lists are shorter than the known requests exactly if one of these is finished. -/
theorem finished_known_iff (h : Enrolled cfg s) :
    s.waiting.length + s.skippedWaiting.length + s.running.length < s.active.length ↔
      ∃ id ∈ s.active, (s.requests id).status = .finished := by
  have hlength := everyone_length h
  have htotal : s.active.length = (s.active.countP fun id => (s.requests id).status = .finished) + _ :=
    List.length_eq_countP_add_countP _
  have hnot : (s.active.countP fun id => ¬decide ((s.requests id).status = .finished) = true) =
      s.active.countP fun id => (s.requests id).status ≠ .finished := by
    refine List.countP_congr fun id _ => ?_
    simp
  rw [hnot] at htotal
  have hpos : 0 < s.active.countP (fun id => (s.requests id).status = .finished) ↔
      ∃ id ∈ s.active, (s.requests id).status = .finished := by
    rw [List.countP_pos_iff]
    simp only [decide_eq_true_iff]
  rw [← hpos]
  omega

/-- How many requests the engine has work for. -/
def numWithWork (s : Scheduler) : ℕ :=
  match s.pauseState with
  | .pausedAll => 0
  | .pausedNew => s.active.countP fun id => (s.requests id).status = .running
  | .unpaused => s.active.countP fun id => HasWork (s.requests id)

theorem getNumUnfinishedRequests_eq (h : Enrolled cfg s) :
    getNumUnfinishedRequests s = numWithWork s := by
  have hlength := everyone_length h
  have hstreams := h.streams
  have hsplit := countP_streams_add s
  have hrunning := running_length h
  rw [getNumUnfinishedRequests, numWithWork]
  cases s.pauseState with
  | pausedAll => rfl
  | pausedNew =>
    dsimp only
    rw [hrunning]
  | unpaused =>
    dsimp only
    omega

theorem hasFinishedRequests_iff (h : Enrolled cfg s) (finishedReqIds : List ReqId) :
    hasFinishedRequests cfg finishedReqIds s = true ↔ finishedReqIds ≠ [] ∨
      cfg.hasConnector = true ∧ ∃ id ∈ s.active, (s.requests id).status = .finished := by
  have hknown := finished_known_iff h
  rw [hasFinishedRequests]
  split
  · rename_i hreported
    exact ⟨fun _ => .inl hreported, fun _ => rfl⟩
  rename_i hnone
  split
  · rename_i hconnector
    rw [hconnector]
    exact ⟨nofun, fun hor => hor.elim (fun hne => absurd hne hnone) fun hboth => absurd hboth.1 nofun⟩
  · rename_i hconnector
    rw [decide_eq_true_iff, gt_iff_lt, hknown]
    exact ⟨fun hf => .inr ⟨Bool.eq_true_of_not_eq_false hconnector, hf⟩,
      fun hor => hor.elim (fun hne => absurd hne hnone) And.right⟩

end

section
variable {cfg : SchedulerConfig}

end

end SparkKit.Sched.EngineCounts
