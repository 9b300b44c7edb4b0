import SparkKit.Sched.EngineRun

/-!
# Sessions that stop while preempted

The output of a preempted request may end its session's turn. The session then enters the
waiting queue for its next turn, where its preemption has put it already, and leaves with the
requests that stopped while queued: it is known and unfinished, and no queue has it.
-/
namespace SparkKit.Sched.LostSession

open SparkKit.Lib.Outcome SparkKit.Sched.Requests SparkKit.Sched.StepState SparkKit.Sched.Schedule
open SparkKit.Sched.Output SparkKit.Sched.InvalidBlocks SparkKit.Sched.EngineCore
open SparkKit.Sched.Shuffle SparkKit.Sched.Roster SparkKit.Sched.OutputTurn
open SparkKit.Sched.OutputRoster SparkKit.Sched.EngineRun
open SparkKit.Sched.SkippedOutput (smallOutputEnv)

/-- What the output of a step is for a request with `n` tokens booked. -/
def ownDelivery (cfg : SchedulerConfig) (out : StepOutput) (specs : ReqDict (List ℤ))
    (s : Scheduler) (id : ReqId) (n : ℤ) (generated : List ℤ) : Delivery :=
  delivery cfg out.env id (0 < (s.requests id).numStaleOutputTokens) ((specs.lookup id).getD [])
    generated (drainInFlight (s.requests id) n)

/-- A session that is not running, whose turn ends with the output of the step. -/
structure EndsPreempted (cfg : SchedulerConfig) (out : StepOutput) (failed : List ReqId)
    (booked : ReqDict ℤ) (specs : ReqDict (List ℤ)) (s : Scheduler) (id : ReqId) (next : Request) :
    Prop where
  known : id ∈ s.active
  queued : (s.requests id).status ≠ .running ∧ (s.requests id).status ≠ .finished
  unlisted : id ∉ s.running
  kept : (s.requests id).dropStaleOutput = false
  loaded : id ∉ failed
  compiled : id ∉ s.grammarCompileErrorReqs
  ends : ∃ n reqIndex generated, booked.lookup id = some n ∧
    out.runner.reqIdToIndex.lookup id = some reqIndex ∧
    out.runner.sampledTokenIds[reqIndex]? = some generated ∧
    (ownDelivery cfg out specs s id n generated).stopped = true ∧
    handleStopped (ownDelivery cfg out specs s id n generated).request = (next, false)

/-- A known request that no list has and that is not running. -/
structure Lost (s : Scheduler) (id : ReqId) : Prop where
  known : id ∈ s.active
  idle : (s.requests id).status ≠ .running
  unlisted : id ∉ everyone s

section
variable {cfg : SchedulerConfig} {out : StepOutput} {failed : List ReqId} {booked : ReqDict ℤ}
  {specs : ReqDict (List ℤ)} {s : Scheduler} {id : ReqId} {next : Request}

/-- The session waits for its next turn, or for the input of it. -/
theorem EndsPreempted.waits (h : EndsPreempted cfg out failed booked specs s id next) :
    next.status = .waiting ∨ next.status = .waitingForStreamingReq := by
  obtain ⟨n, reqIndex, generated, -, -, -, -, hsession⟩ := h.ends
  have hstatus := handleStopped_status (congrArg Prod.snd hsession)
  rw [hsession] at hstatus
  exact hstatus

/-- Its own turn delivers the output. -/
theorem EndsPreempted.delivers (h : EndsPreempted cfg out failed booked specs s id next) {n : ℤ}
    (hn : booked.lookup id = some n) {st st' : OutputState}
    (hrequest : st.sched.requests id = s.requests id) (hactive : id ∈ st.sched.active)
    (hturn : processOutput cfg out.env failed specs out.runner st ⟨id, n⟩ = .ok st') :
    st' = noteStopped (drainTurn st id n) (requeued (drainTurn st id n).sched id next)
      (s.requests id).status id := by
  obtain ⟨m, reqIndex, generated, hm, hindex, hsampled, hstop, hsession⟩ := h.ends
  obtain rfl : n = m := Option.some.inj (hn.symm.trans hm)
  obtain ⟨hpos, hcovered⟩ := processOutput_asserted hturn
  have hmid : (drainTurn st id n).sched.requests id = drainInFlight (s.requests id) n := by
    rw [drainTurn, if_pos hactive]
    dsimp only
    rw [setRequest_self, hrequest]
  have hstale : decide (id ∈ st.sched.active ∧ (st.sched.requests id).numStaleOutputTokens > 0) =
      decide (0 < (s.requests id).numStaleOutputTokens) := by
    rw [decide_eq_decide, hrequest]
    exact ⟨And.right, fun hs => ⟨hactive, hs⟩⟩
  have hsome : out.runner.sampledTokenIds ≠ [] := by
    rintro hnil
    rw [hnil] at hsampled
    cases hsampled
  have hdelivers : processOutput cfg out.env failed specs out.runner st ⟨id, n⟩ =
      .ok (deliverOutput cfg out.env id (0 < (s.requests id).numStaleOutputTokens)
        ((specs.lookup id).getD []) generated (drainTurn st id n)) := by
    rw [processOutput]
    dsimp only
    rw [if_neg (not_le.mpr hpos), if_neg, if_neg h.loaded, if_neg, if_neg, hindex]
    · dsimp only
      rw [if_neg hsome, hsampled, hstale]
      rfl
    · rintro ⟨-, hdrop⟩
      rw [hrequest, h.kept] at hdrop
      cases hdrop
    · rw [hrequest]
      exact fun hor => hor.elim (fun hunknown => hunknown hactive) h.queued.2
    · exact fun hboth => absurd (hcovered hboth.1.1 hboth.1.2) (not_le.mpr hboth.2)
  rw [hdelivers] at hturn
  have hcases := deliverOutput_cases cfg out.env id (0 < (s.requests id).numStaleOutputTokens)
    ((specs.lookup id).getD []) generated (drainTurn st id n)
  rw [hmid] at hcases
  cases hturn
  rcases hcases with ⟨hgo, -⟩ | ⟨-, hfinished, -⟩ | ⟨-, -, heq⟩
  · exact absurd hstop (Bool.eq_false_iff.mp hgo)
  · have hfinished : (handleStopped (ownDelivery cfg out specs s id n generated).request).2 = true :=
      hfinished
    rw [hsession] at hfinished
    cases hfinished
  · have hnext : (handleStopped (ownDelivery cfg out specs s id n generated).request).1 = next := by
      rw [hsession]
    rw [ownDelivery] at hnext
    rw [heq, hnext, delivery_before]
    rfl

/-- The loop so far: the session is as before its turn, or has stopped and waits twice. -/
structure Ends (s : Scheduler) (id : ReqId) (next : Request)
    (done : List (Sigma fun _ : ReqId => ℤ)) (st : OutputState) : Prop where
  known : id ∈ st.sched.active
  unlisted : id ∉ st.sched.running
  errors : st.sched.grammarCompileErrorReqs = s.grammarCompileErrorReqs
  before : (∀ entry ∈ done, entry.1 ≠ id) → st.sched.requests id = s.requests id
  after : ∀ entry ∈ done, entry.1 = id →
    st.sched.requests id = next ∧ id ∈ st.stoppedPreemptedReqs

theorem Ends.concat (h : EndsPreempted cfg out failed booked specs s id next)
    {done : List (Sigma fun _ : ReqId => ℤ)} {entry : Sigma fun _ : ReqId => ℤ} {st st' : OutputState}
    (hst : Ends s id next done st) (hbooked : entry ∈ booked.entries)
    (hfresh : ∀ e ∈ done, e.1 ≠ entry.1)
    (hturn : processOutput cfg out.env failed specs out.runner st entry = .ok st') :
    Ends s id next (done ++ [entry]) st' := by
  have hvisits : Visits entry.1 st st' := processOutput_visits hturn
  have hlast : entry ∈ done ++ [entry] := List.mem_append_right _ (List.mem_singleton.mpr rfl)
  by_cases hown : id = entry.1
  · subst hown
    have hdelivered := h.delivers (AList.mem_lookup_iff.mpr hbooked) (hst.before hfresh) hst.known hturn
    have hrequest : st'.sched.requests entry.1 = next := by
      rw [hdelivered, noteStopped_sched, requeued_requests, setRequest_self]
    have hactive : entry.1 ∈ st'.sched.active := by
      rw [hdelivered, noteStopped_sched, requeued_active, drainTurn, if_pos hst.known]
      exact hst.known
    have hnoted : entry.1 ∈ st'.stoppedPreemptedReqs := by
      rw [hdelivered, noteStopped, if_neg h.queued.1]
      exact List.mem_cons_self
    exact ⟨hactive, hvisits.running ▸ hst.unlisted, hvisits.errors.trans hst.errors,
      fun hnone => absurd rfl (hnone entry hlast), fun _ _ _ => ⟨hrequest, hnoted⟩⟩
  · refine ⟨(hvisits.active id hown).mpr hst.known, hvisits.running ▸ hst.unlisted,
      hvisits.errors.trans hst.errors, fun hnone => ?_, fun e he heq => ?_⟩
    · rw [hvisits.others id hown]
      exact hst.before fun e he => hnone e (List.mem_append_left _ he)
    · rcases List.mem_append.mp he with he | he
      · obtain ⟨hnext, hnoted⟩ := hst.after e he heq
        rw [hvisits.others id hown]
        exact ⟨hnext, (hvisits.preempted id hown).mpr hnoted⟩
      · rw [List.mem_singleton.mp he] at heq
        exact absurd heq.symm hown

theorem finishRequest_of_ne (env : OutputEnv) (s : Scheduler) {x id : ReqId} (hne : id ≠ x) :
    (finishRequest env s x).requests id = s.requests id ∧
      (id ∈ (finishRequest env s x).active ↔ id ∈ s.active) ∧
      (id ∈ everyone (finishRequest env s x) ↔ id ∈ everyone s) := by
  rcases finishRequest_cases env s x with hsame | hf
  · rw [hsame]
    exact ⟨rfl, .rfl, .rfl⟩
  have hmem : ∀ l : List ReqId, id ∈ l.filter (· ≠ x) ↔ id ∈ l := fun l => by
    rw [List.mem_filter, decide_eq_true_iff, and_iff_left hne]
  refine ⟨?_, ?_, ?_⟩
  · rw [hf.requests, Function.update_of_ne hne]
  · rcases hf.active with hactive | hactive
    · rw [hactive]
    · rw [hactive]
      exact List.mem_erase_of_ne hne
  · rw [everyone, everyone, hf.running, hf.waiting, hf.skippedWaiting, ← List.filter_append,
      ← List.filter_append]
    exact hmem _

/-- Errors of other requests leave a lost one as it is. -/
theorem Lost.finishes (h : Lost s id) (env : OutputEnv) {errors : List ReqId} (herrors : id ∉ errors) :
    Lost (errors.foldl (finishRequest env) s) id ∧
      (errors.foldl (finishRequest env) s).requests id = s.requests id := by
  induction errors generalizing s with
  | nil => exact ⟨h, rfl⟩
  | cons x errors ih =>
    rw [List.mem_cons, not_or] at herrors
    obtain ⟨hrequest, hactive, hlisted⟩ := finishRequest_of_ne env s herrors.1
    have hnext : Lost (finishRequest env s x) id :=
      ⟨hactive.mpr h.known, by rw [hrequest]; exact h.idle, fun hid => h.unlisted (hlisted.mp hid)⟩
    obtain ⟨hlost, hsame⟩ := ih hnext herrors.2
    rw [List.foldl_cons]
    exact ⟨hlost, hsame.trans hrequest⟩

/-- A session whose turn ends while it is preempted is lost by `update_from_output`. -/
theorem EndsPreempted.loses (h : EndsPreempted cfg out failed booked specs s id next) {s' : Scheduler}
    (hout : updateFromOutput cfg out.env failed booked specs out.runner s = .ok s') :
    Lost s' id ∧ s'.requests id = next := by
  obtain ⟨st, hloop, hout⟩ := bind_ok hout
  cases hout
  obtain ⟨n, -, -, hn, -⟩ := h.ends
  have hend : Ends s id next booked.entries st := by
    have hstart : Ends s id next [] ⟨s, [], []⟩ := ⟨h.known, h.unlisted, rfl, fun _ => rfl, nofun⟩
    have hstep : ∀ done entry rest c c', booked.entries = done ++ entry :: rest →
        Ends s id next done c → processOutput cfg out.env failed specs out.runner c entry = .ok c' →
        Ends s id next (done ++ [entry]) c' := by
      intro done entry rest c c' hsplit hc hturn
      have hbooked : entry ∈ booked.entries := by
        rw [hsplit]
        exact List.mem_append_right _ List.mem_cons_self
      exact hc.concat h hbooked (entries_fresh hsplit) hturn
    rcases foldlM_cases (I := Ends s id next) hstart hstep with ⟨_, hok, hst⟩ | ⟨_, _, _, _, _, herror, -⟩
    · rw [hloop] at hok
      cases hok
      exact hst
    · rw [hloop] at herror
      cases herror
  obtain ⟨hnext, hnoted⟩ := hend.after ⟨id, n⟩ (AList.mem_lookup_iff.mp hn) rfl
  have hlost : Lost { removeStopped st with grammarCompileErrorReqs := [] } id := by
    refine ⟨hend.known, ?_, fun hid => ?_⟩
    · show (st.sched.requests id).status ≠ .running
      rw [hnext]
      rcases h.waits with hs | hs
      · rw [hs]
        exact nofun
      · rw [hs]
        exact nofun
    · have hgone : ∀ l : List ReqId, id ∉ l.filter (· ∉ st.stoppedPreemptedReqs) := by
        intro l hin
        exact of_decide_eq_true (List.mem_filter.mp hin).2 hnoted
      rcases List.mem_append.mp hid with hrun | hqueue
      · exact hend.unlisted (List.mem_of_mem_filter hrun)
      · rcases List.mem_append.mp hqueue with hin | hin
        · exact hgone _ hin
        · exact hgone _ hin
  have herrors : id ∉ (removeStopped st).grammarCompileErrorReqs ++
      (if out.env.recomputeKvLoadFailures = true then [] else failed) := by
    rw [List.mem_append, not_or]
    refine ⟨?_, ?_⟩
    · show id ∉ st.sched.grammarCompileErrorReqs
      rw [hend.errors]
      exact h.compiled
    · split
      · exact List.not_mem_nil
      · exact h.loaded
  obtain ⟨hfinal, hsame⟩ := hlost.finishes out.env herrors
  exact ⟨hfinal, hsame.trans hnext⟩

/-! ## Afterwards -/

/-- Not running, and in no list. -/
structure Unlisted (s : Scheduler) (id : ReqId) : Prop where
  idle : (s.requests id).status ≠ .running
  unlisted : id ∉ everyone s

theorem Unlisted.same {s' : Scheduler} (h : Unlisted s id)
    (hstatus : (s'.requests id).status = (s.requests id).status)
    (hlists : everyone s' = everyone s) : Unlisted s' id :=
  ⟨by rw [hstatus]; exact h.idle, by rw [hlists]; exact h.unlisted⟩

theorem updateRequestWithOutput_status (env : OutputEnv) (r : Request) (appended tokens : List ℤ) :
    (updateRequestWithOutput env r appended tokens).1.status = r.status ∨
      (updateRequestWithOutput env r appended tokens).1.status = .finished := by
  induction tokens generalizing r appended with
  | nil => exact .inl rfl
  | cons token tokens ih =>
    rw [updateRequestWithOutput]
    dsimp only
    split
    · exact .inr rfl
    · exact ih { r with numTokens := r.numTokens + 1 } (appended ++ [token])

/-- A delivery finishes its request or leaves its status. -/
theorem delivery_status (cfg : SchedulerConfig) (env : OutputEnv) (id : ReqId) (stale : Bool) (specs generated : List ℤ)
    (r : Request) :
    (delivery cfg env id stale specs generated r).request.status = r.status ∨
      (delivery cfg env id stale specs generated r).request.status = .finished := by
  have hbefore := delivery_before cfg env id stale specs generated r
  rw [delivery] at hbefore ⊢
  dsimp only at hbefore ⊢
  generalize (if specs ≠ [] ∧ (generated ≠ [] ∨ cfg.numSampledTokensPerStep = 0) ∧ stale = false then
    rollBackRejected cfg r specs.length generated.length else r) = rolled at hbefore ⊢
  have hout : (if generated ≠ [] then updateRequestWithOutput env rolled [] generated
      else if env.isPooling id = true ∧ env.poolerOutput id = true then
        ({ rolled with status := .finished }, [], true) else (rolled, [], false)).1.status =
        rolled.status ∨ (if generated ≠ [] then updateRequestWithOutput env rolled [] generated
      else if env.isPooling id = true ∧ env.poolerOutput id = true then
        ({ rolled with status := .finished }, [], true) else (rolled, [], false)).1.status =
        .finished := by
    split
    · exact updateRequestWithOutput_status env rolled [] generated
    split
    · exact .inr rfl
    · exact .inl rfl
  rw [hbefore] at hout
  generalize (if generated ≠ [] then updateRequestWithOutput env rolled [] generated
    else if env.isPooling id = true ∧ env.poolerOutput id = true then
      ({ rolled with status := .finished }, [], true) else (rolled, [], false)) = out at hout ⊢
  split
  · exact .inr rfl
  · exact hout

/-- The loop keeps an unlisted request out, but for queues it will leave at the end. -/
structure Outside (id : ReqId) (st : OutputState) : Prop where
  idle : (st.sched.requests id).status ≠ .running
  unlisted : id ∉ st.sched.running
  leaves : id ∈ st.sched.waiting ++ st.sched.skippedWaiting → id ∈ st.stoppedPreemptedReqs

theorem Outside.drains {st : OutputState} (h : Outside id st) (n : ℤ) :
    Outside id (drainTurn st id n) := by
  rw [drainTurn]
  split
  · refine ⟨?_, h.unlisted, h.leaves⟩
    dsimp only
    rw [setRequest_self]
    exact h.idle
  · exact h

/-- What is delivered to a request outside the running list does not bring it back. -/
theorem Outside.delivers {st : OutputState} (h : Outside id st) (stale : Bool)
    (drafts generated : List ℤ) :
    Outside id (deliverOutput cfg out.env id stale drafts generated st) := by
  have hstatus := delivery_status cfg out.env id stale drafts generated (st.sched.requests id)
  have hbefore := delivery_before cfg out.env id stale drafts generated (st.sched.requests id)
  have hcases := deliverOutput_cases cfg out.env id stale drafts generated st
  dsimp only at hcases
  generalize delivery cfg out.env id stale drafts generated (st.sched.requests id) = d
    at hstatus hbefore hcases
  have hidle : d.request.status ≠ .running := by
    rcases hstatus with hs | hs
    · rw [hs]
      exact h.idle
    · rw [hs]
      decide
  have hnoted : ∀ sched, id ∈ (noteStopped st sched d.statusBeforeStop id).stoppedPreemptedReqs := by
    intro sched
    rw [noteStopped, hbefore, if_neg h.idle]
    exact List.mem_cons_self
  have hrunning := (deliverOutput_visits cfg out.env id stale drafts generated st).running
  refine ⟨?_, hrunning ▸ h.unlisted, ?_⟩
  · rcases hcases with ⟨-, hd⟩ | ⟨-, -, queue, hd⟩ | ⟨-, hnext, hd⟩
    · rw [hd]
      dsimp only
      rw [setRequest_self]
      exact hidle
    · rw [hd, noteStopped_sched, freeRequest_requests, setRequest_self]
      exact hidle
    · rw [hd, noteStopped_sched, requeued_requests, setRequest_self]
      rcases handleStopped_status hnext with hs | hs
      · rw [hs]
        decide
      · rw [hs]
        decide
  · rcases hcases with ⟨-, hd⟩ | ⟨-, -, queue, hd⟩ | ⟨-, -, hd⟩
    · rw [hd]
      exact h.leaves
    · rw [hd]
      exact fun _ => hnoted _
    · rw [hd]
      exact fun _ => hnoted _

theorem Outside.turn {st st' : OutputState} {entry : Sigma fun _ : ReqId => ℤ} (h : Outside id st)
    (hturn : processOutput cfg out.env failed specs out.runner st entry = .ok st') :
    Outside id st' := by
  obtain ⟨x, n⟩ := entry
  have hvisits := processOutput_visits hturn
  by_cases hown : id = x
  swap
  · refine ⟨by rw [hvisits.others id hown]; exact h.idle, hvisits.running ▸ h.unlisted, fun hid => ?_⟩
    exact (hvisits.preempted id hown).mpr (h.leaves ((hvisits.queued id hown).mp hid))
  subst hown
  obtain ⟨hpos, hcovered⟩ := processOutput_asserted hturn
  rcases processOutput_cases cfg out.env failed specs out.runner hpos hcovered with
    heq | heq | ⟨-, -, -, stale, generated, -, heq⟩
  · rw [heq] at hturn
    cases hturn
    exact h.drains n
  · rw [heq] at hturn
    cases hturn
  · rw [heq] at hturn
    cases hturn
    exact (h.drains n).delivers stale _ generated

theorem Unlisted.finishes (h : Unlisted s id) (env : OutputEnv) (x : ReqId) :
    Unlisted (finishRequest env s x) id := by
  by_cases hne : id = x
  · subst hne
    rcases finishRequest_cases env s id with hsame | hf
    · rw [hsame]
      exact h
    · refine ⟨?_, fun hid => ?_⟩
      · rw [hf.request]
        exact nofun
      · rw [everyone, hf.running, hf.waiting, hf.skippedWaiting, ← List.filter_append,
          ← List.filter_append] at hid
        exact of_decide_eq_true (List.mem_filter.mp hid).2 rfl
  · obtain ⟨hrequest, -, hlisted⟩ := finishRequest_of_ne env s hne
    exact ⟨by rw [hrequest]; exact h.idle, fun hid => h.unlisted (hlisted.mp hid)⟩

theorem Unlisted.finishesAll (h : Unlisted s id) (env : OutputEnv) (ids : List ReqId) :
    Unlisted (ids.foldl (finishRequest env) s) id := by
  induction ids generalizing s with
  | nil => exact h
  | cons x ids ih =>
    rw [List.foldl_cons]
    exact ih (h.finishes env x)

theorem Unlisted.outputs (h : Unlisted s id) {s' : Scheduler}
    (hout : updateFromOutput cfg out.env failed booked specs out.runner s = .ok s') :
    Unlisted s' id := by
  obtain ⟨st, hloop, hout⟩ := bind_ok hout
  cases hout
  have hunlisted := h.unlisted
  rw [everyone, List.mem_append, not_or] at hunlisted
  have hend : Outside id st := by
    apply foldlM_ok (I := fun _ st => Outside id st) ?_ ?_ hloop
    · exact ⟨h.idle, hunlisted.1, fun hid => absurd hid hunlisted.2⟩
    · exact fun _ _ _ _ _ hst hturn => hst.turn hturn
  have hremoved : Unlisted { removeStopped st with grammarCompileErrorReqs := [] } id := by
    refine ⟨hend.idle, fun hid => ?_⟩
    rcases List.mem_append.mp hid with hrun | hqueue
    · exact hend.unlisted (List.mem_of_mem_filter hrun)
    · have hboth : id ∈ (st.sched.waiting ++ st.sched.skippedWaiting).filter
          (· ∉ st.stoppedPreemptedReqs) := by
        rw [List.filter_append]
        exact hqueue
      obtain ⟨hin, hnot⟩ := List.mem_filter.mp hboth
      exact of_decide_eq_true hnot (hend.leaves hin)
  exact hremoved.finishesAll out.env _

theorem freeBlocks_same {s s' : Scheduler} {x : ReqId} (h : freeBlocks s x = .ok s') :
    s' = { s with active := s.active.erase x } := by
  rw [freeBlocks] at h
  split at h
  · cases h
  split at h
  · cases h
  · cases h
    rfl

theorem Unlisted.transfers (h : Unlisted s id) {kv : KVConnectorOutput} {s' : Scheduler}
    (hkv : updateFromKvXferFinished kv s = .ok s') : Unlisted s' id := by
  obtain ⟨mid, hrecving, hsending⟩ := bind_ok hkv
  have hmid : Unlisted mid id := by
    apply foldlM_ok (I := fun _ c => Unlisted c id) h ?_ hrecving
    intro _ x c c' _ hc hone
    rw [receivedKv] at hone
    split at hone
    · cases hone
      exact hc.same rfl rfl
    · rw [freeBlocks_same hone]
      exact hc.same rfl rfl
  apply foldlM_ok (I := fun _ c => Unlisted c id) hmid ?_ hsending
  intro _ x c c' _ hc hone
  rw [freeBlocks_same hone]
  exact hc.same rfl rfl

theorem Unlisted.flight (h : Unlisted s id) (hsize : 0 < cfg.blockSize) {f : Flight} {s' : Scheduler}
    (hout : processFlight cfg out f s = .ok s') : Unlisted s' id := by
  have huntouched : Untouched s (handleInvalidBlocks cfg out.env.recomputeKvLoadFailures
      ⟨out.blockIds, out.kv.invalidBlockIds, f.numScheduledTokens⟩ s).1 :=
    handleInvalidBlocks_untouched hsize _ s
  rw [processFlight] at hout
  dsimp only at hout
  generalize handleInvalidBlocks cfg out.env.recomputeKvLoadFailures _ s = handled at huntouched hout
  obtain ⟨mid, handledIds⟩ := handled
  dsimp only at huntouched hout
  obtain ⟨served, hserved, hkv⟩ := bind_ok hout
  have hmid : Unlisted mid id := by
    refine h.same (huntouched.status id) ?_
    rw [everyone, everyone, huntouched.running, huntouched.waiting, huntouched.skippedWaiting]
  exact (hmid.outputs hserved).transfers hkv

theorem Unlisted.schedules (h : Unlisted s id) {env : Env} {throttle : Bool} {st : State}
    (hstep : schedule cfg env throttle s = .ok st) : Unlisted (updateAfterSchedule st) id := by
  have hmoved := schedule_moves hstep
  have hframe := updateAfterSchedule_frame st
  have hrequests := updateAfterSchedule_requests st id
  have hlists : everyone (updateAfterSchedule st) = everyone st.sched := by
    rw [hframe]
    rfl
  refine ⟨?_, fun hid => ?_⟩
  · rw [hrequests, hmoved.others id h.unlisted]
    cases st.led.numScheduledTokens.lookup id with
    | none => exact h.idle
    | some n => exact h.idle
  · rw [hlists] at hid
    exact h.unlisted (hmoved.roster.mem_iff.mp hid)

/-- A call of `add_request` lists only a request that is not known. -/
theorem Unlisted.adds (h : Unlisted s id) (hknown : id ∈ s.active) {env : OutputEnv}
    {update : Option StreamingUpdate} {r : Request} {s' : Scheduler}
    (hadd : addRequest env update r s = .ok s') : Unlisted s' id := by
  have hset : ∀ (next : Request) (s' : Scheduler), (id = r.requestId → next.status ≠ .running) →
      s'.requests = (s.setRequest r.requestId next).requests → (id ∈ everyone s' → id ∈ everyone s) →
      Unlisted s' id := by
    intro next s' hnext hrequests hlists
    refine ⟨?_, fun hid => h.unlisted (hlists hid)⟩
    rw [hrequests]
    by_cases heq : id = r.requestId
    · rw [heq, setRequest_self]
      exact hnext heq
    · rw [setRequest_of_ne _ _ heq]
      exact h.idle
  rw [addRequest] at hadd
  dsimp only at hadd
  split at hadd
  · split at hadd
    · split at hadd
      · cases hadd
      · cases hadd
        exact hset _ _ (fun heq => heq ▸ h.idle) rfl fun hid => hid
    cases update with
    | none =>
      cases hadd
      exact h.finishes env r.requestId
    | some u =>
      cases hadd
      have hwaits : (updateRequestAsSession (s.requests r.requestId) u).status ≠ .running := by
        show RequestStatus.waiting ≠ .running
        decide
      exact hset _ _ (fun _ => hwaits) rfl fun hid => hid
  · rename_i hfresh
    have hne : id ≠ r.requestId := ne_of_mem_of_not_mem hknown hfresh
    cases hadd
    rcases enqueueWaitingRequest_cases (s.setRequest r.requestId (withStreamingQueue r)) r.requestId
      with hqueue | hqueue
    · rw [hqueue]
      refine hset (withStreamingQueue r) _ (fun heq => absurd heq hne) rfl fun hid => ?_
      simpa [everyone, hne, Scheduler.setRequest] using hid
    · rw [hqueue]
      refine hset (withStreamingQueue r) _ (fun heq => absurd heq hne) rfl fun hid => ?_
      simpa [everyone, hne, Scheduler.setRequest] using hid

theorem Unlisted.resets (h : Unlisted s id) {s' : Scheduler} (hreset : resetPrefixCache cfg s = .ok s') :
    Unlisted s' id := by
  rw [resetPrefixCache] at hreset
  have hrunning : s.running = s.running.reverse.reverse := (List.reverse_reverse _).symm
  generalize s.running.reverse = ids at hreset hrunning
  induction ids generalizing s with
  | nil =>
    cases hreset
    exact h
  | cons x ids ih =>
    rw [List.foldlM_cons] at hreset
    rw [List.reverse_cons] at hrunning
    obtain ⟨mid, hone, hreset⟩ := bind_ok hreset
    obtain ⟨-, hrequests, hrest, hwaiting, hskipped, -, -⟩ := preemptDropping_ok hrunning hone
    have hout := h.unlisted
    rw [everyone, hrunning] at hout
    simp only [List.mem_append, List.mem_singleton, not_or] at hout
    obtain ⟨⟨hrun, hne⟩, hwait, hskip⟩ := hout
    refine ih ⟨?_, fun hid => ?_⟩ hreset hrest
    · rw [hrequests, Function.update_of_ne hne]
      exact h.idle
    · rw [everyone, hrest, hwaiting, hskipped] at hid
      simp only [List.mem_append, List.mem_cons] at hid
      rcases hid with hid | ⟨hid | hid⟩ | hid
      · exact hrun hid
      · exact hne hid
      · rename_i hid
        exact hwait hid
      · exact hskip hid

theorem Unlisted.step (hsize : 0 < cfg.blockSize) {e e' : Engine} (h : Unlisted e.sched id)
    (hknown : id ∈ e.sched.active) {event : Event}
    (hstep : e.step cfg event = .ok e') : Unlisted e'.sched id := by
  cases event with
  | schedule env throttle =>
    obtain ⟨st, hschedule, hstep⟩ := bind_ok hstep
    cases hstep
    exact h.schedules hschedule
  | output out =>
    obtain ⟨s, flights⟩ := e
    cases flights with
    | nil =>
      cases hstep
      exact h
    | cons f flights =>
      obtain ⟨s', hflight, hstep⟩ := bind_ok hstep
      cases hstep
      exact h.flight hsize hflight
  | add env update r =>
    obtain ⟨s, hadd, hstep⟩ := bind_ok hstep
    cases hstep
    exact h.adds hknown hadd
  | finish env ids =>
    cases hstep
    exact h.finishesAll env ids
  | reset =>
    obtain ⟨s, hreset, hstep⟩ := bind_ok hstep
    cases hstep
    exact h.resets hreset
  | pause state =>
    cases hstep
    exact h.same rfl rfl

end

/-- The engine some events later, the request being known all along. -/
inductive Later (cfg : SchedulerConfig) (id : ReqId) : Engine → Engine → Prop where
  | refl {e : Engine} : Later cfg id e e
  | step {e e' e'' : Engine} {event : Event} (h : Later cfg id e e')
      (hstep : e'.step cfg event = .ok e'') (hknown : id ∈ e''.sched.active) : Later cfg id e e''

theorem Later.lost {cfg : SchedulerConfig} {id : ReqId} {e e' : Engine} (hsize : 0 < cfg.blockSize)
    (hlater : Later cfg id e e') (h : Lost e.sched id) : Lost e'.sched id := by
  induction hlater with
  | refl => exact h
  | step _ hstep hknown ih =>
    have hnext := Unlisted.step hsize ⟨ih.idle, ih.unlisted⟩ ih.known hstep
    exact ⟨hknown, hnext.idle, hnext.unlisted⟩

/-- A session whose turn ends with an output that finds it preempted is known and unfinished
afterwards and in no queue; and no later event puts it into the running list or a queue again. -/
theorem session_lost {cfg : SchedulerConfig} {out : StepOutput} {failed : List ReqId}
    {booked : ReqDict ℤ} {specs : ReqDict (List ℤ)} {s s' : Scheduler} {id : ReqId} {next : Request}
    {flights : List Flight} {e : Engine} (hsize : 0 < cfg.blockSize)
    (hends : EndsPreempted cfg out failed booked specs s id next)
    (hout : updateFromOutput cfg out.env failed booked specs out.runner s = .ok s')
    (hlater : Later cfg id ⟨s', flights⟩ e) :
    s'.requests id = next ∧ id ∈ e.sched.active ∧ id ∉ everyone e.sched := by
  obtain ⟨hlost, hnext⟩ := hends.loses hout
  have hend := hlater.lost hsize hlost
  exact ⟨hnext, hend.known, hend.unlisted⟩

/-- A session preempted with its only step in flight; it has no further input yet. -/
def preemptedSession : Scheduler :=
  { smallScheduler [{ smallRequest 0 1 9 0 [] with
      status := .preempted, numInFlightTokens := 9, numStaleOutputTokens := 9, numPreemptions := 1,
      resumable := true, streamingQueue := some [] }] with
    running := [], waiting := [0] }

/-- The output that ends its turn. -/
def endOfTurn : StepOutput where
  env := { smallOutputEnv with checkStop := fun _ _ => true }
  blockIds := fun _ => []
  kv := ⟨[], [], []⟩
  runner := ⟨AList.singleton 0 0, [[7]]⟩

theorem preemptedSession_ends :
    EndsPreempted smallConfig endOfTurn [] (AList.singleton 0 9) ∅ preemptedSession 0
      { (ownDelivery smallConfig endOfTurn ∅ preemptedSession 0 9 [7]).request with
        status := .waitingForStreamingReq } where
  known := by decide
  queued := by decide
  unlisted := by decide
  kept := rfl
  loaded := by decide
  compiled := by decide
  ends := ⟨9, 0, [7], by decide, by decide, rfl, by decide, rfl⟩

/-- The next input of the session. -/
def nextInput : Event :=
  .add smallOutputEnv (some ⟨[], 4, 1⟩) { smallRequest 0 1 4 0 [] with resumable := true }

/-- Its next input makes the session wait again, for a turn that no step gives it. -/
theorem session_lost_scheduled :
    ∃ s' e e', updateFromOutput smallConfig endOfTurn.env [] (AList.singleton 0 9) ∅ endOfTurn.runner
        preemptedSession = .ok s' ∧
      Engine.step smallConfig ⟨s', []⟩ nextInput = .ok e ∧
      Engine.step smallConfig e (.schedule (smallEnv none) false) = .ok e' ∧
      (s'.requests 0).status = .waitingForStreamingReq ∧ (e'.sched.requests 0).status = .waiting ∧
      0 ∈ e'.sched.active ∧ 0 ∉ everyone e'.sched := by
  have hrun : (do
      let s' ← updateFromOutput smallConfig endOfTurn.env [] (AList.singleton 0 9) ∅ endOfTurn.runner
        preemptedSession
      let e ← Engine.step smallConfig ⟨s', []⟩ nextInput
      let e' ← Engine.step smallConfig e (.schedule (smallEnv none) false)
      return (decide (0 ∈ e.sched.active), decide (0 ∈ e'.sched.active),
        decide ((e'.sched.requests 0).status = RequestStatus.waiting))) = .ok (true, true, true) := by
    decide +kernel
  obtain ⟨s', hout, hrun⟩ := bind_ok hrun
  obtain ⟨e, hadd, hrun⟩ := bind_ok hrun
  obtain ⟨e', hstep, hrun⟩ := bind_ok hrun
  obtain ⟨hadded, hrest⟩ := Prod.mk.inj (Except.ok.inj hrun)
  obtain ⟨hknown, hwaiting⟩ := Prod.mk.inj hrest
  have hlater : Later smallConfig 0 ⟨s', []⟩ e' :=
    (Later.refl.step hadd (of_decide_eq_true hadded)).step hstep (of_decide_eq_true hknown)
  obtain ⟨hnext, hactive, hlists⟩ := session_lost (by decide) preemptedSession_ends hout hlater
  exact ⟨s', e, e', hout, hadd, hstep, by rw [hnext], of_decide_eq_true hwaiting, hactive, hlists⟩

end SparkKit.Sched.LostSession
