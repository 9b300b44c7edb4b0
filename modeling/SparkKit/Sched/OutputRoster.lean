import SparkKit.Sched.OutputTurn

/-!
# The roster over an output

Each request booked has one turn of the loop, so at its turn it is as before the output. After
the loop the stopped requests leave, the failed ones are finished, and requests whose blocks
are sent are forgotten.
-/
namespace SparkKit.Sched.OutputRoster

open SparkKit.Lib.Outcome SparkKit.Sched.Requests SparkKit.Sched.StepState
open SparkKit.Sched.StepInvariant SparkKit.Sched.Output SparkKit.Sched.InvalidBlocks
open SparkKit.Sched.EngineCore SparkKit.Sched.Roster SparkKit.Sched.OutputTurn

section
variable {cfg : SchedulerConfig} {env : OutputEnv}

/-! ## The loop -/

/-- What the components promise with an output, as the scheduler stands. No session's turn ends
but while the session is running, and none that waits for input has output. -/
structure OutputOk (cfg : SchedulerConfig) (s : Scheduler) (out : StepOutput) : Prop where
  stops : StopsWhenFull cfg out.env
  turns : ∀ id ∈ s.active, id ∈ out.runner.reqIdToIndex → ∀ d,
    Delivers cfg out.env out.runner (s.requests id) id d → SessionOk cfg (s.requests id).status d
  idle : ∀ id, Streams s id → id ∉ out.runner.reqIdToIndex

theorem other_concat {done : List (Sigma fun _ : ReqId => ℤ)} {entry : Sigma fun _ : ReqId => ℤ}
    {id : ReqId} (hid : ∀ e ∈ done ++ [entry], e.1 ≠ id) :
    (∀ e ∈ done, e.1 ≠ id) ∧ id ≠ entry.1 :=
  ⟨fun e he => hid e (List.mem_append_left _ he),
    (hid entry (List.mem_append_right _ (List.mem_singleton_self _))).symm⟩

/-- The loop has left the requests alone that are not among `done`. -/
def LeavesOthers (s : Scheduler) (done : List (Sigma fun _ : ReqId => ℤ)) (st : OutputState) : Prop :=
  ∀ id, (∀ entry ∈ done, entry.1 ≠ id) →
    st.sched.requests id = s.requests id ∧ (id ∈ st.sched.active ↔ id ∈ s.active)

theorem LeavesOthers.concat {s : Scheduler} {done : List (Sigma fun _ : ReqId => ℤ)}
    {entry : Sigma fun _ : ReqId => ℤ} {st st' : OutputState} (h : LeavesOthers s done st)
    (hvisits : Visits entry.1 st st') : LeavesOthers s (done ++ [entry]) st' := by
  intro id hid
  obtain ⟨hdone, hne⟩ := other_concat hid
  obtain ⟨hrequest, hactive⟩ := h id hdone
  exact ⟨(hvisits.others id hne).trans hrequest, (hvisits.active id hne).trans hactive⟩

/-- The loop over the requests booked, so far. -/
structure Served (cfg : SchedulerConfig) (s : Scheduler)
    (done : List (Sigma fun _ : ReqId => ℤ)) (st : OutputState) : Prop where
  enrolled : Enrolled cfg (removeStopped st)
  known : ∀ id ∈ st.sched.active, id ∈ s.active
  others : ∀ id, (∀ entry ∈ done, entry.1 ≠ id) → st.sched.requests id = s.requests id ∧
    (id ∈ st.sched.active ↔ id ∈ s.active) ∧ id ∉ st.stoppedPreemptedReqs
  drained : ∀ entry ∈ done, entry.1 ∈ s.active →
    SameFlight (drainInFlight (s.requests entry.1) entry.2) (st.sched.requests entry.1)

theorem Served.leavesOthers {s : Scheduler} {done : List (Sigma fun _ : ReqId => ℤ)}
    {st : OutputState} (h : Served cfg s done st) : LeavesOthers s done st := by
  intro id hid
  obtain ⟨hrequest, hactive, -⟩ := h.others id hid
  exact ⟨hrequest, hactive⟩

theorem Served.concat (hsampled : 0 ≤ cfg.numSampledTokensPerStep) {out : StepOutput}
    {failed : List ReqId} {specs : ReqDict (List ℤ)} {s : Scheduler}
    {done : List (Sigma fun _ : ReqId => ℤ)} {entry : Sigma fun _ : ReqId => ℤ}
    {st st' : OutputState} (h : Served cfg s done st) (hok : OutputOk cfg s out)
    (hfresh : ∀ e ∈ done, e.1 ≠ entry.1)
    (hturn : processOutput cfg out.env failed specs out.runner st entry = .ok st') :
    Served cfg s (done ++ [entry]) st' := by
  obtain ⟨hsame, hactive, hstopped⟩ := h.others entry.1 hfresh
  have hserves : Serves cfg entry.1 entry.2 st st' := by
    refine processOutput_serves hok.stops hsampled h.enrolled hstopped (fun hs => ?_)
      (fun hknown hpresent d hd => ?_) hturn
    · exact hok.idle entry.1 ⟨hactive.mp hs.1, hsame ▸ hs.2⟩
    · rw [hsame] at hd ⊢
      exact hok.turns entry.1 (hactive.mp hknown) hpresent d hd
  have hvisits : Visits entry.1 st st' := processOutput_visits hturn
  refine ⟨hserves.enrolled, fun id hid => h.known id (hvisits.known id hid), fun id hid => ?_,
    fun e he hknown => ?_⟩
  · obtain ⟨hdone, hne⟩ := other_concat hid
    obtain ⟨hrequest, hiff⟩ := h.leavesOthers.concat hvisits id hid
    refine ⟨hrequest, hiff, fun hin => ?_⟩
    exact (h.others id hdone).2.2 ((hvisits.preempted id hne).mp hin)
  · rcases List.mem_append.mp he with he | he
    · rw [hvisits.others e.1 (hfresh e he)]
      exact h.drained e he hknown
    · rw [List.mem_singleton.mp he] at hknown ⊢
      rw [← hsame]
      exact hserves.drained (hactive.mpr hknown)

/-- Requests that stay known keep their tokens in flight. -/
def KeepsFlights (s s' : Scheduler) : Prop :=
  ∀ id ∈ s'.active, id ∈ s.active ∧ SameFlight (s.requests id) (s'.requests id)

theorem keepsFlights_refl (s : Scheduler) : KeepsFlights s s := fun _ hid => ⟨hid, .refl _⟩

theorem KeepsFlights.trans {s s' s'' : Scheduler} (h : KeepsFlights s s')
    (h' : KeepsFlights s' s'') : KeepsFlights s s'' := by
  intro id hid
  obtain ⟨hmid, hflight'⟩ := h' id hid
  obtain ⟨hknown, hflight⟩ := h id hmid
  exact ⟨hknown, hflight.trans hflight'⟩

theorem finishRequest_keeps (env : OutputEnv) (s : Scheduler) (id : ReqId) :
    KeepsFlights s (finishRequest env s id) := by
  rcases finishRequest_cases env s id with hsame | hf
  · rw [hsame]
    exact keepsFlights_refl s
  intro x hx
  refine ⟨?_, ?_⟩
  · rcases hf.active with hactive | hactive
    · exact hactive ▸ hx
    · rw [hactive] at hx
      exact List.mem_of_mem_erase hx
  · rw [hf.requests]
    by_cases hid : x = id
    · subst hid
      rw [Function.update_self]
      exact ⟨rfl, rfl, rfl, rfl⟩
    · rw [Function.update_of_ne hid]
      exact .refl _

theorem finishRequests_keeps (env : OutputEnv) (ids : List ReqId) (s : Scheduler) :
    KeepsFlights s (ids.foldl (finishRequest env) s) := by
  induction ids generalizing s with
  | nil => exact keepsFlights_refl s
  | cons id ids ih =>
    rw [List.foldl_cons]
    exact (finishRequest_keeps env s id).trans (ih _)

/-- A request once the tokens booked for it are drained. -/
def drained (booked : ReqDict ℤ) (id : ReqId) (r : Request) : Request :=
  ((booked.lookup id).map (drainInFlight r)).getD r

/-- What the output of a step leaves. -/
structure Settles (cfg : SchedulerConfig) (booked : ReqDict ℤ) (s s' : Scheduler) : Prop where
  enrolled : Enrolled cfg s'
  flights : ∀ id ∈ s'.active, id ∈ s.active ∧
    SameFlight (drained booked id (s.requests id)) (s'.requests id)

theorem Settles.keeps {booked : ReqDict ℤ} {s s' s'' : Scheduler} (h : Settles cfg booked s s')
    (henrolled : Enrolled cfg s'') (hkeeps : KeepsFlights s' s'') : Settles cfg booked s s'' := by
  refine ⟨henrolled, fun id hid => ?_⟩
  obtain ⟨hmid, hflight⟩ := hkeeps id hid
  obtain ⟨hknown, hdrained⟩ := h.flights id hmid
  exact ⟨hknown, hdrained.trans hflight⟩

theorem enrolled_noErrors {s : Scheduler} (h : Enrolled cfg s) :
    Enrolled cfg { s with grammarCompileErrorReqs := [] } :=
  h.restage rfl rfl rfl rfl rfl (fun _ => .refl _) h.wellFormed.ok h.room

/-- What each step of the loop asserts about the tokens booked. -/
def Asserted (booked : ReqDict ℤ) (s : Scheduler) : Prop :=
  ∀ entry ∈ booked.entries, 0 < entry.2 ∧ Covered s entry.1 entry.2

/-- No request is booked twice. -/
theorem entries_fresh {booked : ReqDict ℤ} {done rest : List (Sigma fun _ : ReqId => ℤ)}
    {entry : Sigma fun _ : ReqId => ℤ} (hsplit : booked.entries = done ++ entry :: rest) :
    ∀ e ∈ done, e.1 ≠ entry.1 := by
  intro e he
  have hkeys := booked.nodupKeys
  rw [hsplit, List.NodupKeys, List.keys, List.map_append, List.map_cons] at hkeys
  obtain ⟨-, -, hdisjoint⟩ := List.nodup_append.mp hkeys
  exact hdisjoint e.1 (List.mem_map_of_mem he) entry.1 List.mem_cons_self

/-- The loop fails only on missing sampled tokens: nothing a turn does to its request makes the
assertion about another one fail. -/
theorem outputLoop_error {failed : List ReqId} {specs : ReqDict (List ℤ)} {output : RunnerOutput}
    {booked : ReqDict ℤ} {s : Scheduler} {e : String} (hasserted : Asserted booked s)
    (h : booked.entries.foldlM (processOutput cfg env failed specs output) ⟨s, [], []⟩ = .error e) :
    e = "list index out of range" := by
  have hstart : LeavesOthers s [] ⟨s, [], []⟩ := fun _ _ => ⟨rfl, .rfl⟩
  have hstep : ∀ done entry rest c c', booked.entries = done ++ entry :: rest →
      LeavesOthers s done c → processOutput cfg env failed specs output c entry = .ok c' →
      LeavesOthers s (done ++ [entry]) c' := fun _ _ _ _ _ _ hc hturn =>
    hc.concat (processOutput_visits hturn)
  rcases foldlM_cases (I := LeavesOthers s) hstart hstep with
    ⟨_, hok, -⟩ | ⟨_, done, entry, rest, st, hloop, hsplit, hothers, herror⟩
  · rw [hok] at h
    cases h
  rw [hloop] at h
  cases h
  obtain ⟨hsame, hactive⟩ := hothers entry.1 (entries_fresh hsplit)
  have hmem : entry ∈ booked.entries := by
    rw [hsplit]
    exact List.mem_append_right _ List.mem_cons_self
  obtain ⟨hpos, hcovered⟩ := hasserted entry hmem
  have hcovered' : Covered st.sched entry.1 entry.2 := by
    rw [Covered, hactive, hsame]
    exact hcovered
  rcases processOutput_cases cfg env failed specs output hpos hcovered' with
    heq | heq | ⟨-, -, -, stale, generated, -, heq⟩
  · rw [show entry = ⟨entry.1, entry.2⟩ from rfl, heq] at herror
    cases herror
  · rw [show entry = ⟨entry.1, entry.2⟩ from rfl, heq] at herror
    cases herror
    rfl
  · rw [show entry = ⟨entry.1, entry.2⟩ from rfl, heq] at herror
    cases herror

/-- The loop serves everyone booked, unless the sampled tokens are missing. -/
theorem outputLoop_cases (failed : List ReqId) (specs : ReqDict (List ℤ))
    (hsampled : 0 ≤ cfg.numSampledTokensPerStep) {out : StepOutput} {booked : ReqDict ℤ} {s : Scheduler}
    (h : Enrolled cfg s) (hok : OutputOk cfg s out) (hasserted : Asserted booked s) :
    let loop := booked.entries.foldlM (processOutput cfg out.env failed specs out.runner) ⟨s, [], []⟩
    (∃ st, loop = .ok st ∧ Served cfg s booked.entries st) ∨
      loop = .error "list index out of range" := by
  have hstart : Served cfg s [] ⟨s, [], []⟩ := by
    refine ⟨?_, fun id hid => hid, fun id _ => ⟨rfl, .rfl, List.not_mem_nil⟩, nofun⟩
    have hsame : removeStopped ⟨s, [], []⟩ = s := by simp [removeStopped]
    rw [hsame]
    exact h
  have hstep : ∀ done entry rest c c', booked.entries = done ++ entry :: rest → Served cfg s done c →
      processOutput cfg out.env failed specs out.runner c entry = .ok c' →
      Served cfg s (done ++ [entry]) c' := fun _ _ _ _ _ hsplit hc hturn =>
    hc.concat hsampled hok (entries_fresh hsplit) hturn
  rcases foldlM_cases (I := Served cfg s) hstart hstep with
    ⟨st, hloop, hserved⟩ | ⟨e, done, entry, rest, st, hloop, -⟩
  · exact .inl ⟨st, hloop, hserved⟩
  · right
    rw [hloop, outputLoop_error hasserted hloop]

theorem Served.settles {booked : ReqDict ℤ} {s : Scheduler} {st : OutputState}
    (h : Served cfg s booked.entries st) :
    Settles cfg booked s { removeStopped st with grammarCompileErrorReqs := [] } := by
  refine ⟨enrolled_noErrors h.enrolled, fun id hid => ⟨h.known id hid, ?_⟩⟩
  rw [OutputRoster.drained]
  cases hbooked : booked.lookup id with
  | none =>
    have hfresh : ∀ entry ∈ booked.entries, entry.1 ≠ id := by
      rintro entry hentry rfl
      exact absurd (List.mem_map_of_mem hentry) (AList.lookup_eq_none.mp hbooked)
    obtain ⟨hsame, -, -⟩ := h.others id hfresh
    show SameFlight (s.requests id) (st.sched.requests id)
    rw [hsame]
    exact .refl _
  | some n =>
    have hmem : ⟨id, n⟩ ∈ booked.entries := AList.mem_lookup_iff.mp hbooked
    exact h.drained ⟨id, n⟩ hmem (h.known id hid)

theorem updateFromOutput_cases (failed : List ReqId) (specs : ReqDict (List ℤ))
    (hsampled : 0 ≤ cfg.numSampledTokensPerStep) {out : StepOutput} {booked : ReqDict ℤ} {s : Scheduler}
    (h : Enrolled cfg s) (hok : OutputOk cfg s out) (hasserted : Asserted booked s) :
    let output := updateFromOutput cfg out.env failed booked specs out.runner s
    (∃ s', output = .ok s' ∧ Settles cfg booked s s') ∨ output = .error "list index out of range" := by
  dsimp only
  rw [updateFromOutput]
  rcases outputLoop_cases failed specs hsampled h hok hasserted with
    ⟨st, hloop, hserved⟩ | hloop
  · left
    have hsettles := hserved.settles
    rw [hloop]
    exact ⟨_, rfl, hsettles.keeps (finishRequests_enrolled hsettles.enrolled out.env _)
      (finishRequests_keeps out.env _ _)⟩
  · right
    rw [hloop]
    rfl

/-! ## Blocks sent and received -/

/-- The blocks of a finished request are free: it is forgotten. -/
theorem freeBlocks_enrolled {s s' : Scheduler} {id : ReqId} (h : Enrolled cfg s)
    (hok : freeBlocks s id = .ok s') : Enrolled cfg s' ∧ KeepsFlights s s' := by
  rw [freeBlocks] at hok
  split at hok
  · cases hok
  split at hok
  · cases hok
  rename_i hfinished
  rw [not_not] at hfinished
  cases hok
  have hout : id ∉ everyone s := fun hid => ((h.listed id).mp hid).2 hfinished
  rw [everyone, List.mem_append, not_or] at hout
  refine ⟨?_, fun x hx => ⟨List.mem_of_mem_erase hx, .refl _⟩⟩
  have hqueue := hout.2
  rw [List.mem_append, not_or] at hqueue
  refine h.removes id (fun _ _ => rfl) hfinished (h.wellFormed.ok id) rfl
    (filter_ne_self hout.1).symm (filter_ne_self hqueue.1).symm (filter_ne_self hqueue.2).symm
    (.inr rfl) ?_
  rw [streamShare_of_status (by rw [hfinished]; decide), Nat.sub_zero]

theorem receivedKv_enrolled {s s' : Scheduler} {id : ReqId} (h : Enrolled cfg s)
    (hok : receivedKv s id = .ok s') : Enrolled cfg s' ∧ KeepsFlights s s' := by
  rw [receivedKv] at hok
  split at hok
  · cases hok
    exact ⟨h.restage rfl rfl rfl rfl rfl (fun _ => .refl _) h.wellFormed.ok h.room,
      keepsFlights_refl s⟩
  · exact freeBlocks_enrolled h hok

theorem updateFromKvXferFinished_enrolled {kv : KVConnectorOutput} {s s' : Scheduler}
    (h : Enrolled cfg s) (hok : updateFromKvXferFinished kv s = .ok s') :
    Enrolled cfg s' ∧ KeepsFlights s s' := by
  obtain ⟨mid, hrecving, hsending⟩ := bind_ok hok
  have hmid : Enrolled cfg mid ∧ KeepsFlights s mid := by
    apply foldlM_ok (I := fun _ c => Enrolled cfg c ∧ KeepsFlights s c) ⟨h, keepsFlights_refl s⟩ ?_
      hrecving
    intro done id c c' _ hc hone
    obtain ⟨henrolled, hkeeps⟩ := receivedKv_enrolled hc.1 hone
    exact ⟨henrolled, hc.2.trans hkeeps⟩
  apply foldlM_ok (I := fun _ c => Enrolled cfg c ∧ KeepsFlights s c) hmid ?_ hsending
  intro done id c c' _ hc hone
  obtain ⟨henrolled, hkeeps⟩ := freeBlocks_enrolled hc.1 hone
  exact ⟨henrolled, hc.2.trans hkeeps⟩

/-- A transfer may end for an unknown request, or for one that is not finished. -/
def TransferError (e : String) : Prop :=
  e = "assert req_id in self.requests" ∨ e = "assert request.is_finished()"

theorem freeBlocks_error {s : Scheduler} {id : ReqId} {e : String} (h : freeBlocks s id = .error e) :
    TransferError e := by
  rw [freeBlocks] at h
  split at h
  · cases h
    exact .inl rfl
  split at h
  · cases h
    exact .inr rfl
  · cases h

theorem foldlM_error {f : Scheduler → ReqId → Except String Scheduler} {P : String → Prop}
    (herror : ∀ s id e, f s id = .error e → P e) {ids : List ReqId} {s : Scheduler} {e : String}
    (h : ids.foldlM f s = .error e) : P e := by
  have hstep : ∀ done id rest c c', ids = done ++ id :: rest → True → f c id = .ok c' → True :=
    fun _ _ _ _ _ _ _ _ => trivial
  rcases foldlM_cases (I := fun _ _ => True) (b := s) trivial hstep with
    ⟨_, hok, -⟩ | ⟨_, _, id, _, c, hfold, -, -, hf⟩
  · rw [hok] at h
    cases h
  · rw [hfold] at h
    cases h
    exact herror c id _ hf

theorem updateFromKvXferFinished_error {kv : KVConnectorOutput} {s : Scheduler} {e : String}
    (h : updateFromKvXferFinished kv s = .error e) : TransferError e := by
  rcases bind_error h with hrecving | ⟨mid, -, hsending⟩
  · refine foldlM_error (fun s id e hone => ?_) hrecving
    rw [receivedKv] at hone
    split at hone
    · cases hone
    · exact freeBlocks_error hone
  · exact foldlM_error (fun _ _ _ => freeBlocks_error) hsending

theorem recomputes_enrolled {s s' : Scheduler} (h : Enrolled cfg s) (hr : Recomputes s s') :
    Enrolled cfg s' ∧ KeepsFlights s s' := by
  refine ⟨h.restage hr.running hr.waiting hr.skippedWaiting hr.active hr.streams (fun id => ?_)
    (fun id => ?_) (fun id hlive => ?_), fun id hid => ⟨hr.active ▸ hid, ?_⟩⟩
  · obtain ⟨computed, -, heq⟩ := hr.requests id
    rw [heq]
    exact sameStage_of_status rfl rfl
  · obtain ⟨computed, hle, heq⟩ := hr.requests id
    have hok := h.wellFormed.ok id
    rw [heq]
    exact ⟨hok.placeholders, hok.fits, fun hrun hprefill => hle.trans_lt (hok.pending hrun hprefill)⟩
  · obtain ⟨hknown, hunfinished⟩ := hlive
    obtain ⟨computed, -, heq⟩ := hr.requests id
    rw [heq] at hunfinished ⊢
    have hroom := h.room id ⟨hr.active ▸ hknown, hunfinished⟩
    exact ⟨hroom.placeholders, hroom.tokens⟩
  · obtain ⟨computed, -, heq⟩ := hr.requests id
    rw [heq]
    exact ⟨rfl, rfl, rfl, rfl⟩

/-- What stays after failed loads is as admissible as before. -/
theorem OutputOk.recomputes {s s' : Scheduler} {out : StepOutput} (h : OutputOk cfg s out)
    (hr : Recomputes s s') : OutputOk cfg s' out := by
  have hstatus : ∀ id, (s'.requests id).status = (s.requests id).status := by
    intro id
    obtain ⟨computed, -, heq⟩ := hr.requests id
    rw [heq]
  refine ⟨h.stops, fun id hid hpresent d hd => ?_, fun id hs => h.idle id ⟨hr.active ▸ hs.1, ?_⟩⟩
  · obtain ⟨cut, hcut, heq⟩ := hr.requests id
    obtain ⟨n, computed, stale, specs, generated, hle, hgenerated, hd⟩ := hd
    rw [heq] at hd hle
    rw [hstatus]
    exact h.turns id (hr.active ▸ hid) hpresent d
      ⟨n, computed, stale, specs, generated, hle.trans hcut, hgenerated, hd⟩
  · rw [← hstatus]
    exact hs.2

theorem Asserted.recomputes {booked : ReqDict ℤ} {s s' : Scheduler} (h : Asserted booked s)
    (hr : Recomputes s s') : Asserted booked s' := by
  intro entry hentry
  obtain ⟨hpos, hcovered⟩ := h entry hentry
  obtain ⟨computed, -, heq⟩ := hr.requests entry.1
  refine ⟨hpos, ?_⟩
  rw [Covered, hr.active, heq]
  exact hcovered

theorem Asserted.lookup_nonneg {booked : ReqDict ℤ} {s : Scheduler} (h : Asserted booked s)
    (id : ReqId) : 0 ≤ (booked.lookup id).getD 0 := by
  cases hlookup : booked.lookup id with
  | none => exact le_refl _
  | some n => exact le_of_lt (h ⟨id, n⟩ (AList.mem_lookup_iff.mp hlookup)).1

/-- The requests cut back at the start settle like the others. -/
theorem Settles.recomputed {booked : ReqDict ℤ} {s mid s' : Scheduler} (hkeeps : KeepsFlights s mid)
    (h : Settles cfg booked mid s') : Settles cfg booked s s' := by
  refine ⟨h.enrolled, fun id hid => ?_⟩
  obtain ⟨hknown, hflight⟩ := h.flights id hid
  obtain ⟨hbefore, hsame⟩ := hkeeps id hknown
  refine ⟨hbefore, SameFlight.trans ?_ hflight⟩
  rw [drained, drained]
  cases booked.lookup id with
  | none => exact hsame
  | some n =>
    refine ⟨hsame.name, ?_, ?_, hsame.preemptions⟩
    · show (mid.requests id).numInFlightTokens - n = (s.requests id).numInFlightTokens - n
      rw [hsame.inFlight]
    · show (if (mid.requests id).numStaleOutputTokens > 0 then _ else _) = _
      rw [hsame.stale]
      rfl

/-- Whatever the output of a step, it fails on missing sampled tokens or on a transfer, if the
counts it booked are asserted. -/
theorem processFlight_error (hsize : 0 < cfg.blockSize) {out : StepOutput} {flight : Flight}
    {s : Scheduler} {e : String} (h : Enrolled cfg s) (hasserted : Asserted flight.numScheduledTokens s)
    (herror : processFlight cfg out flight s = .error e) :
    e = "list index out of range" ∨ TransferError e := by
  have hskipped : s.skippedWaiting.Nodup := (List.nodup_append.mp h.wellFormed.queueNodup).2.1
  have hr : Recomputes s (handleInvalidBlocks cfg out.env.recomputeKvLoadFailures
      ⟨out.blockIds, out.kv.invalidBlockIds, flight.numScheduledTokens⟩ s).1 :=
    handleInvalidBlocks_recomputes hsize h.wellFormed.nodup hskipped hasserted.lookup_nonneg
  rw [processFlight] at herror
  dsimp only at herror
  generalize handleInvalidBlocks cfg out.env.recomputeKvLoadFailures _ s = handled at hr herror
  obtain ⟨mid, failed⟩ := handled
  rcases bind_error herror with hupdate | ⟨served, -, hkv⟩
  · rcases bind_error hupdate with hloop | ⟨_, _, hpure⟩
    · exact .inl (outputLoop_error (hasserted.recomputes hr) hloop)
    · cases hpure
  · exact .inr (updateFromKvXferFinished_error hkv)

/-- The output of a step keeps the roster and drains what the step had booked, unless the
sampled tokens are missing or a transfer ends for a request that is not there for it. -/
theorem processFlight_cases (hsize : 0 < cfg.blockSize)
    (hsampled : 0 ≤ cfg.numSampledTokensPerStep) {out : StepOutput} {flight : Flight}
    {s : Scheduler} (h : Enrolled cfg s) (hok : OutputOk cfg s out)
    (hasserted : Asserted flight.numScheduledTokens s) :
    (∃ s', processFlight cfg out flight s = .ok s' ∧ Settles cfg flight.numScheduledTokens s s') ∨
      processFlight cfg out flight s = .error "list index out of range" ∨
      ∃ e, TransferError e ∧ processFlight cfg out flight s = .error e := by
  have hskipped : s.skippedWaiting.Nodup := (List.nodup_append.mp h.wellFormed.queueNodup).2.1
  have hr : Recomputes s (handleInvalidBlocks cfg out.env.recomputeKvLoadFailures
      ⟨out.blockIds, out.kv.invalidBlockIds, flight.numScheduledTokens⟩ s).1 :=
    handleInvalidBlocks_recomputes hsize h.wellFormed.nodup hskipped hasserted.lookup_nonneg
  rw [processFlight]
  dsimp only
  generalize handleInvalidBlocks cfg out.env.recomputeKvLoadFailures _ s = handled at hr
  obtain ⟨mid, failed⟩ := handled
  obtain ⟨hmid, hkeeps⟩ := recomputes_enrolled h hr
  dsimp only
  rcases updateFromOutput_cases failed flight.scheduledSpecDecodeTokens hsampled hmid (hok.recomputes hr) (hasserted.recomputes hr) with ⟨served, hserved, hsettles⟩ | herror
  · rw [hserved]
    cases hkv : updateFromKvXferFinished out.kv served with
    | error e => exact .inr (.inr ⟨e, updateFromKvXferFinished_error hkv, hkv⟩)
    | ok s' =>
      obtain ⟨hend, hkept⟩ := updateFromKvXferFinished_enrolled hsettles.enrolled hkv
      exact .inl ⟨s', hkv, (hsettles.keeps hend hkept).recomputed hkeeps⟩
  · rw [herror]
    exact .inr (.inl rfl)

end

end SparkKit.Sched.OutputRoster
