import SparkKit.Tp4.AllReduceRun

/-!
# Progress of the all-reduce

A thread that cannot go on waits for another one to make an earlier step: of an earlier operation
or, within the operation, of an earlier stage. So the threads never wait for one another in a
circle, and they go on until every rank has put out every operation.
-/
namespace SparkKit.Tp4.AllReduceProgress

open SparkKit.Lib.CyclicProgram SparkKit.Lib.History
open SparkKit.Tp4.DeferredCredits SparkKit.Tp4.AllReduce SparkKit.Tp4.AllReduceRun

variable {R L α : Type*}

/-- How often a lane has seen a step of the progress threads. -/
def hostCounter (s : Lane α) : HostStep L → ℕ
  | .waitStaged _ => s.stagedWaits
  | .store _ => s.stores
  | .postPayload _ => s.payloadPosts
  | .postDoorbell _ => s.doorbellPosts
  | .waitConsumer _ => s.consumerWaits
  | .reserve _ => s.reservations
  | .postCredit _ => s.creditPosts

/-! ## Steps of a lane -/

section
variable {D : DeferredCredits.Session α} {s s' : Lane α}

/-- The next of the four steps of the sender is the one that is behind. -/
theorem progressStep_counters (h : progressStep D s = .done s') :
    (s'.consumerWaits = s.consumerWaits ∧ s'.reservations = s.reservations ∧
        s'.creditPosts = s.creditPosts) ∧
      ((s.stagedWaits < s.doorbellPosts + 1 ∧ s'.stagedWaits = s.doorbellPosts + 1 ∧
          s'.stores = s.stores ∧ s'.payloadPosts = s.payloadPosts ∧
          s'.doorbellPosts = s.doorbellPosts) ∨
        (s.doorbellPosts + 1 ≤ s.stagedWaits ∧ s.stores < s.doorbellPosts + 1 ∧
          s'.stagedWaits = s.stagedWaits ∧ s'.stores = s.doorbellPosts + 1 ∧
          s'.payloadPosts = s.payloadPosts ∧ s'.doorbellPosts = s.doorbellPosts) ∨
        (s.doorbellPosts + 1 ≤ s.stores ∧ s.payloadPosts < s.doorbellPosts + 1 ∧
          s'.stagedWaits = s.stagedWaits ∧ s'.stores = s.stores ∧
          s'.payloadPosts = s.doorbellPosts + 1 ∧ s'.doorbellPosts = s.doorbellPosts) ∨
        (s.doorbellPosts + 1 ≤ s.payloadPosts ∧ s'.stagedWaits = s.stagedWaits ∧
          s'.stores = s.stores ∧ s'.payloadPosts = s.payloadPosts ∧
          s'.doorbellPosts = s.doorbellPosts + 1)) := by
  rw [progressStep] at h
  split at h
  · next hwait =>
    cases waitForSequence_done h
    exact ⟨⟨rfl, rfl, rfl⟩, .inl ⟨hwait, rfl, rfl, rfl, rfl⟩⟩
  · next hwait =>
    split at h
    · next hstore =>
      cases h
      exact ⟨⟨rfl, rfl, rfl⟩, .inr (.inl ⟨Nat.le_of_not_lt hwait, hstore, rfl, rfl, rfl, rfl⟩)⟩
    · next hstore =>
      split at h
      · next hpost =>
        cases h
        exact ⟨⟨rfl, rfl, rfl⟩,
          .inr (.inr (.inl ⟨Nat.le_of_not_lt hstore, hpost, rfl, rfl, rfl, rfl⟩))⟩
      · next hpost =>
        cases h
        exact ⟨⟨rfl, rfl, rfl⟩, .inr (.inr (.inr ⟨Nat.le_of_not_lt hpost, rfl, rfl, rfl, rfl⟩))⟩

theorem peerProgressStep_counters (h : peerProgressStep D s = .done s') :
    (s'.stagedWaits = s.stagedWaits ∧ s'.stores = s.stores ∧ s'.payloadPosts = s.payloadPosts ∧
        s'.doorbellPosts = s.doorbellPosts) ∧
      ((s.consumerWaits < s.creditPosts + 1 ∧ s'.consumerWaits = s.creditPosts + 1 ∧
          s'.reservations = s.reservations ∧ s'.creditPosts = s.creditPosts) ∨
        (s.creditPosts + 1 ≤ s.consumerWaits ∧ s.reservations < s.creditPosts + 1 ∧
          s'.consumerWaits = s.consumerWaits ∧ s'.reservations = s.creditPosts + 1 ∧
          s'.creditPosts = s.creditPosts) ∨
        (s.creditPosts + 1 ≤ s.reservations ∧ s'.consumerWaits = s.consumerWaits ∧
          s'.reservations = s.reservations ∧ s'.creditPosts = s.creditPosts + 1)) := by
  rw [peerProgressStep] at h
  split at h
  · next hwait =>
    cases waitForSequence_done h
    exact ⟨⟨rfl, rfl, rfl, rfl⟩, .inl ⟨hwait, rfl, rfl, rfl⟩⟩
  · next hwait =>
    split at h
    · next hreserve =>
      cases h
      exact ⟨⟨rfl, rfl, rfl, rfl⟩,
        .inr (.inl ⟨Nat.le_of_not_lt hwait, hreserve, rfl, rfl, rfl⟩)⟩
    · next hreserve =>
      cases h
      exact ⟨⟨rfl, rfl, rfl, rfl⟩, .inr (.inr ⟨Nat.le_of_not_lt hreserve, rfl, rfl, rfl⟩)⟩

/-- Kernels and send queues leave the steps of the progress threads alone. -/
theorem kernelStep_hostCounter (h : kernelStep D s = .done s') (i : HostStep L) :
    hostCounter s' i = hostCounter s i := by
  rw [kernelStep] at h
  split at h
  · split at h
    · cases h
    · cases waitForSequence_done h
      cases i <;> rfl
  · split at h
    · cases h
      cases i <;> rfl
    · split at h <;> cases h <;> cases i <;> rfl

theorem peerKernelStep_hostCounter (h : peerKernelStep D s = .done s') (i : HostStep L) :
    hostCounter s' i = hostCounter s i := by
  rw [peerKernelStep] at h
  split at h
  · split at h
    · cases h
    · cases waitForSequence_done h
      cases i <;> rfl
  · split at h <;> cases h <;> cases i <;> rfl

theorem transmitStep_hostCounter (h : transmitStep s = .done s') (i : HostStep L) :
    hostCounter s' i = hostCounter s i := by
  rw [transmitStep] at h
  split at h <;> cases h <;> cases i <;> rfl

theorem transmitCreditStep_hostCounter (h : transmitCreditStep s = .done s') (i : HostStep L) :
    hostCounter s' i = hostCounter s i := by
  rw [transmitCreditStep] at h
  split at h <;> cases h
  cases i <;> rfl

end

variable [DecidableEq L] (C : AllReduce.Session R L α)

/-- The progress threads have made on the lanes the steps of their program. -/
def HostCounts (st : State R L α) : Prop :=
  ∀ r i, hostCounter (st.lane (hostOwner C r i)) i = times C.host i (st.host r)

variable {C} {st st' : State R L α} {r : R}

theorem hostOwner_inj {r' : R} {i : HostStep L} (h : hostOwner C r i = hostOwner C r' i) :
    r = r' := by
  cases i with
  | waitStaged lane | store lane | postPayload lane | postDoorbell lane => exact congrArg Prod.fst h
  | waitConsumer lane | reserve lane | postCredit lane =>
    have hpeer : C.peer lane r = C.peer lane r' := congrArg Prod.fst h
    rw [← C.peer_peer lane r, hpeer, C.peer_peer]

theorem hostOwner_lane (r : R) (i : HostStep L) : (hostOwner C r i).2 = i.lane := by
  cases i <;> rfl

theorem HostCounts.sender_phase (hc : HostCounts C st) (r : R) (lane : L) :
    (st.lane (r, lane)).stagedWaits = times C.host (.waitStaged lane) (st.host r) ∧
      (st.lane (r, lane)).stores = times C.host (.store lane) (st.host r) ∧
      (st.lane (r, lane)).payloadPosts = times C.host (.postPayload lane) (st.host r) ∧
      (st.lane (r, lane)).doorbellPosts = times C.host (.postDoorbell lane) (st.host r) :=
  ⟨hc r (.waitStaged lane), hc r (.store lane), hc r (.postPayload lane), hc r (.postDoorbell lane)⟩

theorem HostCounts.receiver_phase (hc : HostCounts C st) (r : R) (lane : L) :
    (st.lane (C.peer lane r, lane)).consumerWaits =
        times C.host (.waitConsumer lane) (st.host r) ∧
      (st.lane (C.peer lane r, lane)).reservations = times C.host (.reserve lane) (st.host r) ∧
      (st.lane (C.peer lane r, lane)).creditPosts = times C.host (.postCredit lane) (st.host r) :=
  ⟨hc r (.waitConsumer lane), hc r (.reserve lane), hc r (.postCredit lane)⟩

/-! ## The steps of the progress threads -/

/-- A turn of the progress thread is the step of the program on its lane. -/
theorem HostCounts.hostTurn (hc : HostCounts C st) {i : HostStep L} {s' : Lane α}
    (hcur : current C.host (st.host r) = some i) (hturn : hostTurn C st r i = .done s') :
    ∀ j : HostStep L, j.lane = i.lane →
      hostCounter s' j = hostCounter (st.lane (hostOwner C r i)) j + if j = i then 1 else 0 := by
  have hD := C.disciplined
  have hround := times_of_current hD.host_nodup hcur
  cases i with
  | waitStaged lane =>
    have hstore := (hD.staged_store lane).times_of_earlier hD.host_nodup hcur
    have hpayload :=
      ((hD.staged_store lane).trans (hD.store_payload lane)).times_of_earlier hD.host_nodup hcur
    have hdoorbell := (((hD.staged_store lane).trans (hD.store_payload lane)).trans
      (hD.payload_doorbell lane)).times_of_earlier hD.host_nodup hcur
    obtain ⟨hwaits, hstores, hpayloads, hdoorbells⟩ := hc.sender_phase r lane
    obtain ⟨⟨hw, hr, hp⟩, hcases⟩ := progressStep_counters hturn
    intro j hj
    cases j <;> cases hj <;> simp [hostCounter, hostOwner] <;> omega
  | store lane =>
    have hstaged := (hD.staged_store lane).times_of_later hD.host_nodup hcur
    have hpayload := (hD.store_payload lane).times_of_earlier hD.host_nodup hcur
    have hdoorbell := ((hD.store_payload lane).trans
      (hD.payload_doorbell lane)).times_of_earlier hD.host_nodup hcur
    obtain ⟨hwaits, hstores, hpayloads, hdoorbells⟩ := hc.sender_phase r lane
    obtain ⟨⟨hw, hr, hp⟩, hcases⟩ := progressStep_counters hturn
    intro j hj
    cases j <;> cases hj <;> simp [hostCounter, hostOwner] <;> omega
  | postPayload lane =>
    have hstaged :=
      ((hD.staged_store lane).trans (hD.store_payload lane)).times_of_later hD.host_nodup hcur
    have hstore := (hD.store_payload lane).times_of_later hD.host_nodup hcur
    have hdoorbell := (hD.payload_doorbell lane).times_of_earlier hD.host_nodup hcur
    obtain ⟨hwaits, hstores, hpayloads, hdoorbells⟩ := hc.sender_phase r lane
    obtain ⟨⟨hw, hr, hp⟩, hcases⟩ := progressStep_counters hturn
    intro j hj
    cases j <;> cases hj <;> simp [hostCounter, hostOwner] <;> omega
  | postDoorbell lane =>
    have hstaged := (((hD.staged_store lane).trans (hD.store_payload lane)).trans
      (hD.payload_doorbell lane)).times_of_later hD.host_nodup hcur
    have hstore := ((hD.store_payload lane).trans
      (hD.payload_doorbell lane)).times_of_later hD.host_nodup hcur
    have hpayload := (hD.payload_doorbell lane).times_of_later hD.host_nodup hcur
    obtain ⟨hwaits, hstores, hpayloads, hdoorbells⟩ := hc.sender_phase r lane
    obtain ⟨⟨hw, hr, hp⟩, hcases⟩ := progressStep_counters hturn
    intro j hj
    cases j <;> cases hj <;> simp [hostCounter, hostOwner] <;> omega
  | waitConsumer lane =>
    have hreserve := (hD.consumer_reserve lane).times_of_earlier hD.host_nodup hcur
    have hcredit := ((hD.consumer_reserve lane).trans
      (hD.reserve_credit lane)).times_of_earlier hD.host_nodup hcur
    obtain ⟨hwaits, hreserves, hcredits⟩ := hc.receiver_phase r lane
    obtain ⟨⟨hw, hs, hp, hd⟩, hcases⟩ := peerProgressStep_counters hturn
    intro j hj
    cases j <;> cases hj <;> simp [hostCounter, hostOwner] <;> omega
  | reserve lane =>
    have hconsumer := (hD.consumer_reserve lane).times_of_later hD.host_nodup hcur
    have hcredit := (hD.reserve_credit lane).times_of_earlier hD.host_nodup hcur
    obtain ⟨hwaits, hreserves, hcredits⟩ := hc.receiver_phase r lane
    obtain ⟨⟨hw, hs, hp, hd⟩, hcases⟩ := peerProgressStep_counters hturn
    intro j hj
    cases j <;> cases hj <;> simp [hostCounter, hostOwner] <;> omega
  | postCredit lane =>
    have hconsumer := ((hD.consumer_reserve lane).trans
      (hD.reserve_credit lane)).times_of_later hD.host_nodup hcur
    have hreserve := (hD.reserve_credit lane).times_of_later hD.host_nodup hcur
    obtain ⟨hwaits, hreserves, hcredits⟩ := hc.receiver_phase r lane
    obtain ⟨⟨hw, hs, hp, hd⟩, hcases⟩ := peerProgressStep_counters hturn
    intro j hj
    cases j <;> cases hj <;> simp [hostCounter, hostOwner] <;> omega

theorem gpuTurn_hostCounter {i : GpuStep L} {s' : Lane α} (hturn : gpuTurn C st r i = .done s')
    (j : HostStep L) : hostCounter s' j = hostCounter (st.lane (owner C r i)) j := by
  cases i with
  | waitCredit lane | fill lane | publish lane => exact kernelStep_hostCounter hturn j
  | waitRemote lane | load lane | release lane => exact peerKernelStep_hostCounter hturn j

/-! ## The order of the steps of all threads -/

/-- Threads whose next step has this place in the order are done with all operations. -/
def GpuDone (C : AllReduce.Session R L α) (st : State R L α) (place : ℕ) : Prop :=
  ∀ r i, current C.gpu (st.gpu r) = some i →
    rounds C.gpu (st.gpu r) * 6 + gpuStage C.toPrograms i = place →
      C.launched ≤ rounds C.gpu (st.gpu r)

def HostDone (C : AllReduce.Session R L α) (st : State R L α) (place : ℕ) : Prop :=
  ∀ r i, current C.host (st.host r) = some i →
    rounds C.host (st.host r) * 6 + hostStage C.toPrograms i = place →
      C.launched ≤ rounds C.host (st.host r)

/-- A step that its thread still owes cannot have an earlier place. -/
theorem gpu_behind {place n : ℕ} (hdone : ∀ k < place, GpuDone C st k) {j : GpuStep L}
    (hj : j ∈ C.gpu) (hn : times C.gpu j (st.gpu r) ≤ n) (hlaunched : n < C.launched)
    (hplace : n * 6 + gpuStage C.toPrograms j < place) : False := by
  have hD := C.disciplined
  obtain ⟨i, hcur⟩ := current_isSome (st.gpu r) (List.length_pos_of_mem hj)
  obtain ⟨hround, hle⟩ :=
    current_le hD.nodup hD.gpu_sorted (gpuStage_lt C.toPrograms) hcur hj hn
  have hfinished := hdone _ (hle.trans_lt hplace) r i hcur rfl
  omega

theorem host_behind {place n : ℕ} (hdone : ∀ k < place, HostDone C st k) {j : HostStep L}
    (hj : j ∈ C.host) (hn : times C.host j (st.host r) ≤ n) (hlaunched : n < C.launched)
    (hplace : n * 6 + hostStage C.toPrograms j < place) : False := by
  have hD := C.disciplined
  obtain ⟨i, hcur⟩ := current_isSome (st.host r) (List.length_pos_of_mem hj)
  obtain ⟨hround, hle⟩ :=
    current_le hD.host_nodup hD.host_sorted (hostStage_lt C.toPrograms) hcur hj hn
  have hfinished := hdone _ (hle.trans_lt hplace) r i hcur rfl
  omega

/-- The kernels are at most three operations ahead of the progress thread of their rank: the
credits that they wait for follow the doorbells that it posts. -/
theorem gpu_rounds_le (h : Invariant C st) (hc : HostCounts C st) (r : R) :
    rounds C.gpu (st.gpu r) ≤ rounds C.host (st.host r) + 3 := by
  have hD := C.disciplined
  cases hgpu : C.gpu with
  | nil => exact (Nat.div_zero _).trans_le (Nat.zero_le _)
  | cons i _ =>
    have hwait : GpuStep.waitCredit i.lane ∈ C.gpu := (hD.credit_fill i.lane).1
    have hpost : HostStep.postDoorbell i.lane ∈ C.host := (hD.payload_doorbell i.lane).2.1
    have hwaits := (h.kernel_phase r i.lane).1
    have hposts := (hc.sender_phase r i.lane).2.2.2
    rw [times_eq_idxOf hD.nodup hwait] at hwaits
    rw [times_eq_idxOf hD.host_nodup hpost] at hposts
    have hahead : (st.lane (r, i.lane)).creditWaits ≤ (st.lane (r, i.lane)).doorbellPosts + 2 := by
      have hpace := (h.ordered r i.lane).pace
      cases hpace
      omega
    rw [← hgpu]
    calc rounds C.gpu (st.gpu r)
        ≤ (st.lane (r, i.lane)).creditWaits := hwaits ▸ Nat.le_add_right _ _
      _ ≤ (st.lane (r, i.lane)).doorbellPosts + 2 := hahead
      _ ≤ rounds C.host (st.host r) + 3 := by
        rw [hposts]
        split <;> omega

/-! ## Events -/

section
variable [DecidableEq R]

theorem onLane_done {p : R × L} {next : State R L α → State R L α} {t : Turn (Lane α)}
    (h : onLane st p next t = .done st') :
    ∃ s', t = .done s' ∧ st' = next { st with lane := Function.update st.lane p s' } := by
  cases t with
  | waiting => cases h
  | mismatched => cases h
  | done s' =>
    cases h
    exact ⟨s', rfl, rfl⟩

theorem onLane_waiting {p : R × L} {next : State R L α → State R L α} {t : Turn (Lane α)}
    (h : onLane st p next t = .waiting) : t = .waiting := by
  cases t with
  | waiting => rfl
  | mismatched => cases h
  | done s' => cases h

theorem HostCounts.frame (hc : HostCounts C st) {p : R × L} {s' : Lane α}
    (hcount : ∀ j : HostStep L, hostCounter s' j = hostCounter (st.lane p) j)
    (hlane : st'.lane = Function.update st.lane p s') (hhost : st'.host = st.host) :
    HostCounts C st' := by
  intro r j
  rw [hlane, hhost, ← hc r j]
  by_cases howner : hostOwner C r j = p
  · rw [howner, Function.update_self, hcount]
  · rw [Function.update_of_ne howner]

theorem HostCounts.host (hc : HostCounts C st) {i : HostStep L} {s' : Lane α}
    (hcur : current C.host (st.host r) = some i) (hturn : AllReduce.hostTurn C st r i = .done s') :
    HostCounts C (nextHost r { st with lane := Function.update st.lane (hostOwner C r i) s' }) := by
  intro r' j
  exact counts_update (hostOwner C) hostOwner_inj hostOwner_lane hc hcur (hc.hostTurn hcur hturn) r' j

theorem HostCounts.next (hc : HostCounts C st) {event : Event R L}
    (hturn : AllReduce.turn C st event = .done st') : HostCounts C st' := by
  cases event with
  | gpu r =>
    rw [AllReduce.turn, gpuStep] at hturn
    split at hturn
    · cases hturn
    · obtain ⟨s', hlane, rfl⟩ := onLane_done hturn
      exact hc.frame (gpuTurn_hostCounter hlane) rfl rfl
    · obtain ⟨s', hlane, rfl⟩ := onLane_done hturn
      exact hc.frame (gpuTurn_hostCounter hlane) rfl rfl
  | host r =>
    rw [AllReduce.turn, hostStep] at hturn
    split at hturn
    · cases hturn
    · next i hcur =>
      obtain ⟨s', hlane, rfl⟩ := onLane_done hturn
      exact hc.host hcur hlane
  | transmit r lane =>
    obtain ⟨s', hlane, rfl⟩ := onLane_done hturn
    exact hc.frame (transmitStep_hostCounter hlane) rfl rfl
  | transmitCredit r lane =>
    obtain ⟨s', hlane, rfl⟩ := onLane_done hturn
    exact hc.frame (transmitCreditStep_hostCounter hlane) rfl rfl

theorem run_hostCounts (C : AllReduce.Session R L α) (events : List (Event R L)) :
    HostCounts C (AllReduce.run C events) := by
  induction events using List.reverseRecOn with
  | nil =>
    intro r i
    cases i <;> exact (times_zero _ _).symm
  | append_singleton events event ih =>
    rw [AllReduce.run, runFrom_concat, ← AllReduce.run, AllReduce.step]
    split
    · next st' hturn => exact ih.next hturn
    · exact ih

/-! ## The command ring -/

/-- `graph_claim_sequence` finds room in the ring whenever the kernels of an operation begin,
also when the command of the last transfer is still to be completed. -/
theorem claim_never_waits (C : AllReduce.Session R L α) (events : List (Event R L)) (r : R)
    {completed : ℕ} (hcompleted : rounds C.host ((AllReduce.run C events).host r) ≤ completed + 1) :
    rounds C.gpu ((AllReduce.run C events).gpu r) - completed <
      CommandRing.kTp4GraphCommandCapacity := by
  have hahead := gpu_rounds_le (run_invariant C events) (run_hostCounts C events) r
  have hroom : 4 < CommandRing.kTp4GraphCommandCapacity := by decide
  omega

/-! ## Where everybody waits -/

/-- Nobody can go on. -/
def Stuck (C : AllReduce.Session R L α) (st : State R L α) : Prop :=
  ∀ event, AllReduce.turn C st event = .waiting

theorem Stuck.gpuTurn (hstuck : Stuck C st) {i : GpuStep L}
    (hcur : current C.gpu (st.gpu r) = some i) : AllReduce.gpuTurn C st r i = .waiting := by
  have hturn := hstuck (.gpu r)
  rw [AllReduce.turn, gpuStep, hcur] at hturn
  cases i <;> exact onLane_waiting hturn

theorem Stuck.hostTurn (hstuck : Stuck C st) {i : HostStep L}
    (hcur : current C.host (st.host r) = some i) : AllReduce.hostTurn C st r i = .waiting := by
  have hturn := hstuck (.host r)
  rw [AllReduce.turn, hostStep, hcur] at hturn
  exact onLane_waiting hturn

theorem blocked_kernel (h : Invariant C st) (hstuck : Stuck C st)
    {i : GpuStep L} {lane : L} (hcur : current C.gpu (st.gpu r) = some i)
    (hi : i = .waitCredit lane ∨ i = .fill lane ∨ i = .publish lane) :
    Blocked (laneSession C lane (payload C r lane)) (st.lane (r, lane)) .kernel := by
  have hturn := hstuck.gpuTurn hcur
  apply (h.ordered r lane).kernel.blocked
  rw [DeferredCredits.turn, ← h.kernelStep_eq hcur hi]
  rcases hi with rfl | rfl | rfl <;> exact hturn

theorem blocked_peerKernel (h : Invariant C st) (hstuck : Stuck C st)
    {i : GpuStep L} {lane : L} (hcur : current C.gpu (st.gpu r) = some i)
    (hi : i = .waitRemote lane ∨ i = .load lane ∨ i = .release lane) :
    Blocked (laneSession C lane (payload C (C.peer lane r) lane))
      (st.lane (C.peer lane r, lane)) .peerKernel := by
  have hturn := hstuck.gpuTurn hcur
  apply (h.ordered (C.peer lane r) lane).peerKernel.blocked
  rcases hi with rfl | rfl | rfl <;> exact hturn

theorem blocked_progress (h : Invariant C st) (hstuck : Stuck C st)
    {i : HostStep L} {lane : L} (hcur : current C.host (st.host r) = some i)
    (hi : i = .waitStaged lane ∨ i = .store lane ∨ i = .postPayload lane ∨ i = .postDoorbell lane) :
    Blocked (laneSession C lane (payload C r lane)) (st.lane (r, lane)) .progress := by
  have hturn := hstuck.hostTurn hcur
  apply (h.ordered r lane).progress.blocked
  rcases hi with rfl | rfl | rfl | rfl <;> exact hturn

theorem blocked_peerProgress (h : Invariant C st) (hstuck : Stuck C st)
    {i : HostStep L} {lane : L}
    (hcur : current C.host (st.host r) = some i)
    (hi : i = .waitConsumer lane ∨ i = .reserve lane ∨ i = .postCredit lane) :
    Blocked (laneSession C lane (payload C (C.peer lane r) lane))
      (st.lane (C.peer lane r, lane)) .peerProgress := by
  have hturn := hstuck.hostTurn hcur
  apply (h.ordered (C.peer lane r) lane).peerProgress.blocked
  rcases hi with rfl | rfl | rfl <;> exact hturn

/-- Then everything posted is transmitted. -/
theorem posts_le_sent (h : Invariant C st) (hstuck : Stuck C st) (r : R) (lane : L) :
    (st.lane (r, lane)).payloadPosts + (st.lane (r, lane)).doorbellPosts ≤
      (st.lane (r, lane)).sent :=
  (h.ordered r lane).transmit.blocked (onLane_waiting (hstuck (.transmit r lane)))

theorem credits_le_sent (h : Invariant C st) (hstuck : Stuck C st) (r : R) (lane : L) :
    (st.lane (r, lane)).creditPosts ≤ (st.lane (r, lane)).creditsSent :=
  (h.ordered r lane).transmitCredit.blocked (onLane_waiting (hstuck (.transmitCredit r lane)))

/-! ## Nobody waits in a circle -/

theorem gpu_done (h : Invariant C st) (hc : HostCounts C st) (hstuck : Stuck C st) {place : ℕ}
    (hdone : ∀ k < place, HostDone C st k) : GpuDone C st place := by
  have hD := C.disciplined
  intro r i hcur hplace
  by_contra hshort
  have hlaunched : rounds C.gpu (st.gpu r) < C.launched := Nat.lt_of_not_le hshort
  have hround := times_of_current hD.nodup hcur
  cases i with
  | waitCredit lane =>
    obtain ⟨hwaits, -, hstagings⟩ := h.kernel_phase r lane
    have hpublish :=
      ((hD.credit_fill lane).trans (hD.fill_publish lane)).times_of_earlier hD.nodup hcur
    obtain ⟨-, hblocked⟩ := blocked_kernel h hstuck hcur (.inl rfl)
    have hsent := credits_le_sent h hstuck r lane
    -- The credit is that of the operation before the last: an earlier round of the peer.
    have hposts := (hc.receiver_phase (C.peer lane r) lane).2.2
    rw [C.peer_peer] at hposts
    have hstage := hostStage_lt C.toPrograms (.postCredit lane)
    rw [laneSession] at hblocked
    dsimp only at hblocked
    have howed : times C.host (.postCredit lane) (st.host (C.peer lane r)) ≤
        rounds C.gpu (st.gpu r) - 2 := by omega
    exact host_behind hdone (hD.reserve_credit lane).2.1 howed (by omega) (by omega)
  | fill lane =>
    obtain ⟨hwaits, -, hstagings⟩ := h.kernel_phase r lane
    have hcredit := (hD.credit_fill lane).times_of_later hD.nodup hcur
    have hpublish := (hD.fill_publish lane).times_of_earlier hD.nodup hcur
    obtain ⟨hblocked, -⟩ := blocked_kernel h hstuck hcur (.inr (.inl rfl))
    omega
  | publish lane =>
    obtain ⟨hwaits, -, hstagings⟩ := h.kernel_phase r lane
    have hcredit :=
      ((hD.credit_fill lane).trans (hD.fill_publish lane)).times_of_later hD.nodup hcur
    obtain ⟨hblocked, -⟩ := blocked_kernel h hstuck hcur (.inr (.inr rfl))
    omega
  | waitRemote lane =>
    obtain ⟨-, -, hreleases⟩ := h.peer_phase r lane
    have hrelease :=
      ((hD.remote_load lane).trans (hD.load_release lane)).times_of_earlier hD.nodup hcur
    obtain ⟨-, hblocked⟩ := blocked_peerKernel h hstuck hcur (.inl rfl)
    have hsent := posts_le_sent h hstuck (C.peer lane r) lane
    have hpace := (h.ordered (C.peer lane r) lane).pace.doorbellPosts_le
    have hposts := (hc.sender_phase (C.peer lane r) lane).2.2.2
    have hstage := doorbell_stage C.toPrograms lane
    rw [laneSession] at hblocked
    dsimp only at hblocked
    have howed : times C.host (.postDoorbell lane) (st.host (C.peer lane r)) ≤
        rounds C.gpu (st.gpu r) := by omega
    exact host_behind hdone (hD.payload_doorbell lane).2.1 howed hlaunched (by omega)
  | load lane =>
    obtain ⟨hwaits, -, hreleases⟩ := h.peer_phase r lane
    have hremote := (hD.remote_load lane).times_of_later hD.nodup hcur
    have hrelease := (hD.load_release lane).times_of_earlier hD.nodup hcur
    obtain ⟨hblocked, -⟩ := blocked_peerKernel h hstuck hcur (.inr (.inl rfl))
    omega
  | release lane =>
    obtain ⟨hwaits, -, hreleases⟩ := h.peer_phase r lane
    have hremote :=
      ((hD.remote_load lane).trans (hD.load_release lane)).times_of_later hD.nodup hcur
    obtain ⟨hblocked, -⟩ := blocked_peerKernel h hstuck hcur (.inr (.inr rfl))
    omega

theorem host_done (h : Invariant C st) (hc : HostCounts C st) (hstuck : Stuck C st) {place : ℕ}
    (hdone : ∀ k < place, GpuDone C st k) : HostDone C st place := by
  have hD := C.disciplined
  intro r i hcur hplace
  by_contra hshort
  have hlaunched : rounds C.host (st.host r) < C.launched := Nat.lt_of_not_le hshort
  have hround := times_of_current hD.host_nodup hcur
  cases i with
  | waitStaged lane =>
    obtain ⟨-, -, -, hdoorbells⟩ := hc.sender_phase r lane
    have hdoorbell := (((hD.staged_store lane).trans (hD.store_payload lane)).trans
      (hD.payload_doorbell lane)).times_of_earlier hD.host_nodup hcur
    obtain ⟨-, hblocked⟩ := blocked_progress h hstuck hcur (.inl rfl)
    have hstagings := (h.kernel_phase r lane).2.2
    have hstage := publish_stage C.toPrograms lane
    have howed : times C.gpu (.publish lane) (st.gpu r) ≤ rounds C.host (st.host r) := by omega
    exact gpu_behind hdone (hD.fill_publish lane).2.1 howed hlaunched (by omega)
  | store lane =>
    obtain ⟨hwaits, -, -, hdoorbells⟩ := hc.sender_phase r lane
    have hstaged := (hD.staged_store lane).times_of_later hD.host_nodup hcur
    have hdoorbell := ((hD.store_payload lane).trans
      (hD.payload_doorbell lane)).times_of_earlier hD.host_nodup hcur
    obtain ⟨hblocked, -⟩ := blocked_progress h hstuck hcur (.inr (.inl rfl))
    omega
  | postPayload lane =>
    obtain ⟨hwaits, -, -, hdoorbells⟩ := hc.sender_phase r lane
    have hstaged :=
      ((hD.staged_store lane).trans (hD.store_payload lane)).times_of_later hD.host_nodup hcur
    have hdoorbell := (hD.payload_doorbell lane).times_of_earlier hD.host_nodup hcur
    obtain ⟨hblocked, -⟩ := blocked_progress h hstuck hcur (.inr (.inr (.inl rfl)))
    omega
  | postDoorbell lane =>
    obtain ⟨hwaits, -, -, hdoorbells⟩ := hc.sender_phase r lane
    have hstaged := (((hD.staged_store lane).trans (hD.store_payload lane)).trans
      (hD.payload_doorbell lane)).times_of_later hD.host_nodup hcur
    obtain ⟨hblocked, -⟩ := blocked_progress h hstuck hcur (.inr (.inr (.inr rfl)))
    omega
  | waitConsumer lane =>
    obtain ⟨-, -, hcredits⟩ := hc.receiver_phase r lane
    have hcredit := ((hD.consumer_reserve lane).trans
      (hD.reserve_credit lane)).times_of_earlier hD.host_nodup hcur
    obtain ⟨-, hblocked⟩ := blocked_peerProgress h hstuck hcur (.inl rfl)
    have hreleases := (h.peer_phase r lane).2.2
    have hstage := release_stage C.toPrograms lane
    have howed : times C.gpu (.release lane) (st.gpu r) ≤ rounds C.host (st.host r) := by omega
    exact gpu_behind hdone (hD.load_release lane).2.1 howed hlaunched (by omega)
  | reserve lane =>
    obtain ⟨hwaits, -, hcredits⟩ := hc.receiver_phase r lane
    have hconsumer := (hD.consumer_reserve lane).times_of_later hD.host_nodup hcur
    have hcredit := (hD.reserve_credit lane).times_of_earlier hD.host_nodup hcur
    obtain ⟨hblocked, -⟩ := blocked_peerProgress h hstuck hcur (.inr (.inl rfl))
    omega
  | postCredit lane =>
    obtain ⟨hwaits, -, hcredits⟩ := hc.receiver_phase r lane
    have hconsumer := ((hD.consumer_reserve lane).trans
      (hD.reserve_credit lane)).times_of_later hD.host_nodup hcur
    obtain ⟨hblocked, -⟩ := blocked_peerProgress h hstuck hcur (.inr (.inr rfl))
    omega

/-- By descent along the places: what a stuck thread waits for is owed by an earlier one. -/
theorem threads_done (h : Invariant C st) (hc : HostCounts C st) (hstuck : Stuck C st)
    (place : ℕ) : GpuDone C st place ∧ HostDone C st place := by
  induction place using Nat.strong_induction_on with
  | _ place ih =>
    have hgpu := fun k hk => (ih k hk).1
    have hhost := fun k hk => (ih k hk).2
    exact ⟨gpu_done h hc hstuck hhost, host_done h hc hstuck hgpu⟩

/-- The kernels, the progress threads and the endpoints of all ranks are never all waiting for one
another before every rank has put out every launched operation. -/
theorem goes_on_until_put_out (C : AllReduce.Session R L α) (events : List (Event R L)) :
    (∃ event st', AllReduce.turn C (AllReduce.run C events) event = .done st') ∨
      ∀ r lane, ((AllReduce.run C events).sums r lane).length = C.launched := by
  have h := run_invariant C events
  have hc := run_hostCounts C events
  have hD := C.disciplined
  by_cases hgoes : ∃ event st', AllReduce.turn C (AllReduce.run C events) event = .done st'
  · exact .inl hgoes
  · have hstuck : Stuck C (AllReduce.run C events) := by
      intro event
      rcases h.keeps event with hwaiting | ⟨st', hdone, -⟩
      · exact hwaiting
      · exact absurd ⟨event, st', hdone⟩ hgoes
    right
    intro r lane
    have hload : GpuStep.load lane ∈ C.gpu := (hD.load_release lane).1
    have huses : ((AllReduce.run C events).lane (C.peer lane r, lane)).uses =
        times C.gpu (.load lane) ((AllReduce.run C events).gpu r) := h.counts r (.load lane)
    rw [h.sums r lane, List.length_map, List.length_range]
    apply Nat.le_antisymm
    · have hpace := (h.ordered (C.peer lane r) lane).pace
      have hlaunched := hpace.creditWaits_le_launched
      rw [laneSession] at hlaunched
      dsimp only at hlaunched
      cases hpace
      omega
    · obtain ⟨i, hcur⟩ := current_isSome ((AllReduce.run C events).gpu r) (List.length_pos_of_mem hload)
      have hdone := (threads_done h hc hstuck _).1 r i hcur rfl
      rw [times_eq_idxOf hD.nodup hload]
      exact hdone.trans (Nat.le_add_right _ _)

end

end SparkKit.Tp4.AllReduceProgress
