import SparkKit.Tp4.AllReduce

/-!
# Runs of the all-reduce

A rank makes the steps of its program on lanes that other ranks work on as well. Each lane keeps
the invariant of `DeferredCredits` for the payloads that the ranks ought to send, and the order
of the steps makes the kernels fill the send buffers with these.
-/
namespace SparkKit.Tp4.AllReduceRun

open SparkKit.Lib.CyclicProgram SparkKit.Lib.History SparkKit.Lib.SlotTurns
open SparkKit.Tp4.DeferredCredits SparkKit.Tp4.AllReduce

variable {R L α : Type*}

/-- How often a lane has seen a step of the kernels. -/
def counter (s : Lane α) : GpuStep L → ℕ
  | .waitCredit _ => s.creditWaits
  | .fill _ => s.fills
  | .publish _ => s.stagings
  | .waitRemote _ => s.remoteWaits
  | .load _ => s.uses
  | .release _ => s.consumptions

/-! ## Steps of a lane -/

section
variable {D : DeferredCredits.Session α} {s s' : Lane α}

/-- The next of the three steps of the kernel is the one that is behind. -/
theorem kernelStep_counters (h : kernelStep D s = .done s') :
    (s'.remoteWaits = s.remoteWaits ∧ s'.uses = s.uses ∧ s'.consumptions = s.consumptions) ∧
      ((s.creditWaits < s.stagings + 1 ∧ s'.creditWaits = s.stagings + 1 ∧ s'.fills = s.fills ∧
          s'.stagings = s.stagings) ∨
        (s.stagings + 1 ≤ s.creditWaits ∧ s.fills < s.stagings + 1 ∧
          s'.creditWaits = s.creditWaits ∧ s'.fills = s.stagings + 1 ∧ s'.stagings = s.stagings) ∨
        (s.stagings + 1 ≤ s.creditWaits ∧ s.stagings + 1 ≤ s.fills ∧
          s'.creditWaits = s.creditWaits ∧ s'.fills = s.fills ∧ s'.stagings = s.stagings + 1)) := by
  rw [kernelStep] at h
  split at h
  · next hwait =>
    split at h
    · cases h
    · cases waitForSequence_done h
      exact ⟨⟨rfl, rfl, rfl⟩, .inl ⟨hwait, rfl, rfl, rfl⟩⟩
  · next hwait =>
    have hwaited := Nat.le_of_not_lt hwait
    split at h
    · next hfill =>
      cases h
      exact ⟨⟨rfl, rfl, rfl⟩, .inr (.inl ⟨hwaited, hfill, rfl, rfl, rfl⟩)⟩
    · next hfill =>
      have hfilled := Nat.le_of_not_lt hfill
      split at h <;> cases h <;>
        exact ⟨⟨rfl, rfl, rfl⟩, .inr (.inr ⟨hwaited, hfilled, rfl, rfl, rfl⟩)⟩

theorem peerKernelStep_counters (h : peerKernelStep D s = .done s') :
    (s'.creditWaits = s.creditWaits ∧ s'.fills = s.fills ∧ s'.stagings = s.stagings) ∧
      ((s.remoteWaits < s.consumptions + 1 ∧ s'.remoteWaits = s.consumptions + 1 ∧
          s'.uses = s.uses ∧ s'.consumptions = s.consumptions) ∨
        (s.consumptions + 1 ≤ s.remoteWaits ∧ s.uses < s.consumptions + 1 ∧
          s'.remoteWaits = s.remoteWaits ∧ s'.uses = s.consumptions + 1 ∧
          s'.consumptions = s.consumptions) ∨
        (s.consumptions + 1 ≤ s.remoteWaits ∧ s.consumptions + 1 ≤ s.uses ∧
          s'.remoteWaits = s.remoteWaits ∧ s'.uses = s.uses ∧
          s'.consumptions = s.consumptions + 1)) := by
  rw [peerKernelStep] at h
  split at h
  · next hwait =>
    split at h
    · cases h
    · cases waitForSequence_done h
      exact ⟨⟨rfl, rfl, rfl⟩, .inl ⟨hwait, rfl, rfl, rfl⟩⟩
  · next hwait =>
    have hwaited := Nat.le_of_not_lt hwait
    split at h
    · next huse =>
      cases h
      exact ⟨⟨rfl, rfl, rfl⟩, .inr (.inl ⟨hwaited, huse, rfl, rfl, rfl⟩)⟩
    · next huse =>
      cases h
      exact ⟨⟨rfl, rfl, rfl⟩, .inr (.inr ⟨hwaited, Nat.le_of_not_lt huse, rfl, rfl, rfl⟩)⟩

/-- Progress threads and send queues leave the steps of the kernels alone. -/
theorem progressStep_counter (h : progressStep D s = .done s') (i : GpuStep L) :
    counter s' i = counter s i := by
  rw [progressStep] at h
  split at h
  · cases waitForSequence_done h
    cases i <;> rfl
  · split at h
    · cases h
      cases i <;> rfl
    · split at h <;> cases h <;> cases i <;> rfl

theorem peerProgressStep_counter (h : peerProgressStep D s = .done s') (i : GpuStep L) :
    counter s' i = counter s i := by
  rw [peerProgressStep] at h
  split at h
  · cases waitForSequence_done h
    cases i <;> rfl
  · split at h <;> cases h <;> cases i <;> rfl

theorem transmitStep_counter (h : transmitStep s = .done s') (i : GpuStep L) :
    counter s' i = counter s i := by
  rw [transmitStep] at h
  split at h <;> cases h <;> cases i <;> rfl

theorem transmitCreditStep_counter (h : transmitCreditStep s = .done s') (i : GpuStep L) :
    counter s' i = counter s i := by
  rw [transmitCreditStep] at h
  split at h <;> cases h
  cases i <;> rfl

end

variable [DecidableEq L] (C : Session R L α)

/-- The lanes are sound with the payloads above, the kernels have made on them the steps of
their program, and what they added up are the totals. -/
structure Invariant (st : State R L α) : Prop where
  ordered : ∀ r lane, Ordered (laneSession C lane (payload C r lane)) (st.lane (r, lane))
  counts : ∀ r i, counter (st.lane (owner C r i)) i = times C.gpu i (st.gpu r)
  sums : ∀ r lane, st.sums r lane =
    (List.range (times C.gpu (.load lane) (st.gpu r))).map fun i => total C r lane (i + 1)

theorem invariant_initial : Invariant C (AllReduce.initial C) := by
  constructor
  case ordered => exact fun r lane => ordered_initial (laneSession C lane (payload C r lane))
  case counts =>
    intro r i
    cases i <;> exact (times_zero _ _).symm
  case sums =>
    intro r lane
    rw [AllReduce.initial, times_zero]
    rfl

variable {C}

theorem owner_inj {r r' : R} {i : GpuStep L} (h : owner C r i = owner C r' i) : r = r' := by
  cases i with
  | waitCredit lane | fill lane | publish lane => exact congrArg Prod.fst h
  | waitRemote lane | load lane | release lane =>
    have hpeer : C.peer lane r = C.peer lane r' := congrArg Prod.fst h
    rw [← C.peer_peer lane r, hpeer, C.peer_peer]

/-- Only the step that fills the send buffer looks at the payload. -/
theorem kernelStep_congr {lane : L} {s : Lane α} {p p' : ℕ → α}
    (h : s.stagings + 1 ≤ s.creditWaits → s.fills < s.stagings + 1 →
      p (s.stagings + 1) = p' (s.stagings + 1)) :
    kernelStep (laneSession C lane p) s = kernelStep (laneSession C lane p') s := by
  rw [kernelStep, kernelStep]
  by_cases hwait : s.creditWaits < s.stagings + 1
  · rw [if_pos hwait, if_pos hwait]
    rfl
  · rw [if_neg hwait, if_neg hwait]
    by_cases hfill : s.fills < s.stagings + 1
    · have hpayload := h (Nat.le_of_not_lt hwait) hfill
      rw [if_pos hfill, if_pos hfill]
      simp only [laneSession, hpayload]
    · rw [if_neg hfill, if_neg hfill]
      rfl

theorem owner_lane (r : R) (i : GpuStep L) : (owner C r i).2 = i.lane := by
  cases i <;> rfl

/-! ## Turns of the kernels -/

variable {st : State R L α} {r : R} {i : GpuStep L}

/-- At the fill of a lane, the last sum of the lane it comes from is that of this operation. -/
theorem Invariant.filling_eq (h : Invariant C st) {lane : L}
    (hcur : current C.gpu (st.gpu r) = some (.fill lane)) :
    filling C st r lane = payload C r lane ((st.lane (r, lane)).stagings + 1) := by
  have hD := C.disciplined
  cases hsource : C.source lane with
  | none => rw [filling, payload, hsource]
  | some source =>
    have hstagings : (st.lane (r, lane)).stagings = rounds C.gpu (st.gpu r) :=
      (h.counts r (.publish lane)).trans ((hD.fill_publish lane).times_of_earlier hD.nodup hcur)
    have hloads := (hD.load_fill lane source hsource).times_of_later hD.nodup hcur
    rw [filling, hsource, ← total_source C hsource, hstagings]
    dsimp only
    rw [h.sums, hloads, List.range_succ, List.map_append, List.map_singleton,
      List.getLast?_concat, Option.getD_some]

/-- What is loaded from a lane is what was sent on it and what the peer sent. -/
theorem Invariant.loading_eq (h : Invariant C st) {lane : L}
    (hcur : current C.gpu (st.gpu r) = some (.load lane)) :
    loading C st r lane = total C r lane (times C.gpu (.load lane) (st.gpu r) + 1) := by
  have hD := C.disciplined
  have hloads : (st.lane (C.peer lane r, lane)).uses = times C.gpu (.load lane) (st.gpu r) :=
    h.counts r (.load lane)
  have hround := times_of_current hD.nodup hcur
  have hwaits : (st.lane (C.peer lane r, lane)).remoteWaits = rounds C.gpu (st.gpu r) + 1 :=
    (h.counts r (.waitRemote lane)).trans ((hD.remote_load lane).times_of_later hD.nodup hcur)
  have hfills : (st.lane (r, lane)).fills = rounds C.gpu (st.gpu r) + 1 :=
    (h.counts r (.fill lane)).trans ((hD.fill_load lane).times_of_later hD.nodup hcur)
  have hsend := (h.ordered r lane).send.read (s := rounds C.gpu (st.gpu r) + 1)
    (Nat.le_add_left 1 _) (by omega) (by omega)
  have hreceive := (h.ordered (C.peer lane r) lane).receive_read (by omega)
  rw [loading, total, hreceive, hloads, hround, slotIndex_eq, hsend]
  rfl

/-- How far the kernels are with a lane when they come to send on it, and to receive. -/
theorem Invariant.kernel_phase (h : Invariant C st) (r : R) (lane : L) :
    (st.lane (r, lane)).creditWaits = times C.gpu (.waitCredit lane) (st.gpu r) ∧
      (st.lane (r, lane)).fills = times C.gpu (.fill lane) (st.gpu r) ∧
      (st.lane (r, lane)).stagings = times C.gpu (.publish lane) (st.gpu r) :=
  ⟨h.counts r (.waitCredit lane), h.counts r (.fill lane), h.counts r (.publish lane)⟩

theorem Invariant.peer_phase (h : Invariant C st) (r : R) (lane : L) :
    (st.lane (C.peer lane r, lane)).remoteWaits = times C.gpu (.waitRemote lane) (st.gpu r) ∧
      (st.lane (C.peer lane r, lane)).uses = times C.gpu (.load lane) (st.gpu r) ∧
      (st.lane (C.peer lane r, lane)).consumptions = times C.gpu (.release lane) (st.gpu r) :=
  ⟨h.counts r (.waitRemote lane), h.counts r (.load lane), h.counts r (.release lane)⟩

/-- The turns that a lane takes for its sender are those with the payload it ought to carry. -/
theorem Invariant.kernelStep_eq (h : Invariant C st) (hcur : current C.gpu (st.gpu r) = some i)
    {lane : L} (hi : i = .waitCredit lane ∨ i = .fill lane ∨ i = .publish lane) :
    kernelStep (laneSession C lane fun _ => filling C st r lane) (st.lane (r, lane)) =
      kernelStep (laneSession C lane (payload C r lane)) (st.lane (r, lane)) := by
  have hD := C.disciplined
  obtain ⟨hwaits, hfills, hstagings⟩ := h.kernel_phase r lane
  apply kernelStep_congr
  intro hwaited hfill
  rcases hi with rfl | rfl | rfl
  · have hround := times_of_current hD.nodup hcur
    have hlater := ((hD.credit_fill lane).trans (hD.fill_publish lane)).times_of_earlier hD.nodup hcur
    omega
  · exact h.filling_eq hcur
  · have hround := times_of_current hD.nodup hcur
    have hearlier := (hD.fill_publish lane).times_of_later hD.nodup hcur
    omega

/-- A turn of the kernels waits, or makes the step of the program on its lane. -/
theorem Invariant.gpuTurn (h : Invariant C st) (hcur : current C.gpu (st.gpu r) = some i) :
    gpuTurn C st r i = .waiting ∨ ∃ s', gpuTurn C st r i = .done s' ∧
      Ordered (laneSession C (owner C r i).2 (payload C (owner C r i).1 (owner C r i).2)) s' ∧
      ∀ j : GpuStep L, j.lane = i.lane →
        counter s' j = counter (st.lane (owner C r i)) j + if j = i then 1 else 0 := by
  have hD := C.disciplined
  have hround := times_of_current hD.nodup hcur
  cases i with
  | waitCredit lane =>
    have hfill := (hD.credit_fill lane).times_of_earlier hD.nodup hcur
    have hpublish :=
      ((hD.credit_fill lane).trans (hD.fill_publish lane)).times_of_earlier hD.nodup hcur
    obtain ⟨hwaits, hfills, hstagings⟩ := h.kernel_phase r lane
    rw [AllReduce.gpuTurn, h.kernelStep_eq hcur (.inl rfl)]
    rcases (h.ordered r lane).kernel with ⟨hturn, -⟩ | ⟨s', hturn, hs'⟩
    · exact .inl hturn
    · refine .inr ⟨s', hturn, hs', ?_⟩
      obtain ⟨⟨hr, hu, hc⟩, hcases⟩ := kernelStep_counters hturn
      intro j hj
      cases j <;> cases hj <;> simp [counter, owner] <;> omega
  | fill lane =>
    have hcredit := (hD.credit_fill lane).times_of_later hD.nodup hcur
    have hpublish := (hD.fill_publish lane).times_of_earlier hD.nodup hcur
    obtain ⟨hwaits, hfills, hstagings⟩ := h.kernel_phase r lane
    rw [AllReduce.gpuTurn, h.kernelStep_eq hcur (.inr (.inl rfl))]
    rcases (h.ordered r lane).kernel with ⟨hturn, -⟩ | ⟨s', hturn, hs'⟩
    · exact .inl hturn
    · refine .inr ⟨s', hturn, hs', ?_⟩
      obtain ⟨⟨hr, hu, hc⟩, hcases⟩ := kernelStep_counters hturn
      intro j hj
      cases j <;> cases hj <;> simp [counter, owner] <;> omega
  | publish lane =>
    have hcredit :=
      ((hD.credit_fill lane).trans (hD.fill_publish lane)).times_of_later hD.nodup hcur
    have hfill := (hD.fill_publish lane).times_of_later hD.nodup hcur
    obtain ⟨hwaits, hfills, hstagings⟩ := h.kernel_phase r lane
    rw [AllReduce.gpuTurn, h.kernelStep_eq hcur (.inr (.inr rfl))]
    rcases (h.ordered r lane).kernel with ⟨hturn, -⟩ | ⟨s', hturn, hs'⟩
    · exact .inl hturn
    · refine .inr ⟨s', hturn, hs', ?_⟩
      obtain ⟨⟨hr, hu, hc⟩, hcases⟩ := kernelStep_counters hturn
      intro j hj
      cases j <;> cases hj <;> simp [counter, owner] <;> omega
  | waitRemote lane =>
    have hload := (hD.remote_load lane).times_of_earlier hD.nodup hcur
    have hrelease :=
      ((hD.remote_load lane).trans (hD.load_release lane)).times_of_earlier hD.nodup hcur
    obtain ⟨hwaits, huses, hreleases⟩ := h.peer_phase r lane
    rcases (h.ordered (C.peer lane r) lane).peerKernel with ⟨hturn, -⟩ | ⟨s', hturn, hs'⟩
    · exact .inl hturn
    · refine .inr ⟨s', hturn, hs', ?_⟩
      obtain ⟨⟨hr, hu, hc⟩, hcases⟩ := peerKernelStep_counters hturn
      intro j hj
      cases j <;> cases hj <;> simp [counter, owner] <;> omega
  | load lane =>
    have hremote := (hD.remote_load lane).times_of_later hD.nodup hcur
    have hrelease := (hD.load_release lane).times_of_earlier hD.nodup hcur
    obtain ⟨hwaits, huses, hreleases⟩ := h.peer_phase r lane
    rcases (h.ordered (C.peer lane r) lane).peerKernel with ⟨hturn, -⟩ | ⟨s', hturn, hs'⟩
    · exact .inl hturn
    · refine .inr ⟨s', hturn, hs', ?_⟩
      obtain ⟨⟨hr, hu, hc⟩, hcases⟩ := peerKernelStep_counters hturn
      intro j hj
      cases j <;> cases hj <;> simp [counter, owner] <;> omega
  | release lane =>
    have hremote :=
      ((hD.remote_load lane).trans (hD.load_release lane)).times_of_later hD.nodup hcur
    have hload := (hD.load_release lane).times_of_later hD.nodup hcur
    obtain ⟨hwaits, huses, hreleases⟩ := h.peer_phase r lane
    rcases (h.ordered (C.peer lane r) lane).peerKernel with ⟨hturn, -⟩ | ⟨s', hturn, hs'⟩
    · exact .inl hturn
    · refine .inr ⟨s', hturn, hs', ?_⟩
      obtain ⟨⟨hr, hu, hc⟩, hcases⟩ := peerKernelStep_counters hturn
      intro j hj
      cases j <;> cases hj <;> simp [counter, owner] <;> omega

/-! ## Events -/

section
variable [DecidableEq R]

/-- A lane is replaced by one that keeps its invariant. -/
theorem ordered_update (h : Invariant C st) {p : R × L} {s' : Lane α}
    (hs' : Ordered (laneSession C p.2 (payload C p.1 p.2)) s') (r : R) (lane : L) :
    Ordered (laneSession C lane (payload C r lane)) (Function.update st.lane p s' (r, lane)) := by
  by_cases hp : (r, lane) = p
  · subst hp
    rwa [Function.update_self]
  · rw [Function.update_of_ne hp]
    exact h.ordered r lane

/-- A thread makes the step of its program on the lane that the step is about. -/
theorem counts_update {ι : Type*} [DecidableEq ι] (owner : R → ι → R × L) {laneOf : ι → L}
    {count : Lane α → ι → ℕ} {prog : List ι} {pos : R → ℕ} {lanes : R × L → Lane α}
    (hinj : ∀ {r r' i}, owner r i = owner r' i → r = r') (hlane : ∀ r i, (owner r i).2 = laneOf i)
    (hcounts : ∀ r i, count (lanes (owner r i)) i = times prog i (pos r)) {r : R} {i : ι}
    (hcur : current prog (pos r) = some i) {s' : Lane α}
    (hcount : ∀ j, laneOf j = laneOf i →
      count s' j = count (lanes (owner r i)) j + if j = i then 1 else 0) (r' : R) (j : ι) :
    count (Function.update lanes (owner r i) s' (owner r' j)) j =
      times prog j (Function.update pos r (pos r + 1) r') := by
  rw [times_update hcur, ← hcounts r' j]
  by_cases howner : owner r' j = owner r i
  · have hsame : laneOf j = laneOf i := by
      rw [← hlane r' j, howner, hlane]
    rw [howner, Function.update_self, hcount j hsame]
    by_cases hj : j = i
    · subst hj
      have hr : r' = r := hinj howner
      rw [if_pos rfl, if_pos ⟨hr, rfl⟩]
    · rw [if_neg hj, if_neg (fun hboth => hj hboth.2)]
  · rw [Function.update_of_ne howner, if_neg, Nat.add_zero]
    rintro ⟨rfl, rfl⟩
    exact howner rfl

/-- A load adds its total to the sums of its rank and lane. -/
theorem Invariant.sums_load (h : Invariant C st) {lane : L}
    (hcur : current C.gpu (st.gpu r) = some (.load lane)) (r' : R) (lane' : L) :
    (addSum r lane (loading C st r lane) st).sums r' lane' =
      (List.range (times C.gpu (.load lane') (Function.update st.gpu r (st.gpu r + 1) r'))).map
        fun k => total C r' lane' (k + 1) := by
  rw [times_update hcur, addSum]
  dsimp only
  by_cases hr : r' = r
  · subst hr
    rw [Function.update_self]
    by_cases hlane : lane' = lane
    · subst hlane
      rw [Function.update_self, if_pos ⟨rfl, rfl⟩, List.range_succ, List.map_append,
        List.map_singleton, ← h.sums, h.loading_eq hcur]
    · rw [Function.update_of_ne hlane, if_neg, Nat.add_zero, h.sums]
      rintro ⟨-, hload⟩
      cases hload
      exact hlane rfl
  · rw [Function.update_of_ne hr, if_neg (fun hboth => hr hboth.1), Nat.add_zero, h.sums]

theorem Invariant.sums_other (h : Invariant C st) (hcur : current C.gpu (st.gpu r) = some i)
    (hi : ∀ lane, i ≠ .load lane) (r' : R) (lane : L) :
    st.sums r' lane =
      (List.range (times C.gpu (.load lane) (Function.update st.gpu r (st.gpu r + 1) r'))).map
        fun k => total C r' lane (k + 1) := by
  rw [times_update hcur, if_neg (fun hboth => hi lane hboth.2.symm), Nat.add_zero, h.sums]

/-- What an event does to a state that keeps the invariant. -/
def Keeps (st : State R L α) (event : Event R L) : Prop :=
  AllReduce.turn C st event = .waiting ∨
    ∃ st', AllReduce.turn C st event = .done st' ∧ Invariant C st'

theorem Invariant.gpu (h : Invariant C st) (r : R) : Keeps (C := C) st (.gpu r) := by
  rw [Keeps, AllReduce.turn, gpuStep]
  cases hcur : current C.gpu (st.gpu r) with
  | none => exact .inl rfl
  | some i =>
    rcases h.gpuTurn hcur with hturn | ⟨s', hturn, hs', hcount⟩
    · cases i <;> exact .inl (by dsimp only; rw [hturn]; rfl)
    · cases i with
      | load lane =>
        dsimp only
        rw [hturn]
        exact .inr ⟨_, rfl, ordered_update h hs', counts_update (owner C) owner_inj owner_lane h.counts hcur hcount, h.sums_load hcur⟩
      | waitCredit lane | fill lane | publish lane | waitRemote lane | release lane =>
        dsimp only
        rw [hturn]
        refine .inr ⟨_, rfl, ordered_update h hs', counts_update (owner C) owner_inj owner_lane h.counts hcur hcount, ?_⟩
        apply h.sums_other hcur
        intro lane' hload
        cases hload

/-- The other agents leave the steps of the kernels alone. -/
theorem Invariant.onLane (h : Invariant C st) {p : R × L} {st' : State R L α} {s' : Lane α}
    (hs' : Ordered (laneSession C p.2 (payload C p.1 p.2)) s')
    (hcount : ∀ j : GpuStep L, counter s' j = counter (st.lane p) j)
    (hlane : st'.lane = Function.update st.lane p s') (hgpu : st'.gpu = st.gpu)
    (hsums : st'.sums = st.sums) : Invariant C st' := by
  constructor
  case ordered =>
    rw [hlane]
    exact ordered_update h hs'
  case counts =>
    intro r j
    rw [hlane, hgpu, ← h.counts r j]
    by_cases howner : owner C r j = p
    · rw [howner, Function.update_self, hcount]
    · rw [Function.update_of_ne howner]
  case sums =>
    rw [hgpu, hsums]
    exact h.sums

theorem Invariant.host (h : Invariant C st) (r : R) : Keeps (C := C) st (.host r) := by
  rw [Keeps, AllReduce.turn, hostStep]
  cases hcur : current C.host (st.host r) with
  | none => exact .inl rfl
  | some i =>
    cases i with
    | waitStaged lane | store lane | postPayload lane | postDoorbell lane =>
      dsimp only
      rcases (h.ordered r lane).progress with ⟨hturn, -⟩ | ⟨s', hturn, hs'⟩
      · have hstep : progressStep (laneSession C lane fun _ => C.cleared) (st.lane (r, lane)) =
            .waiting := hturn
        rw [hostTurn, hstep]
        exact .inl rfl
      · have hstep : progressStep (laneSession C lane fun _ => C.cleared) (st.lane (r, lane)) =
            .done s' := hturn
        rw [hostTurn, hstep]
        exact .inr ⟨_, rfl, h.onLane hs' (progressStep_counter hturn) rfl rfl rfl⟩
    | waitConsumer lane | reserve lane | postCredit lane =>
      dsimp only
      rcases (h.ordered (C.peer lane r) lane).peerProgress with ⟨hturn, -⟩ | ⟨s', hturn, hs'⟩
      · have hstep : peerProgressStep (laneSession C lane fun _ => C.cleared)
            (st.lane (C.peer lane r, lane)) = .waiting := hturn
        rw [hostTurn, hstep]
        exact .inl rfl
      · have hstep : peerProgressStep (laneSession C lane fun _ => C.cleared)
            (st.lane (C.peer lane r, lane)) = .done s' := hturn
        rw [hostTurn, hstep]
        exact .inr ⟨_, rfl, h.onLane hs' (peerProgressStep_counter hturn) rfl rfl rfl⟩

theorem Invariant.transmit (h : Invariant C st) (r : R) (lane : L) :
    Keeps (C := C) st (.transmit r lane) := by
  rw [Keeps, AllReduce.turn]
  rcases (h.ordered r lane).transmit with ⟨hturn, -⟩ | ⟨s', hturn, hs'⟩
  · have hstep : transmitStep (st.lane (r, lane)) = .waiting := hturn
    rw [hstep]
    exact .inl rfl
  · have hstep : transmitStep (st.lane (r, lane)) = .done s' := hturn
    rw [hstep]
    exact .inr ⟨_, rfl, h.onLane hs' (transmitStep_counter hturn) rfl rfl rfl⟩

theorem Invariant.transmitCredit (h : Invariant C st) (r : R) (lane : L) :
    Keeps (C := C) st (.transmitCredit r lane) := by
  rw [Keeps, AllReduce.turn]
  rcases (h.ordered r lane).transmitCredit with ⟨hturn, -⟩ | ⟨s', hturn, hs'⟩
  · have hstep : transmitCreditStep (st.lane (r, lane)) = .waiting := hturn
    rw [hstep]
    exact .inl rfl
  · have hstep : transmitCreditStep (st.lane (r, lane)) = .done s' := hturn
    rw [hstep]
    exact .inr ⟨_, rfl, h.onLane hs' (transmitCreditStep_counter hturn) rfl rfl rfl⟩

theorem Invariant.keeps (h : Invariant C st) (event : Event R L) : Keeps (C := C) st event := by
  cases event with
  | gpu r => exact h.gpu r
  | host r => exact h.host r
  | transmit r lane => exact h.transmit r lane
  | transmitCredit r lane => exact h.transmitCredit r lane

theorem run_invariant (C : Session R L α) (events : List (Event R L)) :
    Invariant C (AllReduce.run C events) := by
  induction events using List.reverseRecOn with
  | nil => exact invariant_initial C
  | append_singleton events event ih =>
    rw [AllReduce.run, runFrom_concat, ← AllReduce.run, AllReduce.step]
    rcases ih.keeps event with hturn | ⟨st', hturn, hst'⟩
    · rwa [hturn]
    · rwa [hturn]

/-! ## Every run -/

/-- What a rank gets for an operation from the lane that carries the sums. -/
def reduction (C : Session R L α) (r : R) (lane source : L) (s : ℕ) : α :=
  let first (r : R) := C.add (C.input r source s) (C.input (C.peer source r) source s)
  C.add (first r) (first (C.peer lane r))

/-- However kernels, progress threads and endpoints of all ranks interleave, no exact wait meets
a wrong token, and what a rank has put out are the sums of the inputs, operation by operation. -/
theorem outputs_in_order (C : Session R L α) (events : List (Event R L)) :
    (∀ event, AllReduce.turn C (AllReduce.run C events) event ≠ .mismatched) ∧
      ∀ r lane source, C.source lane = some source →
        (AllReduce.run C events).sums r lane =
          (List.range ((AllReduce.run C events).sums r lane).length).map
            fun i => reduction C r lane source (i + 1) := by
  have h := run_invariant C events
  constructor
  · intro event hturn
    rcases h.keeps event with hwaiting | ⟨st', hdone, -⟩
    · rw [hwaiting] at hturn
      cases hturn
    · rw [hdone] at hturn
      cases hturn
  · intro r lane source hsource
    have htotal : ∀ i, total C r lane (i + 1) = reduction C r lane source (i + 1) := by
      intro i
      rw [total, payload, payload, hsource, reduction]
    rw [h.sums r lane, List.length_map, List.length_range]
    exact List.map_congr_left fun i _ => htotal i

end

end SparkKit.Tp4.AllReduceRun
