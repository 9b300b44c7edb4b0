import SparkKit.Sched.Frames
import SparkKit.Sched.RunningBooks

/-!
# Positive bookings

`update_from_output` asserts that a step booked at least one token for each of its requests. The
running loop passes over a request only if nothing is left of it: one that is ahead of its tokens,
as a request with drafts is between its step and the output, would be booked for less than none.
-/
namespace SparkKit.Sched.PositiveBookings

open SparkKit.Lib.Outcome SparkKit.Sched.Requests SparkKit.Sched.StepState SparkKit.Sched.Running
open SparkKit.Sched.Waiting SparkKit.Sched.Schedule SparkKit.Sched.RunningBooks SparkKit.Sched.Frames

def BookedPositive (booked : ReqDict ℤ) : Prop := ∀ entry ∈ booked.entries, 0 < entry.2

instance (booked : ReqDict ℤ) : Decidable (BookedPositive booked) :=
  inferInstanceAs (Decidable (∀ entry ∈ booked.entries, 0 < entry.2))

theorem bookedPositive_iff {booked : ReqDict ℤ} :
    BookedPositive booked ↔ ∀ id n, booked.lookup id = some n → 0 < n :=
  ⟨fun h id n hn => h ⟨id, n⟩ (AList.mem_lookup_iff.mp hn),
    fun h entry hentry => h entry.1 entry.2 (AList.mem_lookup_iff.mpr hentry)⟩

theorem BookedPositive.insert {booked : ReqDict ℤ} (h : BookedPositive booked) (id : ReqId) {n : ℤ}
    (hn : 0 < n) : BookedPositive (booked.insert id n) := by
  rw [bookedPositive_iff] at h ⊢
  intro x k hx
  by_cases hxid : x = id
  · subst hxid
    rw [AList.lookup_insert] at hx
    obtain rfl := Option.some.inj hx
    exact hn
  · rw [AList.lookup_insert_ne hxid] at hx
    exact h x k hx

/-- A request has not computed more than it has, and has room for the next token. -/
structure NotAhead (cfg : SchedulerConfig) (r : Request) : Prop where
  left : 0 ≤ tokensLeft r
  room : r.numComputedTokens + cfg.numSampledTokensPerStep ≤ cfg.maxModelLen

instance (cfg : SchedulerConfig) (r : Request) : Decidable (NotAhead cfg r) :=
  decidable_of_iff (0 ≤ tokensLeft r ∧
    r.numComputedTokens + cfg.numSampledTokensPerStep ≤ cfg.maxModelLen)
    ⟨fun h => ⟨h.1, h.2⟩, fun h => ⟨h.left, h.room⟩⟩

/-- No running request is ahead of its tokens. -/
def NoneAhead (cfg : SchedulerConfig) (s : Scheduler) : Prop :=
  ∀ id ∈ s.running, NotAhead cfg (s.requests id)

instance (cfg : SchedulerConfig) (s : Scheduler) : Decidable (NoneAhead cfg s) :=
  inferInstanceAs (Decidable (∀ id ∈ s.running, NotAhead cfg (s.requests id)))

section
variable {cfg : SchedulerConfig} {env : Env} {ctx : StepContext} {s : Scheduler}

theorem runningTurn_positive (hwindow : env.WindowBounded) (hahead : NoneAhead cfg s)
    {st st' : State} {id : ReqId} {stop : Bool} (hlisted : st.sched.running.Sublist s.running)
    (hloop : LoopInv cfg s st) (h : BookedPositive st.led.numScheduledTokens)
    (hid : st.sched.running[st.led.reqIndex]? = some id) (hbudget : 0 < st.led.tokenBudget)
    (hturn : runningTurn cfg env ctx st id = .ok (st', stop)) :
    BookedPositive st'.led.numScheduledTokens := by
  have hkept : ∀ {fuel tick : ℕ} {n : ℤ} {mid : State} {blocks : Option KVCacheBlocks},
      allocateSlots cfg env fuel { st with led := { st.led with tick := tick } } id n =
        .ok (mid, blocks) → BookedPositive mid.led.numScheduledTokens := by
    intro fuel tick n mid blocks halloc
    rw [bookedPositive_iff] at h ⊢
    exact fun x k hx => h x k (allocateSlots_lookup halloc hx)
  cases runningTurn_cases hturn with
  | skip gateSkips tick skips => exact h
  | fail hplan halloc => exact hkept halloc
  | @commit plan mid blocks hpass hgate hopen hplan hne halloc =>
    obtain ⟨hturning, hrequest⟩ := hloop.turning hid
    have hfree : NotAhead cfg (st.sched.requests id) := by
      rw [hrequest]
      exact hahead id (hlisted.subset (List.mem_of_getElem? hid))
    have hraw := hfree.left
    rw [tokensLeft] at hraw
    have hcount : 0 ≤ runningTokens cfg ctx st.led (st.sched.requests id) := by
      apply runningTokens_nonneg
      · omega
      · exact hfree.room
      · exact le_of_lt hbudget
      · exact fun hb => le_of_lt (hopen hb)
    have hnonneg := (planRunning_le hwindow hcount hplan).1
    exact (hkept halloc).insert id (lt_of_le_of_ne hnonneg (Ne.symm hne))

theorem runningLoop_positive (hwindow : env.WindowBounded) (hnodup : s.running.Nodup)
    (hahead : NoneAhead cfg s) {turns : ℕ} {st : State}
    (hrun : runningLoop cfg env ctx turns (initialState cfg s) = .ok st) :
    BookedPositive st.led.numScheduledTokens := by
  obtain ⟨turns', hbegin⟩ := beginStep_eq cfg s
  have hrunning : (beginStep cfg s).running = s.running := by rw [hbegin]
  have hend : RunningFrame (beginStep cfg s) st ∧ LoopInv cfg s st ∧
      BookedPositive st.led.numScheduledTokens := by
    apply runningLoop_keeps (P := fun st => RunningFrame (beginStep cfg s) st ∧ LoopInv cfg s st ∧
      BookedPositive st.led.numScheduledTokens) ?_ ?_ hrun
    · intro mid mid' id stop ⟨hframe, hloop, hpositive⟩ hid hbudget hturn
      have hlisted := hframe.running
      rw [hrunning] at hlisted
      exact ⟨runningTurn_frame hframe hid hturn, runningTurn_loopInv hloop hid hturn,
        runningTurn_positive hwindow hahead hlisted hloop hpositive hid hbudget hturn⟩
    · refine ⟨RunningFrame.refl cfg s, initialState_loopInv hnodup, fun entry hentry => ?_⟩
      cases hentry
  exact hend.2.2

/-- The waiting loop asserts that what it admits is positive. -/
theorem waitingLoop_positive (hwindow : env.WindowBounded) {fuel : ℕ} {st st' : State}
    (h : BookedPositive st.led.numScheduledTokens)
    (hloop : waitingLoop cfg env ctx fuel st = .ok st') :
    BookedPositive st'.led.numScheduledTokens := by
  apply waitingLoop_keeps (P := fun st => BookedPositive st.led.numScheduledTokens) ?_ h hloop
  intro mid mid' skipped id stop hmid _ _ hturn
  have hcases := waitingTurn_cases hwindow hturn
  generalize mid'.led = led at hcases ⊢
  cases hcases with
  | same tick skipped => exact hmid
  | @admitted tick r id a blocks hstatus hpos hbudget hprefill => exact hmid.insert id hpos

/-- A step books only positive counts when it starts with no running request ahead. -/
theorem schedule_bookedPositive (hwindow : env.WindowBounded) (hnodup : s.running.Nodup)
    (hahead : NoneAhead cfg s) {throttle : Bool} {out : State}
    (h : schedule cfg env throttle s = .ok out) : BookedPositive out.led.numScheduledTokens := by
  obtain ⟨run, st, hrun, hwaiting, hled, -⟩ := schedule_halves h
  have hpositive := runningLoop_positive hwindow hnodup hahead hrun
  rw [hled]
  rcases scheduleWaiting_cases hwaiting with ⟨-, rfl⟩ | ⟨-, mid, hloop, rfl⟩
  · exact hpositive
  · have hstart : BookedPositive (waitingStart cfg run).led.numScheduledTokens := hpositive
    have hmid := waitingLoop_positive hwindow hstart hloop
    exact hmid

end

/-- A decode of nine tokens whose step with two drafts is not back: the next step books it for
less than nothing. -/
example : (schedule smallConfig (smallEnv none) false
    (smallScheduler [smallRequest 0 1 9 11 []])).map (fun out =>
      out.led.numScheduledTokens.lookup 0) = .ok (some (-2)) := by
  decide +kernel

end SparkKit.Sched.PositiveBookings
