import SparkKit.Sched.RunningLog
import SparkKit.Sched.StepInvariant
import SparkKit.Sched.Frames

/-!
# Placeholder drafts and scheduled tokens

A request admitted with one token left into a decode batch is padded to `1 + num_spec_tokens`
tokens, and as many placeholder drafts less one are recorded for it. The tokens are shortened
afterwards, by the long-prefill threshold or the remaining prefill budget, by encoder inputs and
by the Mamba alignment. The drafts are not.
-/
namespace SparkKit.Sched.SpecPadding

open SparkKit.Lib.Outcome SparkKit.Sched.Requests SparkKit.Sched.Chunk SparkKit.Sched.StepState
open SparkKit.Sched.Running SparkKit.Sched.Waiting SparkKit.Sched.Schedule SparkKit.Sched.Budget
open SparkKit.Sched.StepInvariant SparkKit.Sched.RunningBooks SparkKit.Sched.RunningLog
open SparkKit.Sched.Frames

/-! ## The width of a padded request -/

/-- `1 + self.num_spec_tokens` -/
def paddedWidth (cfg : SchedulerConfig) : ℤ := 1 + (cfg.numSpecTokens : ℤ)

/-- The tokens a planned request asks for, padded or not. -/
def tokenDemand (cfg : SchedulerConfig) (p : Planned) : ℤ :=
  paddedTokens cfg p.led (p.request.numTokens - p.computed.numComputedTokens)

/-- What the threshold and the budgets leave of the demand. -/
def limitedTokens (cfg : SchedulerConfig) (ctx : StepContext) (p : Planned) : ℤ :=
  clampTokens cfg ctx p.led (thresholdTokens cfg (tokenDemand cfg p))

/-- The scan of the encoder inputs of a planned request with `n` tokens. -/
def scanEncoder (cfg : SchedulerConfig) (env : Env) (p : Planned) (n : ℤ) :
    Except String EncoderScan :=
  tryScheduleEncoderInputs cfg env p.led.tick p.request p.computed.numComputedTokens n
    p.led.encoderComputeBudget (if cfg.useEagle = true then 1 else 0)

/-- `num_new_tokens` of a planned request after the Mamba alignment. -/
def alignWaiting (cfg : SchedulerConfig) (p : Planned) (n : ℤ) : ℤ :=
  if cfg.needMambaBlockAlignedSplit = true then
    mambaBlockAlignedSplit cfg p.request n p.computed.localTokens p.computed.externalTokens
  else n

/-- The limits and the encoder inputs leave `n` tokens of the demand. -/
def LeavesTokens (cfg : SchedulerConfig) (env : Env) (ctx : StepContext) (p : Planned) (n : ℤ) :
    Prop :=
  if p.request.hasEncoderInputs = true then
    ∃ scan, scanEncoder cfg env p (limitedTokens cfg ctx p) = .ok scan ∧ scan.numNewTokens = n
  else n = limitedTokens cfg ctx p

/-- Nothing shortens the padding. -/
structure KeepsPadding (cfg : SchedulerConfig) (env : Env) (ctx : StepContext) (p : Planned) :
    Prop where
  threshold : cfg.enableDecodeAwarePrefill = false → 0 < cfg.longPrefillTokenThreshold →
    paddedWidth cfg ≤ cfg.longPrefillTokenThreshold
  budget : cfg.enableDecodeAwarePrefill = true → paddedWidth cfg ≤ remainingPrefillBudget ctx p.led
  encoder : p.request.hasEncoderInputs = true → ∀ scan,
    scanEncoder cfg env p (paddedWidth cfg) = .ok scan → scan.numNewTokens = paddedWidth cfg
  aligned : alignWaiting cfg p (paddedWidth cfg) = paddedWidth cfg

section
variable {cfg : SchedulerConfig} {env : Env} {ctx : StepContext}

/-- What a counted waiting request gets before its encoder inputs, and when it is padded. -/
theorem waitingTokens_counted {led : Ledger} {r : Request} {computed n : ℤ} {pad : Bool}
    (h : waitingTokens cfg ctx led r computed = .ok (some (n, pad))) :
    n = clampTokens cfg ctx led (thresholdTokens cfg (paddedTokens cfg led (r.numTokens - computed))) ∧
      pad = padsSpecDecode cfg led (r.numTokens - computed) ∧
      (pad = true → paddedTokens cfg led (r.numTokens - computed) ≤ led.tokenBudget) ∧ 0 < n := by
  rw [waitingTokens] at h
  dsimp only at h
  split at h
  · cases h
  rename_i hroom
  split at h
  · cases h
  split at h
  · cases h
  split at h
  swap
  · cases h
  rename_i hpos
  obtain ⟨rfl, rfl⟩ := Prod.mk.inj (Option.some.inj (Except.ok.inj h))
  exact ⟨rfl, rfl, fun hpad => not_lt.mp fun hlong => hroom ⟨hpad, .inl hlong⟩, hpos⟩

/-- What is known of a plan before its alignment, if `m` is what it gets. -/
structure PlanFacts (cfg : SchedulerConfig) (env : Env) (ctx : StepContext) (p : Planned) (pad : Bool)
    (m : ℤ) : Prop where
  leaves : LeavesTokens cfg env ctx p m
  pads : pad = padsSpecDecode cfg p.led (p.request.numTokens - p.computed.numComputedTokens)
  fits : pad = true → tokenDemand cfg p ≤ p.led.tokenBudget
  positive : 0 < limitedTokens cfg ctx p

theorem planTokens_facts {p : Planned} {a : Admission}
    (h : planTokens cfg env ctx p.led p.request p.computed = .ok (some a)) :
    PlanFacts cfg env ctx p a.pad a.plan.numNewTokens := by
  obtain ⟨counted, hcounted, h⟩ := bind_ok h
  cases counted with
  | none => cases h
  | some counted =>
    obtain ⟨n, pad⟩ := counted
    obtain ⟨rfl, rfl, hfits, hpos⟩ := waitingTokens_counted hcounted
    dsimp only at h
    split at h
    · rename_i hencoder
      obtain ⟨scan, hscan, h⟩ := bind_ok h
      split at h
      · cases h
      cases h
      refine ⟨?_, rfl, hfits, hpos⟩
      rw [LeavesTokens, if_pos hencoder]
      exact ⟨scan, hscan, rfl⟩
    · rename_i hencoder
      cases h
      refine ⟨?_, rfl, hfits, hpos⟩
      rw [LeavesTokens, if_neg hencoder]
      rfl

/-- An admission gets what the alignment makes of what the limits leave. -/
theorem planWaiting_facts {p : Planned}
    (hplan : planWaiting cfg env ctx p.led p.request p.computed = .ok (some p.admission))
    (hlocal : p.computed.loadKvAsync = false) :
    ∃ m, PlanFacts cfg env ctx p p.admission.pad m ∧
      p.admission.plan.numNewTokens = alignWaiting cfg p m := by
  rw [planWaiting, if_neg (by simp [hlocal])] at hplan
  split at hplan
  · cases hplan
  obtain ⟨planned, htokens, hplan⟩ := bind_ok hplan
  cases planned with
  | none => cases hplan
  | some a =>
    have hfacts := planTokens_facts htokens
    refine ⟨a.plan.numNewTokens, ?_⟩
    dsimp only at hplan
    rw [alignWaiting]
    split at hplan
    · rename_i hmamba
      rw [if_pos hmamba]
      split at hplan
      · cases hplan
      · rw [← Option.some.inj (Except.ok.inj hplan)]
        exact ⟨hfacts, rfl⟩
    · rename_i hmamba
      rw [if_neg hmamba]
      rw [← Option.some.inj (Except.ok.inj hplan)]
      exact ⟨hfacts, rfl⟩

/-- A padded request asks for the padded width. -/
theorem PlanFacts.demand {p : Planned} {m : ℤ} (h : PlanFacts cfg env ctx p true m) :
    tokenDemand cfg p = paddedWidth cfg := by
  rw [tokenDemand, paddedTokens, if_pos h.pads.symm]
  rfl

theorem thresholdTokens_le (n : ℤ) : thresholdTokens cfg n ≤ n := by
  rw [thresholdTokens]
  split
  · rename_i hlong
    exact le_of_lt hlong.2.2
  · exact le_refl n

theorem clampTokens_le (led : Ledger) (n : ℤ) : clampTokens cfg ctx led n ≤ n := by
  rw [clampTokens]
  split
  · exact (min_le_left _ _).trans (min_le_left _ _)
  · exact min_le_left _ _

/-- The threshold and the budgets leave the padding alone exactly when it fits. -/
theorem clampTokens_padded {led : Ledger} (hbudget : paddedWidth cfg ≤ led.tokenBudget) :
    clampTokens cfg ctx led (thresholdTokens cfg (paddedWidth cfg)) = paddedWidth cfg ↔
      (cfg.enableDecodeAwarePrefill = false → 0 < cfg.longPrefillTokenThreshold →
        paddedWidth cfg ≤ cfg.longPrefillTokenThreshold) ∧
      (cfg.enableDecodeAwarePrefill = true → paddedWidth cfg ≤ remainingPrefillBudget ctx led) := by
  cases henable : cfg.enableDecodeAwarePrefill with
  | true =>
    have hthreshold : thresholdTokens cfg (paddedWidth cfg) = paddedWidth cfg := by
      rw [thresholdTokens, henable, if_neg fun h => Bool.noConfusion h.1]
    rw [hthreshold, clampTokens, if_pos henable, min_eq_left hbudget, min_eq_left_iff]
    simp
  | false =>
    rw [clampTokens, if_neg (by simp [henable]), thresholdTokens, henable]
    simp only [true_and, true_implies, Bool.false_eq_true, false_implies, and_true]
    split
    · rename_i hlong
      constructor
      · intro heq
        have hle := min_le_left cfg.longPrefillTokenThreshold led.tokenBudget
        omega
      · intro hkeeps
        have hle := hkeeps hlong.1
        omega
    · rename_i hshort
      rw [min_eq_left hbudget]
      simp only [true_iff]
      intro hpos
      by_contra hlong
      exact hshort ⟨hpos, not_le.mp hlong⟩

theorem alignWaiting_le {p : Planned} {n : ℤ} (hn : 0 ≤ n) : alignWaiting cfg p n ≤ n := by
  rw [alignWaiting]
  split
  · have hle := (mambaBlockAlignedSplit_le cfg p.request n p.computed.localTokens
      p.computed.externalTokens).1
    rw [max_eq_left hn] at hle
    exact hle
  · exact le_refl n

/-- Neither the encoder inputs nor the alignment widen what the limits leave. -/
theorem LeavesTokens.le (hwindow : env.WindowBounded) {p : Planned} {m : ℤ}
    (h : LeavesTokens cfg env ctx p m) (hpos : 0 < limitedTokens cfg ctx p) :
    alignWaiting cfg p m ≤ m ∧ m ≤ limitedTokens cfg ctx p := by
  rw [LeavesTokens] at h
  split at h
  · obtain ⟨scan, hscan, rfl⟩ := h
    obtain ⟨hnonneg, hle⟩ := encoder_le hwindow (le_of_lt hpos) hscan
    exact ⟨alignWaiting_le hnonneg, hle⟩
  · subst h
    exact ⟨alignWaiting_le (le_of_lt hpos), le_refl _⟩

/-- Shortening never widens the padding, and leaves it alone exactly when nothing shortens it. -/
theorem PlanFacts.padded_le (hwindow : env.WindowBounded) {p : Planned} {m : ℤ}
    (h : PlanFacts cfg env ctx p true m) :
    alignWaiting cfg p m ≤ paddedWidth cfg ∧
      (alignWaiting cfg p m = paddedWidth cfg ↔ KeepsPadding cfg env ctx p) := by
  have hdemand := h.demand
  have hbudget : paddedWidth cfg ≤ p.led.tokenBudget := hdemand ▸ h.fits rfl
  have hlimited : limitedTokens cfg ctx p =
      clampTokens cfg ctx p.led (thresholdTokens cfg (paddedWidth cfg)) := by
    rw [limitedTokens, hdemand]
  have hclamp : limitedTokens cfg ctx p ≤ paddedWidth cfg := by
    rw [hlimited]
    exact (clampTokens_le _ _).trans (thresholdTokens_le _)
  have hkept : clampTokens cfg ctx p.led (thresholdTokens cfg (paddedWidth cfg)) =
      paddedWidth cfg ↔ _ := clampTokens_padded hbudget
  rw [← hlimited] at hkept
  obtain ⟨halign, hle⟩ := h.leaves.le hwindow h.positive
  refine ⟨halign.trans (hle.trans hclamp), fun heq => ?_, fun hkeeps => ?_⟩
  · have hm : m = paddedWidth cfg := by omega
    have hwidth : limitedTokens cfg ctx p = paddedWidth cfg := by omega
    obtain ⟨hthreshold, hroom⟩ := hkept.mp hwidth
    refine ⟨hthreshold, hroom, fun hencoder scan hscan => ?_, hm ▸ heq⟩
    have hleaves := h.leaves
    rw [LeavesTokens, if_pos hencoder, hwidth] at hleaves
    obtain ⟨scan', hscan', hn⟩ := hleaves
    obtain rfl := Except.ok.inj (hscan.symm.trans hscan')
    exact hn.trans hm
  · have hwidth := hkept.mpr ⟨hkeeps.threshold, hkeeps.budget⟩
    have hm : m = paddedWidth cfg := by
      have hleaves := h.leaves
      rw [LeavesTokens, hwidth] at hleaves
      split at hleaves
      · rename_i hencoder
        obtain ⟨scan, hscan, rfl⟩ := hleaves
        exact hkeeps.encoder hencoder scan hscan
      · exact hleaves
    rw [hm]
    exact hkeeps.aligned

end

/-! ## Drafts of running requests -/

/-- The last token of a request is still to be computed, so its drafts come after one. -/
def TokenPending (r : Request) : Prop :=
  r.numComputedTokens < r.numTokens + r.numOutputPlaceholders

/-- Recorded drafts leave a token for the request itself exactly when one is pending. -/
theorem recordedSpecs_within {r : Request} {n : ℤ} {specs : List ℤ}
    (h : recordedSpecs r n = some specs) (hleft : n ≤ max (tokensLeft r) 0) :
    (specs.length : ℤ) ≤ n - 1 ↔ TokenPending r := by
  rw [recordedSpecs] at h
  split at h
  swap
  · cases h
  rename_i hfits
  obtain rfl := Option.some.inj h
  have hlen : ((scheduledSpecTokens r n).length : ℤ) =
      min (n + r.numComputedTokens - r.numTokens - r.numOutputPlaceholders) r.specTokenIds.length := by
    rw [scheduledSpecTokens, List.length_take]
    omega
  rw [hlen, TokenPending]
  rw [tokensLeft, Request.numTokensWithSpec] at hleft
  omega

/-! ## Drafts of admitted requests -/

/-- What the books hold of the requests scheduled in the running loop of `run` and of the
admissions `ps`. -/
structure Recorded (cfg : SchedulerConfig) (env : Env) (ctx : StepContext) (run : Ledger)
    (ps : List Planned) (led : Ledger) : Prop where
  scheduled : led.scheduledRunningReqs = run.scheduledRunningReqs
  kept : ∀ id ∈ run.scheduledRunningReqs,
    led.numScheduledTokens.lookup id = run.numScheduledTokens.lookup id ∧
      led.scheduledSpecDecodeTokens.lookup id = run.scheduledSpecDecodeTokens.lookup id
  planned : ∀ p ∈ ps, planWaiting cfg env ctx p.led p.request p.computed = .ok (some p.admission) ∧
    p.computed.loadKvAsync = false
  admitted : ∀ p ∈ ps,
    led.numScheduledTokens.lookup p.id = some p.admission.plan.numNewTokens ∧
      (p.admission.pad = true → led.scheduledSpecDecodeTokens.lookup p.id =
        some (List.replicate cfg.numSpecTokens (-1)))
  drafts : ∀ id ∈ led.scheduledSpecDecodeTokens,
    id ∈ run.scheduledRunningReqs ∨ ∃ p ∈ ps, p.id = id ∧ p.admission.pad = true
  booked : ∀ id ∈ led.numScheduledTokens,
    id ∈ run.scheduledRunningReqs ∨ ∃ p ∈ ps, p.id = id

/-- The scheduled requests run, so that no turn admits one of them again. -/
structure AdmittedInv (cfg : SchedulerConfig) (env : Env) (ctx : StepContext) (run : Ledger)
    (ps : List Planned) (st : State) : Prop where
  ongoing : Ongoing cfg st
  recorded : Recorded cfg env ctx run ps st.led
  runs : ∀ id ∈ run.scheduledRunningReqs, (st.sched.requests id).status = .running
  admittedRuns : ∀ p ∈ ps, (st.sched.requests p.id).status = .running

section
variable {cfg : SchedulerConfig} {env : Env} {ctx : StepContext} {run : Ledger} {ps : List Planned}

/-- Admitting a request that was not scheduled. -/
theorem Recorded.admits {led : Ledger} (h : Recorded cfg env ctx run ps led) {p : Planned}
    {blocks : KVCacheBlocks} {tick : ℕ}
    (hplan : planWaiting cfg env ctx p.led p.request p.computed = .ok (some p.admission))
    (hlocal : p.computed.loadKvAsync = false) (hnew : p.id ∉ run.scheduledRunningReqs)
    (hfresh : ∀ p' ∈ ps, p'.id ≠ p.id) :
    Recorded cfg env ctx run (ps ++ [p])
      (admitLedger cfg p.request p.id p.admission blocks { led with tick := tick }) := by
  have hothers : ∀ x, x ≠ p.id →
      (led.numScheduledTokens.insert p.id p.admission.plan.numNewTokens).lookup x =
          led.numScheduledTokens.lookup x ∧
        AList.lookup x (if p.admission.pad = true then
          led.scheduledSpecDecodeTokens.insert p.id (List.replicate cfg.numSpecTokens (-1))
          else led.scheduledSpecDecodeTokens) = led.scheduledSpecDecodeTokens.lookup x := by
    intro x hx
    refine ⟨AList.lookup_insert_ne hx, ?_⟩
    split
    · exact AList.lookup_insert_ne hx
    · rfl
  refine ⟨h.scheduled, ?_, ?_, ?_, ?_, ?_⟩
  · intro x hx
    obtain ⟨htokens, hspecs⟩ := hothers x fun heq => hnew (heq ▸ hx)
    exact ⟨htokens.trans (h.kept x hx).1, hspecs.trans (h.kept x hx).2⟩
  · intro p' hp'
    rcases List.mem_append.mp hp' with hp' | hp'
    · exact h.planned p' hp'
    · rw [List.mem_singleton.mp hp']
      exact ⟨hplan, hlocal⟩
  · intro p' hp'
    rcases List.mem_append.mp hp' with hp' | hp'
    · obtain ⟨htokens, hspecs⟩ := hothers p'.id (hfresh p' hp')
      exact ⟨htokens.trans (h.admitted p' hp').1,
        fun hpad => hspecs.trans ((h.admitted p' hp').2 hpad)⟩
    · rw [List.mem_singleton.mp hp']
      refine ⟨AList.lookup_insert _, fun hpad => ?_⟩
      show AList.lookup p.id (if p.admission.pad = true then _ else _) = _
      rw [if_pos hpad]
      exact AList.lookup_insert _
  · intro x hx
    by_cases hxid : x = p.id
    · subst hxid
      by_cases hpad : p.admission.pad = true
      · exact .inr ⟨p, List.mem_append_right _ List.mem_cons_self, rfl, hpad⟩
      · have hx : p.id ∈ if p.admission.pad = true then _ else led.scheduledSpecDecodeTokens := hx
        rw [if_neg hpad] at hx
        rcases h.drafts p.id hx with hscheduled | ⟨p', hp', heq, hpad'⟩
        · exact .inl hscheduled
        · exact absurd heq (hfresh p' hp')
    · rw [← AList.lookup_isSome] at hx
      have hspecs := (hothers x hxid).2
      have hx : (AList.lookup x (if p.admission.pad = true then _
        else led.scheduledSpecDecodeTokens)).isSome = true := hx
      rw [hspecs, AList.lookup_isSome] at hx
      rcases h.drafts x hx with hscheduled | ⟨p', hp', heq, hpad'⟩
      · exact .inl hscheduled
      · exact .inr ⟨p', List.mem_append_left _ hp', heq, hpad'⟩
  · intro x hx
    have hx : x ∈ led.numScheduledTokens.insert p.id p.admission.plan.numNewTokens := hx
    rcases (AList.mem_insert _).mp hx with rfl | hx
    · exact .inr ⟨p, List.mem_append_right _ List.mem_cons_self, rfl⟩
    rcases h.booked x hx with hscheduled | ⟨p', hp', heq⟩
    · exact .inl hscheduled
    · exact .inr ⟨p', List.mem_append_left _ hp', heq⟩

theorem waitingTurn_admitted {st st' : State} {skipped stop : Bool} {id : ReqId}
    (h : AdmittedInv cfg env ctx run ps st)
    (hselect : selectWaitingQueue cfg st.sched = some (skipped, id))
    (hturn : waitingTurn cfg env ctx skipped id st = .ok (st', stop)) :
    AdmittedInv cfg env ctx run (ps ++ (turnAdmission cfg env ctx id st).toList) st' := by
  have hne : ∀ x, (st.sched.requests x).status = .running → x ≠ id :=
    fun _ hx => h.ongoing.served_ne hselect hx
  have hongoing := waitingTurn_ongoing h.ongoing hselect hturn
  have heffect := waitingTurn_effect hturn
  have hruns : ∀ x, (st.sched.requests x).status = .running →
      (st'.sched.requests x).status = .running := by
    intro x hx
    rw [heffect.others (hne x hx)]
    exact hx
  generalize turnAdmission cfg env ctx id st = admission at heffect ⊢
  cases heffect with
  | stays hmoves hled =>
    refine ⟨hongoing, ?_, fun x hx => hruns x (h.runs x hx), ?_⟩
    · rw [hled, Option.toList_none, List.append_nil]
      have hrecorded := h.recorded
      exact ⟨hrecorded.scheduled, hrecorded.kept, hrecorded.planned, hrecorded.admitted,
        hrecorded.drafts, hrecorded.booked⟩
    · rw [Option.toList_none, List.append_nil]
      exact fun p hp => hruns p.id (h.admittedRuns p hp)
  | @admits mid _ tick c a blocks hmoves hled hplan hlocal hadmitted =>
    obtain ⟨-, hrequests, -, -, -, hadmittedLed⟩ := admitRequest_ok hadmitted
    refine ⟨hongoing, ?_, fun x hx => hruns x (h.runs x hx), ?_⟩
    · rw [hadmittedLed, hled]
      rw [hled] at hplan
      refine h.recorded.admits hplan hlocal (fun hscheduled => hne id (h.runs id hscheduled) rfl) ?_
      exact fun p hp => hne p.id (h.admittedRuns p hp)
    · intro p hp
      rcases List.mem_append.mp hp with hp | hp
      · exact hruns p.id (h.admittedRuns p hp)
      · rw [Option.toList_some] at hp
        rw [List.mem_singleton.mp hp, hrequests, Function.update_self]

/-- The waiting half records the drafts of its admissions beside those of the running half. -/
theorem scheduleWaiting_recorded {s : Scheduler} {throttle : Bool} {st st' : State}
    (hwf : WellFormed cfg s) (hloop : LoopInv cfg s st)
    (hrun : scheduleRunning cfg env throttle s = .ok st)
    (hwaiting : scheduleWaiting cfg env (stepContext cfg throttle s) st = .ok st') :
    Recorded cfg env (stepContext cfg throttle s) st.led (stepAdmissions cfg env throttle s)
      st'.led := by
  have hdrafts : ∀ id ∈ st.led.scheduledSpecDecodeTokens, id ∈ st.led.scheduledRunningReqs := by
    intro id hid
    rw [← AList.lookup_isSome, hloop.booked.specs id] at hid
    refine (hloop.booked.tokens id).mp (AList.lookup_isSome.mp ?_)
    cases htokens : st.led.numScheduledTokens.lookup id with
    | none =>
      rw [htokens] at hid
      cases hid
    | some n => rfl
  have hstart : Recorded cfg env (stepContext cfg throttle s) st.led [] (waitingStart cfg st).led :=
    ⟨rfl, fun _ _ => ⟨rfl, rfl⟩, fun _ hp => absurd hp List.not_mem_nil,
      fun _ hp => absurd hp List.not_mem_nil, fun id hid => .inl (hdrafts id hid),
      fun id hid => .inl ((hloop.booked.tokens id).mp hid)⟩
  rw [stepAdmissions, hrun]
  dsimp only
  rcases scheduleWaiting_cases hwaiting with ⟨hclosed, rfl⟩ | ⟨hopen, mid, hlooped, rfl⟩
  · rw [if_neg hclosed]
    exact hstart
  · rw [if_pos hopen]
    have hframe : RunningFrame (beginStep cfg s) st := runningLoop_frame (RunningFrame.refl cfg s) hrun
    have hongoing : Ongoing cfg st := scheduleRunning_ongoing hwf hrun
    have hruns : ∀ id ∈ st.led.scheduledRunningReqs, (st.sched.requests id).status = .running := by
      intro id hid
      rw [hframe.calm hopen.1 id]
      exact (initialState_ongoing hwf).running id (hframe.scheduled id hid)
    have hbegin : AdmittedInv cfg env (stepContext cfg throttle s) st.led [] (waitingStart cfg st) :=
      ⟨hongoing, hstart, hruns, fun _ hp => absurd hp List.not_mem_nil⟩
    have hend := waitingLoop_logs
      (R := AdmittedInv cfg env (stepContext cfg throttle s) st.led)
      (fun _ _ _ _ _ _ hst hselect _ hturn => waitingTurn_admitted hst hselect hturn) hbegin hlooped
    exact hend.recorded

end

/-! ## The step -/

/-- Every request with drafts has a scheduled token for each and one for itself. -/
def SpecsWithin (led : Ledger) : Prop :=
  ∀ id specs, led.scheduledSpecDecodeTokens.lookup id = some specs →
    ∃ n, led.numScheduledTokens.lookup id = some n ∧ (specs.length : ℤ) ≤ n - 1

section
variable {cfg : SchedulerConfig} {env : Env} {ctx : StepContext} {throttle : Bool} {s : Scheduler}

/-- The facts about a step that its drafts rest on. -/
theorem schedule_recorded (hwindow : env.WindowBounded) (hwf : WellFormed cfg s) {out : State}
    (h : schedule cfg env throttle s = .ok out) :
    ∃ run, scheduleRunning cfg env throttle s = .ok run ∧ LoopInv cfg s run ∧ WithinLeft s run.led ∧
      Recorded cfg env (stepContext cfg throttle s) run.led (stepAdmissions cfg env throttle s)
        out.led := by
  obtain ⟨run, st, hrun, hwaiting, hled, -⟩ := schedule_halves h
  obtain ⟨hloop, hleft⟩ := runningLoop_withinLeft hwindow hwf.nodup hrun
  refine ⟨run, hrun, hloop, hleft, ?_⟩
  rw [hled]
  exact scheduleWaiting_recorded hwf hloop hrun hwaiting

/-- The width of a padded admission. -/
theorem Recorded.padded (hwindow : env.WindowBounded) {run led : Ledger} {ps : List Planned}
    (h : Recorded cfg env ctx run ps led) {p : Planned} (hp : p ∈ ps)
    (hpad : p.admission.pad = true) :
    p.admission.plan.numNewTokens ≤ paddedWidth cfg ∧
      (p.admission.plan.numNewTokens = paddedWidth cfg ↔ KeepsPadding cfg env ctx p) := by
  obtain ⟨hplan, hlocal⟩ := h.planned p hp
  obtain ⟨m, hfacts, hwidth⟩ := planWaiting_facts hplan hlocal
  rw [hpad] at hfacts
  rw [hwidth]
  exact hfacts.padded_le hwindow

/-- The drafts of a booking fit in its tokens exactly when its last token is pending. -/
theorem booking_within {run : State} (hloop : LoopInv cfg s run) (hleft : WithinLeft s run.led)
    {events : List LoopEvent} (hkept : KeptInv cfg s events run.led) {b : Booking}
    (hb : b ∈ keptBookings cfg events) :
    run.led.scheduledSpecDecodeTokens.lookup b.id = b.drafts ∧
      ∀ specs, b.drafts = some specs →
        ((specs.length : ℤ) ≤ b.plan.numNewTokens - 1 ↔ TokenPending b.request) := by
  obtain ⟨hrequest, htokens⟩ := hkept.booked b hb
  rw [Booking.drafts, hrequest, hloop.booked.specs b.id, htokens]
  refine ⟨rfl, fun specs hspecs => ?_⟩
  exact recordedSpecs_within hspecs (hleft b.id _ htokens)

end

/-- The drafts of a step fit in its tokens exactly when every running request it books with drafts
has its last token pending, and nothing shortens the padding of an admitted one. -/
theorem specs_within_iff {cfg : SchedulerConfig} {env : Env} {throttle : Bool} {s : Scheduler}
    {out : State} (hwindow : env.WindowBounded) (hwf : WellFormed cfg s)
    (h : schedule cfg env throttle s = .ok out) :
    SpecsWithin out.led ↔
      (∀ b ∈ stepBookings cfg env throttle s, b.drafts ≠ none → TokenPending b.request) ∧
      ∀ p ∈ stepAdmissions cfg env throttle s, p.admission.pad = true →
        KeepsPadding cfg env (stepContext cfg throttle s) p := by
  obtain ⟨run, hrun, hloop, hleft, hrecorded⟩ := schedule_recorded hwindow hwf h
  have hkept := scheduleRunning_kept hwf.nodup hrun
  have hmem : ∀ id, id ∈ run.led.scheduledRunningReqs ↔
      ∃ b ∈ stepBookings cfg env throttle s, b.id = id := by
    intro id
    rw [hkept.scheduled]
    exact List.mem_map
  constructor
  · intro hwithin
    constructor
    · intro b hb hdrafts
      obtain ⟨specs, hspecs⟩ := Option.ne_none_iff_exists'.mp hdrafts
      obtain ⟨hlookup, hiff⟩ := booking_within hloop hleft hkept hb
      obtain ⟨htokens, hsame⟩ := hrecorded.kept b.id ((hmem b.id).mpr ⟨b, hb, rfl⟩)
      obtain ⟨n, hn, hfits⟩ := hwithin b.id specs (hsame.trans (hlookup.trans hspecs))
      rw [htokens, (hkept.booked b hb).2] at hn
      obtain rfl := Option.some.inj hn
      exact (hiff specs hspecs).mp hfits
    · intro p hp hpad
      obtain ⟨htokens, hspecs⟩ := hrecorded.admitted p hp
      obtain ⟨n, hn, hfits⟩ := hwithin p.id _ (hspecs hpad)
      obtain ⟨hle, hiff⟩ := hrecorded.padded hwindow hp hpad
      obtain rfl := Option.some.inj (htokens.symm.trans hn)
      rw [List.length_replicate] at hfits
      rw [paddedWidth] at hle hiff
      exact hiff.mp (by omega)
  · intro hcond id specs hspecs
    obtain ⟨hpending, hkeeps⟩ := hcond
    have hdrafts : id ∈ out.led.scheduledSpecDecodeTokens := by
      rw [← AList.lookup_isSome, hspecs]
      rfl
    rcases hrecorded.drafts id hdrafts with hid | ⟨p, hp, rfl, hpad⟩
    · obtain ⟨b, hb, rfl⟩ := (hmem id).mp hid
      obtain ⟨hlookup, hiff⟩ := booking_within hloop hleft hkept hb
      obtain ⟨htokens, hsame⟩ := hrecorded.kept b.id hid
      have hdrafts : b.drafts = some specs := hlookup.symm.trans (hsame.symm.trans hspecs)
      have hsome : b.drafts ≠ none := by simp [hdrafts]
      exact ⟨_, htokens.trans (hkept.booked b hb).2, (hiff specs hdrafts).mpr (hpending b hb hsome)⟩
    · obtain ⟨htokens, hpadded⟩ := hrecorded.admitted p hp
      obtain rfl := Option.some.inj (hspecs.symm.trans (hpadded hpad))
      refine ⟨_, htokens, ?_⟩
      rw [(hrecorded.padded hwindow hp hpad).2.mpr (hkeeps p hp hpad), List.length_replicate]
      rw [paddedWidth]
      omega

/-- A decode with the listed drafts, a waiting prefill of `prompt` tokens, and behind it a waiting
request with one token left. -/
def paddingScheduler (drafts : List ℤ) (prompt : ℤ) : Scheduler :=
  { smallScheduler [smallRequest 0 1 9 8 drafts,
      { smallRequest 1 1 prompt 0 [] with status := .waiting },
      { smallRequest 2 2 10 9 [] with status := .waiting }] with
    running := [0]
    waiting := [1, 2] }

theorem specs_within_iff_small :
    ∃ out, schedule smallConfig (smallEnv none) false (paddingScheduler [7, 8] 12) = .ok out ∧
      (SpecsWithin out.led ↔
        (∀ b ∈ stepBookings smallConfig (smallEnv none) false (paddingScheduler [7, 8] 12),
          b.drafts ≠ none → TokenPending b.request) ∧
        ∀ p ∈ stepAdmissions smallConfig (smallEnv none) false (paddingScheduler [7, 8] 12),
          p.admission.pad = true → KeepsPadding smallConfig (smallEnv none)
            (stepContext smallConfig false (paddingScheduler [7, 8] 12)) p) := by
  cases h : schedule smallConfig (smallEnv none) false (paddingScheduler [7, 8] 12) with
  | error e =>
    have hok : (schedule smallConfig (smallEnv none) false (paddingScheduler [7, 8] 12)).isOk =
        true := by decide +kernel
    rw [h] at hok
    cases hok
  | ok out =>
    have hwf : WellFormed smallConfig (paddingScheduler [7, 8] 12) :=
      smallScheduler_wellFormed (by decide) (by decide) (by decide) (by decide) (by decide)
    exact ⟨out, rfl, specs_within_iff (smallEnv_windowBounded _) hwf h⟩

/-- The prefill leaves two tokens of the prefill budget: the padded request gets them, and its
three drafts. -/
theorem specs_not_within :
    ∃ out, schedule smallConfig (smallEnv none) false (paddingScheduler [7, 8] 14) = .ok out ∧
      ¬SpecsWithin out.led := by
  have hbooked : (schedule smallConfig (smallEnv none) false (paddingScheduler [7, 8] 14)).map
      (fun out => (out.led.scheduledSpecDecodeTokens.lookup 2, out.led.numScheduledTokens.lookup 2)) =
        .ok (some [-1, -1, -1], some 2) := by
    decide +kernel
  cases h : schedule smallConfig (smallEnv none) false (paddingScheduler [7, 8] 14) with
  | error e =>
    rw [h] at hbooked
    cases hbooked
  | ok out =>
    rw [h] at hbooked
    obtain ⟨hspecs, htokens⟩ := Prod.mk.inj (Except.ok.inj hbooked)
    refine ⟨out, rfl, fun hwithin => ?_⟩
    obtain ⟨n, hn, hfits⟩ := hwithin 2 _ hspecs
    obtain rfl := Option.some.inj (hn.symm.trans htokens)
    exact absurd hfits (by decide)

end SparkKit.Sched.SpecPadding
