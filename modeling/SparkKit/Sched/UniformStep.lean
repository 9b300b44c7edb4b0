import SparkKit.Sched.SpecPadding
import SparkKit.Graphs.Manager

/-!
# Uniform decode steps

A decode step runs a full graph when all its requests have the same number of tokens. The
running requests bring one token and the drafts of the active depth, and the padding of a new
one is `1 + num_spec_tokens`, whatever the active depth is. Every other request admitted in the
step brings what it has left.
-/
namespace SparkKit.Sched.UniformStep

open SparkKit.Lib.Outcome SparkKit.Sched.Requests SparkKit.Sched.Chunk SparkKit.Sched.StepState
open SparkKit.Sched.Running SparkKit.Sched.Waiting SparkKit.Sched.Schedule SparkKit.Sched.Budget
open SparkKit.Sched.StepInvariant SparkKit.Sched.RunningBooks SparkKit.Sched.RunningLog
open SparkKit.Sched.Frames SparkKit.Sched.SpecPadding
open SparkKit.Graphs.DepthLadder SparkKit.Graphs.Manager

/-! ## The width of an admission -/

/-- The tightest of the budgets and the threshold. -/
def tokenLimit (cfg : SchedulerConfig) (ctx : StepContext) (led : Ledger) : ℤ :=
  if cfg.enableDecodeAwarePrefill = true then min led.tokenBudget (remainingPrefillBudget ctx led)
  else if 0 < cfg.longPrefillTokenThreshold then min cfg.longPrefillTokenThreshold led.tokenBudget
  else led.tokenBudget

/-- A planned request that asks for `n` tokens, or is limited to them, gets them. -/
structure KeepsTokens (cfg : SchedulerConfig) (env : Env) (ctx : StepContext) (p : Planned) (n : ℤ) :
    Prop where
  limit : n ≤ tokenLimit cfg ctx p.led
  encoder : p.request.hasEncoderInputs = true → ∀ scan,
    scanEncoder cfg env p n = .ok scan → scan.numNewTokens = n
  aligned : alignWaiting cfg p n = n

/-- Something cuts a planned request to `n` tokens: a budget or the threshold, an encoder input
that does not fit, or the Mamba alignment. -/
inductive CutsTo (cfg : SchedulerConfig) (env : Env) (ctx : StepContext) (p : Planned) (n : ℤ) :
    Prop
  | limit (hlimit : tokenLimit cfg ctx p.led = n) (hkeeps : KeepsTokens cfg env ctx p n)
  | encoder {scan : EncoderScan} (hinputs : p.request.hasEncoderInputs = true)
      (hscan : scanEncoder cfg env p (limitedTokens cfg ctx p) = .ok scan)
      (hstops : scan.numNewTokens = n) (hcuts : n < limitedTokens cfg ctx p)
      (haligned : alignWaiting cfg p n = n)
  | aligned {m : ℤ} (hleaves : LeavesTokens cfg env ctx p m) (hcuts : n < m)
      (haligned : alignWaiting cfg p m = n)

/-- A planned request asks for `n` tokens and keeps them, or is cut to them. -/
def LeavesWidth (cfg : SchedulerConfig) (env : Env) (ctx : StepContext) (p : Planned) (n : ℤ) :
    Prop :=
  (tokenDemand cfg p = n ∧ KeepsTokens cfg env ctx p n) ∨
    (n < tokenDemand cfg p ∧ CutsTo cfg env ctx p n)

section
variable {cfg : SchedulerConfig} {env : Env} {ctx : StepContext} {p : Planned}

theorem limitedTokens_eq :
    limitedTokens cfg ctx p = min (tokenDemand cfg p) (tokenLimit cfg ctx p.led) := by
  rw [limitedTokens, clampTokens, thresholdTokens, tokenLimit]
  cases henable : cfg.enableDecodeAwarePrefill with
  | true =>
    rw [if_pos rfl, if_pos rfl, if_neg fun hlong => Bool.noConfusion hlong.1]
    exact min_assoc _ _ _
  | false =>
    rw [if_neg Bool.false_ne_true, if_neg Bool.false_ne_true]
    by_cases hpos : 0 < cfg.longPrefillTokenThreshold
    · rw [if_pos hpos]
      by_cases hlong : cfg.longPrefillTokenThreshold < tokenDemand cfg p
      · rw [if_pos ⟨rfl, hpos, hlong⟩]
        omega
      · rw [if_neg fun hcut => hlong hcut.2.2]
        omega
    · rw [if_neg hpos, if_neg fun hcut => hpos hcut.2.1]

/-- What keeps its tokens is left them by the limits and the encoder inputs. -/
theorem KeepsTokens.of_leaves {n m : ℤ} (hlimited : limitedTokens cfg ctx p = n)
    (hleaves : LeavesTokens cfg env ctx p m) (hkeeps : KeepsTokens cfg env ctx p n) : m = n := by
  rw [LeavesTokens, hlimited] at hleaves
  split at hleaves
  · rename_i hinputs
    obtain ⟨scan, hscan, rfl⟩ := hleaves
    exact hkeeps.encoder hinputs scan hscan
  · exact hleaves

/-- The limits leave one number of tokens. -/
theorem LeavesTokens.unique {m m' : ℤ} (h : LeavesTokens cfg env ctx p m)
    (h' : LeavesTokens cfg env ctx p m') : m = m' := by
  rw [LeavesTokens] at h h'
  split at h
  · rename_i hinputs
    rw [if_pos hinputs] at h'
    obtain ⟨scan, hscan, rfl⟩ := h
    obtain ⟨scan', hscan', rfl⟩ := h'
    rw [Except.ok.inj (hscan.symm.trans hscan')]
  · rename_i htext
    rw [if_neg htext] at h'
    rw [h, h']

/-- An admission gets a width exactly when it asks for it and keeps it, or is cut to it. -/
theorem leavesWidth_iff (hwindow : env.WindowBounded) {m n : ℤ}
    (hleaves : LeavesTokens cfg env ctx p m) (hpos : 0 < limitedTokens cfg ctx p) :
    alignWaiting cfg p m = n ↔ LeavesWidth cfg env ctx p n := by
  have hlimited : limitedTokens cfg ctx p = _ := limitedTokens_eq
  have hkeeps : m = limitedTokens cfg ctx p → alignWaiting cfg p m = m →
      KeepsTokens cfg env ctx p m := by
    intro hm haligned
    refine ⟨?_, fun hinputs scan hscan => ?_, haligned⟩
    · rw [hm, hlimited]
      exact min_le_right _ _
    · rw [LeavesTokens, if_pos hinputs, ← hm] at hleaves
      obtain ⟨scan', hscan', hn⟩ := hleaves
      rw [Except.ok.inj (hscan.symm.trans hscan')]
      exact hn
  constructor
  · intro hwidth
    obtain ⟨halign, hle⟩ := hleaves.le hwindow hpos
    have hdemand : limitedTokens cfg ctx p ≤ tokenDemand cfg p := by
      rw [hlimited]
      exact min_le_left _ _
    rcases lt_or_eq_of_le halign with hcut | hkept
    · exact .inr ⟨by omega, .aligned hleaves (hwidth ▸ hcut) hwidth⟩
    obtain rfl : m = n := hkept.symm.trans hwidth
    rcases lt_or_eq_of_le hle with hcut | hreached
    · refine .inr ⟨by omega, ?_⟩
      by_cases hinputs : p.request.hasEncoderInputs = true
      · rw [LeavesTokens, if_pos hinputs] at hleaves
        obtain ⟨scan, hscan, hstops⟩ := hleaves
        exact .encoder hinputs hscan hstops hcut hkept
      · rw [LeavesTokens, if_neg hinputs] at hleaves
        exact absurd hleaves (ne_of_lt hcut)
    · have hkeeps := hkeeps hreached hkept
      rcases lt_or_eq_of_le hdemand with hcut | hasked
      · have hlimit : tokenLimit cfg ctx p.led = m := by omega
        exact .inr ⟨by omega, .limit hlimit hkeeps⟩
      · exact .inl ⟨by omega, hkeeps⟩
  · intro hwidth
    rcases hwidth with ⟨hdemand, hkeeps⟩ | ⟨hless, hcuts⟩
    · have hlimit := hkeeps.limit
      have hm := KeepsTokens.of_leaves (by omega) hleaves hkeeps
      rw [hm]
      exact hkeeps.aligned
    · cases hcuts with
      | limit hlimit hkeeps =>
        have hm := KeepsTokens.of_leaves (by omega) hleaves hkeeps
        rw [hm]
        exact hkeeps.aligned
      | encoder hinputs hscan hstops hcuts haligned =>
        have hstopped : LeavesTokens cfg env ctx p n := by
          rw [LeavesTokens, if_pos hinputs]
          exact ⟨_, hscan, hstops⟩
        rw [LeavesTokens.unique hleaves hstopped]
        exact haligned
      | aligned hleaves' hcuts haligned =>
        rw [LeavesTokens.unique hleaves hleaves']
        exact haligned

/-- A padded request keeps its padding exactly when nothing shortens it. -/
theorem keepsTokens_padded {m : ℤ} (hfacts : PlanFacts cfg env ctx p true m) :
    KeepsTokens cfg env ctx p (paddedWidth cfg) ↔ KeepsPadding cfg env ctx p := by
  have hfits : paddedWidth cfg ≤ p.led.tokenBudget := hfacts.demand ▸ hfacts.fits rfl
  have hlimit : paddedWidth cfg ≤ tokenLimit cfg ctx p.led ↔
      (cfg.enableDecodeAwarePrefill = false → 0 < cfg.longPrefillTokenThreshold →
        paddedWidth cfg ≤ cfg.longPrefillTokenThreshold) ∧
      (cfg.enableDecodeAwarePrefill = true →
        paddedWidth cfg ≤ remainingPrefillBudget ctx p.led) := by
    have hclamp : clampTokens cfg ctx p.led (thresholdTokens cfg (paddedWidth cfg)) =
        paddedWidth cfg ↔ _ := clampTokens_padded hfits
    rw [← hfacts.demand, ← limitedTokens, limitedTokens_eq, hfacts.demand] at hclamp
    rw [← hclamp, min_eq_left_iff]
  constructor
  · intro hkeeps
    obtain ⟨hthreshold, hroom⟩ := hlimit.mp hkeeps.limit
    exact ⟨hthreshold, hroom, hkeeps.encoder, hkeeps.aligned⟩
  · intro hkeeps
    exact ⟨hlimit.mpr ⟨hkeeps.threshold, hkeeps.budget⟩, hkeeps.encoder, hkeeps.aligned⟩

end

/-! ## The active depth -/

/-- `num_spec_tokens_to_schedule`, where the padding gate is open. -/
def activeDepth (cfg : SchedulerConfig) (controller : Option ℕ) (led : Ledger) : ℕ :=
  numSpecTokensToSchedule controller cfg.numSpecTokens none led.numScheduledTokens.entries.length

/-- The running requests of a step all carry `depth` drafts. -/
def CarriesDrafts (led : Ledger) (depth : ℕ) : Prop :=
  ∀ id ∈ led.scheduledRunningReqs, led.numScheduledTokens.lookup id = some (1 + (depth : ℤ)) ∧
    ∃ specs, led.scheduledSpecDecodeTokens.lookup id = some specs ∧ specs.length = depth

theorem carriesDrafts_single {led : Ledger} {id : ReqId} {specs : List ℤ} {depth : ℕ}
    (hrunning : led.scheduledRunningReqs = [id])
    (htokens : led.numScheduledTokens.lookup id = some (1 + (depth : ℤ)))
    (hspecs : led.scheduledSpecDecodeTokens.lookup id = some specs) (hdepth : specs.length = depth) :
    CarriesDrafts led depth := by
  intro x hx
  rw [hrunning] at hx
  obtain rfl := List.mem_singleton.mp hx
  exact ⟨htokens, specs, hspecs, hdepth⟩

/-- The token counts of a step. -/
def tokenCounts (led : Ledger) : List ℕ := led.numScheduledTokens.entries.map fun e => e.2.toNat

/-- `get_uniform_token_count` of the requests, tokens and longest query of a step. -/
def stepUniformTokenCount (led : Ledger) : Option ℕ :=
  getUniformTokenCount (tokenCounts led).length (tokenCounts led).sum
    ((tokenCounts led).foldr max 0)

section
variable {cfg : SchedulerConfig} {env : Env} {throttle : Bool} {s : Scheduler}

/-- The depth of a step never exceeds the number of speculative tokens. -/
theorem activeDepth_le {controller : Option ℕ} {led : Ledger}
    (hrung : ∀ rung, controller = some rung → ∃ raw ladder,
      parseAdaptiveSpecDepthLadder cfg.numSpecTokens raw = .ok ladder ∧ rung ∈ ladder) :
    activeDepth cfg controller led ≤ cfg.numSpecTokens := by
  cases controller with
  | none => exact le_refl _
  | some rung =>
    obtain ⟨raw, ladder, hparse, hmem⟩ := hrung rung rfl
    exact ((ladder_bounds hparse).2 rung hmem).2

/-- A step of positive counts is uniform exactly when everybody on the books has the width. -/
theorem stepUniform_iff {led : Ledger} {width : ℕ} (hsome : ∃ id, id ∈ led.numScheduledTokens)
    (hpos : ∀ id n, led.numScheduledTokens.lookup id = some n → 0 < n) :
    stepUniformTokenCount led = some width ↔
      ∀ id ∈ led.numScheduledTokens, led.numScheduledTokens.lookup id = some (width : ℤ) := by
  obtain ⟨id, hid⟩ := hsome
  obtain ⟨n, hn⟩ := Option.isSome_iff_exists.mp (AList.lookup_isSome.mpr hid)
  have hne : tokenCounts led ≠ [] :=
    List.ne_nil_of_mem (List.mem_map_of_mem (AList.mem_lookup_iff.mp hn))
  rw [stepUniformTokenCount, getUniformTokenCount_eq_some hne]
  constructor
  · intro hall x hx
    obtain ⟨k, hk⟩ := Option.isSome_iff_exists.mp (AList.lookup_isSome.mpr hx)
    have hwidth : k.toNat = width := hall _ (List.mem_map_of_mem (AList.mem_lookup_iff.mp hk))
    have hkpos := hpos x k hk
    rw [hk, ← hwidth, Int.toNat_of_nonneg (le_of_lt hkpos)]
  · intro hall k hk
    obtain ⟨e, he, rfl⟩ := List.mem_map.mp hk
    have hlookup : led.numScheduledTokens.lookup e.1 = some e.2 := AList.mem_lookup_iff.mpr he
    have hbooked : e.1 ∈ led.numScheduledTokens := by
      rw [← AList.lookup_isSome, hlookup]
      rfl
    have hwidth : e.2 = (width : ℤ) := Option.some.inj (hlookup.symm.trans (hall e.1 hbooked))
    rw [hwidth, Int.toNat_natCast]

/-- An admission's tokens, and when they are the width. -/
theorem admitted_width (hwindow : env.WindowBounded) {run led : Ledger} {ps : List Planned}
    {ctx : StepContext} (h : Recorded cfg env ctx run ps led) {p : Planned} (hp : p ∈ ps) :
    led.numScheduledTokens.lookup p.id = some p.admission.plan.numNewTokens ∧
      0 < p.admission.plan.numNewTokens ∧
      ∀ n, p.admission.plan.numNewTokens = n ↔ LeavesWidth cfg env ctx p n := by
  obtain ⟨hplan, hlocal⟩ := h.planned p hp
  obtain ⟨m, hfacts, hwidth⟩ := planWaiting_facts hplan hlocal
  refine ⟨(h.admitted p hp).1, (planWaiting_le hwindow hlocal hplan).1, fun n => ?_⟩
  rw [hwidth]
  exact leavesWidth_iff hwindow hfacts.leaves hfacts.positive

/-- Whoever is on the books of a step is running, or was admitted in it. -/
theorem booked_cases {run led : Ledger} {ps : List Planned} {ctx : StepContext}
    (h : Recorded cfg env ctx run ps led) :
    ∀ id ∈ led.numScheduledTokens, id ∈ led.scheduledRunningReqs ∨ ∃ p ∈ ps, p.id = id := by
  rw [h.scheduled]
  exact h.booked

theorem booked_pos (hwindow : env.WindowBounded) {run led : Ledger} {ps : List Planned}
    {ctx : StepContext} {depth : ℕ} (h : Recorded cfg env ctx run ps led)
    (hdrafts : CarriesDrafts led depth) {id : ReqId} {n : ℤ}
    (hn : led.numScheduledTokens.lookup id = some n) : 0 < n := by
  have hid : id ∈ led.numScheduledTokens := by
    rw [← AList.lookup_isSome, hn]
    rfl
  rcases booked_cases h id hid with hscheduled | ⟨p, hp, rfl⟩
  · have hwidth := Option.some.inj (hn.symm.trans (hdrafts id hscheduled).1)
    omega
  · obtain ⟨htokens, hpos, -⟩ := admitted_width hwindow h hp
    rw [Option.some.inj (hn.symm.trans htokens)]
    exact hpos

/-- A padded request gets the width of the active depth when that is `num_spec_tokens` and nothing
shortens the padding, or when it is less and something cuts the padding just there. -/
theorem leavesWidth_padded {run led : Ledger} {ps : List Planned} {ctx : StepContext} {depth : ℕ}
    (h : Recorded cfg env ctx run ps led) (hdepth : depth ≤ cfg.numSpecTokens) {p : Planned}
    (hp : p ∈ ps) (hpad : p.admission.pad = true) :
    LeavesWidth cfg env ctx p (1 + (depth : ℤ)) ↔
      (depth = cfg.numSpecTokens ∧ KeepsPadding cfg env ctx p) ∨
        (depth < cfg.numSpecTokens ∧ CutsTo cfg env ctx p (1 + (depth : ℤ))) := by
  obtain ⟨hplan, hlocal⟩ := h.planned p hp
  obtain ⟨m, hfacts, -⟩ := planWaiting_facts hplan hlocal
  rw [hpad] at hfacts
  rw [← keepsTokens_padded hfacts, LeavesWidth, hfacts.demand, paddedWidth]
  rcases Nat.lt_or_eq_of_le hdepth with hlt | rfl
  · apply or_congr
    · exact iff_of_false (fun hboth => by omega) (fun hboth => by omega)
    · exact and_congr_left' ⟨fun _ => hlt, fun _ => by omega⟩
  · apply or_congr
    · exact and_congr_left' (iff_of_true rfl rfl)
    · exact and_congr_left' ⟨fun hless => by omega, fun hless => by omega⟩

end

/-- Every padded admission of a step keeps a padding of the width of the depth, or is cut to that
width, and every other admission has it. -/
structure AdmitsWidth (cfg : SchedulerConfig) (env : Env) (throttle : Bool) (s : Scheduler)
    (depth : ℕ) : Prop where
  padded : ∀ p ∈ stepAdmissions cfg env throttle s, p.admission.pad = true →
    (depth = cfg.numSpecTokens ∧ KeepsPadding cfg env (stepContext cfg throttle s) p) ∨
      (depth < cfg.numSpecTokens ∧
        CutsTo cfg env (stepContext cfg throttle s) p (1 + (depth : ℤ)))
  others : ∀ p ∈ stepAdmissions cfg env throttle s, p.admission.pad = false →
    LeavesWidth cfg env (stepContext cfg throttle s) p (1 + (depth : ℤ))

/-- In a step that pads a request and whose running requests carry the drafts of the active depth,
the padded requests get as many tokens as they do and the batch is uniform exactly when every
padded request keeps a padding that is as wide, or is cut to their width, and every other
admission has their width. -/
theorem padding_uniform_iff {cfg : SchedulerConfig} {env : Env} {throttle : Bool} {s : Scheduler}
    {out : State} {controller : Option ℕ} {depth : ℕ} (hwindow : env.WindowBounded)
    (hwf : WellFormed cfg s) (h : schedule cfg env throttle s = .ok out)
    (hrung : ∀ rung, controller = some rung → ∃ raw ladder,
      parseAdaptiveSpecDepthLadder cfg.numSpecTokens raw = .ok ladder ∧ rung ∈ ladder)
    (hdepth : depth = activeDepth cfg controller out.led) (hdrafts : CarriesDrafts out.led depth)
    (hpads : ∃ p ∈ stepAdmissions cfg env throttle s, p.admission.pad = true) :
    ((∀ p ∈ stepAdmissions cfg env throttle s, p.admission.pad = true →
          out.led.numScheduledTokens.lookup p.id = some (1 + (depth : ℤ))) ∧
        stepUniformTokenCount out.led = some (1 + depth)) ↔
      AdmitsWidth cfg env throttle s depth := by
  obtain ⟨run, -, -, -, hrecorded⟩ := schedule_recorded hwindow hwf h
  have hle : depth ≤ cfg.numSpecTokens := by
    rw [hdepth]
    exact activeDepth_le hrung
  have hadmitted : ∀ p ∈ stepAdmissions cfg env throttle s, p.id ∈ out.led.numScheduledTokens := by
    intro p hp
    rw [← AList.lookup_isSome, (hrecorded.admitted p hp).1]
    rfl
  obtain ⟨padded, hpadded, -⟩ := hpads
  have hcast : ((1 + depth : ℕ) : ℤ) = 1 + (depth : ℤ) := by omega
  rw [stepUniform_iff ⟨padded.id, hadmitted padded hpadded⟩
    fun _ _ hn => booked_pos hwindow hrecorded hdrafts hn, hcast]
  constructor
  · intro huniform
    have hwidth : ∀ p ∈ stepAdmissions cfg env throttle s,
        LeavesWidth cfg env (stepContext cfg throttle s) p (1 + (depth : ℤ)) := by
      intro p hp
      obtain ⟨htokens, -, hiff⟩ := admitted_width hwindow hrecorded hp
      apply (hiff _).mp
      exact Option.some.inj (htokens.symm.trans (huniform.2 p.id (hadmitted p hp)))
    refine ⟨fun p hp hpad => ?_, fun p hp _ => hwidth p hp⟩
    exact (leavesWidth_padded hrecorded hle hp hpad).mp (hwidth p hp)
  · intro hcond
    have hwidth : ∀ p ∈ stepAdmissions cfg env throttle s,
        out.led.numScheduledTokens.lookup p.id = some (1 + (depth : ℤ)) := by
      intro p hp
      obtain ⟨htokens, -, hiff⟩ := admitted_width hwindow hrecorded hp
      rw [htokens]
      apply congrArg some
      apply (hiff _).mpr
      cases hpad : p.admission.pad with
      | true => exact (leavesWidth_padded hrecorded hle hp hpad).mpr (hcond.padded p hp hpad)
      | false => exact hcond.others p hp hpad
    refine ⟨fun p hp _ => hwidth p hp, fun id hid => ?_⟩
    rcases booked_cases hrecorded id hid with hscheduled | ⟨p, hp, rfl⟩
    · exact (hdrafts id hscheduled).1
    · exact hwidth p hp

/-- A decode with the listed drafts, and a waiting request with one token left. -/
def decodeScheduler (drafts : List ℤ) : Scheduler :=
  { smallScheduler [smallRequest 0 1 9 8 drafts,
      { smallRequest 1 1 10 9 [] with status := .waiting }] with
    running := [0]
    waiting := [1] }

/-- At the full depth both requests get four tokens. -/
theorem padding_uniform_iff_fixed :
    ∃ out, schedule smallConfig (smallEnv none) false (decodeScheduler [7, 8, 9]) = .ok out ∧
      stepUniformTokenCount out.led = some 4 ∧
      AdmitsWidth smallConfig (smallEnv none) false (decodeScheduler [7, 8, 9]) 3 := by
  have hpads : ∃ p ∈ stepAdmissions smallConfig (smallEnv none) false (decodeScheduler [7, 8, 9]),
      p.admission.pad = true := by
    decide +kernel
  have hadmits : ∀ p ∈ stepAdmissions smallConfig (smallEnv none) false
      (decodeScheduler [7, 8, 9]), p.id = 1 := by
    decide +kernel
  have hbooked : (schedule smallConfig (smallEnv none) false (decodeScheduler [7, 8, 9])).map
      (fun out => (out.led.scheduledRunningReqs, out.led.numScheduledTokens.lookup 0,
        out.led.scheduledSpecDecodeTokens.lookup 0, out.led.numScheduledTokens.lookup 1)) =
        .ok ([0], some 4, some [7, 8, 9], some 4) := by
    decide +kernel
  have huniform : (schedule smallConfig (smallEnv none) false (decodeScheduler [7, 8, 9])).map
      (fun out => stepUniformTokenCount out.led) = .ok (some 4) := by
    decide +kernel
  cases h : schedule smallConfig (smallEnv none) false (decodeScheduler [7, 8, 9]) with
  | error e =>
    rw [h] at hbooked
    cases hbooked
  | ok out =>
    rw [h] at hbooked huniform
    have huniform := Except.ok.inj huniform
    obtain ⟨hrunning, hbooked⟩ := Prod.mk.inj (Except.ok.inj hbooked)
    obtain ⟨htokens, hbooked⟩ := Prod.mk.inj hbooked
    obtain ⟨hspecs, hpadded⟩ := Prod.mk.inj hbooked
    have hwf : WellFormed smallConfig (decodeScheduler [7, 8, 9]) :=
      smallScheduler_wellFormed (by decide) (by decide) (by decide) (by decide) (by decide)
    have hcarries : CarriesDrafts out.led 3 := carriesDrafts_single hrunning htokens hspecs rfl
    have hfixed : ∀ rung, (none : Option ℕ) = some rung → ∃ raw ladder,
        parseAdaptiveSpecDepthLadder smallConfig.numSpecTokens raw = .ok ladder ∧ rung ∈ ladder :=
      fun _ hrung => nomatch hrung
    refine ⟨out, rfl, huniform, (padding_uniform_iff (smallEnv_windowBounded _) hwf h hfixed rfl
      hcarries hpads).mp ⟨fun p hp _ => ?_, huniform⟩⟩
    rw [hadmits p hp]
    exact hpadded

/-- The controller is at the rung `2` of `2, 3`: the running request gets three tokens, the
padded one four, and the batch is not uniform. -/
theorem padding_not_uniform :
    parseAdaptiveSpecDepthLadder smallConfig.numSpecTokens [some 2] = .ok [2, 3] ∧
      ∃ p ∈ stepAdmissions smallConfig (smallEnv none) false (decodeScheduler [7, 8]),
        p.admission.pad = true ∧
        ∃ out, schedule smallConfig (smallEnv none) false (decodeScheduler [7, 8]) = .ok out ∧
          activeDepth smallConfig (some 2) out.led = 2 ∧ CarriesDrafts out.led 2 ∧
          out.led.numScheduledTokens.lookup p.id = some (1 + ((3 : ℕ) : ℤ)) ∧
          stepUniformTokenCount out.led = none := by
  have hpadded : ∃ p ∈ stepAdmissions smallConfig (smallEnv none) false (decodeScheduler [7, 8]),
      p.admission.pad = true ∧ p.id = 1 := by
    decide +kernel
  have hbooked : (schedule smallConfig (smallEnv none) false (decodeScheduler [7, 8])).map
      (fun out => (out.led.scheduledRunningReqs, out.led.numScheduledTokens.lookup 0,
        out.led.scheduledSpecDecodeTokens.lookup 0, out.led.numScheduledTokens.lookup 1)) =
        .ok ([0], some 3, some [7, 8], some 4) := by
    decide +kernel
  have huniform : (schedule smallConfig (smallEnv none) false (decodeScheduler [7, 8])).map
      (fun out => stepUniformTokenCount out.led) = .ok none := by
    decide +kernel
  obtain ⟨p, hp, hpad, hid⟩ := hpadded
  refine ⟨by decide, p, hp, hpad, ?_⟩
  cases h : schedule smallConfig (smallEnv none) false (decodeScheduler [7, 8]) with
  | error e =>
    rw [h] at hbooked
    cases hbooked
  | ok out =>
    rw [h] at hbooked huniform
    have huniform := Except.ok.inj huniform
    obtain ⟨hrunning, hbooked⟩ := Prod.mk.inj (Except.ok.inj hbooked)
    obtain ⟨htokens, hbooked⟩ := Prod.mk.inj hbooked
    obtain ⟨hspecs, hwide⟩ := Prod.mk.inj hbooked
    refine ⟨out, rfl, rfl, carriesDrafts_single hrunning htokens hspecs rfl, ?_, huniform⟩
    rw [hid, hwide]
    rfl

end SparkKit.Sched.UniformStep
