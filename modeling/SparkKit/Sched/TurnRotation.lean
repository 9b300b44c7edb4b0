import SparkKit.Lib.Rotation
import SparkKit.Sched.Turns

/-!
# The rotation of turns

Over a run of steps with the same candidates the turns rotate: whoever is selected goes behind
the running long prefills that are not, whether or not it could use its turn.
-/
namespace SparkKit.Sched.TurnRotation

open SparkKit.Lib.Rotation SparkKit.Sched.Requests SparkKit.Sched.StepState
open SparkKit.Sched.Running SparkKit.Sched.Schedule SparkKit.Sched.StepInvariant
open SparkKit.Sched.Selection SparkKit.Sched.Turns

/-- A run of steps with the same candidates, none of them deferred or paused. What happens
between two steps leaves the turns and the step count alone, and may change anything else. -/
structure TurnRun (cfg : SchedulerConfig) (candidates : Finset ReqId) (steps : ℕ) where
  env : ℕ → Env
  throttle : ℕ → Bool
  state : ℕ → Scheduler
  out : ℕ → State
  wellFormed : ∀ i < steps, WellFormed cfg (state i)
  past : TurnsPast (state 0)
  scheduled : ∀ i < steps, schedule cfg (env i) (throttle i) (state i) = .ok (out i)
  turns : ∀ i < steps,
    (state (i + 1)).longPrefillLastScheduled = (out i).sched.longPrefillLastScheduled
  step : ∀ i < steps, (state (i + 1)).currentStep = (out i).sched.currentStep
  same : ∀ i < steps, (longPrefillCandidates cfg (state i)).toFinset = candidates
  registered : ∀ i < steps, ∀ id ∈ candidates, id ∈ (state i).active
  undeferred : ∀ i < steps, (stepContext cfg (throttle i) (state i)).deferPrefills = false
  unpaused : ∀ i < steps, (state i).pauseState ≠ .pausedAll

/-- The gate of the running loop passes the request over. -/
def PassedOver (cfg : SchedulerConfig) (throttle : Bool) (s : Scheduler) (id : ReqId) : Prop :=
  id ∈ s.running ∧ gated cfg (stepContext cfg throttle s) (s.requests id) id = true

section
variable {cfg : SchedulerConfig} {candidates : Finset ReqId} {steps : ℕ} {throttle : Bool}
  {s : Scheduler} {g : ReqId}

theorem PassedOver.spec (h : PassedOver cfg throttle s g) :
    cfg.enableDecodeAwarePrefill = true ∧ g ∈ runningCandidates cfg s ∧
      g ∉ (stepContext cfg throttle s).selectedLongPrefillIds := by
  obtain ⟨hrunning, hgated⟩ := h
  rw [gated, Bool.and_eq_true, Bool.and_eq_true] at hgated
  obtain ⟨⟨henable, hlong⟩, hout⟩ := hgated
  exact ⟨henable, List.mem_filter.mpr ⟨hrunning, hlong⟩, of_decide_eq_true hout⟩

theorem lastTurn_some {turn : ℕ} (h : s.longPrefillLastScheduled.lookup g = some turn) :
    lastTurn s g = turn := by
  rw [lastTurn, h]

/-- The start of a step keeps the last turns of registered requests. -/
theorem lastTurn_beginStep (h : g ∈ s.active) : lastTurn (beginStep cfg s) g = lastTurn s g :=
  lastTurn_congr (beginStep_lookup_active h)

/-- What was picked in its place: as many as a step may pick, none behind it by age. -/
theorem PassedOver.picked (hwf : WellFormed cfg s) (hpassed : PassedOver cfg throttle s g) :
    (stepContext cfg throttle s).selectedLongPrefillIds.Nodup ∧
      (stepContext cfg throttle s).selectedLongPrefillIds.length = cfg.maxLongPrefillsPerStep ∧
      ∀ x ∈ (stepContext cfg throttle s).selectedLongPrefillIds,
        x ∈ longPrefillCandidates cfg s ∧
          ageKey (beginStep cfg s) x ≤ ageKey (beginStep cfg s) g := by
  obtain ⟨henable, hrunning, hout⟩ := hpassed.spec
  obtain ⟨-, -, hcandidates, hrunningSame, hlist⟩ := beginStep_requests cfg s
  have hselectable : g ∈ selectable cfg (beginStep cfg s) := by
    rw [← hrunningSame] at hrunning
    exact List.mem_append_left _ hrunning
  rw [stepContext_selected henable] at hout ⊢
  obtain ⟨hlength, hahead⟩ := selected_ahead hselectable hout
  refine ⟨selected_nodup ?_, hlength, fun x hx => ⟨?_, hahead x hx⟩⟩
  · rw [hlist]
    exact hwf.nodup
  · rw [← hcandidates]
    exact mem_candidates_of_selected hx

/-- A step that passes over a running long prefill is a round of a rotation. -/
theorem schedule_passesOver {env : Env} {out : State} {s' : Scheduler} (hwf : WellFormed cfg s)
    (hpast : TurnsPast s) (h : schedule cfg env throttle s = .ok out)
    (hturns : s'.longPrefillLastScheduled = out.sched.longPrefillLastScheduled)
    (hsame : (longPrefillCandidates cfg s).toFinset = candidates)
    (hactive : ∀ id ∈ candidates, id ∈ s.active)
    (hopen : (stepContext cfg throttle s).deferPrefills = false) (hunpaused : s.pauseState ≠ .pausedAll)
    (hpassed : PassedOver cfg throttle s g) :
    g ∈ candidates ∧ ∃ picks, picks.card = cfg.maxLongPrefillsPerStep ∧
      PassesOver candidates picks (lastTurn s) (lastTurn s') g := by
  obtain ⟨henable, hrunning, hout⟩ := hpassed.spec
  have hstep := schedule_turns henable hwf hopen hunpaused h
  obtain ⟨hnodup, hlength, hahead⟩ := hpassed.picked hwf
  have hmem : ∀ id, id ∈ longPrefillCandidates cfg s → id ∈ candidates := by
    intro id hid
    rw [← hsame]
    exact List.mem_toFinset.mpr hid
  have hg : g ∈ candidates := hmem g (List.mem_append_left _ hrunning)
  have hpicked : ∀ x ∈ (stepContext cfg throttle s).selectedLongPrefillIds, x ∈ candidates :=
    fun x hx => hmem x (hahead x hx).1
  have hnow : lastTurn s g < ((s.currentStep + 1 : ℕ) : ℤ) := by
    have hle := hpast.lastTurn_le g
    omega
  refine ⟨hg, (stepContext cfg throttle s).selectedLongPrefillIds.toFinset, ?_, ?_⟩
  · rw [List.toFinset_card_of_nodup hnodup]
    exact hlength
  · refine ⟨fun x hx => hpicked x (List.mem_toFinset.mp hx), fun x hx => ?_, ?_, fun x hx => ?_,
      fun x hx hlater => ?_⟩
    · have hx := List.mem_toFinset.mp hx
      have hle := lastTurn_le_of_ageKey (hahead x hx).2
      rw [lastTurn_beginStep (hactive x (hpicked x hx)), lastTurn_beginStep (hactive g hg)] at hle
      exact hle
    · apply lastTurn_congr
      rw [hturns]
      exact hstep.passed g hrunning (hactive g hg) hout
    · have hgiven := hstep.given x (List.mem_toFinset.mp hx)
      rw [← hturns] at hgiven
      rw [lastTurn_some hgiven]
      exact hnow
    · rcases hstep.moved x (hactive x hx) with hkept | hgiven
      · rw [← hturns] at hkept
        rw [lastTurn_congr hkept]
        exact hlater
      · rw [← hturns] at hgiven
        rw [lastTurn_some hgiven]
        exact hnow

/-- In a run no turn is ever ahead of the step count. -/
theorem TurnRun.turnsPast (run : TurnRun cfg candidates steps)
    (henable : cfg.enableDecodeAwarePrefill = true) {i : ℕ} (hi : i ≤ steps) :
    TurnsPast (run.state i) := by
  induction i with
  | zero => exact run.past
  | succ i ih =>
    have hstep := schedule_turns henable (run.wellFormed i hi) (run.undeferred i hi)
      (run.unpaused i hi) (run.scheduled i hi)
    have hout := hstep.past (ih (Nat.le_of_succ_le hi))
    intro id turn hturn
    rw [run.turns i hi] at hturn
    rw [run.step i hi]
    exact hout id turn hturn

end

/-- No running long prefill is passed over in more than `⌈n / m⌉ - 1` steps in a row, and at full
running capacity no waiting request has a turn. -/
theorem turns_rotate {cfg : SchedulerConfig} {candidates : Finset ReqId} {steps : ℕ}
    (run : TurnRun cfg candidates steps) :
    (∀ g start rounds, start + rounds ≤ steps →
        (∀ i < rounds, PassedOver cfg (run.throttle (start + i)) (run.state (start + i)) g) →
        rounds ≤ (candidates.card + cfg.maxLongPrefillsPerStep - 1) / cfg.maxLongPrefillsPerStep - 1) ∧
      ∀ i < steps, cfg.maxNumRunningReqs ≤ (run.state i).running.length →
        ∀ id ∈ (stepContext cfg (run.throttle i) (run.state i)).selectedLongPrefillIds,
          id ∈ (run.state i).running ∧ id ∉ (run.state i).waiting ∧
            id ∉ (run.state i).skippedWaiting := by
  constructor
  · intro g start rounds hrounds hpassed
    cases rounds with
    | zero => exact Nat.zero_le _
    | succ rounds =>
      have hround : ∀ i < rounds + 1, g ∈ candidates ∧
          ∃ picks, picks.card = cfg.maxLongPrefillsPerStep ∧
            PassesOver candidates picks (lastTurn (run.state (start + i)))
              (lastTurn (run.state (start + i + 1))) g := by
        intro i hi
        have hlt : start + i < steps := by omega
        exact schedule_passesOver (run.wellFormed _ hlt)
          (run.turnsPast (hpassed i hi).spec.1 (le_of_lt hlt)) (run.scheduled _ hlt) (run.turns _ hlt)
          (run.same _ hlt) (run.registered _ hlt) (run.undeferred _ hlt) (run.unpaused _ hlt)
          (hpassed i hi)
      exact rounds_le cfg.maxLongPrefillsPerStep_pos (hround 0 (Nat.succ_pos _)).1
        fun i hi => (hround i hi).2
  · intro i hi hfull id hid
    obtain ⟨-, -, -, hrunningSame, hlist⟩ := beginStep_requests cfg (run.state i)
    have hselected : id ∈ runningCandidates cfg (run.state i) := by
      rw [stepContext] at hid
      dsimp only at hid
      split at hid
      · rw [← hlist] at hfull
        rw [← hrunningSame]
        exact selected_full hfull hid
      · exact absurd hid List.not_mem_nil
    have hrunning := (List.mem_filter.mp hselected).1
    have hqueued : id ∉ (run.state i).waiting ++ (run.state i).skippedWaiting := fun hmem =>
      (run.wellFormed i hi).queued id hmem ((run.wellFormed i hi).running id hrunning)
    rw [List.mem_append, not_or] at hqueued
    exact ⟨hrunning, hqueued⟩

/-! ## A small run -/

/-- Two sequence slots. -/
def crowdedConfig : SchedulerConfig := { smallConfig with maxNumRunningReqs := 2 }

/-- Two running long prefills and a waiting one. -/
def threePrefills : Scheduler :=
  { smallScheduler [smallRequest 0 1 90 0 [], smallRequest 1 1 90 0 [],
      { smallRequest 2 1 90 0 [] with status := .waiting }] with
    running := [0, 1]
    waiting := [2] }

/-- A step of the small run. -/
def crowdedStep (s : Scheduler) : State :=
  match schedule crowdedConfig (smallEnv none) false s with
  | .ok out => out
  | .error _ => initialState crowdedConfig s

/-- The states of the small run. -/
def crowdedState : ℕ → Scheduler
  | 0 => threePrefills
  | i + 1 => updateAfterSchedule (crowdedStep (crowdedState i))

theorem updateAfterSchedule_turns (st : State) :
    (updateAfterSchedule st).longPrefillLastScheduled = st.sched.longPrefillLastScheduled ∧
      (updateAfterSchedule st).currentStep = st.sched.currentStep := by
  rw [updateAfterSchedule]
  generalize hstart : ({ st.sched with resetPreemptedReqIds := [] } : Scheduler) = s
  have hs : s.longPrefillLastScheduled = st.sched.longPrefillLastScheduled ∧
      s.currentStep = st.sched.currentStep := by
    rw [← hstart]
    exact ⟨rfl, rfl⟩
  clear hstart
  induction st.led.numScheduledTokens.entries generalizing s with
  | nil => exact hs
  | cons entry entries ih =>
    rw [List.foldl_cons]
    exact ih _ hs

theorem crowdedStep_ok {s : Scheduler}
    (h : (schedule crowdedConfig (smallEnv none) false s).isOk = true) :
    schedule crowdedConfig (smallEnv none) false s = .ok (crowdedStep s) := by
  rw [crowdedStep]
  cases hstep : schedule crowdedConfig (smallEnv none) false s with
  | ok out => rfl
  | error e =>
    rw [hstep] at h
    cases h

theorem crowdedState_wellFormed : ∀ i < 2, WellFormed crowdedConfig (crowdedState i) := by
  have hstart : WellFormed crowdedConfig threePrefills :=
    listedScheduler_wellFormed (by decide) (by decide) (by decide) (by decide) (by decide) (by decide)
  have hstep := crowdedStep_ok (s := threePrefills) (by decide +kernel)
  intro i hi
  match i, hi with
  | 0, _ => exact hstart
  | 1, _ => exact schedule_wellFormed hstart hstep

/-- Two steps with the running list full. -/
def crowdedRun : TurnRun crowdedConfig {0, 1, 2} 2 where
  env := fun _ => smallEnv none
  throttle := fun _ => false
  state := crowdedState
  out := fun i => crowdedStep (crowdedState i)
  wellFormed := crowdedState_wellFormed
  past := fun _ _ hturn => nomatch hturn
  scheduled := by
    have hok : ∀ i < 2, (schedule crowdedConfig (smallEnv none) false (crowdedState i)).isOk = true := by
      decide +kernel
    exact fun i hi => crowdedStep_ok (hok i hi)
  turns := fun i _ => (updateAfterSchedule_turns _).1
  step := fun i _ => (updateAfterSchedule_turns _).2
  same := by decide +kernel
  registered := by decide +kernel
  undeferred := by decide +kernel
  unpaused := by decide +kernel

theorem turns_rotate_three :
    (∀ g start rounds, start + rounds ≤ 2 →
        (∀ i < rounds, PassedOver crowdedConfig (crowdedRun.throttle (start + i))
          (crowdedRun.state (start + i)) g) →
        rounds ≤ (({0, 1, 2} : Finset ReqId).card + crowdedConfig.maxLongPrefillsPerStep - 1) /
          crowdedConfig.maxLongPrefillsPerStep - 1) ∧
      ∀ i < 2, crowdedConfig.maxNumRunningReqs ≤ (crowdedRun.state i).running.length →
        ∀ id ∈ (stepContext crowdedConfig (crowdedRun.throttle i)
            (crowdedRun.state i)).selectedLongPrefillIds,
          id ∈ (crowdedRun.state i).running ∧ id ∉ (crowdedRun.state i).waiting ∧
            id ∉ (crowdedRun.state i).skippedWaiting :=
  turns_rotate crowdedRun

end SparkKit.Sched.TurnRotation
