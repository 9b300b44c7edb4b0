import SparkKit.Lib.Outstanding
import SparkKit.Sched.OutputRoster
import SparkKit.Sched.PositiveBookings
import SparkKit.Sched.SkippedOutput

/-!
# Runs of the engine

A request is preempted while earlier steps that booked it are still with the workers. Their
output is stale: `num_stale_output_tokens` tells it, at each output, from the output of steps
booked later. Here the two counters are those of `SparkKit.Lib.Outstanding`, a preemption
being a new epoch.
-/
namespace SparkKit.Sched.EngineRun

open SparkKit.Lib.Outcome SparkKit.Lib.Outstanding SparkKit.Sched.Requests SparkKit.Sched.StepState
open SparkKit.Sched.Schedule SparkKit.Sched.Output SparkKit.Sched.EngineCore SparkKit.Sched.Shuffle
open SparkKit.Sched.Roster SparkKit.Sched.OutputTurn SparkKit.Sched.OutputRoster
open SparkKit.Sched.PositiveBookings
open SparkKit.Sched.StepInvariant (WellFormed smallScheduler_wellFormed)
open SparkKit.Sched.SkippedOutput (smallOutputEnv)

/-! ## The invariant -/

/-- The tokens of a request in the steps without output, oldest first. -/
def outstanding (flights : List Flight) (id : ReqId) : List Batch :=
  flights.filterMap fun f => (f.numScheduledTokens.lookup id).map fun n => ⟨n, f.preemptions id⟩

/-- The counters of a request are those of its tokens outstanding. -/
def CountsOf (r : Request) (batches : List Batch) : Prop :=
  Books r.numPreemptions batches r.numInFlightTokens r.numStaleOutputTokens

structure Sound (cfg : SchedulerConfig) (e : Engine) : Prop where
  enrolled : Enrolled cfg e.sched
  counts : ∀ id ∈ e.sched.active, CountsOf (e.sched.requests id) (outstanding e.flights id)
  positive : ∀ f ∈ e.flights, BookedPositive f.numScheduledTokens

/-- What the callers and the other components promise with an event. That nothing is booked for
no tokens is what `update_from_output` asserts of each step. -/
def Admissible (cfg : SchedulerConfig) (e : Engine) : Event → Prop
  | .schedule env throttlePrefills => ∀ st,
      schedule cfg env throttlePrefills e.sched = .ok st → BookedPositive st.led.numScheduledTokens
  | .output out => OutputOk cfg e.sched out
  | .add _ update r => AddOk cfg e.sched update r ∧
      (r.requestId ∉ e.sched.active → ∀ f ∈ e.flights, r.requestId ∉ f.numScheduledTokens)
  | .finish _ _ => True
  | .reset => True
  | .pause _ => True

/-- The same, without a word on what a step books: it is scheduled while no running request is
ahead of its tokens. -/
def Foreseen (cfg : SchedulerConfig) (e : Engine) : Event → Prop
  | .schedule env _ => env.WindowBounded ∧ NoneAhead cfg e.sched
  | event => Admissible cfg e event

/-- The engine after some events, from a start without requests, if each of them is `ok` where it
happens. -/
inductive RunsUnder (cfg : SchedulerConfig) (ok : Engine → Event → Prop) : Engine → Prop where
  | start {s : Scheduler} (henrolled : Enrolled cfg s) (hactive : s.active = []) :
      RunsUnder cfg ok ⟨s, []⟩
  | step {e e' : Engine} {event : Event} (h : RunsUnder cfg ok e) (hok : ok e event)
      (hstep : e.step cfg event = .ok e') : RunsUnder cfg ok e'

abbrev Reachable (cfg : SchedulerConfig) : Engine → Prop := RunsUnder cfg (Admissible cfg)

/-- Reached by foreseen events. -/
abbrev Driven (cfg : SchedulerConfig) : Engine → Prop := RunsUnder cfg (Foreseen cfg)

/-! ## Counters -/

/-- Between outputs a request keeps its tokens in flight; a preemption makes them stale. -/
structure Aged (r r' : Request) : Prop where
  inFlight : r'.numInFlightTokens = r.numInFlightTokens
  stale : (r'.numPreemptions = r.numPreemptions ∧
      r'.numStaleOutputTokens = r.numStaleOutputTokens) ∨
    (r.numPreemptions < r'.numPreemptions ∧ r'.numStaleOutputTokens = r.numInFlightTokens)

theorem aged_of_same {r r' : Request} (h : SameFlight r r') : Aged r r' :=
  ⟨h.inFlight, .inl ⟨h.preemptions, h.stale⟩⟩

theorem aged_of_carries {r r' : Request} (h : Carries r r') : Aged r r' := ⟨h.inFlight, h.stale⟩

theorem CountsOf.aged {r r' : Request} {batches : List Batch} (h : CountsOf r batches)
    (ha : Aged r r') : CountsOf r' batches := by
  rw [CountsOf, ha.inFlight]
  rcases ha.stale with ⟨hpreemptions, hstale⟩ | ⟨hpreemptions, hstale⟩
  · rw [hpreemptions, hstale]
    exact h
  · rw [hstale]
    exact h.advance hpreemptions

/-- Known requests age, and no new ones are known. -/
def Ages (s s' : Scheduler) : Prop :=
  ∀ id ∈ s'.active, id ∈ s.active ∧ Aged (s.requests id) (s'.requests id)

theorem ages_of_keeps {s s' : Scheduler} (h : KeepsFlights s s') : Ages s s' := fun id hid =>
  ⟨(h id hid).1, aged_of_same (h id hid).2⟩

section
variable {cfg : SchedulerConfig} {e e' : Engine}

theorem Sound.ages (h : Sound cfg e) {s : Scheduler} (henrolled : Enrolled cfg s)
    (hages : Ages e.sched s) : Sound cfg { e with sched := s } := by
  refine ⟨henrolled, fun id hid => ?_, h.positive⟩
  obtain ⟨hknown, haged⟩ := hages id hid
  exact (h.counts id hknown).aged haged

theorem outstanding_concat (flights : List Flight) (f : Flight) (id : ReqId) :
    outstanding (flights ++ [f]) id =
      outstanding flights id ++
        ((f.numScheduledTokens.lookup id).map fun n => (⟨n, f.preemptions id⟩ : Batch)).toList := by
  rw [outstanding, List.filterMap_append, outstanding]
  rw [List.filterMap_cons]
  cases f.numScheduledTokens.lookup id with
  | none => rfl
  | some n => rfl

theorem outstanding_of_absent {flights : List Flight} {id : ReqId}
    (h : ∀ f ∈ flights, id ∉ f.numScheduledTokens) : outstanding flights id = [] := by
  rw [outstanding, List.filterMap_eq_nil_iff]
  intro f hf
  rw [AList.lookup_eq_none.mpr (h f hf)]
  rfl

theorem outstanding_positive {flights : List Flight}
    (h : ∀ f ∈ flights, BookedPositive f.numScheduledTokens) (id : ReqId) :
    ∀ batch ∈ outstanding flights id, 0 < batch.size := by
  intro batch hbatch
  obtain ⟨f, hf, hmap⟩ := List.mem_filterMap.mp hbatch
  obtain ⟨n, hn, rfl⟩ := Option.map_eq_some_iff.mp hmap
  exact h f hf ⟨id, n⟩ (AList.mem_lookup_iff.mp hn)

/-! ## The events -/

theorem Sound.schedule (h : Sound cfg e) {env : Env} {throttle : Bool}
    (hok : Admissible cfg e (.schedule env throttle))
    (hstep : e.schedule cfg env throttle = .ok e') : Sound cfg e' := by
  obtain ⟨st, hschedule, hstep⟩ := bind_ok hstep
  cases hstep
  have hmoved := schedule_moves hschedule
  have hframe := updateAfterSchedule_frame st
  have hactive : (updateAfterSchedule st).active = e.sched.active := by
    rw [hframe]
    exact hmoved.active
  refine ⟨schedule_enrolled h.enrolled hschedule, fun id hid => ?_, fun f hf => ?_⟩
  · have hknown : id ∈ e.sched.active := hactive ▸ hid
    have hcounts := (h.counts id hknown).aged (aged_of_carries (hmoved.carries id))
    have hrequests := updateAfterSchedule_requests st id
    rw [outstanding_concat]
    dsimp only
    generalize (updateAfterSchedule st).requests id = r at hrequests
    cases hbooked : st.led.numScheduledTokens.lookup id with
    | none =>
      rw [hbooked] at hrequests
      rw [hrequests]
      show CountsOf _ (_ ++ [])
      rw [List.append_nil]
      exact hcounts
    | some n =>
      rw [hbooked] at hrequests
      rw [hrequests]
      exact Books.send hcounts n
  · rcases List.mem_append.mp hf with hf | hf
    · exact h.positive f hf
    · rw [List.mem_singleton.mp hf]
      exact hok st hschedule

theorem outstanding_cons {f : Flight} {flights : List Flight} {id : ReqId} {n : ℤ}
    (hn : f.numScheduledTokens.lookup id = some n) :
    outstanding (f :: flights) id = ⟨n, f.preemptions id⟩ :: outstanding flights id := by
  rw [outstanding, List.filterMap_cons, hn]
  rfl

/-- The stale share of a request tells whether its oldest tokens were booked before its last
preemption, and covers them. -/
theorem Sound.stale_iff {s : Scheduler} {f : Flight} {flights : List Flight}
    (h : Sound cfg ⟨s, f :: flights⟩) {id : ReqId} (hid : id ∈ s.active) {n : ℤ}
    (hn : f.numScheduledTokens.lookup id = some n) :
    (0 < (s.requests id).numStaleOutputTokens ↔ f.preemptions id < (s.requests id).numPreemptions) ∧
      (0 < (s.requests id).numStaleOutputTokens → n ≤ (s.requests id).numStaleOutputTokens) := by
  have hcounts := h.counts id hid
  have hall := outstanding_positive h.positive id
  dsimp only at hcounts hall
  rw [outstanding_cons hn] at hcounts hall
  exact Books.stale_iff hcounts hall

theorem Sound.asserted {s : Scheduler} {f : Flight} {flights : List Flight}
    (h : Sound cfg ⟨s, f :: flights⟩) : Asserted f.numScheduledTokens s := by
  intro entry hentry
  refine ⟨h.positive f List.mem_cons_self entry hentry, fun hid hstale => ?_⟩
  exact (h.stale_iff hid (AList.mem_lookup_iff.mpr hentry)).2 hstale

theorem Sound.output (hsize : 0 < cfg.blockSize) (hsampled : 0 ≤ cfg.numSampledTokensPerStep)
    (h : Sound cfg e) {out : StepOutput} (hok : OutputOk cfg e.sched out)
    (hstep : e.output cfg out = .ok e') : Sound cfg e' := by
  obtain ⟨s, flights⟩ := e
  cases flights with
  | nil =>
    cases hstep
    exact h
  | cons f flights =>
    obtain ⟨s', hflight, hstep⟩ := bind_ok hstep
    cases hstep
    rcases processFlight_cases hsize hsampled h.enrolled hok h.asserted with
      ⟨_, hout, hsettles⟩ | hout | ⟨_, _, hout⟩
    · rw [hout] at hflight
      cases hflight
      refine ⟨hsettles.enrolled, fun id hid => ?_,
        fun g hg => h.positive g (List.mem_cons_of_mem f hg)⟩
      obtain ⟨hknown, hsame⟩ := hsettles.flights id hid
      have hcounts := h.counts id hknown
      have hall := outstanding_positive h.positive id
      refine CountsOf.aged ?_ (aged_of_same hsame)
      rw [drained]
      dsimp only at hcounts hall
      cases hbooked : f.numScheduledTokens.lookup id with
      | none =>
        rw [outstanding, List.filterMap_cons, hbooked] at hcounts
        exact hcounts
      | some n =>
        rw [outstanding_cons hbooked] at hcounts hall
        exact Books.answer hcounts hall
    · rw [hout] at hflight
      cases hflight
    · rw [hout] at hflight
      cases hflight

theorem addRequest_ages {s s' : Scheduler} {env : OutputEnv}
    {update : Option StreamingUpdate} {r : Request} (hknown : r.requestId ∈ s.active)
    (hadd : addRequest env update r s = .ok s') : KeepsFlights s s' := by
  have hset : ∀ next, SameFlight (s.requests r.requestId) next →
      ∀ s' : Scheduler, s'.requests = (s.setRequest r.requestId next).requests → s'.active = s.active →
      KeepsFlights s s' := by
    intro next hflight s' hrequests hactive id hid
    refine ⟨hactive ▸ hid, ?_⟩
    rw [hrequests]
    by_cases heq : id = r.requestId
    · rw [heq, setRequest_self]
      exact hflight
    · rw [setRequest_of_ne _ _ heq]
      exact .refl _
  rw [addRequest] at hadd
  dsimp only at hadd
  rw [if_pos hknown] at hadd
  split at hadd
  · split at hadd
    · cases hadd
    · rename_i queue _
      cases hadd
      exact hset { s.requests r.requestId with streamingQueue := some (queue ++ [update]) }
        ⟨rfl, rfl, rfl, rfl⟩ _ rfl rfl
  cases update with
  | none =>
    cases hadd
    exact finishRequest_keeps env s r.requestId
  | some u =>
    cases hadd
    exact hset (updateRequestAsSession (s.requests r.requestId) u) ⟨rfl, rfl, rfl, rfl⟩ _ rfl rfl

theorem Sound.add (h : Sound cfg e) {env : OutputEnv}
    {update : Option StreamingUpdate} {r : Request} {s : Scheduler}
    (hok : Admissible cfg e (.add env update r))
    (hadd : addRequest env update r e.sched = .ok s) :
    Sound cfg { e with sched := s } := by
  obtain ⟨haddOk, hunbooked⟩ := hok
  have henrolled := addRequest_enrolled h.enrolled haddOk hadd
  by_cases hknown : r.requestId ∈ e.sched.active
  · exact h.ages henrolled (ages_of_keeps (addRequest_ages hknown hadd))
  have hnew := haddOk.fresh hknown
  obtain ⟨queue, hqueue⟩ := withStreamingQueue_eq r
  have hrequests : s.requests = (e.sched.setRequest r.requestId (withStreamingQueue r)).requests ∧
      s.active = e.sched.active ++ [r.requestId] := by
    rw [addRequest] at hadd
    dsimp only at hadd
    rw [if_neg hknown] at hadd
    cases hadd
    refine ⟨?_, rfl⟩
    rcases enqueueWaitingRequest_cases (e.sched.setRequest r.requestId (withStreamingQueue r))
      r.requestId with heq | heq
    · rw [heq]
    · rw [heq]
  refine ⟨henrolled, fun id hid => ?_, h.positive⟩
  dsimp only at hid ⊢
  rw [hrequests.2] at hid
  rw [hrequests.1]
  by_cases heq : id = r.requestId
  · rw [heq, setRequest_self, outstanding_of_absent (hunbooked hknown), hqueue, CountsOf]
    dsimp only
    rw [hnew.inFlight, hnew.stale]
    exact books_nil _
  · rw [setRequest_of_ne _ _ heq]
    exact h.counts id ((List.mem_append.mp hid).resolve_right fun hx => heq (List.mem_singleton.mp hx))

theorem preemptDropping_ages {s s' : Scheduler} {rest : List ReqId} {id : ReqId}
    (hlast : s.running = rest ++ [id]) (hok : preemptDropping cfg s id = .ok s') : Ages s s' := by
  obtain ⟨-, hrequests, -, -, -, hactive, -⟩ := preemptDropping_ok hlast hok
  intro x hx
  refine ⟨hactive ▸ hx, ?_⟩
  rw [hrequests]
  by_cases heq : x = id
  · subst heq
    rw [Function.update_self]
    exact ⟨rfl, .inr ⟨Nat.lt_succ_self _, rfl⟩⟩
  · rw [Function.update_of_ne heq]
    exact aged_of_same (.refl _)

theorem Sound.reset (h : Sound cfg e) {s : Scheduler} (hreset : resetPrefixCache cfg e.sched = .ok s) :
    Sound cfg { e with sched := s } := by
  obtain ⟨sched, flights⟩ := e
  dsimp only at hreset ⊢
  rw [resetPrefixCache] at hreset
  have hrunning : sched.running = sched.running.reverse.reverse := (List.reverse_reverse _).symm
  generalize sched.running.reverse = ids at hreset hrunning
  induction ids generalizing sched with
  | nil =>
    cases hreset
    exact h
  | cons id ids ih =>
    rw [List.foldlM_cons] at hreset
    rw [List.reverse_cons] at hrunning
    obtain ⟨mid, hone, hreset⟩ := bind_ok hreset
    have hmid : Sound cfg ⟨mid, flights⟩ :=
      h.ages (preemptDropping_enrolled h.enrolled hrunning hone) (preemptDropping_ages hrunning hone)
    exact ih mid hmid hreset (preemptDropping_ok hrunning hone).2.2.1

/-- What one event keeps. -/
theorem Sound.step (hsize : 0 < cfg.blockSize) (hsampled : 0 ≤ cfg.numSampledTokensPerStep)
    (h : Sound cfg e) {event : Event} (hok : Admissible cfg e event)
    (hstep : e.step cfg event = .ok e') : Sound cfg e' := by
  cases event with
  | schedule env throttle => exact h.schedule hok hstep
  | output out => exact h.output hsize hsampled hok hstep
  | add env update r =>
    obtain ⟨s, hadd, hstep⟩ := bind_ok hstep
    cases hstep
    exact h.add hok hadd
  | finish env ids =>
    cases hstep
    exact h.ages (finishRequests_enrolled h.enrolled env ids)
      (ages_of_keeps (finishRequests_keeps env ids e.sched))
  | reset =>
    obtain ⟨s, hreset, hstep⟩ := bind_ok hstep
    cases hstep
    exact h.reset hreset
  | pause state =>
    cases hstep
    exact h.ages (h.enrolled.restage rfl rfl rfl rfl rfl (fun _ => .refl _) h.enrolled.wellFormed.ok
      h.enrolled.room) (ages_of_keeps (keepsFlights_refl e.sched))

/-- What a whole run keeps. -/
theorem reachable_sound (hsize : 0 < cfg.blockSize) (hsampled : 0 ≤ cfg.numSampledTokensPerStep)
    (h : Reachable cfg e) : Sound cfg e := by
  induction h with
  | @start s henrolled hactive =>
    refine ⟨henrolled, fun id hid => ?_, nofun⟩
    have hid : id ∈ s.active := hid
    rw [hactive] at hid
    cases hid
  | step _ hok hstep ih => exact ih.step hsize hsampled hok hstep

/-- Foreseen events are admissible: a step books positive counts. -/
theorem Foreseen.admissible (h : Sound cfg e) {event : Event} (hok : Foreseen cfg e event) :
    Admissible cfg e event := by
  cases event with
  | schedule env throttle =>
    exact fun st hst => schedule_bookedPositive hok.1 h.enrolled.wellFormed.nodup hok.2 hst
  | output out => exact hok
  | add env update r => exact hok
  | finish env ids => exact hok
  | reset => exact hok
  | pause state => exact hok

theorem RunsUnder.reachable (hsize : 0 < cfg.blockSize) (hsampled : 0 ≤ cfg.numSampledTokensPerStep)
    (h : Driven cfg e) : Reachable cfg e := by
  induction h with
  | start henrolled hactive => exact .start henrolled hactive
  | step _ hok hstep ih => exact ih.step (hok.admissible (reachable_sound hsize hsampled ih)) hstep

end

/-! ## Stale output -/

/-- A small run: a prompt of nine tokens is added, booked and preempted by a reset. -/
def newRequest : Request := { smallRequest 0 1 9 0 [] with status := .waiting }

def emptyEngine : Engine := ⟨smallScheduler [], []⟩

theorem emptyEngine_driven : Driven smallConfig emptyEngine := by
  have hwell : WellFormed smallConfig
      { smallScheduler [] with running := [], waiting := [] } := by
    apply smallScheduler_wellFormed
    · exact fun _ hr => absurd hr List.not_mem_nil
    · exact List.nodup_nil
    · exact fun _ hid => absurd hid List.not_mem_nil
    · exact fun _ hid => absurd hid List.not_mem_nil
    · exact List.nodup_nil
  have hnone : ∀ id, ¬Live (smallScheduler []) id := fun id hlive => List.not_mem_nil hlive.1
  refine .start ⟨hwell, List.nodup_nil, fun id => ?_, nofun, fun id hlive => ?_, ?_⟩ ?_
  · exact ⟨fun hid => absurd hid List.not_mem_nil, fun hlive => absurd hlive (hnone id)⟩
  · exact absurd hlive (hnone id)
  · exact List.countP_nil.symm
  · rfl

/-- The output of its step, one token. -/
def staleOutput : StepOutput where
  env := { smallOutputEnv with checkStop := fun r _ => smallConfig.maxModelLen ≤ r.numTokens }
  blockIds := fun _ => []
  kv := ⟨[], [], []⟩
  runner := ⟨AList.singleton 0 0, [[7]]⟩

theorem staleOutput_ok {s : Scheduler} (hstatus : (s.requests 0).status ≠ .waitingForStreamingReq)
    (hsingle : (s.requests 0).resumable = false) : OutputOk smallConfig s staleOutput := by
  refine ⟨fun r _ hfull => decide_eq_true hfull, fun id _ hin d hd => ?_, fun id hs hin => ?_⟩
  · have hid : id = 0 := List.mem_singleton.mp hin
    rw [hid] at hd ⊢
    exact hd.sessionOk hsingle _
  · have hid : id = 0 := List.mem_singleton.mp hin
    rw [hid] at hs
    exact hstatus hs.2

/-- The new request is booked once and preempted afterwards; then the output of its step comes. -/
structure Preempted (s : Scheduler) (f : Flight) : Prop where
  driven : Driven smallConfig ⟨s, [f]⟩
  known : 0 ∈ s.active
  booked : f.numScheduledTokens.lookup 0 = some 9
  since : f.preemptions 0 < (s.requests 0).numPreemptions
  status : (s.requests 0).status = .preempted
  single : (s.requests 0).resumable = false
  answered : ∃ e, Engine.step smallConfig ⟨s, [f]⟩ (.output staleOutput) = .ok e ∧
    0 ∈ e.sched.active ∧ (e.sched.requests 0).status = .preempted

theorem preempted_exists : ∃ s f, Preempted s f := by
  have hrun : (do
      let added ← emptyEngine.step smallConfig (.add smallOutputEnv none newRequest)
      let scheduled ← added.step smallConfig (.schedule (smallEnv none) false)
      let reset ← scheduled.step smallConfig .reset
      let settled ← reset.step smallConfig (.output staleOutput)
      return (decide (NoneAhead smallConfig added.sched), decide (0 ∈ reset.sched.active),
        decide ((reset.sched.requests 0).status = RequestStatus.preempted ∧
          (reset.sched.requests 0).resumable = false ∧ 0 ∈ settled.sched.active ∧
          (settled.sched.requests 0).status = RequestStatus.preempted),
        reset.flights.map fun f : Flight => (decide (f.numScheduledTokens.lookup 0 = some 9),
            decide (f.preemptions 0 < (reset.sched.requests 0).numPreemptions)))) =
        .ok (true, true, true, [(true, true)]) := by
    decide +kernel
  obtain ⟨added, hadd, hrun⟩ := bind_ok hrun
  obtain ⟨scheduled, hschedule, hrun⟩ := bind_ok hrun
  obtain ⟨⟨s, flights⟩, hreset, hrun⟩ := bind_ok hrun
  obtain ⟨settled, hsettles, hrun⟩ := bind_ok hrun
  obtain ⟨hahead, hrest⟩ := Prod.mk.inj (Except.ok.inj hrun)
  obtain ⟨hknown, hrest⟩ := Prod.mk.inj hrest
  obtain ⟨hstatus, hflights⟩ := Prod.mk.inj hrest
  obtain ⟨f, rfl, hf⟩ := List.map_eq_singleton_iff.mp hflights
  obtain ⟨hbooked, hsince⟩ := Prod.mk.inj hf
  have hnew : NewRequest smallConfig newRequest := ⟨.inl rfl, ⟨rfl, by decide⟩, rfl, rfl⟩
  have hadds : Foreseen smallConfig emptyEngine (.add smallOutputEnv none newRequest) :=
    ⟨⟨fun _ => hnew, nofun⟩, fun _ _ hf => absurd hf List.not_mem_nil⟩
  have hschedules : Foreseen smallConfig added (.schedule (smallEnv none) false) :=
    ⟨smallEnv_windowBounded none, of_decide_eq_true hahead⟩
  have hresets : Foreseen smallConfig scheduled .reset := trivial
  have hdriven := ((emptyEngine_driven.step hadds hadd).step hschedules hschedule).step hresets hreset
  obtain ⟨hstatus, hsingle, hsettled⟩ := of_decide_eq_true hstatus
  exact ⟨s, f, hdriven, of_decide_eq_true hknown, of_decide_eq_true hbooked,
    of_decide_eq_true hsince, hstatus, hsingle, settled, hsettles, hsettled⟩

/-- The engine once the stale output is there too. -/
theorem Preempted.answers {s : Scheduler} {f : Flight} (h : Preempted s f) :
    ∃ e, Driven smallConfig e ∧ 0 ∈ e.sched.active ∧ (e.sched.requests 0).status = .preempted := by
  obtain ⟨e, hstep, hknown, hstatus⟩ := h.answered
  have hok : Foreseen smallConfig ⟨s, [f]⟩ (.output staleOutput) := by
    refine staleOutput_ok ?_ h.single
    rw [h.status]
    exact nofun
  exact ⟨e, h.driven.step hok hstep, hknown, hstatus⟩

section
variable {cfg : SchedulerConfig}

/-- A reset finds everyone it preempts running. -/
theorem resetPrefixCache_succeeds {s : Scheduler} (h : Enrolled cfg s) :
    ∃ s', resetPrefixCache cfg s = .ok s' := by
  rw [resetPrefixCache]
  have hrunning : s.running = s.running.reverse.reverse := (List.reverse_reverse _).symm
  generalize s.running.reverse = ids at hrunning ⊢
  induction ids generalizing s with
  | nil => exact ⟨s, rfl⟩
  | cons id ids ih =>
    rw [List.reverse_cons] at hrunning
    have hmem : id ∈ s.running := by
      rw [hrunning]
      exact List.mem_append_right _ (List.mem_singleton.mpr rfl)
    have hstatus := h.wellFormed.running id hmem
    have hone : ∃ mid, preemptDropping cfg s id = .ok mid := by
      rw [preemptDropping, preemptRequest, if_neg (not_not.mpr hstatus)]
      exact ⟨_, rfl⟩
    obtain ⟨mid, hone⟩ := hone
    rw [List.foldlM_cons, hone]
    exact ih (preemptDropping_enrolled h hrunning hone) (preemptDropping_ok hrunning hone).2.2.1

end

end SparkKit.Sched.EngineRun
