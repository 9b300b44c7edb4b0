import SparkKit.Sched.Schedule
import Mathlib.Algebra.Order.BigOperators.Group.List

/-!
# Prefills and decodes in the running loop

While the decodes' demands and the prefill budget fit in the step together, every decode gets
what it asks for, so a decode cannot tell which prefills run beside it. The invariant of the
loop: the token budget covers the demands not yet visited and what is left of the prefill
budget.
-/
namespace SparkKit.Sched.Isolation

open SparkKit.Lib.Outcome SparkKit.Sched.Requests SparkKit.Sched.Chunk SparkKit.Sched.StepState
open SparkKit.Sched.Running SparkKit.Sched.Schedule

/-! ## Demands -/

/-- The tokens a decode asks for, before any budget. -/
def demand (cfg : SchedulerConfig) (r : Request) : ℤ :=
  let n := r.numTokensWithSpec + r.numOutputPlaceholders - r.numComputedTokens
  let n :=
    if 0 < cfg.longPrefillTokenThreshold ∧ cfg.longPrefillTokenThreshold < n then
      cfg.longPrefillTokenThreshold
    else n
  min n (cfg.maxModelLen - r.numComputedTokens - cfg.numSampledTokensPerStep)

def isDecode (s : Scheduler) (id : ReqId) : Bool := !(s.requests id).isPrefillChunk

/-- The summed demands of the decodes among some requests. -/
def decodeDemand (cfg : SchedulerConfig) (s : Scheduler) (ids : List ReqId) : ℤ :=
  ((ids.filter (isDecode s)).map fun id => demand cfg (s.requests id)).sum

/-- The state from which all running prefill requests have been removed. -/
def withoutPrefills (s : Scheduler) : Scheduler :=
  { s with
    running := s.running.filter (isDecode s)
    active := s.active.filter fun id => id ∉ s.running || isDecode s id }

/-- A running list whose decodes ask for a nonnegative number of tokens, which fits in the
step together with the decode-mode prefill budget. -/
structure DecodesFit (cfg : SchedulerConfig) (s : Scheduler) : Prop where
  nodup : s.running.Nodup
  status : ∀ id ∈ s.running, (s.requests id).status = .running
  textOnly : ∀ id ∈ s.running, (s.requests id).hasEncoderInputs = false
  demand_nonneg : ∀ id ∈ s.running, isDecode s id = true → 0 ≤ demand cfg (s.requests id)
  fits : decodeDemand cfg s s.running + cfg.decodePrefillTokenBudget ≤ cfg.maxNumScheduledTokens

/-- No allocation for these requests fails. -/
def NoAllocationFails (env : Env) (ids : List ReqId) : Prop :=
  ∀ tick, ∀ id ∈ ids, ∀ n, (env.allocateSlots tick id n).isSome = true

/-! ## One turn -/

/-- `num_new_tokens` after the Mamba alignment. -/
def alignedTokens (cfg : SchedulerConfig) (r : Request) (n : ℤ) : ℤ :=
  if cfg.needMambaBlockAlignedSplit = true then mambaBlockAlignedSplit cfg r n 0 0 else n

/-- The tokens a turn books, none when it skips the request. -/
def turnTokens (cfg : SchedulerConfig) (ctx : StepContext) (st : State) (id : ReqId) : ℤ :=
  let r := st.sched.requests id
  if passedOver ctx st.sched r = true ∨ gated cfg ctx r id = true ∨
      (budgeted cfg r = true ∧ remainingPrefillBudget ctx st.led ≤ 0) then 0
  else alignedTokens cfg r (runningTokens cfg ctx st.led r)

/-- `n` tokens leave room for speculative tokens. -/
def SpecsFit (r : Request) (n : ℤ) : Prop :=
  n ≠ 0 ∧ r.specTokenIds ≠ [] ∧
    n + r.numComputedTokens - r.numTokens - r.numOutputPlaceholders > 0

instance (r : Request) (n : ℤ) : Decidable (SpecsFit r n) := by
  rw [SpecsFit]
  infer_instance

/-- The effect of a turn that books `n` tokens and preempts nobody. -/
structure Books (cfg : SchedulerConfig) (st st' : State) (id : ReqId) (n : ℤ) : Prop where
  running : st'.sched.running = st.sched.running
  step : st'.sched.currentStep = st.sched.currentStep
  others : ∀ x, x ≠ id → st'.sched.requests x = st.sched.requests x
  index : st'.led.reqIndex = st.led.reqIndex + 1
  budget : st'.led.tokenBudget = st.led.tokenBudget - n
  counter : st'.led.prefillTokensScheduled = st.led.prefillTokensScheduled +
    if budgeted cfg (st.sched.requests id) = true then n else 0
  tokens : st'.led.numScheduledTokens =
    if n = 0 then st.led.numScheduledTokens else st.led.numScheduledTokens.insert id n
  specs : st'.led.scheduledSpecDecodeTokens =
    if SpecsFit (st.sched.requests id) n then
      st.led.scheduledSpecDecodeTokens.insert id (scheduledSpecTokens (st.sched.requests id) n)
    else st.led.scheduledSpecDecodeTokens

section
variable {cfg : SchedulerConfig} {env : Env} {ctx : StepContext}

/-- Nothing is booked. -/
theorem Books.skip {st st' : State} {id : ReqId} (hsched : st'.sched.requests = st.sched.requests)
    (hrunning : st'.sched.running = st.sched.running)
    (hstep : st'.sched.currentStep = st.sched.currentStep)
    (hled : ∃ tick skips, st'.led = { st.led with
      tick := tick, gateSkippedRunning := skips, reqIndex := st.led.reqIndex + 1 }) :
    Books cfg st st' id 0 := by
  obtain ⟨tick, skips, hled⟩ := hled
  have hnot : ¬SpecsFit (st.sched.requests id) 0 := fun h => h.1 rfl
  refine ⟨hrunning, hstep, fun x _ => by rw [hsched], ?_, ?_, ?_, ?_, ?_⟩
  · rw [hled]
  · rw [hled, sub_zero]
  · rw [hled, ite_self, add_zero]
  · rw [hled, if_pos rfl]
  · rw [hled, if_neg hnot]

/-- The tokens of a plan of a request without encoder inputs. -/
theorem planRunning_text {led : Ledger} {r : Request} (htext : r.hasEncoderInputs = false) :
    planRunning cfg env ctx led r = .ok
      ⟨alignedTokens cfg r (runningTokens cfg ctx led r), [], led.encoderComputeBudget, [],
        led.tick⟩ := by
  rw [planRunning, alignRunning, alignedTokens]
  dsimp only
  rw [htext, if_neg Bool.false_ne_true]
  split
  · rfl
  · rfl

/-- A turn whose allocation succeeds books its tokens. -/
theorem runningTurn_books {st : State} {id : ReqId}
    (htext : (st.sched.requests id).hasEncoderInputs = false)
    (halloc : ∀ tick n, (env.allocateSlots tick id n).isSome = true) :
    ∃ st', runningTurn cfg env ctx st id = .ok (st', false) ∧
      Books cfg st st' id (turnTokens cfg ctx st id) := by
  rw [runningTurn, turnTokens]
  dsimp only
  by_cases hpass : passedOver ctx st.sched (st.sched.requests id) = true
  · rw [if_pos hpass, if_pos (.inl hpass)]
    exact ⟨_, rfl, .skip rfl rfl rfl ⟨st.led.tick, st.led.gateSkippedRunning, rfl⟩⟩
  by_cases hgate : gated cfg ctx (st.sched.requests id) id = true
  · rw [if_neg hpass, if_pos hgate, if_pos (.inr (.inl hgate))]
    exact ⟨_, rfl, .skip rfl rfl rfl ⟨st.led.tick, st.led.gateSkippedRunning + 1, rfl⟩⟩
  by_cases hclosed : budgeted cfg (st.sched.requests id) = true ∧
      remainingPrefillBudget ctx st.led ≤ 0
  · rw [if_neg hpass, if_neg hgate, if_pos hclosed, if_pos (.inr (.inr hclosed))]
    exact ⟨_, rfl, .skip rfl rfl rfl ⟨st.led.tick, st.led.gateSkippedRunning, rfl⟩⟩
  rw [if_neg hpass, if_neg hgate, if_neg hclosed,
    if_neg (not_or.mpr ⟨hpass, not_or.mpr ⟨hgate, hclosed⟩⟩), planRunning_text htext]
  generalize alignedTokens cfg (st.sched.requests id)
    (runningTokens cfg ctx st.led (st.sched.requests id)) = n
  by_cases hzero : n = 0
  · subst hzero
    exact ⟨_, rfl, .skip rfl rfl rfl ⟨st.led.tick, st.led.gateSkippedRunning, rfl⟩⟩
  obtain ⟨blocks, hblocks⟩ := Option.isSome_iff_exists.mp (halloc st.led.tick n)
  refine ⟨commitRunning cfg id ⟨n, [], st.led.encoderComputeBudget, [], st.led.tick⟩ blocks
    st.ticked, ?_, ?_⟩
  · show (if n = 0 then _ else _) = _
    rw [if_neg hzero, allocateSlots]
    dsimp only
    rw [hblocks]
    rfl
  · refine ⟨rfl, rfl, ?_, rfl, rfl, ?_, ?_, ?_⟩
    · intro x hx
      exact Function.update_of_ne hx _ _
    · show (if budgeted cfg (st.sched.requests id) = true then _ else _) = _
      split
      · rfl
      · rw [add_zero]
        rfl
    · rw [if_neg hzero]
      rfl
    · show (if _ then _ else _) = _
      simp only [SpecsFit]
      simp only [ne_eq, hzero, not_false_eq_true, true_and]
      rfl

/-! ## What a decode gets -/

/-- The tokens a decode gets when no budget binds. -/
def decodeTokens (cfg : SchedulerConfig) (s : Scheduler) (id : ReqId) : ℤ :=
  let r := s.requests id
  if reachedMaxTokens r = true ∨ s.currentStep + 1 < r.nextDecodeEligibleStep then 0
  else alignedTokens cfg r (demand cfg r)

/-- Exactly the tokens of the decode and its speculative tokens are booked. -/
def GetsDemand (cfg : SchedulerConfig) (s : Scheduler) (led : Ledger) (id : ReqId) : Prop :=
  let n := decodeTokens cfg s id
  led.numScheduledTokens.lookup id = (if n = 0 then none else some n) ∧
    led.scheduledSpecDecodeTokens.lookup id =
      if SpecsFit (s.requests id) n then some (scheduledSpecTokens (s.requests id) n) else none

def Unbooked (led : Ledger) (id : ReqId) : Prop :=
  led.numScheduledTokens.lookup id = none ∧ led.scheduledSpecDecodeTokens.lookup id = none

/-- A request without tokens has what it demands when that is nothing. -/
theorem Unbooked.getsDemand {s : Scheduler} {led : Ledger} {id : ReqId} (h : Unbooked led id)
    (hzero : decodeTokens cfg s id = 0) : GetsDemand cfg s led id := by
  unfold GetsDemand
  dsimp only
  rw [hzero, if_pos rfl, if_neg fun hfit => hfit.1 rfl]
  exact h

/-- Booking a request that has nothing booked. -/
theorem Books.getsDemand {s : Scheduler} {st st' : State} {id : ReqId}
    (h : Books cfg st st' id (decodeTokens cfg s id)) (hunbooked : Unbooked st.led id)
    (hrequest : st.sched.requests id = s.requests id) : GetsDemand cfg s st'.led id := by
  unfold GetsDemand
  dsimp only
  rw [h.tokens, h.specs, hrequest]
  constructor
  · split
    · exact hunbooked.1
    · exact AList.lookup_insert _
  · split
    · exact AList.lookup_insert _
    · exact hunbooked.2

/-- Booking a request leaves the books of the others alone. -/
theorem Books.lookup_ne {st st' : State} {id x : ReqId} {n : ℤ} (h : Books cfg st st' id n)
    (hx : x ≠ id) :
    st'.led.numScheduledTokens.lookup x = st.led.numScheduledTokens.lookup x ∧
      st'.led.scheduledSpecDecodeTokens.lookup x = st.led.scheduledSpecDecodeTokens.lookup x := by
  rw [h.tokens, h.specs]
  constructor
  · split
    · rfl
    · exact AList.lookup_insert_ne hx
  · split
    · exact AList.lookup_insert_ne hx
    · rfl

/-! ## The budgets -/

/-- Aligning lowers a count, and keeps it nonnegative. -/
theorem alignedTokens_le (cfg : SchedulerConfig) (r : Request) (n : ℤ) :
    alignedTokens cfg r n ≤ max n 0 ∧ (0 ≤ n → 0 ≤ alignedTokens cfg r n) := by
  rw [alignedTokens]
  split
  · exact mambaBlockAlignedSplit_le cfg r n 0 0
  · exact ⟨le_max_left _ _, fun hn => hn⟩

/-- A decode whose demand fits in the token budget gets it. -/
theorem runningTokens_decode {led : Ledger} {r : Request} (hdecode : r.isPrefillChunk = false)
    (hfit : demand cfg r ≤ led.tokenBudget) : runningTokens cfg ctx led r = demand cfg r := by
  have hb : budgeted cfg r = false := by
    rw [budgeted, hdecode, Bool.and_false]
  rw [demand] at hfit ⊢
  rw [runningTokens]
  simp only [hb, true_and, Bool.false_eq_true, if_false] at hfit ⊢
  rw [min_right_comm]
  exact min_eq_left hfit

/-- The turn of a decode whose demand fits. -/
theorem turnTokens_decode {s : Scheduler} {st : State} {id : ReqId}
    (hrequest : st.sched.requests id = s.requests id)
    (hstep : st.sched.currentStep = s.currentStep + 1)
    (hstatus : (s.requests id).status = .running) (hdecode : isDecode s id = true)
    (hfit : demand cfg (s.requests id) ≤ st.led.tokenBudget) :
    turnTokens cfg ctx st id = decodeTokens cfg s id := by
  have hchunk : (s.requests id).isPrefillChunk = false := by
    rw [isDecode, Bool.not_eq_true'] at hdecode
    exact hdecode
  have hpass : passedOver ctx st.sched (s.requests id) = true ↔
      reachedMaxTokens (s.requests id) = true ∨
        s.currentStep + 1 < (s.requests id).nextDecodeEligibleStep := by
    rw [passedOver]
    rw [hstep, hchunk, Bool.and_false, Bool.or_false, Bool.or_eq_true, decide_eq_true_iff]
  have hgate : ¬gated cfg ctx (s.requests id) id = true := by
    have hlong : isLongPrefillRequest cfg (s.requests id) = false := by
      rw [isLongPrefillRequest]
      rw [if_pos hstatus, hchunk, ite_self]
    rw [gated, hlong, Bool.and_false, Bool.false_and]
    exact Bool.false_ne_true
  have hclosed : ¬(budgeted cfg (s.requests id) = true ∧
      remainingPrefillBudget ctx st.led ≤ 0) := by
    rw [budgeted, hchunk, Bool.and_false]
    exact fun h => Bool.false_ne_true h.1
  unfold turnTokens decodeTokens
  dsimp only
  rw [hrequest, runningTokens_decode hchunk hfit]
  by_cases hskip : reachedMaxTokens (s.requests id) = true ∨
      s.currentStep + 1 < (s.requests id).nextDecodeEligibleStep
  · rw [if_pos (.inl (hpass.mpr hskip)), if_pos hskip]
  · rw [if_neg (not_or.mpr ⟨fun h => hskip (hpass.mp h), not_or.mpr ⟨hgate, hclosed⟩⟩),
      if_neg hskip]

/-- The turn of a prefill stays within what is left of the prefill budget. -/
theorem turnTokens_prefill (henable : cfg.enableDecodeAwarePrefill = true) {st : State}
    {id : ReqId} (hchunk : (st.sched.requests id).isPrefillChunk = true)
    (hroom : 0 ≤ remainingPrefillBudget ctx st.led) :
    turnTokens cfg ctx st id ≤ remainingPrefillBudget ctx st.led := by
  have hb : budgeted cfg (st.sched.requests id) = true := by
    rw [budgeted, henable, hchunk]
    rfl
  unfold turnTokens
  dsimp only
  split
  · exact hroom
  · refine (alignedTokens_le cfg _ _).1.trans (max_le ?_ hroom)
    exact runningTokens_le_remaining hb

theorem decodeTokens_le {s : Scheduler} {id : ReqId}
    (hdemand : 0 ≤ demand cfg (s.requests id)) :
    0 ≤ decodeTokens cfg s id ∧ decodeTokens cfg s id ≤ demand cfg (s.requests id) := by
  unfold decodeTokens
  dsimp only
  split
  · exact ⟨le_refl 0, hdemand⟩
  · have halign := alignedTokens_le cfg (s.requests id) (demand cfg (s.requests id))
    rw [max_eq_left hdemand] at halign
    exact ⟨halign.2 hdemand, halign.1⟩

/-! ## The loop -/

theorem decodeDemand_cons (s : Scheduler) (id : ReqId) (ids : List ReqId) :
    decodeDemand cfg s (id :: ids) =
      (if isDecode s id = true then demand cfg (s.requests id) else 0) + decodeDemand cfg s ids := by
  simp only [decodeDemand]
  rw [List.filter_cons]
  split
  · rw [List.map_cons, List.sum_cons]
  · rw [zero_add]

/-- Every demand is part of the sum. -/
theorem demand_le_decodeDemand {s : Scheduler} {ids : List ReqId}
    (hnonneg : ∀ id ∈ ids, isDecode s id = true → 0 ≤ demand cfg (s.requests id)) :
    0 ≤ decodeDemand cfg s ids ∧
      ∀ id ∈ ids, isDecode s id = true → demand cfg (s.requests id) ≤ decodeDemand cfg s ids := by
  have hall : ∀ n ∈ (ids.filter (isDecode s)).map fun id => demand cfg (s.requests id), 0 ≤ n := by
    intro n hn
    obtain ⟨id, hid, rfl⟩ := List.mem_map.mp hn
    obtain ⟨hid, hdecode⟩ := List.mem_filter.mp hid
    exact hnonneg id hid hdecode
  refine ⟨List.sum_nonneg hall, fun id hid hdecode => ?_⟩
  exact List.single_le_sum hall _ (List.mem_map_of_mem (List.mem_filter.mpr ⟨hid, hdecode⟩))

/-- The requests before the index have their tokens, those from it on are untouched, and the
token budget covers them and what is left of the prefill budget. -/
structure DecodeInv (cfg : SchedulerConfig) (ctx : StepContext) (s : Scheduler) (st : State) :
    Prop where
  running : st.sched.running = s.running
  step : st.sched.currentStep = s.currentStep + 1
  requests : ∀ id ∈ s.running.drop st.led.reqIndex, st.sched.requests id = s.requests id
  unbooked : ∀ id ∈ s.running.drop st.led.reqIndex, Unbooked st.led id
  booked : ∀ id ∈ s.running.take st.led.reqIndex, isDecode s id = true → GetsDemand cfg s st.led id
  room : 0 ≤ remainingPrefillBudget ctx st.led
  covers : decodeDemand cfg s (s.running.drop st.led.reqIndex) + remainingPrefillBudget ctx st.led ≤
    st.led.tokenBudget

/-- The request under the index comes first of those not yet visited. -/
theorem drop_at {ids : List ReqId} {i : ℕ} {id : ReqId} (hid : ids[i]? = some id) :
    ids.drop i = id :: ids.drop (i + 1) := by
  obtain ⟨hlt, hget⟩ := List.getElem?_eq_some_iff.mp hid
  rw [List.drop_eq_getElem_cons hlt, hget]

/-- It comes last of those visited after its turn. -/
theorem take_at {ids : List ReqId} {i : ℕ} {id : ReqId} (hid : ids[i]? = some id) :
    ids.take (i + 1) = ids.take i ++ [id] := by
  obtain ⟨hlt, hget⟩ := List.getElem?_eq_some_iff.mp hid
  rw [List.take_succ_eq_append_getElem hlt, hget]

/-- Without repetitions it is neither before nor after itself. -/
theorem ne_at {ids : List ReqId} {i : ℕ} {id : ReqId} (hnodup : ids.Nodup)
    (hid : ids[i]? = some id) :
    (∀ x ∈ ids.take i, x ≠ id) ∧ ∀ x ∈ ids.drop (i + 1), x ≠ id := by
  have hsplit : ids = ids.take i ++ id :: ids.drop (i + 1) := by
    rw [← drop_at hid, List.take_append_drop]
  rw [hsplit, List.nodup_append] at hnodup
  refine ⟨fun x hx => hnodup.2.2 x hx id List.mem_cons_self, fun x hx heq => ?_⟩
  exact (List.nodup_cons.mp hnodup.2.1).1 (heq ▸ hx)

/-- A turn that books what its request may have keeps the invariant. -/
theorem DecodeInv.books {s : Scheduler} {st st' : State} {id : ReqId} {n : ℤ}
    (h : DecodeInv cfg ctx s st) (hnodup : s.running.Nodup)
    (hid : s.running[st.led.reqIndex]? = some id) (hbooks : Books cfg st st' id n)
    (hgets : isDecode s id = true → GetsDemand cfg s st'.led id)
    (hroom : 0 ≤ remainingPrefillBudget ctx st'.led)
    (hcovers : decodeDemand cfg s (s.running.drop (st.led.reqIndex + 1)) +
      remainingPrefillBudget ctx st'.led ≤ st'.led.tokenBudget) : DecodeInv cfg ctx s st' := by
  obtain ⟨hbehind, hahead⟩ := ne_at hnodup hid
  have hkeep : ∀ x ∈ s.running.drop (st.led.reqIndex + 1),
      x ∈ s.running.drop st.led.reqIndex := by
    intro x hx
    rw [drop_at hid]
    exact List.mem_cons_of_mem id hx
  refine ⟨hbooks.running.trans h.running, hbooks.step.trans h.step, ?_, ?_, ?_, hroom, ?_⟩
  · intro x hx
    rw [hbooks.index] at hx
    rw [hbooks.others x (hahead x hx)]
    exact h.requests x (hkeep x hx)
  · intro x hx
    rw [hbooks.index] at hx
    obtain ⟨htokens, hspecs⟩ := hbooks.lookup_ne (hahead x hx)
    rw [Unbooked]
    rw [htokens, hspecs]
    exact h.unbooked x (hkeep x hx)
  · intro x hx hdecode
    rw [hbooks.index, take_at hid] at hx
    rcases List.mem_append.mp hx with hx | hx
    · obtain ⟨htokens, hspecs⟩ := hbooks.lookup_ne (hbehind x hx)
      rw [GetsDemand]
      rw [htokens, hspecs]
      exact h.booked x hx hdecode
    · obtain rfl := List.mem_singleton.mp hx
      exact hgets hdecode
  · rw [hbooks.index]
    exact hcovers

section
variable {s : Scheduler} {st st' : State} {id : ReqId}

theorem DecodeInv.request (h : DecodeInv cfg ctx s st)
    (hid : s.running[st.led.reqIndex]? = some id) :
    st.sched.requests id = s.requests id ∧ Unbooked st.led id := by
  have hhead : id ∈ s.running.drop st.led.reqIndex := by
    rw [drop_at hid]
    exact List.mem_cons_self
  exact ⟨h.requests id hhead, h.unbooked id hhead⟩

/-- A decode takes its demand out of the token budget only. -/
theorem DecodeInv.booksDecode (h : DecodeInv cfg ctx s st) (hfit : DecodesFit cfg s)
    (hid : s.running[st.led.reqIndex]? = some id) (hdecode : isDecode s id = true)
    (hbooks : Books cfg st st' id (turnTokens cfg ctx st id)) : DecodeInv cfg ctx s st' := by
  obtain ⟨hrequest, hunbooked⟩ := h.request hid
  have hmem : id ∈ s.running := List.mem_of_getElem? hid
  have hchunk : (s.requests id).isPrefillChunk = false := by
    rw [isDecode, Bool.not_eq_true'] at hdecode
    exact hdecode
  have hcovers := h.covers
  have hroom := h.room
  rw [drop_at hid, decodeDemand_cons, if_pos hdecode] at hcovers
  have hahead : 0 ≤ decodeDemand cfg s (s.running.drop (st.led.reqIndex + 1)) :=
    (demand_le_decodeDemand fun x hx hx' =>
      hfit.demand_nonneg x (List.mem_of_mem_drop hx) hx').1
  have htokens : turnTokens cfg ctx st id = decodeTokens cfg s id :=
    turnTokens_decode hrequest h.step (hfit.status id hmem) hdecode (by omega)
  rw [htokens] at hbooks
  have hbudget := hbooks.budget
  have hcounter := hbooks.counter
  rw [hrequest, budgeted, hchunk, Bool.and_false, if_neg Bool.false_ne_true, add_zero] at hcounter
  have hremaining : remainingPrefillBudget ctx st'.led = remainingPrefillBudget ctx st.led := by
    simp only [remainingPrefillBudget]
    rw [hcounter]
  have hle := (decodeTokens_le (hfit.demand_nonneg id hmem hdecode)).2
  refine h.books hfit.nodup hid hbooks (fun _ => hbooks.getsDemand hunbooked hrequest) ?_ ?_
  · rw [hremaining]
    exact hroom
  · rw [hremaining, hbudget]
    omega

/-- A prefill takes the same from the token budget and from the prefill budget. -/
theorem DecodeInv.booksPrefill (henable : cfg.enableDecodeAwarePrefill = true)
    (h : DecodeInv cfg ctx s st) (hfit : DecodesFit cfg s)
    (hid : s.running[st.led.reqIndex]? = some id) (hprefill : isDecode s id = false)
    (hbooks : Books cfg st st' id (turnTokens cfg ctx st id)) : DecodeInv cfg ctx s st' := by
  obtain ⟨hrequest, -⟩ := h.request hid
  have hchunk : (s.requests id).isPrefillChunk = true := by
    rw [isDecode, Bool.not_eq_false'] at hprefill
    exact hprefill
  have hcovers := h.covers
  have hroom := h.room
  rw [drop_at hid, decodeDemand_cons, hprefill, if_neg Bool.false_ne_true, zero_add] at hcovers
  have hle : turnTokens cfg ctx st id ≤ remainingPrefillBudget ctx st.led :=
    turnTokens_prefill henable (hrequest ▸ hchunk) hroom
  have hbudget := hbooks.budget
  have hcounter := hbooks.counter
  rw [hrequest, budgeted, henable, hchunk, Bool.and_self, if_pos rfl] at hcounter
  have hremaining : remainingPrefillBudget ctx st'.led =
      remainingPrefillBudget ctx st.led - turnTokens cfg ctx st id := by
    simp only [remainingPrefillBudget]
    omega
  refine h.books hfit.nodup hid hbooks (fun hdecode => ?_) ?_ ?_
  · rw [hprefill] at hdecode
    exact absurd hdecode Bool.false_ne_true
  · omega
  · omega

end

theorem runningTurn_decodes (henable : cfg.enableDecodeAwarePrefill = true) {s : Scheduler}
    (hfit : DecodesFit cfg s) (halloc : NoAllocationFails env s.running) {st : State} {id : ReqId}
    (h : DecodeInv cfg ctx s st) (hid : s.running[st.led.reqIndex]? = some id) :
    ∃ st', runningTurn cfg env ctx st id = .ok (st', false) ∧ DecodeInv cfg ctx s st' ∧
      st'.led.reqIndex = st.led.reqIndex + 1 := by
  have hmem : id ∈ s.running := List.mem_of_getElem? hid
  have htext : (st.sched.requests id).hasEncoderInputs = false := by
    rw [(h.request hid).1]
    exact hfit.textOnly id hmem
  obtain ⟨st', hturn, hbooks⟩ : ∃ st', runningTurn cfg env ctx st id = .ok (st', false) ∧
      Books cfg st st' id (turnTokens cfg ctx st id) :=
    runningTurn_books htext fun tick n => halloc tick id hmem n
  refine ⟨st', hturn, ?_, hbooks.index⟩
  cases hdecode : isDecode s id with
  | true => exact h.booksDecode hfit hid hdecode hbooks
  | false => exact h.booksPrefill henable hfit hid hdecode hbooks

/-- However far the loop gets, every decode ends with what it demands. -/
theorem DecodeInv.final {s : Scheduler} (hfit : DecodesFit cfg s) {st : State}
    (h : DecodeInv cfg ctx s st)
    (hend : s.running.length ≤ st.led.reqIndex ∨ st.led.tokenBudget ≤ 0) :
    ∀ id ∈ s.running, isDecode s id = true → GetsDemand cfg s st.led id := by
  intro id hid hdecode
  rw [← List.take_append_drop st.led.reqIndex s.running] at hid
  rcases List.mem_append.mp hid with hid | hid
  · exact h.booked id hid hdecode
  · -- the loop ended early: nothing is left to demand
    have hbudget : st.led.tokenBudget ≤ 0 := by
      rcases hend with hlen | hbudget
      · rw [List.drop_eq_nil_of_le hlen] at hid
        cases hid
      · exact hbudget
    have hmem : id ∈ s.running := List.mem_of_mem_drop hid
    have hnonneg := hfit.demand_nonneg id hmem hdecode
    have hpart := (demand_le_decodeDemand fun x hx hx' =>
      hfit.demand_nonneg x (List.mem_of_mem_drop hx) hx').2 id hid hdecode
    have hcovers := h.covers
    have hroom := h.room
    have hle := decodeTokens_le hnonneg
    exact (h.unbooked id hid).getsDemand (by omega)

theorem runningLoop_decodes (henable : cfg.enableDecodeAwarePrefill = true) {s : Scheduler}
    (hfit : DecodesFit cfg s) (halloc : NoAllocationFails env s.running) {fuel : ℕ} {st : State}
    (h : DecodeInv cfg ctx s st) (hfuel : s.running.length ≤ st.led.reqIndex + fuel) :
    ∃ out, runningLoop cfg env ctx fuel st = .ok out ∧
      ∀ id ∈ s.running, isDecode s id = true → GetsDemand cfg s out.led id := by
  induction fuel generalizing st with
  | zero => exact ⟨st, rfl, h.final hfit (.inl hfuel)⟩
  | succ fuel ih =>
    rw [runningLoop]
    rw [h.running]
    cases hid : s.running[st.led.reqIndex]? with
    | none => exact ⟨st, rfl, h.final hfit (.inl (List.getElem?_eq_none_iff.mp hid))⟩
    | some id =>
      dsimp only
      by_cases hbudget : st.led.tokenBudget > 0
      · obtain ⟨st', hturn, hinv, hindex⟩ := runningTurn_decodes henable hfit halloc h hid
        obtain ⟨out, hout, hgets⟩ := ih hinv (by omega)
        refine ⟨out, ?_, hgets⟩
        rw [if_pos hbudget, hturn]
        exact hout
      · rw [if_neg hbudget]
        exact ⟨st, rfl, h.final hfit (.inr (not_lt.mp hbudget))⟩

/-! ## The running half of a step -/

theorem initialState_unbooked (s : Scheduler) (id : ReqId) :
    Unbooked (initialState cfg s).led id :=
  ⟨AList.lookup_empty id, AList.lookup_empty id⟩

/-- Without decodes nothing is demanded. -/
theorem decodeDemand_no_decode {s : Scheduler} (hnone : hasActiveDecode s = false) :
    decodeDemand cfg s s.running = 0 := by
  have hempty : s.running.filter (isDecode s) = [] := by
    rw [List.filter_eq_nil_iff]
    exact List.any_eq_false.mp hnone
  rw [decodeDemand]
  rw [hempty]
  rfl

theorem initialState_decodes (henable : cfg.enableDecodeAwarePrefill = true) {s : Scheduler}
    (hfit : DecodesFit cfg s) (hpause : s.pauseState ≠ .pausedAll) (throttle : Bool) :
    DecodeInv cfg (stepContext cfg throttle s) s (initialState cfg s) := by
  obtain ⟨turns, hbegin⟩ := beginStep_eq cfg s
  have hsched : (initialState cfg s).sched =
      { s with currentStep := s.currentStep + 1, longPrefillLastScheduled := turns } := hbegin
  have hremaining : remainingPrefillBudget (stepContext cfg throttle s) (initialState cfg s).led =
      prefillTokenBudget cfg s := sub_zero _
  refine ⟨by rw [hsched], by rw [hsched], ?_, ?_, ?_, ?_, ?_⟩
  · intro id _
    rw [hsched]
  · intro id _
    exact initialState_unbooked s id
  · intro id hid
    cases hid
  · rw [hremaining]
    exact prefillTokenBudget_nonneg henable s
  · rw [hremaining]
    show decodeDemand cfg s (s.running.drop 0) + prefillTokenBudget cfg s ≤ initialTokenBudget cfg s
    have hfits := hfit.fits
    rw [initialTokenBudget, prefillTokenBudget, configuredPrefillBudget]
    rw [List.drop_zero, if_neg hpause, if_pos henable]
    cases hactive : hasActiveDecode s with
    | true =>
      rw [if_pos rfl]
      exact (Int.add_le_add_left (min_le_left _ _) _).trans hfits
    | false =>
      rw [decodeDemand_no_decode hactive, zero_add]
      exact min_le_right _ _

/-- A paused step schedules nothing; in any other one each decode gets what it demands. -/
theorem scheduleRunning_decodes (henable : cfg.enableDecodeAwarePrefill = true) {s : Scheduler}
    (hfit : DecodesFit cfg s) (halloc : NoAllocationFails env s.running) (throttle : Bool) :
    ∃ out, scheduleRunning cfg env throttle s = .ok out ∧
      ∀ id ∈ s.running, isDecode s id = true →
        if s.pauseState = .pausedAll then Unbooked out.led id else GetsDemand cfg s out.led id := by
  rw [scheduleRunning]
  by_cases hpause : s.pauseState = .pausedAll
  · refine ⟨initialState cfg s, ?_, fun id _ _ => ?_⟩
    · have hbudget : ¬(initialState cfg s).led.tokenBudget > 0 := by
        show ¬initialTokenBudget cfg s > 0
        rw [initialTokenBudget, if_pos hpause]
        exact lt_irrefl 0
      cases s.running.length with
      | zero => rfl
      | succ fuel =>
        rw [runningLoop]
        split
        · rfl
        · rw [if_neg hbudget]
    · rw [if_pos hpause]
      exact initialState_unbooked s id
  · have hfuel : s.running.length ≤ (initialState cfg s).led.reqIndex + s.running.length :=
      Nat.le_add_left _ _
    obtain ⟨out, hout, hgets⟩ := runningLoop_decodes henable hfit halloc
      (initialState_decodes henable hfit hpause throttle) hfuel
    refine ⟨out, hout, fun id hid hdecode => ?_⟩
    rw [if_neg hpause]
    exact hgets id hid hdecode

/-- The decodes still fit once the prefills are gone. -/
theorem DecodesFit.withoutPrefills {s : Scheduler} (h : DecodesFit cfg s) :
    DecodesFit cfg (withoutPrefills s) := by
  have hsub : ∀ id ∈ (Isolation.withoutPrefills s).running, id ∈ s.running :=
    fun id hid => List.mem_of_mem_filter hid
  have hdemand : decodeDemand cfg s (s.running.filter (isDecode s)) =
      decodeDemand cfg s s.running := by
    simp only [decodeDemand]
    rw [List.filter_filter]
    simp only [Bool.and_self]
  refine ⟨h.nodup.filter _, fun id hid => h.status id (hsub id hid),
    fun id hid => h.textOnly id (hsub id hid),
    fun id hid hdecode => h.demand_nonneg id (hsub id hid) hdecode, ?_⟩
  show decodeDemand cfg s (s.running.filter (isDecode s)) + _ ≤ _
  rw [hdemand]
  exact h.fits

end

/-- Prefills do not disturb decodes: the running loop books the same tokens and the same
speculative tokens for every decode as in the state without the prefills. -/
theorem decodes_undisturbed {cfg : SchedulerConfig} {env : Env} {s : Scheduler} {throttle : Bool}
    (henable : cfg.enableDecodeAwarePrefill = true) (hfit : DecodesFit cfg s)
    (halloc : NoAllocationFails env s.running) :
    ∃ out alone, scheduleRunning cfg env throttle s = .ok out ∧
      scheduleRunning cfg env throttle (withoutPrefills s) = .ok alone ∧
      ∀ id ∈ s.running, isDecode s id = true →
        out.led.numScheduledTokens.lookup id = alone.led.numScheduledTokens.lookup id ∧
          out.led.scheduledSpecDecodeTokens.lookup id =
            alone.led.scheduledSpecDecodeTokens.lookup id := by
  have halloc' : NoAllocationFails env (withoutPrefills s).running :=
    fun tick id hid n => halloc tick id (List.mem_of_mem_filter hid) n
  obtain ⟨out, hout, hgets⟩ := scheduleRunning_decodes henable hfit halloc throttle
  obtain ⟨alone, halone, hgets'⟩ :=
    scheduleRunning_decodes henable hfit.withoutPrefills halloc' throttle
  refine ⟨out, alone, hout, halone, fun id hid hdecode => ?_⟩
  have hwith := hgets id hid hdecode
  have hwithout := hgets' id (List.mem_filter.mpr ⟨hid, hdecode⟩) hdecode
  change if s.pauseState = .pausedAll then _ else GetsDemand cfg s alone.led id at hwithout
  split at hwith
  · rename_i hpause
    rw [if_pos hpause] at hwithout
    exact ⟨hwith.1.trans hwithout.1.symm, hwith.2.trans hwithout.2.symm⟩
  · rename_i hpause
    rw [if_neg hpause] at hwithout
    exact ⟨hwith.1.trans hwithout.1.symm, hwith.2.trans hwithout.2.symm⟩

/-- Two prefills, one of them long, between two decodes. -/
def mixedScheduler : Scheduler :=
  smallScheduler [smallRequest 0 1 40 30 [], smallRequest 1 1 9 8 [7, 8],
    smallRequest 2 1 90 10 [], smallRequest 3 1 20 19 []]

theorem decodes_undisturbed_mixed :
    ∃ out alone, scheduleRunning smallConfig (smallEnv none) false mixedScheduler = .ok out ∧
      scheduleRunning smallConfig (smallEnv none) false (withoutPrefills mixedScheduler) =
        .ok alone ∧
      ∀ id ∈ mixedScheduler.running, isDecode mixedScheduler id = true →
        out.led.numScheduledTokens.lookup id = alone.led.numScheduledTokens.lookup id ∧
          out.led.scheduledSpecDecodeTokens.lookup id =
            alone.led.scheduledSpecDecodeTokens.lookup id :=
  decodes_undisturbed rfl ⟨by decide, by decide, by decide, by decide, by decide⟩
    fun _ _ _ _ => rfl

end SparkKit.Sched.Isolation
