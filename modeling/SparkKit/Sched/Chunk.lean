import SparkKit.Sched.Requests
import SparkKit.Lib.Outcome
import Mathlib.Order.MinMax
import Mathlib.Algebra.Order.Group.Int

/-!
# How many tokens of a request fit

The adjustments of a request's token count that are functions of their own: stopping before
an encoder input that does not fit, and ending where Mamba state must be cached. Each of
them only ever lowers the count.
-/
namespace SparkKit.Sched.Chunk

open SparkKit.Lib.Outcome SparkKit.Sched.Requests

/-! ## Encoder inputs -/

/-- The trackers of `_try_schedule_encoder_inputs`; `stopped` is its `break`. -/
structure EncoderScan where
  inputs : List ℕ
  externalLoads : List ℕ
  mmHashes : List ℕ
  numEmbeds : ℤ
  computeBudget : ℤ
  numNewTokens : ℤ
  tick : ℕ
  stopped : Bool

/-- The request whose inputs are scanned, and where its computed tokens end. -/
structure EncoderQuery where
  request : Request
  numComputedTokens : ℤ
  shiftComputedTokens : ℤ

/-- The rest of the scan of one input, past the cache checks. -/
def scheduleInput (cfg : SchedulerConfig) (env : Env) (q : EncoderQuery) (i : ℕ) (f : MmFeature)
    (acc : EncoderScan) : EncoderScan :=
  if cfg.disableChunkedMmInput = true ∧ q.numComputedTokens < f.offset ∧
      q.numComputedTokens + acc.numNewTokens < f.offset + f.length then
    { acc with
      numNewTokens := max 0 (f.offset - (q.numComputedTokens + q.shiftComputedTokens))
      stopped := true }
  else if env.canAllocate acc.tick q.request.requestId i acc.computeBudget acc.numEmbeds = false then
    { acc with
      tick := acc.tick + 1
      numNewTokens :=
        if q.numComputedTokens + q.shiftComputedTokens < f.offset then
          f.offset - (q.numComputedTokens + q.shiftComputedTokens)
        else 0
      stopped := true }
  else
    let embeds := env.getEmbedsIndicesInRange f (max 0 (q.numComputedTokens - f.offset))
      (min f.length (q.numComputedTokens + acc.numNewTokens - f.offset))
    if embeds.2 - embeds.1 = 0 then { acc with tick := acc.tick + 1 }
    else if cfg.hasEcConnector = true ∧ env.hasCacheItem acc.tick f.identifier = true then
      { acc with
        tick := acc.tick + 1
        mmHashes := acc.mmHashes ++ [f.identifier]
        externalLoads := acc.externalLoads ++ [i]
        numEmbeds := acc.numEmbeds + f.numEmbeds }
    else
      { acc with
        tick := acc.tick + 1
        numEmbeds := acc.numEmbeds + f.numEmbeds
        computeBudget := acc.computeBudget - f.numEmbeds
        mmHashes := acc.mmHashes ++ [f.identifier]
        inputs := acc.inputs ++ [i] }

/-- One turn of the scan. -/
def scanInput (cfg : SchedulerConfig) (env : Env) (q : EncoderQuery) (acc : EncoderScan) (i : ℕ) :
    Except String EncoderScan :=
  if acc.stopped = true then .ok acc
  else
    match q.request.mmFeatures[i]? with
    | none => .error "list index out of range"
    | some f =>
        if cfg.isEncoderDecoder = true then
          if q.numComputedTokens > 0 then
            if f.offset = 0 then .ok acc
            else
              .error ("Encoder input should be processed at the beginning of " ++
                "the sequence when encoder-decoder models are used.")
          else .ok (scheduleInput cfg env q i f acc)
        else if f.identifier ∈ acc.mmHashes then .ok acc
        else if env.checkAndUpdateCache acc.tick q.request.requestId i = true then
          .ok { acc with tick := acc.tick + 1 }
        else .ok (scheduleInput cfg env q i f { acc with tick := acc.tick + 1 })

/-- `_try_schedule_encoder_inputs` -/
def tryScheduleEncoderInputs (cfg : SchedulerConfig) (env : Env) (tick : ℕ) (request : Request)
    (numComputedTokens numNewTokens encoderComputeBudget shiftComputedTokens : ℤ) :
    Except String EncoderScan :=
  let acc : EncoderScan :=
    ⟨[], [], [], 0, encoderComputeBudget, numNewTokens, tick, false⟩
  if numNewTokens = 0 ∨ request.hasEncoderInputs = false then .ok acc
  else
    let window := env.getMmFeaturesInWindow request.mmFeatures numComputedTokens
      (numComputedTokens + numNewTokens + shiftComputedTokens)
    let lo := if cfg.isEncoderDecoder = true then 0 else window.1
    (List.range' lo (window.2 - lo)).foldlM
      (scanInput cfg env ⟨request, numComputedTokens, shiftComputedTokens⟩) acc

section
variable {cfg : SchedulerConfig} {env : Env} {q : EncoderQuery}

/-- The count of a scan lies between zero and the count it started from. -/
def Lowered (n : ℤ) (acc : EncoderScan) : Prop :=
  (acc.stopped = false → acc.numNewTokens = n) ∧ 0 ≤ acc.numNewTokens ∧ acc.numNewTokens ≤ n

theorem scheduleInput_lowered {n : ℤ} {i : ℕ} {f : MmFeature} {acc : EncoderScan}
    (h : Lowered n acc) (hn : 0 ≤ n)
    (hoffset : f.offset < q.numComputedTokens + n + q.shiftComputedTokens) :
    Lowered n (scheduleInput cfg env q i f acc) := by
  obtain ⟨hkeep, hnonneg, hle⟩ := h
  unfold scheduleInput
  split
  · refine ⟨fun hstopped => Bool.noConfusion hstopped, le_max_left _ _, max_le hn ?_⟩
    omega
  split
  · refine ⟨fun hstopped => Bool.noConfusion hstopped, ?_, ?_⟩
    · dsimp only
      split <;> omega
    · dsimp only
      split <;> omega
  dsimp only
  split
  · exact ⟨hkeep, hnonneg, hle⟩
  split
  · exact ⟨hkeep, hnonneg, hle⟩
  · exact ⟨hkeep, hnonneg, hle⟩

theorem scanInput_lowered {n : ℤ} {i : ℕ} {acc acc' : EncoderScan} (h : Lowered n acc)
    (hn : 0 ≤ n)
    (hoffset : ∀ f, q.request.mmFeatures[i]? = some f →
      f.offset < q.numComputedTokens + n + q.shiftComputedTokens)
    (hstep : scanInput cfg env q acc i = .ok acc') : Lowered n acc' := by
  unfold scanInput at hstep
  split at hstep
  · cases hstep
    exact h
  split at hstep
  · cases hstep
  rename_i f hf
  split at hstep
  · split at hstep
    · split at hstep
      · cases hstep
        exact h
      · cases hstep
    · cases hstep
      exact scheduleInput_lowered h hn (hoffset f hf)
  split at hstep
  · cases hstep
    exact h
  split at hstep
  · cases hstep
    exact h
  · cases hstep
    exact scheduleInput_lowered h hn (hoffset f hf)

end

/-- Scheduling encoder inputs only lowers the token count. -/
theorem encoder_le {cfg : SchedulerConfig} {env : Env} (hwindow : env.WindowBounded) {tick : ℕ}
    {request : Request} {computed n budget shift : ℤ} {scan : EncoderScan} (hn : 0 ≤ n)
    (h : tryScheduleEncoderInputs cfg env tick request computed n budget shift = .ok scan) :
    0 ≤ scan.numNewTokens ∧ scan.numNewTokens ≤ n := by
  unfold tryScheduleEncoderInputs at h
  split at h
  · cases h
    exact ⟨hn, le_refl _⟩
  have hscan : Lowered n scan := by
    refine foldlM_ok (I := fun _ acc => Lowered n acc) ⟨fun _ => rfl, hn, le_refl _⟩ ?_ h
    intro _ i acc acc' hi hacc hstep
    refine scanInput_lowered hacc hn (fun f hf => ?_) hstep
    refine hwindow request.mmFeatures computed (computed + n + shift) i f ?_ hf
    have hrange := List.mem_range'_1.mp hi
    omega
  exact hscan.2

section
variable {cfg : SchedulerConfig} {env : Env} {q : EncoderQuery}

theorem scheduleInput_nonpos {n : ℤ} {i : ℕ} {f : MmFeature} {acc : EncoderScan}
    (h : acc.numNewTokens ≤ 0) (hn : n < 0)
    (hoffset : f.offset < q.numComputedTokens + n + q.shiftComputedTokens) :
    (scheduleInput cfg env q i f acc).numNewTokens ≤ 0 := by
  unfold scheduleInput
  split
  · refine max_le (le_refl 0) ?_
    omega
  split
  · dsimp only
    rw [if_neg (by omega)]
  dsimp only
  split
  · exact h
  split
  · exact h
  · exact h

theorem scanInput_nonpos {n : ℤ} {i : ℕ} {acc acc' : EncoderScan} (h : acc.numNewTokens ≤ 0)
    (hn : n < 0)
    (hoffset : ∀ f, q.request.mmFeatures[i]? = some f →
      f.offset < q.numComputedTokens + n + q.shiftComputedTokens)
    (hstep : scanInput cfg env q acc i = .ok acc') : acc'.numNewTokens ≤ 0 := by
  unfold scanInput at hstep
  split at hstep
  · cases hstep
    exact h
  split at hstep
  · cases hstep
  rename_i f hf
  split at hstep
  · split at hstep
    · split at hstep
      · cases hstep
        exact h
      · cases hstep
    · cases hstep
      exact scheduleInput_nonpos h hn (hoffset f hf)
  split at hstep
  · cases hstep
    exact h
  split at hstep
  · cases hstep
    exact h
  · cases hstep
    exact scheduleInput_nonpos h hn (hoffset f hf)

end

/-- Scheduling encoder inputs gives a request no tokens that it did not ask for. -/
theorem encoder_le_max {cfg : SchedulerConfig} {env : Env} (hwindow : env.WindowBounded) {tick : ℕ}
    {request : Request} {computed n budget shift : ℤ} {scan : EncoderScan}
    (h : tryScheduleEncoderInputs cfg env tick request computed n budget shift = .ok scan) :
    scan.numNewTokens ≤ max n 0 := by
  by_cases hn : 0 ≤ n
  · exact (encoder_le hwindow hn h).2.trans (le_max_left _ _)
  have hneg : n < 0 := by omega
  refine le_trans ?_ (le_max_right n 0)
  unfold tryScheduleEncoderInputs at h
  split at h
  · cases h
    exact le_of_lt hneg
  refine foldlM_ok (I := fun _ acc => acc.numNewTokens ≤ 0) (le_of_lt hneg) ?_ h
  intro _ i acc acc' hi hacc hstep
  refine scanInput_nonpos hacc hneg (fun f hf => ?_) hstep
  refine hwindow request.mmFeatures computed (computed + n + shift) i f ?_ hf
  have hrange := List.mem_range'_1.mp hi
  omega

/-! ## Mamba block alignment -/

/-- `_mamba_block_aligned_split` -/
def mambaBlockAlignedSplit (cfg : SchedulerConfig) (request : Request) (numNewTokens
    numNewLocalComputedTokens numExternalComputedTokens : ℤ) : ℤ :=
  let start := request.numComputedTokens + numNewLocalComputedTokens + numExternalComputedTokens
  let prefillEnd := max request.numPromptTokens (request.numTokens - 1)
  if start ≥ prefillEnd then numNewTokens
  else
    let blockSize := cfg.cacheBlockSize
    let lastAligned := request.numTokens - request.numTokens % blockSize
    let lastCachePosition :=
      if cfg.useEagle = true then max (lastAligned - blockSize) 0 else lastAligned
    let chunkEnd := start + numNewTokens
    let maxPrefillTokens :=
      if cfg.longPrefillTokenThreshold > 0 then
        min cfg.maxNumScheduledTokens cfg.longPrefillTokenThreshold
      else cfg.maxNumScheduledTokens
    let alignedEnd := chunkEnd / blockSize * blockSize
    let chunkEnd :=
      if chunkEnd < prefillEnd ∧ (alignedEnd > start ∨ blockSize ≤ maxPrefillTokens) then alignedEnd
      else chunkEnd
    let nextBlockBoundary := (start / blockSize + 1) * blockSize
    let tailBoundary :=
      if cfg.mambaPartialCacheHit = true then
        request.numPromptTokens / cfg.hashBlockSize * cfg.hashBlockSize
      else 0
    let junction := request.sharedPrefixBoundary
    let stops := [
      if start % blockSize ≠ 0 then nextBlockBoundary else 0,
      lastCachePosition,
      if lastCachePosition < tailBoundary ∧ tailBoundary < request.numPromptTokens then tailBoundary
      else 0,
      if start < junction ∧ junction < chunkEnd then
        start + (junction - start) / blockSize * blockSize
      else 0]
    let chunkEnd := ((stops.filter fun s => start < s ∧ s < chunkEnd).min?).getD chunkEnd
    max (chunkEnd - start) 0

/-- The earliest stop is no later than the end it is looked for under. -/
theorem earliest_stop_le (stops : List ℤ) (start stop : ℤ) :
    ((stops.filter fun s => start < s ∧ s < stop).min?).getD stop ≤ stop := by
  cases hmin : (stops.filter fun s => start < s ∧ s < stop).min? with
  | none => exact le_refl _
  | some m =>
    have hm := (List.mem_filter.mp (List.min?_mem hmin)).2
    simp only [decide_eq_true_eq] at hm
    exact le_of_lt hm.2

theorem ite_le_right {p : Prop} [Decidable p] {a b : ℤ} (h : a ≤ b) : (if p then a else b) ≤ b := by
  split
  · exact h
  · exact le_refl b

/-- Aligning a chunk only lowers its token count, and leaves it nonnegative. -/
theorem mambaBlockAlignedSplit_le (cfg : SchedulerConfig) (request : Request)
    (n localTokens externalTokens : ℤ) :
    mambaBlockAlignedSplit cfg request n localTokens externalTokens ≤ max n 0 ∧
      (0 ≤ n → 0 ≤ mambaBlockAlignedSplit cfg request n localTokens externalTokens) := by
  unfold mambaBlockAlignedSplit
  dsimp only
  split
  · exact ⟨le_max_left _ _, fun hn => hn⟩
  · refine ⟨max_le_max ?_ (le_refl 0), fun _ => le_max_right _ _⟩
    apply Int.sub_left_le_of_le_add
    refine (earliest_stop_le _ _ _).trans (ite_le_right ?_)
    exact Int.ediv_mul_le _ (ne_of_gt cfg.cacheBlockSize_pos)

end SparkKit.Sched.Chunk
