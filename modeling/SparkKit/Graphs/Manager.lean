import SparkKit.Graphs.DepthLadder
import Mathlib.Data.List.ProdSigma
import Mathlib.Data.List.MinMax
import Mathlib.Order.Nat
import Mathlib.Algebra.Group.Action.Defs
import Mathlib.Algebra.Order.Ring.Nat
import Mathlib.Algebra.Order.BigOperators.Group.List

/-!
# The CUDA graph manager

At load time the manager lists the batch shapes to capture and maps every token count to
the shapes that may serve it; at run time `dispatch` walks that list. Adaptive speculative
depth adds one shape for each rung and request count in front of the base list, and
initialisation raises when such a shape is missing.
-/
namespace SparkKit.Graphs.Manager

open SparkKit.Graphs.DepthLadder

/-- The runtime modes a descriptor can carry. -/
inductive GraphMode where
  | none
  | piecewise
  | full
deriving DecidableEq

/-- What the manager asks of the resolved `CUDAGraphMode`. -/
structure CudagraphMode where
  name : String
  isOn : Bool
  decodeMode : GraphMode
  mixedMode : GraphMode
  separateRoutine : Bool
  hasFullCudagraphs : Bool

/-- `BatchExecutionDescriptor` -/
structure Desc where
  cgMode : GraphMode
  numTokens : ℕ
  numReqs : Option ℕ
  uniformTokenCount : Option ℕ
  numActiveLoras : ℕ
deriving DecidableEq

structure SpeculativeConfig where
  /-- `num_speculative_tokens_per_batch_size` -/
  perBatchSize : Option (List (ℕ × ℕ × ℕ))
  /-- `adaptive_speculative_tokens_window` -/
  adaptiveWindow : Option ℕ

structure ManagerConfig where
  maxNumReqs : ℕ
  decodeQueryLen : ℕ
  numSpeculativeTokens : ℕ
  speculative : Option SpeculativeConfig
  depths : LadderTokens
  captureSizes : List ℕ
  maxCaptureSize : ℕ
  loraCaptureCases : List ℕ
  mode : CudagraphMode

def maxDecodeTokens (cfg : ManagerConfig) : ℕ := cfg.maxNumReqs * cfg.decodeQueryLen

/-- The descriptors built so far, by mode and in the order they entered the table. -/
structure Built where
  byMode : GraphMode → List Desc
  table : List Desc

def Built.push (b : Built) (mode : GraphMode) (desc : Desc) : Built where
  byMode := Function.update b.byMode mode (b.byMode mode ++ [desc])
  table := b.table ++ [desc]

/-! ## LoRA cases -/

/-- `_build_lora_dispatch_map` composed with `_resolve_effective_loras`: the smallest
captured case that can serve the count, the largest one past them all. -/
def resolveEffectiveLoras (cfg : ManagerConfig) (numActiveLoras : ℕ) : ℕ :=
  let capturedWithLora := sortedSet (cfg.loraCaptureCases.filter (0 < ·))
  if numActiveLoras = 0 then 0
  else
    (capturedWithLora.find? fun c => numActiveLoras ≤ c).getD
      (capturedWithLora.getLast?.getD numActiveLoras)

/-! ## Base descriptors -/

def roundUp (x multiple : ℕ) : ℕ := (x + multiple - 1) / multiple * multiple

def decodeDesc (cfg : ManagerConfig) (size lora queryLen : ℕ) : Desc where
  cgMode := cfg.mode.decodeMode
  numTokens := roundUp size queryLen
  numReqs := some (roundUp size queryLen / queryLen)
  uniformTokenCount := some queryLen
  numActiveLoras := lora

/-- The rounded shape exceeds a limit. -/
def tooLarge (cfg : ManagerConfig) (size queryLen : ℕ) : Bool :=
  roundUp size queryLen > maxDecodeTokens cfg || roundUp size queryLen > cfg.maxCaptureSize ||
    roundUp size queryLen / queryLen > cfg.maxNumReqs

def addDecode (cfg : ManagerConfig) (size lora : ℕ) (b : Built) (queryLen : ℕ) : Built :=
  if tooLarge cfg size queryLen then b
  else if decodeDesc cfg size lora queryLen ∈ b.byMode cfg.mode.decodeMode then b
  else b.push cfg.mode.decodeMode (decodeDesc cfg size lora queryLen)

def mixedDesc (cfg : ManagerConfig) (size lora : ℕ) : Desc where
  cgMode := cfg.mode.mixedMode
  numTokens := size
  numReqs := if cfg.mode.mixedMode = .full then some (min size cfg.maxNumReqs) else none
  uniformTokenCount := none
  numActiveLoras := lora

def addMixed (cfg : ManagerConfig) (size lora : ℕ) (b : Built) : Built :=
  if cfg.mode.mixedMode = .none then b else b.push cfg.mode.mixedMode (mixedDesc cfg size lora)

/-- One capture size and LoRA case. -/
def baseStep (cfg : ManagerConfig) (decodeQueryLens : List ℕ) (b : Built) (case : ℕ × ℕ) : Built :=
  addMixed cfg case.1 case.2
    (if cfg.mode.separateRoutine = true ∧ cfg.mode.decodeMode ≠ .none then
      decodeQueryLens.foldl (addDecode cfg case.1 case.2) b
    else b)

/-- The uniform query lengths of the base decode graphs. -/
def baseDecodeQueryLens (cfg : ManagerConfig) : List ℕ :=
  match cfg.speculative.bind SpeculativeConfig.perBatchSize with
  | some entries =>
      entries.map fun x => x.2.2 + cfg.decodeQueryLen - cfg.numSpeculativeTokens
  | none => [cfg.decodeQueryLen]

def captureCases (cfg : ManagerConfig) : List (ℕ × ℕ) :=
  cfg.captureSizes.insertionSort (· ≤ ·) ×ˢ cfg.loraCaptureCases

def baseDescs (cfg : ManagerConfig) : Built :=
  (captureCases cfg).foldl (baseStep cfg (baseDecodeQueryLens cfg)) ⟨fun _ => [], []⟩

/-! ## Adaptive descriptors -/

def usesAcceptanceLengthAdaptation (cfg : ManagerConfig) : Bool :=
  (cfg.speculative.bind SpeculativeConfig.adaptiveWindow).isSome

def noSpecTokensMessage (cfg : ManagerConfig) : String :=
  "Adaptive speculative depth is configured (adaptive_speculative_tokens_window=" ++
  s!"{(cfg.speculative.bind SpeculativeConfig.adaptiveWindow).getD 0}) but " ++
  s!"num_speculative_tokens resolved to {cfg.numSpeculativeTokens}. " ++
  "There is no ladder to capture graphs for and no way to tell " ++
  "which verification shapes the scheduler can produce."

def unknownShapeMessage (cfg : ManagerConfig) : String :=
  s!"Adaptive speculative depth is configured but decode_query_len ({cfg.decodeQueryLen}) " ++
  s!"is not greater than num_speculative_tokens ({cfg.numSpeculativeTokens}), so the " ++
  "per-depth verification shape cannot be derived. This is not " ++
  "the 'K + newly sampled tokens' verifier layout this capture " ++
  "path is derived against; refusing to run adaptive depth " ++
  "against an unrecognised verifier shape."

def emptyLadderMessage (cfg : ManagerConfig) : String :=
  "Adaptive speculative depth is configured but the depth ladder " ++
  s!"parsed to an empty set for num_speculative_tokens={cfg.numSpeculativeTokens}. " ++
  "Refusing to report 'no depths to cover' for a run that will still adapt its depth."

def adaptiveSpecDecodeQueryLens (cfg : ManagerConfig) : Except String (List ℕ) :=
  if cfg.decodeQueryLen ≤ 1 ∨ usesAcceptanceLengthAdaptation cfg = false then .ok []
  else if cfg.numSpeculativeTokens = 0 then .error (noSpecTokensMessage cfg)
  else if cfg.decodeQueryLen - cfg.numSpeculativeTokens < 1 then .error (unknownShapeMessage cfg)
  else do
    let ladder ← parseAdaptiveSpecDepthLadder cfg.numSpeculativeTokens cfg.depths
    let decodeQueryLens :=
      ladder.map fun depth => depth + (cfg.decodeQueryLen - cfg.numSpeculativeTokens)
    if decodeQueryLens = [] then .error (emptyLadderMessage cfg)
    else .ok decodeQueryLens

/-- The request counts captured exactly, `1..min(max_num_reqs, 32)`. -/
def capturedReqs (cfg : ManagerConfig) : List ℕ := List.range' 1 (min cfg.maxNumReqs 32)

/-- A descriptor without its mode. -/
def Desc.key (d : Desc) : ℕ × Option ℕ × Option ℕ × ℕ :=
  (d.numTokens, d.numReqs, d.uniformTokenCount, d.numActiveLoras)

def exactDesc (cfg : ManagerConfig) (queryLen numReqs lora : ℕ) : Desc where
  cgMode := cfg.mode.decodeMode
  numTokens := queryLen * numReqs
  numReqs := some numReqs
  uniformTokenCount := some queryLen
  numActiveLoras := lora

/-- One query length, request count and LoRA case; `seen` is `existing`, `added` the new
descriptors in order. -/
def adaptiveStep (cfg : ManagerConfig)
    (acc : List (ℕ × Option ℕ × Option ℕ × ℕ) × List Desc) (shape : ℕ × ℕ × ℕ) :
    List (ℕ × Option ℕ × Option ℕ × ℕ) × List Desc :=
  let desc := exactDesc cfg shape.1 shape.2.1 shape.2.2
  if desc.numTokens > maxDecodeTokens cfg ∨ desc.numTokens > cfg.maxCaptureSize then acc
  else if desc.key ∈ acc.1 then acc
  else (desc.key :: acc.1, acc.2 ++ [desc])

def adaptiveShapes (cfg : ManagerConfig) (decodeQueryLens : List ℕ) : List (ℕ × ℕ × ℕ) :=
  decodeQueryLens ×ˢ capturedReqs cfg ×ˢ cfg.loraCaptureCases

/-- `_init_adaptive_spec_candidates`: the descriptors it adds to the base ones. -/
def adaptiveDescs (cfg : ManagerConfig) (decodeQueryLens : List ℕ) (base : Built) : List Desc :=
  if decodeQueryLens ≠ [] ∧ cfg.mode.separateRoutine = true ∧ cfg.mode.decodeMode ≠ .none then
    ((adaptiveShapes cfg decodeQueryLens).foldl (adaptiveStep cfg)
      ((base.byMode cfg.mode.decodeMode).map Desc.key, [])).2
  else []

/-! ## Candidates -/

/-- Candidate lists by token count and LoRA case. -/
abbrev Candidates := ℕ → ℕ → Option (List Desc)

/-- `descs_by_token_lora[(num_tokens, num_active_loras)]` -/
def bucket (table : List Desc) (numTokens lora : ℕ) : List Desc :=
  table.filter fun d => d.numTokens = numTokens ∧ d.numActiveLoras = lora

/-- The range ending at one token count; the second component is `current_range_start`. -/
def rangeStep (cfg : ManagerConfig) (table : List Desc) (acc : Candidates × ℕ) (tokenSize : ℕ) :
    Candidates × ℕ :=
  (fun i lora =>
    if acc.2 ≤ i ∧ i ≤ tokenSize ∧ lora ∈ cfg.loraCaptureCases ∧ bucket table tokenSize lora ≠ [] then
      some (bucket table tokenSize lora)
    else acc.1 i lora,
   tokenSize + 1)

def buildCandidateRanges (cfg : ManagerConfig) (table : List Desc) : Candidates :=
  ((sortedSet (table.map Desc.numTokens)).foldl (rangeStep cfg table) (fun _ _ => none, 0)).1

/-- `merged.extend(desc for desc in base_descs if desc not in merged)` -/
def mergeDescs (adaptive base : List Desc) : List Desc :=
  base.foldl (fun merged desc => if desc ∈ merged then merged else merged ++ [desc]) adaptive

def mergeCandidates (base adaptive : Candidates) : Candidates := fun i lora =>
  match adaptive i lora with
  | some descs => some (mergeDescs descs ((base i lora).getD []))
  | none => base i lora

/-! ## Initialisation -/

structure CudaGraphManager where
  candidates : Candidates
  captureDescs : GraphMode → List Desc
  graphs : List Desc
  graphsCaptured : Bool

def emptyManager : CudaGraphManager := ⟨fun _ _ => none, fun _ => [], [], false⟩

def noGraphsMessage (cfg : ManagerConfig) (captureSizes decodeQueryLens : List ℕ) : String :=
  "Adaptive speculative depth requires FULL CUDA graphs, but this " ++
  s!"run captures no CUDA graphs at all: cudagraph_mode={cfg.mode.name}, " ++
  s!"cudagraph_capture_sizes={captureSizes}. Every depth " ++
  s!"on the ladder ({decodeQueryLens} verification query lengths) " ++
  "would run eagerly. Remove --enforce-eager, restore a non-empty " ++
  "cudagraph_capture_sizes, or disable adaptive speculative depth."

def assertAdaptiveSpecGraphsPossible (cfg : ManagerConfig) (captureSizes : List ℕ) :
    Except String Unit := do
  let decodeQueryLens ← adaptiveSpecDecodeQueryLens cfg
  if decodeQueryLens = [] then .ok ()
  else .error (noGraphsMessage cfg captureSizes decodeQueryLens)

/-- The shapes without a captured FULL descriptor. -/
def missingShapes (cfg : ManagerConfig) (decodeQueryLens : List ℕ)
    (captureDescs : GraphMode → List Desc) : List (ℕ × ℕ × ℕ) :=
  (adaptiveShapes cfg decodeQueryLens).filter fun shape =>
    (exactDesc cfg shape.1 shape.2.1 shape.2.2).key ∉ (captureDescs .full).map Desc.key

def notFullMessage (cfg : ManagerConfig) : String :=
  "Adaptive speculative depth requires FULL CUDA graphs, but " ++
  s!"cudagraph_mode resolved to {cfg.mode.name}. Every " ++
  "depth on the ladder would run without a captured graph. Fix " ++
  "the attention backend or compilation config, or disable adaptive speculative depth."

def missingMessage (missing : List (ℕ × ℕ × ℕ)) : String :=
  let shapes := (missing.map fun shape => (shape.1, shape.2.1)).dedup
  "Adaptive speculative depth has no captured FULL CUDA graph " ++
  s!"for {missing.length} reachable verification shape(s) (query_len, num_reqs): {shapes}. " ++
  "The scheduler could select those depths and would fall back to eager " ++
  "execution. Raise max_cudagraph_capture_size to at least " ++
  s!"{(missing.map fun shape => shape.1 * shape.2.1).max?.getD 0}, shorten " ++
  "VLLM_ADAPTIVE_SPEC_DEPTHS, or lower max_num_seqs."

def assertAdaptiveSpecGraphCoverage (cfg : ManagerConfig) (captureDescs : GraphMode → List Desc) :
    Except String Unit := do
  let decodeQueryLens ← adaptiveSpecDecodeQueryLens cfg
  if decodeQueryLens = [] then .ok ()
  else if cfg.mode.hasFullCudagraphs = false then .error (notFullMessage cfg)
  else if cfg.mode.separateRoutine = false then .ok ()
  else if missingShapes cfg decodeQueryLens captureDescs ≠ [] then
    .error (missingMessage (missingShapes cfg decodeQueryLens captureDescs))
  else .ok ()

/-- `descs_by_mode` with the adaptive descriptors appended under the decode mode. -/
def withAdaptive (cfg : ManagerConfig) (base : Built) (added : List Desc) : GraphMode → List Desc :=
  Function.update base.byMode cfg.mode.decodeMode (base.byMode cfg.mode.decodeMode ++ added)

def initCandidates (cfg : ManagerConfig) : Except String CudaGraphManager :=
  if cfg.mode.isOn = false ∨ cfg.captureSizes = [] then do
    assertAdaptiveSpecGraphsPossible cfg cfg.captureSizes
    return emptyManager
  else do
    let base := baseDescs cfg
    let decodeQueryLens ← adaptiveSpecDecodeQueryLens cfg
    let added := adaptiveDescs cfg decodeQueryLens base
    if base.table = [] ∧ added = [] then
      assertAdaptiveSpecGraphsPossible cfg (cfg.captureSizes.insertionSort (· ≤ ·))
      return emptyManager
    else
      let captureDescs := fun mode =>
        (withAdaptive cfg base added mode).insertionSort fun a b => b.numTokens ≤ a.numTokens
      assertAdaptiveSpecGraphCoverage cfg captureDescs
      return {
        candidates :=
          mergeCandidates (buildCandidateRanges cfg base.table) (buildCandidateRanges cfg added)
        captureDescs := captureDescs
        graphs := []
        graphsCaptured := false }

/-! ## Capture and dispatch -/

def captureDesc (graphs : List Desc) (desc : Desc) : Except String (List Desc) :=
  if desc.cgMode = .piecewise then .ok graphs
  else if desc ∈ graphs then .error "Graph already captured"
  else .ok (graphs ++ [desc])

/-- `capture`: the piecewise descriptors first, then the full ones. -/
def capture (m : CudaGraphManager) : Except String CudaGraphManager := do
  let graphs ← (m.captureDescs .piecewise ++ m.captureDescs .full).foldlM captureDesc m.graphs
  return { m with graphs := graphs, graphsCaptured := true }

/-- `_is_compatible` -/
def isCompatible (desc : Desc) (numReqs numTokens : ℕ) (uniformTokenCount : Option ℕ)
    (numActiveLoras : ℕ) : Bool :=
  (desc.uniformTokenCount = none || desc.uniformTokenCount = uniformTokenCount) &&
    (match desc.numReqs with
      | none => true
      | some reqs => numReqs ≤ reqs) &&
    numTokens ≤ desc.numTokens && desc.numActiveLoras = numActiveLoras

def getUniformTokenCount (numReqs numTokens maxQueryLen : ℕ) : Option ℕ :=
  if maxQueryLen = numTokens / numReqs ∧ numTokens = maxQueryLen * numReqs then some maxQueryLen
  else none

/-- A batch has a uniform token count exactly when every request has that many tokens. -/
theorem getUniformTokenCount_eq_some {counts : List ℕ} (hne : counts ≠ []) {q : ℕ} :
    getUniformTokenCount counts.length counts.sum (counts.foldr max 0) = some q ↔
      ∀ n ∈ counts, n = q := by
  have hlen : 0 < counts.length := List.length_pos_iff.mpr hne
  have hmax : ∀ n ∈ counts, n ≤ counts.foldr max 0 := fun n hn => List.le_max_of_le' 0 hn (le_refl n)
  rw [getUniformTokenCount]
  constructor
  · intro h
    split at h
    swap
    · cases h
    rename_i huniform
    obtain rfl := Option.some.inj h
    by_contra hother
    push Not at hother
    obtain ⟨n, hn, hne⟩ := hother
    have hlt : (counts.map id).sum < (counts.map fun _ => counts.foldr max 0).sum :=
      List.sum_lt_sum _ _ hmax ⟨n, hn, lt_of_le_of_ne (hmax n hn) hne⟩
    rw [List.map_id, List.map_const', List.sum_replicate, smul_eq_mul, mul_comm] at hlt
    exact absurd huniform.2 (ne_of_lt hlt)
  · intro h
    have hall : counts = List.replicate counts.length q := List.eq_replicate_iff.mpr ⟨rfl, h⟩
    have hsum : counts.sum = q * counts.length := by
      rw [List.sum_eq_card_nsmul counts q h, smul_eq_mul, mul_comm]
    obtain ⟨n, hn⟩ := List.exists_mem_of_ne_nil counts hne
    have htop : counts.foldr max 0 = q := by
      apply le_antisymm
      · exact List.max_le_of_forall_le _ _ fun m hm => le_of_eq (h m hm)
      · exact h n hn ▸ hmax n hn
    rw [htop, hsum, if_pos ⟨(Nat.mul_div_cancel q hlen).symm, rfl⟩]

def dispatch (cfg : ManagerConfig) (m : CudaGraphManager) (numReqs numTokens : ℕ)
    (uniformTokenCount : Option ℕ) (numActiveLoras : ℕ) : Desc :=
  let effectiveLoras := resolveEffectiveLoras cfg numActiveLoras
  let fallback : Desc := ⟨.none, numTokens, some numReqs, none, effectiveLoras⟩
  if m.graphsCaptured = true ∧ numTokens > 0 then
    (((m.candidates numTokens effectiveLoras).getD []).find? fun desc =>
      isCompatible desc numReqs numTokens uniformTokenCount effectiveLoras).getD fallback
  else fallback

end SparkKit.Graphs.Manager
