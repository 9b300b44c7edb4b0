import Mathlib.Algebra.Ring.Int.Defs
import Mathlib.Data.Int.Order.Basic
import Mathlib.Data.List.AList

/-!
# Requests and scheduler configuration

Counts of tokens are integers, as in the source: several of them are differences that a
bad state could make negative. Requests live on a heap under their ids, so the queues hold
ids and a change to a request is seen from all of them.
-/
namespace SparkKit.Sched.Requests

abbrev ReqId := ℕ

/-- A `dict` keyed by request id. -/
abbrev ReqDict (α : Type) := AList fun _ : ReqId => α

inductive RequestStatus where
  | waiting
  | waitingForStructuredOutputGrammar
  | waitingForRemoteKvs
  | waitingForStreamingReq
  | running
  | preempted
  | finished
deriving DecidableEq

/-- `_is_blocked_waiting_status` -/
def RequestStatus.isBlockedWaiting : RequestStatus → Bool
  | .waitingForStructuredOutputGrammar | .waitingForRemoteKvs | .waitingForStreamingReq => true
  | _ => false

/-- The grammar of a structured-output request. -/
inductive Grammar where
  | absent
  | failed
  | ready
deriving DecidableEq

structure MmFeature where
  identifier : ℕ
  offset : ℤ
  length : ℤ
  numEmbeds : ℤ
deriving DecidableEq

/-- The next input of a streaming session. -/
structure StreamingUpdate where
  mmFeatures : List MmFeature
  numPromptTokens : ℕ
  arrivalTime : ℤ
deriving DecidableEq

/-- A request; the queue of a session holds its inputs to come, `none` being its end. -/
structure Request where
  requestId : ReqId
  priority : ℤ
  arrivalTime : ℤ
  status : RequestStatus
  numPromptTokens : ℤ
  numTokens : ℤ
  maxTokens : ℤ
  specTokenIds : List ℤ
  numOutputPlaceholders : ℤ
  numComputedTokens : ℤ
  isPrefillChunk : Bool
  nextDecodeEligibleStep : ℕ
  mmFeatures : List MmFeature
  loraId : Option ℕ
  numInFlightTokens : ℤ
  numStaleOutputTokens : ℤ
  dropStaleOutput : Bool
  sharedPrefixBoundary : ℤ
  numPreemptions : ℕ
  hasPrefillStats : Bool
  grammar : Grammar
  resumable : Bool
  streamingQueue : Option (List (Option StreamingUpdate))
deriving DecidableEq

def Request.numTokensWithSpec (r : Request) : ℤ := r.numTokens + r.specTokenIds.length

def Request.hasEncoderInputs (r : Request) : Bool := !r.mmFeatures.isEmpty

/-- `get_num_encoder_embeds` -/
def Request.numEncoderEmbeds (r : Request) (i : ℕ) : ℤ :=
  (r.mmFeatures[i]?.map MmFeature.numEmbeds).getD 0

inductive SchedulingPolicy where
  | fcfs
  | priority
deriving DecidableEq

inductive PauseState where
  | unpaused
  | pausedNew
  | pausedAll
deriving DecidableEq

/-- The configuration the step reads, with the bounds its fields are declared or set with. -/
structure SchedulerConfig where
  policy : SchedulingPolicy
  maxNumRunningReqs : ℕ
  maxNumScheduledTokens : ℤ
  maxModelLen : ℤ
  maxNumEncoderInputTokens : ℤ
  enableDecodeAwarePrefill : Bool
  decodePrefillTokenBudget : ℤ
  idlePrefillTokenBudget : ℤ
  maxLongPrefillsPerStep : ℕ
  longPrefillTokenThreshold : ℤ
  enableChunkedPrefill : Bool
  disableChunkedMmInput : Bool
  numSampledTokensPerStep : ℤ
  numSpecTokens : ℕ
  hasDynamicSdLookup : Bool
  useEagle : Bool
  isEncoderDecoder : Bool
  needMambaBlockAlignedSplit : Bool
  mambaPartialCacheHit : Bool
  cacheBlockSize : ℤ
  hashBlockSize : ℤ
  blockSize : ℤ
  maxLoras : Option ℕ
  hasConnector : Bool
  hasEcConnector : Bool
  requiresKvDelivery : Bool
  maxNumScheduledTokens_nonneg : 0 ≤ maxNumScheduledTokens
  numSampledTokensPerStep_le : numSampledTokensPerStep ≤ 1
  cacheBlockSize_pos : 0 < cacheBlockSize
  decodePrefillTokenBudget_pos : 1 ≤ decodePrefillTokenBudget
  idlePrefillTokenBudget_pos : 1 ≤ idlePrefillTokenBudget
  maxLongPrefillsPerStep_pos : 1 ≤ maxLongPrefillsPerStep

/-- Blocks of the KV cache, by id. -/
abbrev KVCacheBlocks := List ℕ

/-- What the step asks of other components. Their answers may change from call to call, so
those with a state of their own take the number of calls made so far. -/
structure Env where
  allocateSlots : ℕ → ReqId → ℤ → Option KVCacheBlocks
  getBlocks : ℕ → ReqId → KVCacheBlocks
  /-- local computed tokens and shared prefix boundary -/
  getComputedBlocks : ℕ → ReqId → ℤ × ℤ
  /-- the same, and whether the groups' hits diverge -/
  getComputedBlocksForConnector : ℕ → ReqId → ℤ × ℤ × Bool
  /-- external tokens, if known yet, and whether they load asynchronously -/
  getNumNewMatchedTokens : ℕ → ReqId → ℤ → Option ℤ × Bool
  ensureCacheAvailable : ℕ → ReqId → ℤ → Bool
  getMmFeaturesInWindow : List MmFeature → ℤ → ℤ → ℕ × ℕ
  checkAndUpdateCache : ℕ → ReqId → ℕ → Bool
  canAllocate : ℕ → ReqId → ℕ → ℤ → ℤ → Bool
  getEmbedsIndicesInRange : MmFeature → ℤ → ℤ → ℤ × ℤ
  hasCacheItem : ℕ → ℕ → Bool

/-- `get_mm_features_in_window` stops at the first feature that starts past the window. -/
def Env.WindowBounded (env : Env) : Prop :=
  ∀ features start stop i f, i < (env.getMmFeaturesInWindow features start stop).2 →
    features[i]? = some f → f.offset < stop

end SparkKit.Sched.Requests
