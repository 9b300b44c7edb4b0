import SparkKit.Depth.LadderText
import SparkKit.Ring.Inputs

/-!
# Trimming prefix-cache hits by the ring window

The ring is filled from hidden states, which exist only for tokens the target computes. So
`get_computed_blocks` lowers the longest hit it asks for by the ring window. Whether the ring
runs and how much is trimmed are read from the environment by two different functions.
-/
namespace SparkKit.Ring.CacheTrim

open SparkKit.Depth.LadderText (pyInt)
open SparkKit.Ring.Inputs

variable {Hash Block : Type*}

/-- The variables of `os.environ` that ring mode reads. -/
structure Environ where
  /-- `VLLM_DSPARK_DRAFT_RING` -/
  draftRing : Option String
  /-- `VLLM_DSPARK_DRAFT_WINDOW` -/
  draftWindow : Option String
  /-- `VLLM_DSPARK_CACHE_TRIM` -/
  cacheTrim : Option String
  /-- `VLLM_DSPARK_RING_DROP_REJECTED` -/
  ringDropRejected : Option String
  /-- `VLLM_DSPARK_RING_MASK_EXCL_REJECTED` -/
  ringMaskExclRejected : Option String

/-- `_dspark_ring_window`; `none` is the `ValueError` of `int`. -/
def dsparkRingWindow (environ : Environ) : Option ℤ :=
  if environ.draftRing.getD "0" ≠ "1" then some 0
  else pyInt (environ.draftWindow.getD "1024").toList

/-- The settings `_init_ring_state` derives, `some none` when ring mode is off. -/
def initRingConfig (environ : Environ) (numQueryPerReq : ℕ) : Option (Option RingConfig) :=
  (dsparkRingWindow environ).map fun window =>
    if h : 0 < window then
      some { window := window.toNat
             numQueryPerReq
             ringDropRejected := environ.ringDropRejected.getD "1" == "1"
             ringMaskExclRejected := environ.ringMaskExclRejected.getD "1" == "1"
             window_pos := by omega }
    else none

/-- `_dspark_ring_cache_trim`; `none` is the `ValueError` of `int`. -/
def dsparkRingCacheTrim (environ : Environ) : Option ℤ :=
  match environ.cacheTrim with
  | some v => (pyInt v.toList).map (max 0)
  | none =>
    if environ.draftRing.getD "" ≠ "" then
      let window := environ.draftWindow.getD "1024"
      if window ≠ "" then pyInt window.toList else some 0
    else some 0

/-! ## The lookup -/

structure Request (Hash : Type*) where
  numTokens : ℕ
  blockHashes : List Hash
  skipReadingPrefixCache : Bool
  /-- `kv_cache_report_mode` -/
  kvCacheReportMode : String := "incremental"

/-- What `find_longest_cache_hit` returns: blocks per group, tokens, and the tokens of a
shared prefix past them. -/
structure CacheHit (Block : Type*) where
  blocks : List (List Block)
  numTokens : ℕ
  numUncached : ℕ

/-- The manager's settings and its coordinator, which is not part of the repository. -/
structure KVCacheManager (Hash Block : Type*) where
  enableCaching : Bool
  enableKvCacheEvents : Bool
  /-- the block size of each group of `kv_cache_config` -/
  blockSizes : List ℕ
  /-- `coordinator.find_longest_cache_hit` -/
  findLongestCacheHit : List Hash → ℤ → CacheHit Block

structure CachedBlockEvents where
  numBlocks : ℕ
  blockSize : ℕ
  groupIdx : ℕ

/-- What `get_computed_blocks` returns, and the events it emits. -/
structure ComputedBlocks (Block : Type*) where
  blocks : List (List Block)
  numTokens : ℕ
  sharedPrefixBoundary : ℕ
  events : List CachedBlockEvents

def emptyKvCacheBlocks (manager : KVCacheManager Hash Block) : List (List Block) :=
  List.replicate manager.blockSizes.length []

def createKvCacheBlocks (manager : KVCacheManager Hash Block) (blocks : List (List Block)) :
    List (List Block) :=
  if blocks.any (!·.isEmpty) then blocks else emptyKvCacheBlocks manager

def prefixCacheLookupEnabled (manager : KVCacheManager Hash Block) (request : Request Hash) : Bool :=
  manager.enableCaching && !request.skipReadingPrefixCache

/-- The longest hit asked for: not the last token, whose logits are needed, nor the trim. -/
def maxCacheHitLength (request : Request Hash) (trim : ℤ) : ℤ :=
  if trim > 0 then max 0 (request.numTokens - 1 - trim) else request.numTokens - 1

def cachedBlockEvents (manager : KVCacheManager Hash Block) (request : Request Hash)
    (hit : CacheHit Block) : List CachedBlockEvents :=
  if hit.numTokens > 0 ∧ manager.enableKvCacheEvents ∧ request.kvCacheReportMode = "full" then
    (hit.blocks.zip manager.blockSizes).zipIdx.filterMap fun ((groupBlocks, blockSize), groupIdx) =>
      if groupBlocks.length > 0 then some ⟨groupBlocks.length, blockSize, groupIdx⟩ else none
  else []

/-- The body of `get_computed_blocks` once the lookup is enabled and the trim is known. -/
def lookupBlocks (manager : KVCacheManager Hash Block) (request : Request Hash) (trim : ℤ) :
    ComputedBlocks Block :=
  let hit := manager.findLongestCacheHit request.blockHashes (maxCacheHitLength request trim)
  { blocks := createKvCacheBlocks manager hit.blocks
    numTokens := hit.numTokens
    sharedPrefixBoundary := if hit.numUncached ≠ 0 then hit.numTokens + hit.numUncached else 0
    events := cachedBlockEvents manager request hit }

def getComputedBlocks (manager : KVCacheManager Hash Block) (environ : Environ)
    (request : Request Hash) : Option (ComputedBlocks Block) :=
  if !prefixCacheLookupEnabled manager request then
    some ⟨emptyKvCacheBlocks manager, 0, 0, []⟩
  else (dsparkRingCacheTrim environ).map (lookupBlocks manager request)

/-- What the manager relies on: a hit is made of full blocks of every group, is no longer
than asked for, and asking for more does not shorten it. -/
structure LongestHit (manager : KVCacheManager Hash Block) : Prop where
  full : ∀ hashes limit, ∀ blockSize ∈ manager.blockSizes,
    blockSize ∣ (manager.findLongestCacheHit hashes limit).numTokens
  le_limit : ∀ hashes limit, 0 ≤ limit →
    ((manager.findLongestCacheHit hashes limit).numTokens : ℤ) ≤ limit
  mono : ∀ hashes limit limit', 0 ≤ limit → limit ≤ limit' →
    (manager.findLongestCacheHit hashes limit).numTokens ≤
      (manager.findLongestCacheHit hashes limit').numTokens

/-! ## The two readings of the environment -/

/-- With the override switched to zero. -/
def untrimmed (environ : Environ) : Environ := { environ with cacheTrim := some "0" }

theorem cacheTrim_untrimmed (environ : Environ) :
    dsparkRingCacheTrim (untrimmed environ) = some 0 := by
  show (pyInt "0".toList).map (max 0) = some 0
  decide

/-- Ring mode that runs trims by its own window, whatever else the variables hold. -/
theorem cacheTrim_ring {environ : Environ} {numQueryPerReq : ℕ} {cfg : RingConfig}
    (hring : initRingConfig environ numQueryPerReq = some (some cfg))
    (hover : environ.cacheTrim = none) :
    dsparkRingCacheTrim environ = some (cfg.window : ℤ) := by
  obtain ⟨window, hread, hcfg⟩ := Option.map_eq_some_iff.mp hring
  have hpos : 0 < window := by
    by_contra hneg
    rw [dif_neg hneg] at hcfg
    cases hcfg
  rw [dif_pos hpos] at hcfg
  have hwindow : (cfg.window : ℤ) = window := by
    rw [← Option.some.inj hcfg]
    exact Int.toNat_of_nonneg hpos.le
  unfold dsparkRingWindow at hread
  by_cases hon : environ.draftRing.getD "0" ≠ "1"
  · rw [if_pos hon] at hread
    have := Option.some.inj hread
    omega
  · rw [if_neg hon] at hread
    have hset : environ.draftRing = some "1" := by
      cases hr : environ.draftRing with
      | none => simp [hr] at hon
      | some v => simpa [hr] using hon
    have htext : environ.draftWindow.getD "1024" ≠ "" := by
      intro hempty
      have hfail : pyInt "".toList = none := by decide
      rw [hempty, hfail] at hread
      cases hread
    rw [dsparkRingCacheTrim, hover, hset, hwindow]
    simpa [htext] using hread

/-! ## What is left to compute -/

/-- A trimmed hit leaves the window, or the whole request where that is shorter. -/
theorem lookupBlocks_trim {manager : KVCacheManager Hash Block} (hhit : LongestHit manager)
    (request : Request Hash) {window : ℕ} (hpos : 0 < window) :
    (lookupBlocks manager request window).numTokens + min window request.numTokens ≤
        request.numTokens ∧
      (lookupBlocks manager request window).numTokens ≤ (lookupBlocks manager request 0).numTokens := by
  have hlimit : maxCacheHitLength request window = max 0 ((request.numTokens : ℤ) - 1 - window) :=
    if_pos (by omega)
  have hzero : maxCacheHitLength request 0 = (request.numTokens : ℤ) - 1 := if_neg (by omega)
  have hle := hhit.le_limit request.blockHashes (maxCacheHitLength request window) (by omega)
  simp only [lookupBlocks]
  refine ⟨by omega, ?_⟩
  by_cases hn : request.numTokens = 0
  · omega
  · exact hhit.mono _ _ _ (by omega) (by omega)

theorem getComputedBlocks_some (manager : KVCacheManager Hash Block) {environ : Environ} {trim : ℤ}
    (htrim : dsparkRingCacheTrim environ = some trim) (request : Request Hash) :
    getComputedBlocks manager environ request =
      some (if prefixCacheLookupEnabled manager request then lookupBlocks manager request trim
        else ⟨emptyKvCacheBlocks manager, 0, 0, []⟩) := by
  unfold getComputedBlocks
  cases prefixCacheLookupEnabled manager request
  · rfl
  · simp [htrim]

/-- What a running ring makes of every lookup. -/
structure TrimmedHit (cfg : RingConfig) (manager : KVCacheManager Hash Block)
    (request : Request Hash) (reported whole : ComputedBlocks Block) : Prop where
  aligned : ∀ blockSize ∈ manager.blockSizes, blockSize ∣ reported.numTokens
  le_whole : reported.numTokens ≤ whole.numTokens
  leaves : reported.numTokens + min cfg.window request.numTokens ≤ request.numTokens

/-- With the ring on and no override every lookup succeeds, and its hit is trimmed. -/
theorem getComputedBlocks_trimmed {environ : Environ} {numQueryPerReq : ℕ} {cfg : RingConfig}
    (hring : initRingConfig environ numQueryPerReq = some (some cfg))
    (hover : environ.cacheTrim = none) {manager : KVCacheManager Hash Block}
    (hhit : LongestHit manager) (request : Request Hash) :
    ∃ reported whole, getComputedBlocks manager environ request = some reported ∧
      getComputedBlocks manager (untrimmed environ) request = some whole ∧
      TrimmedHit cfg manager request reported whole := by
  refine ⟨_, _, getComputedBlocks_some manager (cacheTrim_ring hring hover) request,
    getComputedBlocks_some manager (cacheTrim_untrimmed environ) request, ?_⟩
  cases prefixCacheLookupEnabled manager request with
  | false => exact ⟨fun _ _ => Nat.dvd_zero _, Nat.le_refl _, by simp⟩
  | true =>
    obtain ⟨hleaves, hle⟩ := lookupBlocks_trim hhit request cfg.window_pos
    exact ⟨fun blockSize hmem => hhit.full _ _ blockSize hmem, hle, hleaves⟩

end SparkKit.Ring.CacheTrim
