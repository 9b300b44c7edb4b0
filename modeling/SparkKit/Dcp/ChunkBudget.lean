import SparkKit.Lib.Segments
import SparkKit.Dcp.ShardIndex

/-!
# What the B12X prefill chunks cover and what they need

The builder cuts every prefill request into query slices whose rows times one supertile of
keys fit the logits budget. The profile run reserves query rows and key rows by formulas of
its own, which have to dominate every chunk and every request.
-/
namespace SparkKit.Dcp.ChunkBudget

open SparkKit.Lib.Segments
open SparkKit.Dcp.Candidates SparkKit.Dcp.Chunks SparkKit.Dcp.ShardIndex
open SparkKit.Lib

/-! ## The profile run -/

/-- `_get_b12x_paged_indexer_profile_q_rows` -/
def profileQRows (cfg : IndexerConfig) (qRows : ℕ) : ℕ :=
  let maxLogitsElems := cfg.maxLogitsBytes / 4
  let tileK := b12xPagedIndexerSupertileK cfg
  min (max 1 qRows) (max 1 (maxLogitsElems / max 1 tileK))

/-- `_get_b12x_paged_indexer_profile_k_rows` -/
def profileKRows (cfg : IndexerConfig) (maxModelLen totalSeqLens : ℕ) : ℕ :=
  let knownKRows := max (max maxModelLen totalSeqLens) 0
  if knownKRows ≤ 0 then b12xPagedIndexerSupertileK cfg
  else
    let dcp := max 1 cfg.dcp.worldSize
    if dcp = 1 then knownKRows
    else (knownKRows + dcp - 1) / dcp + max 1 cfg.dcp.interleave * 2

/-! ## Coverage and budget -/

/-- The query rows of a chunk, as rows of the batch. -/
def chunkTokens (chunk : PrefillChunk) : List ℕ :=
  List.range' chunk.tokenStart (chunk.tokenEnd - chunk.tokenStart)

def requestTokens (batch : IndexerBatch) (reqIdx : ℕ) (q : Request) : List ℕ :=
  List.range' (queryStartLoc batch reqIdx) q.queryLen

/-- `build_prefill_chunk_metadata` returns a chunk for this request. -/
def keepsChunks (cfg : IndexerConfig) (q : Request) : Bool :=
  !decide (q.seqLenUpperBound / cfg.compressRatio = 0) ||
    (decide (cfg.dcp.worldSize > 1) && cfg.dcpGlobalTopk)

/-- The query tokens of the prefill requests that get chunks, in batch order. -/
def coveredTokens (cfg : IndexerConfig) (batch : IndexerBatch) : List ℕ :=
  ((batch.reqs.drop batch.numDecodes).mapIdx fun prefillIdx q =>
    if keepsChunks cfg q then requestTokens batch (batch.numDecodes + prefillIdx) q else []).flatten

/-- A chunk lies inside one request. -/
def InsideRequest (batch : IndexerBatch) (chunk : PrefillChunk) : Prop :=
  chunk.numReqs = 1 ∧ chunk.firstReq < batch.reqs.length ∧
    queryStartLoc batch chunk.firstReq ≤ chunk.tokenStart ∧
    chunk.tokenEnd ≤ queryStartLoc batch (chunk.firstReq + 1)

/-- Its rows against a key length stay inside the logits budget, or it has one row only. -/
def FitsBudget (cfg : IndexerConfig) (keyLen : ℕ) (chunk : PrefillChunk) : Prop :=
  (chunkTokens chunk).length = 1 ∨
    (chunkTokens chunk).length * keyLen ≤ cfg.maxLogitsBytes / 4

/-- The key length of a chunk's request, rounded up to whole supertiles. -/
def roundedKeyLen (cfg : IndexerConfig) (batch : IndexerBatch) (chunk : PrefillChunk) : ℕ :=
  let supertileK := b12xPagedIndexerSupertileK cfg
  let keyLen := match batch.reqs[chunk.firstReq]? with
    | some q => compressedSeqLen cfg q
    | none => 0
  (keyLen + supertileK - 1) / supertileK * supertileK

theorem supertileK_pos (cfg : IndexerConfig) : 0 < b12xPagedIndexerSupertileK cfg := by
  have hdiv : 1 ≤ (max cfg.supertileKRaw 512 + 512 - 1) / 512 :=
    (Nat.le_div_iff_mul_le (by decide)).mpr (by omega)
  rw [b12xPagedIndexerSupertileK]
  omega

/-- The slices of a request tile its query tokens. -/
theorem querySlices_tile (chunkM : ℕ) {maxQ : ℕ} (hmax : 0 < maxQ) :
    (querySlices chunkM maxQ).flatMap (fun slice => List.range' slice.1 (slice.2 - slice.1)) =
      List.range' 0 chunkM := by
  have hcount : chunkM ≤ (chunkM + maxQ - 1) / maxQ * maxQ := by
    have h := Nat.lt_div_mul_add (a := chunkM + maxQ - 1) hmax
    omega
  rw [querySlices, List.flatMap_map]
  simp only [Nat.add_sub_cancel_left]
  rw [windows_tile, Nat.min_eq_right hcount]

theorem querySlices_bounds {chunkM maxQ : ℕ} (hmax : 0 < maxQ) {slice : ℕ × ℕ}
    (h : slice ∈ querySlices chunkM maxQ) :
    slice.1 ≤ slice.2 ∧ slice.2 ≤ chunkM ∧ slice.2 - slice.1 ≤ maxQ := by
  obtain ⟨offset, hoffset, rfl⟩ := List.mem_map.mp h
  obtain ⟨i, hi, rfl⟩ := List.mem_range'.mp hoffset
  have hbefore : (i + 1) * maxQ ≤ (chunkM + maxQ - 1) / maxQ * maxQ := Nat.mul_le_mul_right _ hi
  have hcount := Nat.div_mul_le_self (chunkM + maxQ - 1) maxQ
  rw [Nat.succ_mul, Nat.mul_comm i maxQ] at hbefore
  simp only [Nat.zero_add]
  omega

theorem requestKeys_eq (cfg : IndexerConfig) (reqIdx : ℕ) (q : Request) :
    requestKeys cfg reqIdx q = if keepsChunks cfg q then
      (querySlices q.queryLen (maxQuerySlice (cfg.maxLogitsBytes / 4) q.queryLen
        (b12xPagedIndexerSupertileK cfg))).map fun slice => ⟨reqIdx, q, slice⟩ else [] := by
  rw [requestKeys, keepsChunks]
  by_cases hzero : q.seqLenUpperBound / cfg.compressRatio = 0
  · cases hkeep : (decide (cfg.dcp.worldSize > 1) && cfg.dcpGlobalTopk) <;> simp [hzero]
  · simp [hzero]

theorem chunkTokens_chunkOf (cfg : IndexerConfig) (localSeqLens : DcpLocalSeqLens) (rank : ℕ)
    (batch : IndexerBatch) (key : ChunkKey) :
    chunkTokens (chunkOf cfg localSeqLens rank batch key) =
      List.range' (queryStartLoc batch key.reqIdx + key.slice.1) (key.slice.2 - key.slice.1) := by
  change List.range' (queryStartLoc batch key.reqIdx + key.slice.1)
    (queryStartLoc batch key.reqIdx + key.slice.2 - (queryStartLoc batch key.reqIdx + key.slice.1)) = _
  rw [Nat.add_sub_add_left]

theorem requestChunks_tokens (cfg : IndexerConfig) (localSeqLens : DcpLocalSeqLens) (rank : ℕ)
    (batch : IndexerBatch) (reqIdx : ℕ) (q : Request) :
    ((requestKeys cfg reqIdx q).map (chunkOf cfg localSeqLens rank batch)).flatMap chunkTokens =
      if keepsChunks cfg q then requestTokens batch reqIdx q else [] := by
  rw [requestKeys_eq]
  split
  · have htile := querySlices_tile q.queryLen
      (maxQuerySlice_pos (cfg.maxLogitsBytes / 4) q.queryLen (b12xPagedIndexerSupertileK cfg))
    have hshift := congrArg (List.map (queryStartLoc batch reqIdx + ·)) htile
    rw [List.map_flatMap, List.map_add_range', Nat.add_zero] at hshift
    simp only [List.map_add_range'] at hshift
    rw [requestTokens, ← hshift, List.map_map, List.flatMap_map]
    exact List.flatMap_congr fun slice _ => chunkTokens_chunkOf cfg localSeqLens rank batch _
  · rfl

/-- The chunks cover the tokens of the requests that get chunks, in order. -/
theorem chunks_tokens (cfg : IndexerConfig) (localSeqLens : DcpLocalSeqLens) (rank : ℕ)
    (batch : IndexerBatch) :
    (b12xPrefillChunks cfg localSeqLens rank batch).flatMap chunkTokens =
      coveredTokens cfg batch := by
  rw [b12xPrefillChunks_eq, chunkKeys, coveredTokens, List.map_flatten, List.flatMap_def,
    List.map_flatten, List.flatten_flatten]
  congr 1
  refine List.ext_getElem? fun i => ?_
  simp only [List.getElem?_map, List.getElem?_mapIdx, Option.map_map]
  cases (batch.reqs.drop batch.numDecodes)[i]? with
  | none => rfl
  | some q =>
    have htokens := requestChunks_tokens cfg localSeqLens rank batch (batch.numDecodes + i) q
    rw [List.flatMap_def] at htokens
    exact congrArg some htokens

theorem queryStartLoc_succ {batch : IndexerBatch} {reqIdx : ℕ} {q : Request}
    (hq : batch.reqs[reqIdx]? = some q) :
    queryStartLoc batch (reqIdx + 1) = queryStartLoc batch reqIdx + q.queryLen := by
  rw [queryStartLoc, queryStartLoc, List.take_add_one, hq, List.map_append, List.sum_append]
  simp

/-- Requests laid end to end have their tokens laid end to end. -/
theorem requestTokens_flatten {batch : IndexerBatch} {reqs : List Request} {first : ℕ}
    (hreqs : batch.reqs.drop first = reqs) :
    (reqs.mapIdx fun i q => requestTokens batch (first + i) q).flatten =
      List.range' (queryStartLoc batch first) (reqs.map Request.queryLen).sum := by
  induction reqs generalizing first with
  | nil => rfl
  | cons q reqs ih =>
    have hq : batch.reqs[first]? = some q := by
      have hget := congrArg (fun l => l[0]?) hreqs
      simpa using hget
    have hrest : batch.reqs.drop (first + 1) = reqs := by
      rw [← List.drop_drop, hreqs]
      rfl
    have hshift : (fun i q => requestTokens batch (first + (i + 1)) q) =
        fun i q => requestTokens batch (first + 1 + i) q := by
      funext i q
      rw [Nat.add_assoc, Nat.add_comm 1]
    rw [List.mapIdx_cons, List.flatten_cons, hshift, ih hrest, queryStartLoc_succ hq,
      requestTokens, List.map_cons, List.sum_cons]
    have happend := List.range'_append_1 (s := queryStartLoc batch first) (m := q.queryLen)
      (n := (reqs.map Request.queryLen).sum)
    exact happend

/-- Without compression no query token is left out. -/
theorem coveredTokens_uncompressed {cfg : IndexerConfig} (hratio : cfg.compressRatio = 1)
    (batch : IndexerBatch) : coveredTokens cfg batch =
      List.range' (queryStartLoc batch batch.numDecodes)
        ((batch.reqs.drop batch.numDecodes).map Request.queryLen).sum := by
  rw [← requestTokens_flatten rfl, coveredTokens]
  congr 1
  refine List.ext_getElem? fun i => ?_
  rw [List.getElem?_mapIdx, List.getElem?_mapIdx]
  congr 1
  funext q
  cases hkeeps : keepsChunks cfg q
  · -- a request without keys has no query tokens either
    have hzero : q.seqLenUpperBound = 0 := by
      simp only [keepsChunks, hratio, Nat.div_one, Bool.or_eq_false_iff, Bool.not_eq_false',
        decide_eq_true_eq] at hkeeps
      exact hkeeps.1
    have hquery : q.queryLen = 0 := by
      have hle := q.query_le.trans q.seq_le
      omega
    simp [requestTokens, hquery]
  · simp

/-! ## Each chunk -/

/-- The chunks are those of the prefill requests' query slices. -/
theorem exists_slice_of_mem_chunks {cfg : IndexerConfig} {localSeqLens : DcpLocalSeqLens}
    {rank : ℕ} {batch : IndexerBatch} {chunk : PrefillChunk}
    (h : chunk ∈ b12xPrefillChunks cfg localSeqLens rank batch) :
    ∃ reqIdx q slice, batch.reqs[reqIdx]? = some q ∧
      chunk = chunkOf cfg localSeqLens rank batch ⟨reqIdx, q, slice⟩ ∧
      slice ∈ querySlices q.queryLen (maxQuerySlice (cfg.maxLogitsBytes / 4) q.queryLen
        (b12xPagedIndexerSupertileK cfg)) := by
  rw [b12xPrefillChunks_eq] at h
  obtain ⟨key, hkey, rfl⟩ := List.mem_map.mp h
  obtain ⟨keys, hkeys, hkey⟩ := List.mem_flatten.mp hkey
  obtain ⟨i, hi, rfl⟩ := List.mem_mapIdx.mp hkeys
  rw [requestKeys_eq] at hkey
  split at hkey
  · obtain ⟨slice, hslice, rfl⟩ := List.mem_map.mp hkey
    refine ⟨_, _, slice, ?_, rfl, hslice⟩
    rw [← List.getElem?_drop, List.getElem?_eq_getElem hi]
  · cases hkey

theorem length_chunkTokens_chunkOf (cfg : IndexerConfig) (localSeqLens : DcpLocalSeqLens)
    (rank : ℕ) (batch : IndexerBatch) (key : ChunkKey) :
    (chunkTokens (chunkOf cfg localSeqLens rank batch key)).length =
      key.slice.2 - key.slice.1 := by
  rw [chunkTokens_chunkOf, List.length_range']

theorem insideRequest_chunkOf {cfg : IndexerConfig} {localSeqLens : DcpLocalSeqLens} {rank : ℕ}
    {batch : IndexerBatch} {reqIdx : ℕ} {q : Request} (hq : batch.reqs[reqIdx]? = some q)
    {slice : ℕ × ℕ} (hslice : slice.2 ≤ q.queryLen) :
    InsideRequest batch (chunkOf cfg localSeqLens rank batch ⟨reqIdx, q, slice⟩) := by
  refine ⟨rfl, (List.getElem?_eq_some_iff.mp hq).1, Nat.le_add_right _ _, ?_⟩
  change queryStartLoc batch reqIdx + slice.2 ≤ queryStartLoc batch (reqIdx + 1)
  rw [queryStartLoc_succ hq]
  omega

/-- A slice is a single row or stays below the rows that fit one supertile. -/
theorem fitsBudget_of_le {cfg : IndexerConfig} {chunk : PrefillChunk}
    (h : (chunkTokens chunk).length ≤
      max 1 (cfg.maxLogitsBytes / 4 / b12xPagedIndexerSupertileK cfg)) :
    FitsBudget cfg (b12xPagedIndexerSupertileK cfg) chunk := by
  by_cases hone : (chunkTokens chunk).length = 1
  · exact Or.inl hone
  · refine Or.inr (Nat.mul_le_of_le_div _ _ _ ?_)
    generalize cfg.maxLogitsBytes / 4 / b12xPagedIndexerSupertileK cfg = rows at *
    omega

/-! ## The reserved key rows -/

theorem localLen_le_ceil {W I n r : ℕ} (hW : 0 < W) :
    BlockCyclic.localLen W I n r ≤ (n + W - 1) / W + I * 2 := by
  have hblocks : n / I / W * I ≤ n / W := by
    rw [Nat.div_div_eq_div_mul, Nat.mul_comm I W, ← Nat.div_div_eq_div_mul]
    exact Nat.div_mul_le_self _ _
  have hceil : n / W ≤ (n + W - 1) / W := Nat.div_le_div_right (by omega)
  rw [BlockCyclic.localLen]
  omega

/-- A rank's share of a request that fits the model length fits the reservation. -/
theorem lenPerToken_le_profileKRows (cfg : IndexerConfig) {rank n maxModelLen : ℕ}
    (totalSeqLens : ℕ) (hrank : rank < cfg.dcp.worldSize) (hn : n ≤ maxModelLen) :
    lenPerToken cfg rank n ≤ profileKRows cfg maxModelLen totalSeqLens := by
  have hworld := cfg.dcp.world_pos
  have hinterleave := cfg.dcp.interleave_pos
  have hlocal : lenPerToken cfg rank n ≤ n := by
    rw [lenPerToken_eq cfg hrank]
    exact BlockCyclic.localLen_le hrank hinterleave n
  have hmax : max 1 cfg.dcp.worldSize = cfg.dcp.worldSize := by omega
  have hslack : max 1 cfg.dcp.interleave = cfg.dcp.interleave := by omega
  rw [profileKRows]
  simp only [hmax, hslack]
  split
  · omega
  · split
    · omega
    · have hceil := localLen_le_ceil (I := cfg.dcp.interleave) (n := n) (r := rank) hworld
      have hknown : (n + cfg.dcp.worldSize - 1) / cfg.dcp.worldSize ≤
          (max (max maxModelLen totalSeqLens) 0 + cfg.dcp.worldSize - 1) / cfg.dcp.worldSize :=
        Nat.div_le_div_right (by omega)
      rw [lenPerToken_eq cfg hrank]
      omega

/-- The B12X chunks cover the tokens of every prefill request with keys, in order, one
request at a time, and their rows fit the budget against one supertile; without compression
that is every prefill token. The profile run reserves rows for every chunk and keys for
every request. -/
theorem b12xChunks_cover_and_fit (cfg : IndexerConfig) (localSeqLens : DcpLocalSeqLens)
    (rank : ℕ) (batch : IndexerBatch) (qRows maxModelLen totalSeqLens : ℕ)
    (hprofile : ∀ q ∈ batch.reqs, q.queryLen ≤ qRows) :
    (b12xPrefillChunks cfg localSeqLens rank batch).flatMap chunkTokens =
      coveredTokens cfg batch ∧
    (cfg.compressRatio = 1 →
      (b12xPrefillChunks cfg localSeqLens rank batch).flatMap chunkTokens =
        List.range' (queryStartLoc batch batch.numDecodes)
          ((batch.reqs.drop batch.numDecodes).map Request.queryLen).sum) ∧
    (∀ chunk ∈ b12xPrefillChunks cfg localSeqLens rank batch, InsideRequest batch chunk ∧
      FitsBudget cfg (b12xPagedIndexerSupertileK cfg) chunk ∧
      (chunkTokens chunk).length ≤ profileQRows cfg qRows) ∧
    ∀ n ≤ maxModelLen, ∀ r < cfg.dcp.worldSize,
      lenPerToken cfg r n ≤ profileKRows cfg maxModelLen totalSeqLens := by
  have hcover := chunks_tokens cfg localSeqLens rank batch
  refine ⟨hcover, fun hratio => ?_, fun chunk hchunk => ?_, fun n hn r hr =>
    lenPerToken_le_profileKRows cfg totalSeqLens hr hn⟩
  · rw [hcover, coveredTokens_uncompressed hratio]
  · obtain ⟨reqIdx, q, slice, hq, rfl, hslice⟩ := exists_slice_of_mem_chunks hchunk
    have hsupertile := supertileK_pos cfg
    have hmaxQ : maxQuerySlice (cfg.maxLogitsBytes / 4) q.queryLen (b12xPagedIndexerSupertileK cfg) =
        max 1 (cfg.maxLogitsBytes / 4 / b12xPagedIndexerSupertileK cfg) := if_pos hsupertile
    rw [hmaxQ] at hslice
    obtain ⟨hordered, hinside, hrows⟩ := querySlices_bounds (by omega) hslice
    have hlen := length_chunkTokens_chunkOf cfg localSeqLens rank batch ⟨reqIdx, q, slice⟩
    refine ⟨insideRequest_chunkOf hq hinside, fitsBudget_of_le (hlen ▸ hrows), ?_⟩
    have hquery := hprofile q (List.mem_of_getElem? hq)
    have htile : max 1 (b12xPagedIndexerSupertileK cfg) = b12xPagedIndexerSupertileK cfg := by omega
    rw [hlen, profileQRows]
    simp only [htile]
    omega

/-- No compression, and a budget of one megabyte. -/
def longContext : IndexerConfig where
  dcp := ⟨1, 1, by decide, by decide⟩
  compressRatio := 1
  topkTokens := 2048
  maxPrefillBufferSize := 65536
  maxLogitsBytes := 1048576
  ratio_pos := by decide

/-- A decode, and two prefills of eight and twenty query tokens. -/
def mixedBatch : IndexerBatch where
  reqs := [⟨1, 300, 300, by decide, by decide⟩, ⟨8, 65536, 65536, by decide, by decide⟩,
    ⟨20, 40000, 40000, by decide, by decide⟩]
  numDecodes := 1

theorem mixedBatch_covered :
    let chunks := b12xPrefillChunks longContext (fun len _ => len) 0 mixedBatch
    chunks.length = 4 ∧ chunks.flatMap chunkTokens = List.range' 1 28 ∧
      (∀ chunk ∈ chunks, InsideRequest mixedBatch chunk ∧
        FitsBudget longContext (b12xPagedIndexerSupertileK longContext) chunk ∧
        (chunkTokens chunk).length ≤ profileQRows longContext 20) ∧
      ∀ n ≤ 65536, lenPerToken longContext 0 n ≤ profileKRows longContext 65536 131072 := by
  obtain ⟨-, htokens, hchunks, hkeys⟩ := b12xChunks_cover_and_fit longContext (fun len _ => len) 0
    mixedBatch 20 65536 131072 (by decide)
  refine ⟨?_, htokens rfl, hchunks, fun n hn => hkeys n hn 0 (by decide)⟩
  rw [b12xPrefillChunks_eq, List.length_map]
  rfl

/-- Eight query tokens on 65536 keys. -/
def longContextBatch : IndexerBatch where
  reqs := [⟨8, 65536, 65536, by decide, by decide⟩]
  numDecodes := 0

/-- Two supertiles of keys: the chunk fits the budget against one of them only. -/
theorem longContextBatch_exceeds :
    ¬ ∀ (cfg : IndexerConfig) (localSeqLens : DcpLocalSeqLens) (rank : ℕ) (batch : IndexerBatch),
      ∀ chunk ∈ b12xPrefillChunks cfg localSeqLens rank batch,
        FitsBudget cfg (roundedKeyLen cfg batch chunk) chunk := by
  intro h
  have hkey : (⟨0, ⟨8, 65536, 65536, by decide, by decide⟩, (0, 8)⟩ : ChunkKey) ∈
      chunkKeys longContext longContextBatch := List.mem_singleton.mpr rfl
  have hchunk := h longContext (fun len _ => len) 0 longContextBatch _
    (b12xPrefillChunks_eq longContext (fun len _ => len) 0 longContextBatch ▸
      List.mem_map_of_mem hkey)
  rw [FitsBudget, length_chunkTokens_chunkOf] at hchunk
  rcases hchunk with hone | hfits
  · exact absurd hone (by decide)
  · exact absurd hfits (by decide)

end SparkKit.Dcp.ChunkBudget
