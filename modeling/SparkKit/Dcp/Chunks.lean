import SparkKit.Dcp.Candidates

/-!
# Prefill chunks of the sparse indexer

The builder splits the prefill requests of a batch into chunks and computes for each
chunk, on each rank, the local row bounds the top-k kernels use. The B12X builder splits
every request on its own against a supertile budget.
-/
namespace SparkKit.Dcp.Chunks

open SparkKit.Lib.BlockCyclic
open SparkKit.Dcp.Candidates

/-- The builder's settings; `supertileKRaw` is `B12X_PAGED_INDEX_SUPERTILE_K`. -/
structure IndexerConfig where
  dcp : DcpGroup
  compressRatio : ℕ
  topkTokens : ℕ
  maxPrefillBufferSize : ℕ
  maxLogitsBytes : ℕ
  supertileKRaw : ℕ := 32768
  /-- `VLLM_DCP_GLOBAL_TOPK` -/
  dcpGlobalTopk : Bool := true
  ratio_pos : 0 < compressRatio

/-- A request of the batch as the builder sees it. -/
structure Request where
  queryLen : ℕ
  seqLen : ℕ
  /-- `seq_lens_cpu_upper_bound` -/
  seqLenUpperBound : ℕ
  query_le : queryLen ≤ seqLen
  seq_le : seqLen ≤ seqLenUpperBound

/-- Requests in batch order, the first `numDecodes` of them classified as decodes. -/
structure IndexerBatch where
  reqs : List Request
  numDecodes : ℕ

def b12xPagedIndexerSupertileK (cfg : IndexerConfig) : ℕ :=
  (max cfg.supertileKRaw 512 + 512 - 1) / 512 * 512

/-! ## Splitting -/

/-- The inner loop: how many requests still fit, with their summed query and key lengths. -/
def takeRequests (workspaceSize maxLogitsElems : ℕ) : ℕ → ℕ → List (ℕ × ℕ) → ℕ × ℕ × ℕ
  | m, n, [] => (m, n, 0)
  | m, n, (q, s) :: rest =>
      if n + s ≤ workspaceSize ∧ (m + q) * (n + s) ≤ maxLogitsElems then
        let (m', n', taken) := takeRequests workspaceSize maxLogitsElems (m + q) (n + s) rest
        (m', n', taken + 1)
      else (m, n, 0)

/-- `range(0, chunk_m, max_q)` as `(q_off, q_off + sub_m)`. -/
def querySlices (chunkM maxQ : ℕ) : List (ℕ × ℕ) :=
  (List.range' 0 ((chunkM + maxQ - 1) / maxQ) maxQ).map fun qOff =>
    (qOff, qOff + min maxQ (chunkM - qOff))

/-- The largest query slice of a chunk that keeps the logits inside the budget. -/
def maxQuerySlice (maxLogitsElems chunkM chunkN : ℕ) : ℕ :=
  if chunkN > 0 then max 1 (maxLogitsElems / chunkN) else max 1 chunkM

/-- The `(req_slice, query_slice)` pairs from request `start` on. -/
def splitFrom (workspaceSize maxLogitsElems start : ℕ) :
    List (ℕ × ℕ) → List ((ℕ × ℕ) × (ℕ × ℕ))
  | [] => []
  | (q, s) :: rest =>
      let fit := takeRequests workspaceSize maxLogitsElems 0 0 ((q, s) :: rest)
      let (chunkM, chunkN, taken) := if fit.2.2 = 0 then (q, s, 1) else fit
      (querySlices chunkM (maxQuerySlice maxLogitsElems chunkM chunkN)).map
          (fun slice => ((start, start + taken), slice)) ++
        splitFrom workspaceSize maxLogitsElems (start + taken) (rest.drop (taken - 1))
  termination_by reqs => reqs.length
  decreasing_by
    simp only [List.length_drop, List.length_cons]
    omega

def splitIndexerPrefillChunks (seqLensCpu queryLensCpu : List ℕ)
    (workspaceSize maxLogitsBytes requestOffset : ℕ) : List ((ℕ × ℕ) × (ℕ × ℕ)) :=
  splitFrom workspaceSize (maxLogitsBytes / 4) requestOffset (queryLensCpu.zip seqLensCpu)

/-! ## Chunk metadata -/

/-- The fields of a chunk the B12X branch reads. -/
structure PrefillChunk where
  /-- first row of `block_table` -/
  firstReq : ℕ
  numReqs : ℕ
  tokenStart : ℕ
  tokenEnd : ℕ
  cuSeqlenKs : List ℕ
  cuSeqlenKe : List ℕ
  tokenToSeq : List ℕ
  localTotalSeqLens : ℕ

/-- `query_start_loc` -/
def queryStartLoc (batch : IndexerBatch) (i : ℕ) : ℕ :=
  ((batch.reqs.take i).map Request.queryLen).sum

def compressedSeqLen (cfg : IndexerConfig) (q : Request) : ℕ := q.seqLen / cfg.compressRatio

/-- The key length a rank sees for a context of `len` keys. -/
def lenPerToken (cfg : IndexerConfig) (rank len : ℕ) : ℕ :=
  if cfg.dcp.worldSize > 1 then
    let base := len / cfg.dcp.interleave / cfg.dcp.worldSize * cfg.dcp.interleave
    base + min (len - base * cfg.dcp.worldSize - rank * cfg.dcp.interleave) cfg.dcp.interleave
  else len

/-- `get_dcp_local_seq_lens`, by length and rank. -/
abbrev DcpLocalSeqLens := ℕ → ℕ → ℕ

/-- The rows `(cu_seq_len_ks, cu_seq_len_ke)` of the requests from one local row start on. -/
def chunkRows (cfg : IndexerConfig) (localSeqLens : DcpLocalSeqLens) (rank : ℕ) :
    ℕ → List Request → List (ℕ × ℕ)
  | _, [] => []
  | rowStart, q :: qs =>
      ((List.range q.queryLen).map fun offset =>
          (rowStart, rowStart +
            lenPerToken cfg rank ((q.seqLen - q.queryLen + 1 + offset) / cfg.compressRatio))) ++
        chunkRows cfg localSeqLens rank
          (rowStart + if cfg.dcp.worldSize > 1 then localSeqLens (compressedSeqLen cfg q) rank
            else compressedSeqLen cfg q) qs

/-- `build_prefill_chunk_metadata` on one rank, for requests `[startIdx, endIdx)` and the
query rows `[qsStart, qsStop)` of the chunk. -/
def buildPrefillChunkMetadata (cfg : IndexerConfig) (localSeqLens : DcpLocalSeqLens) (rank : ℕ)
    (batch : IndexerBatch) (startIdx endIdx qsStart qsStop : ℕ) : Option PrefillChunk :=
  let reqs := (batch.reqs.drop startIdx).take (endIdx - startIdx)
  let totalSeqLens := (reqs.map fun q => q.seqLenUpperBound / cfg.compressRatio).sum
  let keepEmptyDcpChunk := decide (cfg.dcp.worldSize > 1) && cfg.dcpGlobalTopk
  if totalSeqLens = 0 ∧ keepEmptyDcpChunk = false then none
  else
    let rows := ((chunkRows cfg localSeqLens rank 0 reqs).take qsStop).drop qsStart
    let tokenStart := queryStartLoc batch startIdx
    some
      { firstReq := startIdx
        numReqs := endIdx - startIdx
        tokenStart := tokenStart + qsStart
        tokenEnd := tokenStart + qsStop
        cuSeqlenKs := rows.map Prod.fst
        cuSeqlenKe := rows.map Prod.snd
        tokenToSeq := (reqs.mapIdx fun i q => List.replicate (compressedSeqLen cfg q) i).flatten
        localTotalSeqLens :=
          if cfg.dcp.worldSize > 1 then
            (reqs.map fun q => localSeqLens (compressedSeqLen cfg q) rank).sum
          else totalSeqLens }

/-- The chunks the builder makes for one prefill request under B12X. -/
def b12xRequestChunks (cfg : IndexerConfig) (localSeqLens : DcpLocalSeqLens) (rank : ℕ)
    (batch : IndexerBatch) (reqIdx : ℕ) (q : Request) : List PrefillChunk :=
  (splitIndexerPrefillChunks [b12xPagedIndexerSupertileK cfg] [q.queryLen]
      cfg.maxPrefillBufferSize cfg.maxLogitsBytes reqIdx).filterMap fun spec =>
    buildPrefillChunkMetadata cfg localSeqLens rank batch spec.1.1 spec.1.2 spec.2.1 spec.2.2

/-- `prefill.chunks` under B12X: every prefill request is split on its own. -/
def b12xPrefillChunks (cfg : IndexerConfig) (localSeqLens : DcpLocalSeqLens) (rank : ℕ)
    (batch : IndexerBatch) : List PrefillChunk :=
  ((batch.reqs.drop batch.numDecodes).mapIdx fun prefillIdx q =>
    b12xRequestChunks cfg localSeqLens rank batch (batch.numDecodes + prefillIdx) q).flatten

/-! ## Single-request chunks -/

/-- The fixed part of a chunk's identity: request, its index and the query slice. -/
structure ChunkKey where
  reqIdx : ℕ
  req : Request
  slice : ℕ × ℕ

/-- The chunk a rank holds for a key. -/
def chunkOf (cfg : IndexerConfig) (localSeqLens : DcpLocalSeqLens) (rank : ℕ)
    (batch : IndexerBatch) (key : ChunkKey) : PrefillChunk :=
  let rows := ((chunkRows cfg localSeqLens rank 0 [key.req]).take key.slice.2).drop key.slice.1
  { firstReq := key.reqIdx
    numReqs := 1
    tokenStart := queryStartLoc batch key.reqIdx + key.slice.1
    tokenEnd := queryStartLoc batch key.reqIdx + key.slice.2
    cuSeqlenKs := rows.map Prod.fst
    cuSeqlenKe := rows.map Prod.snd
    tokenToSeq := List.replicate (compressedSeqLen cfg key.req) 0
    localTotalSeqLens :=
      if cfg.dcp.worldSize > 1 then localSeqLens (compressedSeqLen cfg key.req) rank
      else key.req.seqLenUpperBound / cfg.compressRatio }

/-- The keys of one prefill request's chunks, the same on every rank. -/
def requestKeys (cfg : IndexerConfig) (reqIdx : ℕ) (q : Request) : List ChunkKey :=
  if q.seqLenUpperBound / cfg.compressRatio = 0 ∧
      (decide (cfg.dcp.worldSize > 1) && cfg.dcpGlobalTopk) = false then []
  else
    (querySlices q.queryLen (maxQuerySlice (cfg.maxLogitsBytes / 4) q.queryLen
      (b12xPagedIndexerSupertileK cfg))).map fun slice => ⟨reqIdx, q, slice⟩

def chunkKeys (cfg : IndexerConfig) (batch : IndexerBatch) : List ChunkKey :=
  ((batch.reqs.drop batch.numDecodes).mapIdx fun prefillIdx q =>
    requestKeys cfg (batch.numDecodes + prefillIdx) q).flatten

theorem split_single (workspaceSize maxLogitsBytes start q s : ℕ) :
    splitIndexerPrefillChunks [s] [q] workspaceSize maxLogitsBytes start =
      (querySlices q (maxQuerySlice (maxLogitsBytes / 4) q s)).map
        fun slice => ((start, start + 1), slice) := by
  simp only [splitIndexerPrefillChunks, List.zip_cons_cons, List.zip_nil_right, splitFrom,
    takeRequests, List.drop_nil, List.append_nil, Nat.zero_add]
  by_cases h : s ≤ workspaceSize ∧ q * s ≤ maxLogitsBytes / 4
  · simp [h]
  · simp [h]

theorem build_single (cfg : IndexerConfig) (localSeqLens : DcpLocalSeqLens) (rank : ℕ)
    (batch : IndexerBatch) {reqIdx : ℕ} {q : Request} (hq : batch.reqs[reqIdx]? = some q)
    (slice : ℕ × ℕ) :
    buildPrefillChunkMetadata cfg localSeqLens rank batch reqIdx (reqIdx + 1) slice.1 slice.2 =
      if q.seqLenUpperBound / cfg.compressRatio = 0 ∧
          (decide (cfg.dcp.worldSize > 1) && cfg.dcpGlobalTopk) = false then none
      else some (chunkOf cfg localSeqLens rank batch ⟨reqIdx, q, slice⟩) := by
  have hslice : (batch.reqs.drop reqIdx).take 1 = [q] := by
    obtain ⟨hlt, rfl⟩ := List.getElem?_eq_some_iff.mp hq
    rw [List.drop_eq_getElem_cons hlt, List.take_succ_cons, List.take_zero]
  simp only [buildPrefillChunkMetadata, Nat.add_sub_cancel_left, hslice, chunkOf, List.map_cons, List.map_nil, List.sum_cons,
    List.sum_nil, Nat.add_zero, List.mapIdx_cons, List.mapIdx_nil, List.flatten_cons,
    List.flatten_nil, List.append_nil]

theorem b12xRequestChunks_eq (cfg : IndexerConfig) (localSeqLens : DcpLocalSeqLens) (rank : ℕ)
    (batch : IndexerBatch) {reqIdx : ℕ} {q : Request} (hq : batch.reqs[reqIdx]? = some q) :
    b12xRequestChunks cfg localSeqLens rank batch reqIdx q =
      (requestKeys cfg reqIdx q).map (chunkOf cfg localSeqLens rank batch) := by
  rw [b12xRequestChunks, split_single, List.filterMap_map]
  simp only [Function.comp_def, build_single cfg localSeqLens rank batch hq, requestKeys]
  split
  · rw [List.filterMap_none]
    rfl
  · rw [List.filterMap_eq_map', List.map_map]
    rfl

/-- Every rank's chunk list is its own view of one list of keys. -/
theorem b12xPrefillChunks_eq (cfg : IndexerConfig) (localSeqLens : DcpLocalSeqLens) (rank : ℕ)
    (batch : IndexerBatch) :
    b12xPrefillChunks cfg localSeqLens rank batch =
      (chunkKeys cfg batch).map (chunkOf cfg localSeqLens rank batch) := by
  rw [b12xPrefillChunks, chunkKeys, List.map_flatten]
  congr 1
  refine List.ext_getElem? fun i => ?_
  rw [List.getElem?_map, List.getElem?_mapIdx, List.getElem?_mapIdx]
  cases hq : (batch.reqs.drop batch.numDecodes)[i]? with
  | none => rfl
  | some q =>
    rw [List.getElem?_drop] at hq
    simp only [Option.map_some, b12xRequestChunks_eq cfg localSeqLens rank batch hq]

theorem mem_querySlices {chunkM maxQ : ℕ} (hmax : 0 < maxQ) {slice : ℕ × ℕ}
    (h : slice ∈ querySlices chunkM maxQ) : 0 < chunkM := by
  rcases Nat.eq_zero_or_pos chunkM with rfl | hpos
  · rw [querySlices, Nat.zero_add, Nat.div_eq_of_lt (by omega)] at h
    cases h
  · exact hpos

theorem querySlices_ne_nil {chunkM maxQ : ℕ} (hmax : 0 < maxQ) (hpos : 0 < chunkM) :
    ∃ slice, slice ∈ querySlices chunkM maxQ := by
  have hcount : 0 < (chunkM + maxQ - 1) / maxQ := Nat.div_pos (by omega) hmax
  refine ⟨_, List.mem_map_of_mem (List.mem_range'.mpr ⟨0, hcount, rfl⟩)⟩

theorem maxQuerySlice_pos (maxLogitsElems chunkM chunkN : ℕ) :
    0 < maxQuerySlice maxLogitsElems chunkM chunkN := by
  unfold maxQuerySlice
  split <;> omega

/-- A chunk belongs to a prefill request that has query tokens. -/
theorem req_of_mem_chunkKeys {cfg : IndexerConfig} {batch : IndexerBatch} {key : ChunkKey}
    (h : key ∈ chunkKeys cfg batch) :
    key.req ∈ batch.reqs.drop batch.numDecodes ∧ 0 < key.req.queryLen := by
  obtain ⟨keys, hkeys, hkey⟩ := List.mem_flatten.mp h
  obtain ⟨i, hi, rfl⟩ := List.mem_mapIdx.mp hkeys
  unfold requestKeys at hkey
  split at hkey
  · cases hkey
  · obtain ⟨slice, hslice, rfl⟩ := List.mem_map.mp hkey
    exact ⟨List.getElem_mem hi, mem_querySlices (maxQuerySlice_pos _ _ _) hslice⟩

/-- A prefill request with query tokens and keys has a chunk. -/
theorem exists_chunkKey {cfg : IndexerConfig} {batch : IndexerBatch} {q : Request}
    (hq : q ∈ batch.reqs.drop batch.numDecodes) (hquery : 0 < q.queryLen)
    (hkeys : 0 < compressedSeqLen cfg q) : ∃ key ∈ chunkKeys cfg batch, key.req = q := by
  obtain ⟨i, hi, rfl⟩ := List.getElem_of_mem hq
  obtain ⟨slice, hslice⟩ := querySlices_ne_nil
    (maxQuerySlice_pos (cfg.maxLogitsBytes / 4) _ (b12xPagedIndexerSupertileK cfg)) hquery
  refine ⟨⟨batch.numDecodes + i, _, slice⟩, List.mem_flatten.mpr
    ⟨_, List.mem_mapIdx.mpr ⟨i, hi, rfl⟩, ?_⟩, rfl⟩
  have hupper : compressedSeqLen cfg (batch.reqs.drop batch.numDecodes)[i] ≤
      (batch.reqs.drop batch.numDecodes)[i].seqLenUpperBound / cfg.compressRatio :=
    Nat.div_le_div_right (batch.reqs.drop batch.numDecodes)[i].seq_le
  rw [requestKeys, if_neg (by omega)]
  exact List.mem_map_of_mem hslice

end SparkKit.Dcp.Chunks
