import SparkKit.Dcp.ChunkBudget

/-!
# Which request a prefill row belongs to

The B12X branch hands the top-k kernel one query row, one block-table row and one key count
per row of a chunk. Query rows and key counts are laid out by query tokens, but the gather
that picks block-table rows for a chunk of several requests reads a map laid out by keys. The
builder reads the same switch as the branch and then makes no such chunk.
-/
namespace SparkKit.Dcp.RowOwners

open SparkKit.Lib.Segments
open SparkKit.Dcp.Candidates SparkKit.Dcp.Chunks SparkKit.Dcp.ChunkBudget

/-- The arguments of `build_prefill_chunk_metadata`: a range of requests and a slice of its
query tokens. -/
structure ChunkRange (batch : IndexerBatch) where
  startIdx : ℕ
  endIdx : ℕ
  qsStart : ℕ
  qsStop : ℕ
  start_lt : startIdx < endIdx
  end_le : endIdx ≤ batch.reqs.length
  slice_le : qsStart ≤ qsStop
  stop_le : queryStartLoc batch startIdx + qsStop ≤ queryStartLoc batch endIdx

namespace ChunkRange

variable {batch : IndexerBatch} (range : ChunkRange batch)

def reqs : List Request := (batch.reqs.drop range.startIdx).take (range.endIdx - range.startIdx)

def queryLens : List ℕ := range.reqs.map Request.queryLen

def keyLens (cfg : IndexerConfig) : List ℕ := range.reqs.map (compressedSeqLen cfg)

/-- The keys the rank holds for the range, which is what a chunk is skipped by. -/
def localKeys (cfg : IndexerConfig) (localSeqLens : DcpLocalSeqLens) (rank : ℕ) : ℕ :=
  if cfg.dcp.worldSize > 1 then
    (range.reqs.map fun q => localSeqLens (compressedSeqLen cfg q) rank).sum
  else (range.reqs.map fun q => q.seqLenUpperBound / cfg.compressRatio).sum

end ChunkRange

/-! ## What the branch hands over -/

/-- The row of the batch's block table for query row `i`: the request's own in a chunk of
one request, else the one the gathered `token_to_seq[:rows]` names. -/
def handedBlockTableRow (chunk : PrefillChunk) (i : ℕ) : Option ℕ :=
  if chunk.numReqs = 1 then some chunk.firstReq
  else chunk.tokenToSeq[i]?.map fun seq => chunk.firstReq + seq

/-- `seq_lens` for query row `i`. -/
def handedSeqLen (chunk : PrefillChunk) (i : ℕ) : ℕ :=
  let ks := chunk.cuSeqlenKs.getD i 0
  let ke := chunk.cuSeqlenKe.getD i 0
  if ke ≤ ks then 0 else ke - ks

/-- Query row, block-table row and key count of row `i` are those of one request. -/
structure RowBelongsTo (cfg : IndexerConfig) (rank : ℕ) (batch : IndexerBatch)
    (chunk : PrefillChunk) (i reqIdx : ℕ) (q : Request) : Prop where
  isReq : batch.reqs[reqIdx]? = some q
  query : queryStartLoc batch reqIdx ≤ chunk.tokenStart + i ∧
    chunk.tokenStart + i < queryStartLoc batch (reqIdx + 1)
  blockTable : handedBlockTableRow chunk i = some reqIdx
  keys : handedSeqLen chunk i = lenPerToken cfg rank
    ((q.seqLen - q.queryLen + 1 + (chunk.tokenStart + i - queryStartLoc batch reqIdx)) /
      cfg.compressRatio)

/-- Every row the branch hands over belongs to one request; a chunk without local keys is
filled with `-1` instead. -/
def RowsAgree (cfg : IndexerConfig) (rank : ℕ) (batch : IndexerBatch) (chunk : PrefillChunk) :
    Prop :=
  chunk.localTotalSeqLens ≠ 0 → ∀ i < chunk.tokenEnd - chunk.tokenStart,
    ∃ reqIdx q, RowBelongsTo cfg rank batch chunk i reqIdx q

/-- Key `i` and query token `t` of a range lie in the same request of it. -/
def SameRequest (keyLens queryLens : List ℕ) (i t : ℕ) : Prop :=
  ∃ r < queryLens.length, start keyLens r ≤ i ∧ i < start keyLens (r + 1) ∧
    start queryLens r ≤ t ∧ t < start queryLens (r + 1)

instance (keyLens queryLens : List ℕ) (i t : ℕ) : Decidable (SameRequest keyLens queryLens i t) :=
  inferInstanceAs (Decidable (∃ r < _, _))

/-! ## Query rows and key counts -/

/-- The rows of the chunk kernel, request by request. -/
theorem getElem?_chunkRows (cfg : IndexerConfig) (localSeqLens : DcpLocalSeqLens) (rank : ℕ)
    {reqs : List Request} {r j : ℕ} {q : Request} (hq : reqs[r]? = some q) (hj : j < q.queryLen)
    (rowStart : ℕ) :
    ∃ ks, (chunkRows cfg localSeqLens rank rowStart reqs)[start (reqs.map Request.queryLen) r + j]? =
      some (ks, ks + lenPerToken cfg rank ((q.seqLen - q.queryLen + 1 + j) / cfg.compressRatio)) := by
  induction reqs generalizing r rowStart with
  | nil => simp at hq
  | cons first reqs ih =>
    rw [chunkRows]
    cases r with
    | zero =>
      obtain rfl : first = q := by simpa using hq
      refine ⟨rowStart, ?_⟩
      have hstart : start ((first :: reqs).map Request.queryLen) 0 + j = j := by simp [start]
      rw [hstart, List.getElem?_append_left (by simpa using hj), List.getElem?_map,
        List.getElem?_range hj]
      rfl
    | succ r =>
      rw [List.map_cons, start_cons_succ, Nat.add_assoc,
        List.getElem?_append_right (by simp), List.length_map, List.length_range,
        Nat.add_sub_cancel_left]
      exact ih (by simpa using hq) _

theorem getElem?_reqs {batch : IndexerBatch} (range : ChunkRange batch) {r : ℕ}
    (hr : r < range.reqs.length) : batch.reqs[range.startIdx + r]? = range.reqs[r]? := by
  have hlen : range.reqs.length ≤ range.endIdx - range.startIdx := List.length_take_le _ _
  rw [ChunkRange.reqs, List.getElem?_take_of_lt (by omega), List.getElem?_drop]

theorem length_reqs {batch : IndexerBatch} (range : ChunkRange batch) :
    range.reqs.length = range.endIdx - range.startIdx := by
  have hend := range.end_le
  rw [ChunkRange.reqs, List.length_take, List.length_drop]
  omega

/-- The running sums of a range start where the batch's do. -/
theorem queryStartLoc_add {batch : IndexerBatch} (range : ChunkRange batch) {r : ℕ}
    (hr : r ≤ range.reqs.length) : queryStartLoc batch (range.startIdx + r) =
      queryStartLoc batch range.startIdx + start range.queryLens r := by
  induction r with
  | zero => simp [start]
  | succ r ih =>
    have hlt : r < range.queryLens.length := by
      rw [ChunkRange.queryLens, List.length_map]
      omega
    have hr' : r < range.reqs.length := by omega
    have hq := (getElem?_reqs range hr').trans (List.getElem?_eq_getElem hr')
    rw [← Nat.add_assoc, queryStartLoc_succ hq, ih (by omega), start_succ hlt, Nat.add_assoc]
    simp only [ChunkRange.queryLens, List.getElem_map]

/-- The query token of a row lies in some request of the range. -/
theorem exists_request {batch : IndexerBatch} (range : ChunkRange batch) {i : ℕ}
    (hi : i < range.qsStop - range.qsStart) :
    ∃ r q j, range.reqs[r]? = some q ∧ j < q.queryLen ∧
      range.qsStart + i = start range.queryLens r + j := by
  have hstop := range.stop_le
  have hend : range.startIdx + range.reqs.length = range.endIdx := by
    rw [length_reqs]
    have := range.start_lt
    omega
  have hsum := queryStartLoc_add range (Nat.le_refl _)
  have hle := start_le_sum range.queryLens range.reqs.length
  rw [hend] at hsum
  obtain ⟨r, hr, j, hj, ht⟩ := exists_segment range.queryLens (t := range.qsStart + i) (by omega)
  have hr' : r < range.reqs.length := by simpa [ChunkRange.queryLens] using hr
  refine ⟨r, range.reqs[r], j, List.getElem?_eq_getElem hr', ?_, ht⟩
  simpa [ChunkRange.queryLens] using hj

section
variable {cfg : IndexerConfig} {localSeqLens : DcpLocalSeqLens} {rank : ℕ}
  {batch : IndexerBatch} {range : ChunkRange batch} {chunk : PrefillChunk}
  (hchunk : buildPrefillChunkMetadata cfg localSeqLens rank batch range.startIdx range.endIdx
    range.qsStart range.qsStop = some chunk)
include hchunk

/-- The fields of a chunk that is built. -/
theorem chunk_eq :
    chunk.firstReq = range.startIdx ∧ chunk.numReqs = range.endIdx - range.startIdx ∧
    chunk.tokenStart = queryStartLoc batch range.startIdx + range.qsStart ∧
    chunk.tokenEnd = queryStartLoc batch range.startIdx + range.qsStop ∧
    (∀ i < range.qsStop - range.qsStart, ∀ ks ke,
      (chunkRows cfg localSeqLens rank 0 range.reqs)[range.qsStart + i]? = some (ks, ke) →
        chunk.cuSeqlenKs.getD i 0 = ks ∧ chunk.cuSeqlenKe.getD i 0 = ke) ∧
    chunk.tokenToSeq =
      (range.reqs.mapIdx fun i q => List.replicate (compressedSeqLen cfg q) i).flatten ∧
    chunk.localTotalSeqLens = range.localKeys cfg localSeqLens rank := by
  rw [buildPrefillChunkMetadata] at hchunk
  split at hchunk
  · cases hchunk
  · obtain rfl := Option.some.inj hchunk
    refine ⟨rfl, rfl, rfl, rfl, fun i hi ks ke hrow => ?_, rfl, rfl⟩
    have hget : (((chunkRows cfg localSeqLens rank 0 range.reqs).take range.qsStop).drop
        range.qsStart)[i]? = some (ks, ke) := by
      rw [List.getElem?_drop, List.getElem?_take_of_lt (by omega)]
      exact hrow
    change (List.map Prod.fst (((chunkRows cfg localSeqLens rank 0 range.reqs).take
      range.qsStop).drop range.qsStart)).getD i 0 = ks ∧ (List.map Prod.snd (((chunkRows cfg
      localSeqLens rank 0 range.reqs).take range.qsStop).drop range.qsStart)).getD i 0 = ke
    rw [List.getD_eq_getElem?_getD, List.getD_eq_getElem?_getD, List.getElem?_map,
      List.getElem?_map, hget]
    exact ⟨rfl, rfl⟩

/-- Query row and key count of a row always belong to the request of its query token; the
block-table row decides whether all three do. -/
theorem rowBelongsTo_iff {i r j : ℕ} {q : Request} (hi : i < range.qsStop - range.qsStart)
    (hq : range.reqs[r]? = some q) (hj : j < q.queryLen)
    (hat : range.qsStart + i = start range.queryLens r + j) :
    RowBelongsTo cfg rank batch chunk i (range.startIdx + r) q ↔
      handedBlockTableRow chunk i = some (range.startIdx + r) := by
  obtain ⟨hfirst, hnum, htok, hend, hrows, hmap, hkeys⟩ := chunk_eq hchunk
  have hr : r < range.reqs.length := (List.getElem?_eq_some_iff.mp hq).1
  have hreq : batch.reqs[range.startIdx + r]? = some q := (getElem?_reqs range hr).trans hq
  have hloc := queryStartLoc_add range (Nat.le_of_lt hr)
  have hnext := queryStartLoc_succ hreq
  refine ⟨fun h => h.blockTable, fun h => ⟨hreq, ⟨by omega, by omega⟩, h, ?_⟩⟩
  obtain ⟨ks, hrow⟩ := getElem?_chunkRows cfg localSeqLens rank hq hj 0
  obtain ⟨hks, hke⟩ := hrows i hi _ _ (hat ▸ hrow)
  have hoffset : chunk.tokenStart + i - queryStartLoc batch (range.startIdx + r) = j := by omega
  rw [handedSeqLen, hks, hke, hoffset]
  split <;> omega

/-- The map over keys names the request key `i` lies in, or nothing past the last key. -/
theorem tokenToSeq_eq_some_iff {i r : ℕ} : chunk.tokenToSeq[i]? = some r ↔
    r < range.reqs.length ∧ start (range.keyLens cfg) r ≤ i ∧
      i < start (range.keyLens cfg) (r + 1) := by
  obtain ⟨-, -, -, -, -, hmap, -⟩ := chunk_eq hchunk
  have hlens : (range.reqs.mapIdx fun i q => List.replicate (compressedSeqLen cfg q) i).map
      List.length = range.keyLens cfg := by
    refine List.ext_getElem? fun k => ?_
    simp only [ChunkRange.keyLens, List.getElem?_map, List.getElem?_mapIdx, Option.map_map]
    cases range.reqs[k]? <;> simp
  have hcount : (range.keyLens cfg).length = range.reqs.length := by simp [ChunkRange.keyLens]
  have hlookup : ∀ {r' j : ℕ} (hr' : r' < (range.keyLens cfg).length),
      j < (range.keyLens cfg)[r'] → chunk.tokenToSeq[start (range.keyLens cfg) r' + j]? = some r' := by
    intro r' j hr' hj
    have hlt : r' < range.reqs.length := hcount ▸ hr'
    have hkey : (range.keyLens cfg)[r'] = compressedSeqLen cfg range.reqs[r'] := by
      simp [ChunkRange.keyLens]
    have hrow : (range.reqs.mapIdx fun i q => List.replicate (compressedSeqLen cfg q) i)[r']? =
        some (List.replicate (compressedSeqLen cfg range.reqs[r']) r') := by
      simp [hlt]
    have hget := getElem?_flatten_segment hrow (j := j) (by rw [List.length_replicate]; omega)
    rw [hmap, ← hlens, hget, List.getElem?_replicate, if_pos (by omega)]
  constructor
  · intro h
    have hsum : i < (range.keyLens cfg).sum := by
      have hlt := (List.getElem?_eq_some_iff.mp h).1
      rwa [hmap, List.length_flatten, hlens] at hlt
    obtain ⟨r', hr', j, hj, rfl⟩ := exists_segment _ hsum
    rw [hlookup hr' hj] at h
    obtain rfl := Option.some.inj h
    exact ⟨hcount ▸ hr', Nat.le_add_right _ _, by rw [start_succ hr']; omega⟩
  · rintro ⟨hr, hle, hlt⟩
    have hr' : r < (range.keyLens cfg).length := hcount ▸ hr
    rw [start_succ hr'] at hlt
    have hget := hlookup hr' (j := i - start (range.keyLens cfg) r) (by omega)
    rwa [Nat.add_sub_cancel' hle] at hget

/-- In a chunk of one request every row gets that request's block table. -/
theorem row_of_single (hsingle : range.endIdx - range.startIdx = 1) {i : ℕ}
    (hi : i < range.qsStop - range.qsStart) :
    ∃ reqIdx q, RowBelongsTo cfg rank batch chunk i reqIdx q := by
  obtain ⟨hfirst, hnum, -⟩ := chunk_eq hchunk
  obtain ⟨r, q, j, hq, hj, hat⟩ := exists_request range hi
  have hr := (List.getElem?_eq_some_iff.mp hq).1
  rw [length_reqs] at hr
  refine ⟨_, q, (rowBelongsTo_iff hchunk hi hq hj hat).mpr ?_⟩
  have hzero : range.startIdx + r = range.startIdx := by omega
  rw [handedBlockTableRow, hnum, if_pos hsingle, hfirst, hzero]

/-- In a chunk of several requests a row agrees exactly when its query token lies in the
request of the key with the row's number. -/
theorem row_iff_sameRequest (hmany : range.endIdx - range.startIdx ≠ 1) {i : ℕ}
    (hi : i < range.qsStop - range.qsStart) :
    (∃ reqIdx q, RowBelongsTo cfg rank batch chunk i reqIdx q) ↔
      SameRequest (range.keyLens cfg) range.queryLens i (range.qsStart + i) := by
  obtain ⟨hfirst, hnum, htok, -⟩ := chunk_eq hchunk
  obtain ⟨r, q, j, hq, hj, hat⟩ := exists_request range hi
  have hlen : range.queryLens.length = range.reqs.length := by simp [ChunkRange.queryLens]
  have hblockRow : handedBlockTableRow chunk i =
      chunk.tokenToSeq[i]?.map fun seq => range.startIdx + seq := by
    rw [handedBlockTableRow, hnum, if_neg hmany, hfirst]
  have hr := (List.getElem?_eq_some_iff.mp hq).1
  have hjlen : j < range.queryLens[r] := by
    have hget := (List.getElem?_eq_some_iff.mp hq).2
    simp only [ChunkRange.queryLens, List.getElem_map, hget]
    exact hj
  constructor
  · rintro ⟨reqIdx, q', hbelongs⟩
    -- the row's owner by its query token is the request found in the range
    have hblock := hbelongs.blockTable
    rw [hblockRow, Option.map_eq_some_iff] at hblock
    obtain ⟨seq, hseq, rfl⟩ := hblock
    obtain ⟨hseqlt, hkey⟩ := (tokenToSeq_eq_some_iff hchunk).mp hseq
    obtain ⟨hle, hlt⟩ := hbelongs.query
    rw [htok, queryStartLoc_add range (by omega)] at hle
    rw [htok, Nat.add_assoc range.startIdx, queryStartLoc_add range (by omega)] at hlt
    exact ⟨seq, by omega, hkey.1, hkey.2, by omega, by omega⟩
  · rintro ⟨r', hr', hkeyle, hkeylt, hquery, hquerylt⟩
    have hsame : r' = r := by
      rw [start_succ hr'] at hquerylt
      exact (segment_unique hr' (hlen ▸ hr) (j := range.qsStart + i - start range.queryLens r')
        (by omega) hjlen (by omega)).1
    subst hsame
    refine ⟨_, q, (rowBelongsTo_iff hchunk hi hq hj hat).mpr ?_⟩
    rw [hblockRow, (tokenToSeq_eq_some_iff hchunk).mpr ⟨hr, hkeyle, hkeylt⟩]
    rfl

/-- The rows of a chunk agree exactly when it has no local keys, or one request, or every
query token of the slice lies in the request of the key with the row's number. -/
theorem rowsAgree_chunk_iff : RowsAgree cfg rank batch chunk ↔
    range.localKeys cfg localSeqLens rank = 0 ∨ range.endIdx - range.startIdx = 1 ∨
      ∀ i < range.qsStop - range.qsStart,
        SameRequest (range.keyLens cfg) range.queryLens i (range.qsStart + i) := by
  obtain ⟨-, -, htok, hend, -, -, hkeys⟩ := chunk_eq hchunk
  have hrows : chunk.tokenEnd - chunk.tokenStart = range.qsStop - range.qsStart := by omega
  rw [RowsAgree, hkeys, hrows]
  by_cases hnone : range.localKeys cfg localSeqLens rank = 0
  · simp [hnone]
  by_cases hsingle : range.endIdx - range.startIdx = 1
  · exact iff_of_true (fun _ i hi => row_of_single hchunk hsingle hi) (Or.inr (Or.inl hsingle))
  · simp only [hnone, hsingle, false_or, ne_eq, not_false_eq_true, true_implies]
    exact forall_congr' fun i => forall_congr' fun hi => row_iff_sameRequest hchunk hsingle hi

end

/-- In a chunk of two requests with two query tokens and four keys each, the third query row is
the second request's but the third key the first's. -/
example : ¬ SameRequest [4, 4] [2, 2] 2 2 := by decide

/-- Under B12X the builder makes chunks of one request only. -/
theorem exists_range_of_mem_chunks {cfg : IndexerConfig} {localSeqLens : DcpLocalSeqLens}
    {rank : ℕ} {batch : IndexerBatch} {chunk : PrefillChunk}
    (h : chunk ∈ b12xPrefillChunks cfg localSeqLens rank batch) :
    ∃ range : ChunkRange batch, range.endIdx - range.startIdx = 1 ∧
      buildPrefillChunkMetadata cfg localSeqLens rank batch range.startIdx range.endIdx
        range.qsStart range.qsStop = some chunk := by
  obtain ⟨chunks, hchunks, hchunk⟩ := List.mem_flatten.mp h
  obtain ⟨i, hi, rfl⟩ := List.mem_mapIdx.mp hchunks
  obtain ⟨spec, hspec, hbuild⟩ := List.mem_filterMap.mp hchunk
  rw [split_single] at hspec
  obtain ⟨slice, hslice, rfl⟩ := List.mem_map.mp hspec
  obtain ⟨hordered, hinside, -⟩ := querySlices_bounds (maxQuerySlice_pos _ _ _) hslice
  have hq : batch.reqs[batch.numDecodes + i]? = some (batch.reqs.drop batch.numDecodes)[i] := by
    rw [← List.getElem?_drop, List.getElem?_eq_getElem hi]
  have hlt := (List.getElem?_eq_some_iff.mp hq).1
  refine ⟨⟨batch.numDecodes + i, batch.numDecodes + i + 1, slice.1, slice.2, by omega, hlt,
    hordered, ?_⟩, by simp, hbuild⟩
  rw [queryStartLoc_succ hq]
  omega

/-- For every row of every chunk the B12X builder makes of a batch, the query row, the
block-table row and the key count handed to the top-k kernel are those of one request. -/
theorem b12xPrefillRows_agree (cfg : IndexerConfig) (localSeqLens : DcpLocalSeqLens) (rank : ℕ)
    (batch : IndexerBatch) {chunk : PrefillChunk}
    (hchunk : chunk ∈ b12xPrefillChunks cfg localSeqLens rank batch) :
    RowsAgree cfg rank batch chunk := by
  obtain ⟨range, hsingle, hbuild⟩ := exists_range_of_mem_chunks hchunk
  exact (rowsAgree_chunk_iff hbuild).mpr (Or.inr (Or.inl hsingle))

/-- Two requests that each compute the second half of a context of four. -/
def twoPrefills : IndexerBatch where
  reqs := [⟨2, 4, 4, by decide, by decide⟩, ⟨2, 4, 4, by decide, by decide⟩]
  numDecodes := 0

theorem b12xPrefillRows_agree_two :
    ∃ first second, b12xPrefillChunks longContext (fun len _ => len) 0 twoPrefills =
        [first, second] ∧ first.localTotalSeqLens = 4 ∧ second.localTotalSeqLens = 4 ∧
      RowsAgree longContext 0 twoPrefills first ∧ RowsAgree longContext 0 twoPrefills second := by
  have hchunks := b12xPrefillChunks_eq longContext (fun len _ => len) 0 twoPrefills
  refine ⟨_, _, hchunks, rfl, rfl, ?_, ?_⟩
  · refine b12xPrefillRows_agree longContext (fun len _ => len) 0 twoPrefills ?_
    rw [hchunks]
    exact List.mem_cons_self
  · refine b12xPrefillRows_agree longContext (fun len _ => len) 0 twoPrefills ?_
    rw [hchunks]
    exact List.mem_cons_of_mem _ List.mem_cons_self

end SparkKit.Dcp.RowOwners
