import SparkKit.Lib.Compaction
import SparkKit.Dcp.DecodeBounds
import SparkKit.Dcp.ShardIndex

/-!
# The page table of the sparse MLA kernel

A query's top-k row holds global token ids and holes. Each rank keeps the ids it owns,
turns them into physical slots of its cache and packs them to the front; the kernel reads a
prefix whose length is clamped by a per-token bound.
-/
namespace SparkKit.Dcp.PageTable

open SparkKit.Dcp.Candidates SparkKit.Dcp.Chunks SparkKit.Dcp.ShardIndex
open SparkKit.Dcp.DecodeBounds (GetDcpLocalSeqLens CountsOwned ownedBelow)
open SparkKit.Dcp.DecodeExpansion (fill mem_fill)
open SparkKit.Lib SparkKit.Lib.Compaction SparkKit.Lib.Scatter SparkKit.Lib.Segments

/-- Sizes of the conversion. The wrappers assert that the tiles divide the row and, under
DCP, that interleave groups do not straddle blocks. -/
structure PageTableConfig where
  dcp : DcpGroup
  blockSize : ℕ
  numTopkTokens : ℕ
  block_pos : 0 < blockSize
  topk_tiles : numTopkTokens % 128 = 0
  interleave_dvd : 1 < dcp.worldSize → blockSize % dcp.interleave = 0

/-- A rank's `block_table`: the block ids of each request. -/
structure RankBlocks where
  block : ℕ → ℕ → ℕ
  maxNumBlocksPerReq : ℕ

/-! ## The conversion kernel -/

/-- `is_invalid_tok` of a lane: a hole, an id past the block table or of another rank. -/
def isInvalidTok (blockSize : ℕ) (g : DcpGroup) (dcpRank : ℕ) (table : RankBlocks) (tok : ℤ) :
    Bool :=
  let blockId := localIdx g tok / blockSize
  let validBlock := decide (blockId < table.maxNumBlocksPerReq) && decide (blockId ≥ 0)
  decide (tok < 0) || (!validBlock || decide (owningRank g tok ≠ dcpRank))

/-- `out_val`; the masked load of the base is used for valid lanes only. -/
def outVal (blockSize : ℕ) (g : DcpGroup) (dcpRank : ℕ) (table : RankBlocks) (req : ℕ) (tok : ℤ) :
    ℤ :=
  if isInvalidTok blockSize g dcpRank table tok then -1
  else
    let blockId := localIdx g tok / blockSize
    (table.block req blockId.toNat : ℤ) * blockSize + localIdx g tok % blockSize

/-- `_remap_tiling` when slots are counted: `single_tile`, `block_n`, `tiles_per_row`. -/
def remapTiling (numTopkTokens blockN : ℕ) : Bool × ℕ × ℕ :=
  if Nat.nextPowerOfTwo numTopkTokens = numTopkTokens then (true, numTopkTokens, 1)
  else (false, blockN, numTopkTokens / blockN)

def blockN (cfg : PageTableConfig) : ℕ := (remapTiling cfg.numTopkTokens 128).2.1

def tilesPerRow (cfg : PageTableConfig) : ℕ := (remapTiling cfg.numTopkTokens 128).2.2

/-- DCP switched off, as the plain conversion passes it. -/
def noDcp : DcpGroup := ⟨1, 1, Nat.one_pos, Nat.one_pos⟩

/-- `triton_convert_req_index_to_global_index` on one row. -/
def convertReqIndexToGlobalIndex (cfg : PageTableConfig) (table : RankBlocks) (req : ℕ)
    (row : List ℤ) : List ℤ × ℕ :=
  (row.map (outVal cfg.blockSize noDcp 0 table req),
    row.countP fun tok => !isInvalidTok cfg.blockSize noDcp 0 table tok)

/-- `triton_filter_and_convert_dcp_index` on one row, with compaction. `order` is the order in
which the row's tiles add to the slot counter; a single tile starts at 0 anyway. -/
def filterAndConvertDcpIndex (cfg : PageTableConfig) (dcpRank : ℕ) (table : RankBlocks) (req : ℕ)
    (order : List ℕ) (row : List ℤ) : List ℤ × ℕ :=
  let out := (order.map (tile row (blockN cfg))).foldl
    (compactTile (fun tok => !isInvalidTok cfg.blockSize cfg.dcp dcpRank table tok)
      (outVal cfg.blockSize cfg.dcp dcpRank table req)) (0, fun _ => -1)
  ((List.range cfg.numTopkTokens).map out.2, out.1)

/-! ## The page-table kernels -/

/-- `_compact_page_table_valid_prefix_kernel` on one row. -/
def compactPageTableValidPrefix (row : List ℤ) : List ℤ × ℕ :=
  let isValid : ℤ → Bool := fun v => decide (v ≥ 0)
  let validCount := row.countP isValid
  let out := scatter (stores isValid id 0 row ++ fill validCount row.length id (-1))
    fun i => row[i]?.getD (-1)
  ((List.range row.length).map out, validCount)

/-- `_mask_page_table_after_nsa_len_kernel` on one row. -/
def maskPageTableAfterNsaLen (nsaLen : ℤ) (row : List ℤ) : List ℤ :=
  row.mapIdx fun offs v => if nsaLen ≤ offs then -1 else v

/-- The row of `page_table_1` and its `nsa_cache_seqlens` that `forward_mqa` hands on. -/
def forwardMqaRow (cfg : PageTableConfig) (dcpRank : ℕ) (table : RankBlocks) (req : ℕ)
    (order : List ℕ) (perTokenLen : ℤ) (row : List ℤ) : List ℤ × ℤ :=
  let (pageTable, validCount) :=
    if cfg.dcp.worldSize > 1 then filterAndConvertDcpIndex cfg dcpRank table req order row
    else compactPageTableValidPrefix (convertReqIndexToGlobalIndex cfg table req row).1
  let nsaLen := min (validCount : ℤ) perTokenLen
  (maskPageTableAfterNsaLen nsaLen pageTable, nsaLen)

/-! ## Per-token lengths -/

/-- The batch of `build`: scheduled requests, then padding rows without tokens. -/
structure MlaBatch where
  reqs : List Request
  numPaddingReqs : ℕ
  numActualTokens : ℕ
  maxQueryLen : ℕ
  /-- whether `seq_lens_cpu_upper_bound` is set -/
  hasUpperBound : Bool
  query_pos : ∀ q ∈ reqs, 0 < q.queryLen
  query_le : ∀ q ∈ reqs, q.queryLen ≤ maxQueryLen
  tokens_le : (reqs.map Request.queryLen).sum ≤ numActualTokens

/-- The causal length of token `j` of a request. -/
def causalLen (q : Request) (j : ℕ) : ℕ := q.seqLen - q.queryLen + j + 1

section
variable (cfg : PageTableConfig) (getDcpLocalSeqLens : GetDcpLocalSeqLens) (rank : ℕ)
  (dcpLocalSeqLens : Option (List ℤ)) (batch : MlaBatch)

def seqLensForReq : List ℤ :=
  dcpLocalSeqLens.getD
    ((batch.reqs.map fun q => (q.seqLen : ℤ)) ++ List.replicate batch.numPaddingReqs 0)

/-- `seq_lens_cpu_src`: the optimistic lengths where there are any. -/
def seqLensCpuSrc (q : Request) : ℕ :=
  if batch.hasUpperBound then q.seqLenUpperBound else q.seqLen

/-- The slice of `per_token_lens` of one request. -/
def requestTokenLens (q : Request) : List ℤ :=
  let contextLen := (seqLensCpuSrc batch q : ℤ) - q.queryLen
  (List.range q.queryLen).map fun (j : ℕ) =>
    if dcpLocalSeqLens.isSome then
      getDcpLocalSeqLens (contextLen + 1 + j) cfg.dcp.worldSize rank cfg.dcp.interleave
    else contextLen + 1 + j

def perTokenLens : List ℤ :=
  batch.reqs.flatMap (requestTokenLens cfg getDcpLocalSeqLens rank dcpLocalSeqLens batch) ++
    List.replicate (batch.numActualTokens - (batch.reqs.map Request.queryLen).sum) 0

/-- `cache_seq_lens_per_token`: one token per request takes the lengths as they are. -/
def cacheSeqLensPerToken : List ℤ :=
  if batch.maxQueryLen ≤ 1 ∧
      batch.numActualTokens = batch.reqs.length + batch.numPaddingReqs then
    (seqLensForReq dcpLocalSeqLens batch).take batch.numActualTokens
  else perTokenLens cfg getDcpLocalSeqLens rank dcpLocalSeqLens batch

end

/-! ## What a lane keeps -/

/-- The blocks of a request hold a rank's share of its first `n` positions. -/
def Covers (blockSize : ℕ) (g : DcpGroup) (rank : ℕ) (table : RankBlocks) (n : ℕ) : Prop :=
  (ownedBelow g.worldSize g.interleave rank n).length ≤ table.maxNumBlocksPerReq * blockSize

/-- The slot of a token id in the cache of its owner. -/
def physicalSlot (blockSize : ℕ) (g : DcpGroup) (table : RankBlocks) (req : ℕ) (tok : ℤ) : ℤ :=
  (table.block req (localIdx g tok / blockSize).toNat : ℤ) * blockSize + localIdx g tok % blockSize

/-- The ids of a row that a rank owns. -/
def isOwned (g : DcpGroup) (rank : ℕ) (tok : ℤ) : Bool :=
  decide (0 ≤ tok ∧ owningRank g tok = rank)

section
variable {blockSize : ℕ} {g : DcpGroup} {rank : ℕ} {table : RankBlocks} {n : ℕ} {tok : ℤ}

theorem localIdx_div_lt (hrank : rank < g.worldSize) (hcover : Covers blockSize g rank table n)
    (hnonneg : 0 ≤ tok) (hlt : tok < n) (howner : owningRank g tok = rank) :
    0 ≤ localIdx g tok / blockSize ∧ localIdx g tok / blockSize < table.maxNumBlocksPerReq := by
  obtain ⟨t, rfl⟩ := Int.eq_ofNat_of_zero_le hnonneg
  rw [owningRank_natCast, Int.ofNat_inj] at howner
  rw [Covers, ownedBelow, BlockCyclic.length_owned hrank g.interleave_pos] at hcover
  have hlocal : BlockCyclic.localIdx g.worldSize g.interleave t <
      BlockCyclic.localLen g.worldSize g.interleave n rank := by
    rw [BlockCyclic.lt_localLen_iff hrank g.interleave_pos, ← howner,
      BlockCyclic.globalId_localIdx g.interleave_pos]
    exact Int.ofNat_lt.mp hlt
  have hblock : BlockCyclic.localIdx g.worldSize g.interleave t / blockSize <
      table.maxNumBlocksPerReq := by
    apply Nat.div_lt_of_lt_mul
    rw [Nat.mul_comm]
    omega
  rw [localIdx_natCast, ← Int.natCast_div]
  exact ⟨Int.natCast_nonneg _, Int.ofNat_lt.mpr hblock⟩

/-- A lane is kept exactly when its id is owned: the block table never turns one away. -/
theorem isInvalidTok_eq (hrank : rank < g.worldSize) (hcover : Covers blockSize g rank table n)
    (htok : tok = -1 ∨ 0 ≤ tok ∧ tok < n) :
    (!isInvalidTok blockSize g rank table tok) = isOwned g rank tok := by
  rcases htok with rfl | ⟨hnonneg, hlt⟩
  · simp [isInvalidTok, isOwned]
  · by_cases howner : owningRank g tok = rank
    · obtain ⟨hge, hblock⟩ := localIdx_div_lt hrank hcover hnonneg hlt howner
      simp [isInvalidTok, isOwned, hnonneg, howner, hge, hblock]
    · simp [isInvalidTok, isOwned, howner]

theorem outVal_eq (req : ℕ) (hvalid : isInvalidTok blockSize g rank table tok = false) :
    outVal blockSize g rank table req tok = physicalSlot blockSize g table req tok := by
  rw [outVal, hvalid]
  rfl

end

/-! ## Dense prefixes -/

/-- A prefix followed by holes, `n` entries wide. -/
def packed (n : ℕ) (slots : List ℤ) : List ℤ := slots ++ List.replicate (n - slots.length) (-1)

theorem compactPageTableValidPrefix_eq (row : List ℤ) :
    compactPageTableValidPrefix row =
      (packed row.length (row.filter fun v => decide (v ≥ 0)),
        (row.filter fun v => decide (v ≥ 0)).length) := by
  have hcount := List.countP_eq_length_filter (p := fun v : ℤ => decide (v ≥ 0)) (l := row)
  have hle : (row.filter fun v => decide (v ≥ 0)).length ≤ row.length := List.length_filter_le _ _
  have hprefix := foldl_compactTile (fun v : ℤ => decide (v ≥ 0)) id [row] []
    (fun i => row[i]?.getD (-1))
  simp only [List.foldl_cons, List.foldl_nil, compactTile, List.length_nil, overlay_nil,
    List.flatten_cons, List.flatten_nil, List.append_nil, List.nil_append, List.map_id,
    Prod.mk.injEq] at hprefix
  rw [compactPageTableValidPrefix, hcount, packed, ← map_range_overlay hle]
  simp only [Prod.mk.injEq, and_true]
  refine List.map_congr_left fun i hi => ?_
  rw [scatter_append, hprefix.2]
  by_cases hlt : i < (row.filter fun v => decide (v ≥ 0)).length
  · rw [scatter_of_notMem, overlay, overlay, List.getElem?_eq_getElem hlt]
    · rfl
    · intro v hv
      obtain ⟨k, hk, -, rfl, -⟩ := mem_fill.mp hv
      exact absurd hlt (Nat.not_lt.mpr hk)
  · have hmem : (i, (-1 : ℤ)) ∈ fill (row.filter fun v => decide (v ≥ 0)).length row.length id (-1) :=
      mem_fill.mpr ⟨i, Nat.not_lt.mp hlt, List.mem_range.mp hi, rfl, rfl⟩
    rw [scatter_of_unique hmem, overlay, List.getElem?_eq_none (Nat.not_lt.mp hlt)]
    · rfl
    · intro u hu
      obtain ⟨-, -, -, -, rfl⟩ := mem_fill.mp hu
      rfl

/-- Masking behind the prefix changes nothing. -/
theorem maskPageTableAfterNsaLen_packed (n : ℕ) (slots : List ℤ) :
    maskPageTableAfterNsaLen slots.length (packed n slots) = packed n slots := by
  rw [maskPageTableAfterNsaLen]
  refine List.ext_getElem? fun i => ?_
  rw [List.getElem?_mapIdx, packed]
  by_cases hlt : i < slots.length
  · rw [List.getElem?_append_left hlt, List.getElem?_eq_getElem hlt, Option.map_some,
      if_neg (by omega)]
  · have hbehind : (slots.length : ℤ) ≤ i := by omega
    rw [List.getElem?_append_right (Nat.not_lt.mp hlt), List.getElem?_replicate]
    simp only [if_pos hbehind]
    split <;> rfl

/-! ## One row -/

/-- A top-k row for a query of causal length `n`: distinct ids below it, and holes. -/
structure TopkRow (cfg : PageTableConfig) (n : ℕ) (row : List ℤ) : Prop where
  length_eq : row.length = cfg.numTopkTokens
  mem : ∀ tok ∈ row, tok = -1 ∨ 0 ≤ tok ∧ tok < n
  nodup : (row.filter fun tok => decide (0 ≤ tok)).Nodup

section
variable {cfg : PageTableConfig} {rank n : ℕ} {table : RankBlocks} {row : List ℤ}

theorem tilesPerRow_mul (cfg : PageTableConfig) :
    cfg.numTopkTokens = tilesPerRow cfg * blockN cfg := by
  rw [tilesPerRow, blockN, remapTiling]
  split
  · exact (Nat.one_mul _).symm
  · exact (Nat.div_mul_cancel (Nat.dvd_of_mod_eq_zero cfg.topk_tiles)).symm

/-- The ids a rank packs, in the order of its tiles. -/
def keptIds (cfg : PageTableConfig) (rank : ℕ) (order : List ℕ) (row : List ℤ) : List ℤ :=
  (order.flatMap (tile row (blockN cfg))).filter (isOwned cfg.dcp rank)

theorem keptIds_perm (rank : ℕ) (hrow : TopkRow cfg n row) {order : List ℕ}
    (horder : order.Perm (List.range (tilesPerRow cfg))) :
    (keptIds cfg rank order row).Perm (row.filter (isOwned cfg.dcp rank)) :=
  (flatMap_tile_perm horder (hrow.length_eq.trans (tilesPerRow_mul cfg))).filter _

theorem filterAndConvertDcpIndex_eq (hrank : rank < cfg.dcp.worldSize)
    (hcover : Covers cfg.blockSize cfg.dcp rank table n) (hrow : TopkRow cfg n row) {order : List ℕ}
    (horder : order.Perm (List.range (tilesPerRow cfg))) (req : ℕ) :
    filterAndConvertDcpIndex cfg rank table req order row =
      (packed cfg.numTopkTokens
        ((keptIds cfg rank order row).map (physicalSlot cfg.blockSize cfg.dcp table req)),
        (keptIds cfg rank order row).length) := by
  have hperm := flatMap_tile_perm horder (hrow.length_eq.trans (tilesPerRow_mul cfg))
  have hmem : ∀ tok ∈ order.flatMap (tile row (blockN cfg)), tok = -1 ∨ 0 ≤ tok ∧ tok < n :=
    fun tok htok => hrow.mem tok (hperm.mem_iff.mp htok)
  have hkept : (order.flatMap (tile row (blockN cfg))).filter
      (fun tok => !isInvalidTok cfg.blockSize cfg.dcp rank table tok) = keptIds cfg rank order row :=
    List.filter_congr fun tok htok => isInvalidTok_eq hrank hcover (hmem tok htok)
  have hslots : (keptIds cfg rank order row).map (outVal cfg.blockSize cfg.dcp rank table req) =
      (keptIds cfg rank order row).map (physicalSlot cfg.blockSize cfg.dcp table req) := by
    refine List.map_congr_left fun tok htok => outVal_eq req ?_
    rw [← hkept] at htok
    simpa using (List.mem_filter.mp htok).2
  have hlen : (keptIds cfg rank order row).length ≤ cfg.numTopkTokens := by
    rw [(keptIds_perm rank hrow horder).length_eq, ← hrow.length_eq]
    exact List.length_filter_le _ _
  have hfold := foldl_compactTile
    (fun tok => !isInvalidTok cfg.blockSize cfg.dcp rank table tok)
    (outVal cfg.blockSize cfg.dcp rank table req) (order.map (tile row (blockN cfg))) []
    (fun _ => -1)
  rw [← List.flatMap_def, hkept, hslots, overlay_nil, List.nil_append, List.length_nil] at hfold
  rw [filterAndConvertDcpIndex, hfold, packed, ← map_range_overlay (by simpa using hlen)]
  simp

end

/-! ## One rank -/

theorem owningRank_of_world_one {g : DcpGroup} (h : g.worldSize = 1) (tok : ℤ) :
    owningRank g tok = 0 := by
  rw [owningRank, h, Nat.cast_one, Int.emod_one]

theorem localIdx_of_world_one {g : DcpGroup} (h : g.worldSize = 1) (tok : ℤ) :
    localIdx g tok = tok := by
  rw [localIdx, h, Nat.cast_one, one_mul]
  exact Int.ediv_mul_add_emod tok g.interleave

theorem ownedBelow_world_one (interleave n : ℕ) : ownedBelow 1 interleave 0 n = List.range n := by
  rw [ownedBelow, List.filter_eq_self]
  simp [BlockCyclic.owner, Nat.mod_one]

theorem isOwned_of_world_one {g g' : DcpGroup} (h : g.worldSize = 1) (h' : g'.worldSize = 1) :
    isOwned g 0 = isOwned g' 0 := by
  funext tok
  rw [isOwned, isOwned, owningRank_of_world_one h, owningRank_of_world_one h']

theorem outVal_nonneg_iff {blockSize : ℕ} (hblock : 0 < blockSize) (g : DcpGroup) (rank : ℕ)
    (table : RankBlocks) (req : ℕ) (tok : ℤ) :
    decide (outVal blockSize g rank table req tok ≥ 0) =
      !isInvalidTok blockSize g rank table tok := by
  cases hinvalid : isInvalidTok blockSize g rank table tok with
  | true => simp [outVal, hinvalid]
  | false =>
    have hoff : 0 ≤ localIdx g tok % blockSize := Int.emod_nonneg _ (by omega)
    have hbase : 0 ≤ (table.block req (localIdx g tok / blockSize).toNat : ℤ) * blockSize :=
      Int.mul_nonneg (Int.natCast_nonneg _) (Int.natCast_nonneg _)
    rw [outVal_eq req hinvalid, physicalSlot]
    simpa using Int.add_nonneg hbase hoff

/-- Without DCP the holes are packed away after the conversion. -/
theorem convert_compact_eq {cfg : PageTableConfig} {n : ℕ} {table : RankBlocks} {row : List ℤ}
    (hworld : cfg.dcp.worldSize = 1) (hcover : Covers cfg.blockSize cfg.dcp 0 table n)
    (hrow : TopkRow cfg n row) (req : ℕ) :
    compactPageTableValidPrefix (convertReqIndexToGlobalIndex cfg table req row).1 =
      (packed cfg.numTopkTokens
        ((row.filter (isOwned cfg.dcp 0)).map (physicalSlot cfg.blockSize cfg.dcp table req)),
        (row.filter (isOwned cfg.dcp 0)).length) := by
  have hcover' : Covers cfg.blockSize noDcp 0 table n := by
    rw [Covers, hworld, ownedBelow_world_one] at hcover
    rw [Covers, show noDcp.worldSize = 1 from rfl, ownedBelow_world_one]
    exact hcover
  have hkept : row.filter (fun tok => !isInvalidTok cfg.blockSize noDcp 0 table tok) =
      row.filter (isOwned cfg.dcp 0) := by
    rw [isOwned_of_world_one hworld (show noDcp.worldSize = 1 from rfl)]
    exact List.filter_congr fun tok htok =>
      isInvalidTok_eq (by decide) hcover' (hrow.mem tok htok)
  have hslots : ((row.map (outVal cfg.blockSize noDcp 0 table req)).filter
      fun v => decide (v ≥ 0)) =
      (row.filter (isOwned cfg.dcp 0)).map (physicalSlot cfg.blockSize cfg.dcp table req) := by
    rw [List.filter_map, ← hkept]
    simp only [Function.comp_def, outVal_nonneg_iff cfg.block_pos]
    refine List.map_congr_left fun tok htok => ?_
    rw [outVal_eq req (by simpa using (List.mem_filter.mp htok).2), physicalSlot, physicalSlot,
      localIdx_of_world_one hworld, localIdx_of_world_one (g := noDcp) rfl]
  rw [convertReqIndexToGlobalIndex, compactPageTableValidPrefix_eq, hslots, List.length_map,
    List.length_map, hrow.length_eq]

/-! ## Per-token lengths bound the owned ids -/

theorem length_ownedBelow_mono (world interleave rank : ℕ) {m n : ℕ} (h : m ≤ n) :
    (ownedBelow world interleave rank m).length ≤ (ownedBelow world interleave rank n).length :=
  ((List.range_sublist.mpr h).filter _).length_le

theorem length_ownedBelow_le (world interleave rank n : ℕ) :
    (ownedBelow world interleave rank n).length ≤ n := by
  have h := List.length_filter_le (fun pos => decide (BlockCyclic.owner world interleave pos = rank))
    (List.range n)
  rwa [List.length_range] at h

/-- Distinct ids below `n` that a rank owns are at most the positions it owns there. -/
theorem length_owned_le {cfg : PageTableConfig} {n : ℕ} {row : List ℤ} (hrow : TopkRow cfg n row)
    (rank : ℕ) : (row.filter (isOwned cfg.dcp rank)).length ≤
      (ownedBelow cfg.dcp.worldSize cfg.dcp.interleave rank n).length := by
  have hnodup : (row.filter (isOwned cfg.dcp rank)).Nodup := by
    refine List.Nodup.sublist (List.monotone_filter_right row fun tok htok => ?_) hrow.nodup
    simp only [isOwned, decide_eq_true_eq] at htok ⊢
    exact htok.1
  have hsub : row.filter (isOwned cfg.dcp rank) ⊆
      (ownedBelow cfg.dcp.worldSize cfg.dcp.interleave rank n).map Int.ofNat := by
    intro tok htok
    obtain ⟨hmem, howned⟩ := List.mem_filter.mp htok
    obtain ⟨hnonneg, howner⟩ := of_decide_eq_true howned
    obtain ⟨t, rfl⟩ := Int.eq_ofNat_of_zero_le hnonneg
    have hlt : t < n := by
      rcases hrow.mem _ hmem with h | h <;> omega
    rw [owningRank_natCast, Int.ofNat_inj] at howner
    exact List.mem_map.mpr ⟨t, List.mem_filter.mpr ⟨List.mem_range.mpr hlt,
      decide_eq_true howner⟩, rfl⟩
  have hle := (List.subperm_of_subset hnodup hsub).length_le
  rwa [List.length_map] at hle

/-- `dcp_local_seq_lens`, where it is set, counts the rank's positions of each request. -/
def LocalCounts (cfg : PageTableConfig) (rank : ℕ) (batch : MlaBatch)
    (dcpLocalSeqLens : Option (List ℤ)) : Prop :=
  ∀ lens, dcpLocalSeqLens = some lens → ∀ (b : ℕ) (q : Request), batch.reqs[b]? = some q →
    lens[b]? =
      some ((ownedBelow cfg.dcp.worldSize cfg.dcp.interleave rank q.seqLen).length : ℤ)

/-- The row of token `j` of request `b`. -/
def tokenRow (batch : MlaBatch) (b j : ℕ) : ℕ := start (batch.reqs.map Request.queryLen) b + j

section
variable {cfg : PageTableConfig} {getDcpLocalSeqLens : GetDcpLocalSeqLens} {rank : ℕ}
  {dcpLocalSeqLens : Option (List ℤ)} {batch : MlaBatch} {b j : ℕ} {q : Request}

/-- One token per request: the lengths of the requests are the tokens' own. -/
theorem seqLensForReq_bound (hlocal : LocalCounts cfg rank batch dcpLocalSeqLens)
    (hq : batch.reqs[b]? = some q) :
    ∃ len, (seqLensForReq dcpLocalSeqLens batch)[b]? = some len ∧
      ((ownedBelow cfg.dcp.worldSize cfg.dcp.interleave rank q.seqLen).length : ℤ) ≤ len := by
  cases dcpLocalSeqLens with
  | some lens => exact ⟨_, hlocal lens rfl b q hq, le_refl _⟩
  | none =>
    have hb := (List.getElem?_eq_some_iff.mp hq).1
    refine ⟨q.seqLen, ?_, by exact_mod_cast length_ownedBelow_le _ _ _ _⟩
    rw [seqLensForReq, Option.getD_none, List.getElem?_append_left (by simpa using hb),
      List.getElem?_map, hq]
    rfl

/-- An optimistic length only raises the bound. -/
theorem perTokenLens_bound (hcounts : CountsOwned getDcpLocalSeqLens)
    (hrank : rank < cfg.dcp.worldSize) (hq : batch.reqs[b]? = some q) (hj : j < q.queryLen) :
    ∃ len, (perTokenLens cfg getDcpLocalSeqLens rank dcpLocalSeqLens batch)[tokenRow batch b j]? =
        some len ∧
      ((ownedBelow cfg.dcp.worldSize cfg.dcp.interleave rank (causalLen q j)).length : ℤ) ≤ len := by
  have hge : q.seqLen ≤ seqLensCpuSrc batch q := by
    rw [seqLensCpuSrc]
    split
    · exact q.seq_le
    · exact Nat.le_refl _
  let lens := requestTokenLens cfg getDcpLocalSeqLens rank dcpLocalSeqLens batch
  have hlens : (batch.reqs.map lens).map List.length = batch.reqs.map Request.queryLen := by
    simp [lens, requestTokenLens, Function.comp_def]
  have hrow : (batch.reqs.map lens)[b]? = some (lens q) := by rw [List.getElem?_map, hq]; rfl
  have hlookup := getElem?_flatten_segment hrow (j := j)
    (by simpa [lens, requestTokenLens] using hj)
  have hentry : (lens q)[j]? = some (if dcpLocalSeqLens.isSome then
      getDcpLocalSeqLens ((seqLensCpuSrc batch q : ℤ) - q.queryLen + 1 + j) cfg.dcp.worldSize rank
        cfg.dcp.interleave
      else (seqLensCpuSrc batch q : ℤ) - q.queryLen + 1 + j) := by
    rw [show lens q = requestTokenLens cfg getDcpLocalSeqLens rank dcpLocalSeqLens batch q from rfl,
      requestTokenLens, List.getElem?_map, List.getElem?_range hj]
    rfl
  rw [hlens, ← List.flatMap_def, hentry] at hlookup
  rw [perTokenLens, tokenRow,
    List.getElem?_append_left (List.getElem?_eq_some_iff.mp hlookup).1]
  refine ⟨_, hlookup, ?_⟩
  have hcausal : causalLen q j ≤ seqLensCpuSrc batch q - q.queryLen + 1 + j := by
    rw [causalLen]
    omega
  have hmono := length_ownedBelow_mono cfg.dcp.worldSize cfg.dcp.interleave rank hcausal
  have hcast : (seqLensCpuSrc batch q : ℤ) - q.queryLen + 1 + j =
      (seqLensCpuSrc batch q - q.queryLen + 1 + j : ℕ) := by
    have := q.query_le
    omega
  split
  · rw [hcast, hcounts _ _ _ _ hrank cfg.dcp.interleave_pos]
    exact_mod_cast hmono
  · have hle := length_ownedBelow_le cfg.dcp.worldSize cfg.dcp.interleave rank
      (seqLensCpuSrc batch q - q.queryLen + 1 + j)
    omega

/-- Where every request has one token its row is the request's index. -/
theorem tokenRow_of_single (hone : ∀ q ∈ batch.reqs, q.queryLen = 1) (hb : b < batch.reqs.length)
    (hj : j < 1) : tokenRow batch b j = b := by
  have hstart : start (batch.reqs.map Request.queryLen) b = b * 1 := by
    refine start_uniform (fun x hx => ?_) (by simpa using Nat.le_of_lt hb)
    obtain ⟨q, hq, rfl⟩ := List.mem_map.mp hx
    exact hone q hq
  rw [tokenRow, hstart]
  omega

/-- No token's bound is below the number of positions its rank may attend to. -/
theorem cacheSeqLensPerToken_bound (hcounts : CountsOwned getDcpLocalSeqLens)
    (hrank : rank < cfg.dcp.worldSize) (hlocal : LocalCounts cfg rank batch dcpLocalSeqLens)
    (hq : batch.reqs[b]? = some q) (hj : j < q.queryLen) :
    ∃ len, (cacheSeqLensPerToken cfg getDcpLocalSeqLens rank dcpLocalSeqLens batch)[
        tokenRow batch b j]? = some len ∧
      ((ownedBelow cfg.dcp.worldSize cfg.dcp.interleave rank (causalLen q j)).length : ℤ) ≤ len := by
  rw [cacheSeqLensPerToken]
  by_cases hhot : batch.maxQueryLen ≤ 1 ∧
      batch.numActualTokens = batch.reqs.length + batch.numPaddingReqs
  · have hone : ∀ q ∈ batch.reqs, q.queryLen = 1 := fun q hq => by
      have := batch.query_pos q hq
      have := batch.query_le q hq
      omega
    have hb := (List.getElem?_eq_some_iff.mp hq).1
    have hqone := hone q (List.mem_of_getElem? hq)
    have hrow := tokenRow_of_single hone hb (hqone ▸ hj)
    have hcausal : causalLen q j = q.seqLen := by
      have := q.query_le
      rw [causalLen]
      omega
    rw [if_pos hhot, hrow, List.getElem?_take_of_lt (by omega), hcausal]
    exact seqLensForReq_bound hlocal hq
  · rw [if_neg hhot]
    exact perTokenLens_bound hcounts hrank hq hj

end

/-! ## All ranks -/

/-- A length bound that is large enough leaves the packed row and its count alone. -/
theorem forwardMqaRow_eq {cfg : PageTableConfig} {rank n : ℕ} {table : RankBlocks} {row : List ℤ}
    {order : List ℕ} {perTokenLen : ℤ} (hrank : rank < cfg.dcp.worldSize)
    (hcover : Covers cfg.blockSize cfg.dcp rank table n) (hrow : TopkRow cfg n row)
    (horder : order.Perm (List.range (tilesPerRow cfg)))
    (hlen : ((row.filter (isOwned cfg.dcp rank)).length : ℤ) ≤ perTokenLen) (req : ℕ) :
    ∃ ids : List ℤ, ids.Perm (row.filter (isOwned cfg.dcp rank)) ∧
      forwardMqaRow cfg rank table req order perTokenLen row =
        (packed cfg.numTopkTokens (ids.map (physicalSlot cfg.blockSize cfg.dcp table req)),
          (ids.length : ℤ)) := by
  have hclamp : ∀ ids : List ℤ, ids.Perm (row.filter (isOwned cfg.dcp rank)) →
      (maskPageTableAfterNsaLen (min (ids.length : ℤ) perTokenLen)
        (packed cfg.numTopkTokens (ids.map (physicalSlot cfg.blockSize cfg.dcp table req))),
        min (ids.length : ℤ) perTokenLen) =
      (packed cfg.numTopkTokens (ids.map (physicalSlot cfg.blockSize cfg.dcp table req)),
        (ids.length : ℤ)) := by
    intro ids hperm
    have hmin : min (ids.length : ℤ) perTokenLen = ids.length := by
      rw [hperm.length_eq]
      omega
    have hmask := maskPageTableAfterNsaLen_packed cfg.numTopkTokens
      (ids.map (physicalSlot cfg.blockSize cfg.dcp table req))
    rw [List.length_map] at hmask
    rw [hmin, hmask]
  rw [forwardMqaRow]
  by_cases hworld : cfg.dcp.worldSize > 1
  · have hperm := keptIds_perm rank hrow horder
    rw [if_pos hworld, filterAndConvertDcpIndex_eq hrank hcover hrow horder req]
    exact ⟨_, hperm, hclamp _ hperm⟩
  · have hone : cfg.dcp.worldSize = 1 := by omega
    obtain rfl : rank = 0 := by omega
    rw [if_neg hworld, convert_compact_eq hone hcover hrow req]
    exact ⟨_, List.Perm.refl _, hclamp _ (List.Perm.refl _)⟩

theorem owningRank_range (g : DcpGroup) {tok : ℤ} (h : 0 ≤ tok) :
    ∃ rank < g.worldSize, owningRank g tok = rank := by
  obtain ⟨t, rfl⟩ := Int.eq_ofNat_of_zero_le h
  exact ⟨_, BlockCyclic.owner_lt g.world_pos t, owningRank_natCast g t⟩

/-- Every selected id belongs to one rank. -/
theorem flatMap_isOwned_perm (g : DcpGroup) {row : List ℤ}
    (hnodup : (row.filter fun tok => decide (0 ≤ tok)).Nodup) :
    ((List.range g.worldSize).flatMap fun rank => row.filter (isOwned g rank)).Perm
      (row.filter fun tok => decide (0 ≤ tok)) := by
  rw [List.perm_ext_iff_of_nodup ?_ hnodup]
  · intro tok
    simp only [List.mem_flatMap, List.mem_range, List.mem_filter, isOwned, decide_eq_true_eq]
    constructor
    · rintro ⟨rank, -, hmem, hnonneg, -⟩
      exact ⟨hmem, hnonneg⟩
    · rintro ⟨hmem, hnonneg⟩
      obtain ⟨rank, hrank, howner⟩ := owningRank_range g hnonneg
      exact ⟨rank, hrank, hmem, hnonneg, howner⟩
  · rw [List.nodup_flatMap]
    constructor
    · intro rank _
      refine List.Nodup.sublist (List.monotone_filter_right row fun tok htok => ?_) hnodup
      exact decide_eq_true (of_decide_eq_true htok).1
    · refine List.Pairwise.imp (fun {rank rank'} hne tok htok htok' => ?_) List.nodup_range
      have howner := (of_decide_eq_true (List.mem_filter.mp htok).2).2
      have howner' := (of_decide_eq_true (List.mem_filter.mp htok').2).2
      exact hne (Int.ofNat_inj.mp (howner.symm.trans howner'))

/-- Every rank's row is the slots of the selected ids it owns, packed to the front, with their
count as the length: the clamp drops none of them. Together the ranks hold every selected id
once. -/
theorem pageTable_owned (cfg : PageTableConfig) (getDcpLocalSeqLens : GetDcpLocalSeqLens)
    (hcounts : CountsOwned getDcpLocalSeqLens) (batch : MlaBatch)
    (dcpLocalSeqLens : ℕ → Option (List ℤ))
    (hlocal : ∀ rank < cfg.dcp.worldSize, LocalCounts cfg rank batch (dcpLocalSeqLens rank))
    (tables : ℕ → RankBlocks) (orders : ℕ → List ℕ)
    (horders : ∀ rank < cfg.dcp.worldSize, (orders rank).Perm (List.range (tilesPerRow cfg)))
    (b j : ℕ) (q : Request) (hq : batch.reqs[b]? = some q) (hj : j < q.queryLen)
    (hcovers : ∀ rank < cfg.dcp.worldSize,
      Covers cfg.blockSize cfg.dcp rank (tables rank) (causalLen q j))
    (row : List ℤ) (hrow : TopkRow cfg (causalLen q j) row) :
    ∃ ids : ℕ → List ℤ,
      (∀ rank < cfg.dcp.worldSize, (ids rank).Perm (row.filter (isOwned cfg.dcp rank)) ∧
        ∃ len, (cacheSeqLensPerToken cfg getDcpLocalSeqLens rank (dcpLocalSeqLens rank) batch)[
            tokenRow batch b j]? = some len ∧ ((ids rank).length : ℤ) ≤ len ∧
          forwardMqaRow cfg rank (tables rank) b (orders rank) len row =
            (packed cfg.numTopkTokens
              ((ids rank).map (physicalSlot cfg.blockSize cfg.dcp (tables rank) b)),
              ((ids rank).length : ℤ))) ∧
      ((List.range cfg.dcp.worldSize).flatMap ids).Perm
        (row.filter fun tok => decide (0 ≤ tok)) := by
  have hrank : ∀ rank, rank < cfg.dcp.worldSize → ∃ ids : List ℤ,
      ids.Perm (row.filter (isOwned cfg.dcp rank)) ∧
      ∃ len, (cacheSeqLensPerToken cfg getDcpLocalSeqLens rank (dcpLocalSeqLens rank) batch)[
          tokenRow batch b j]? = some len ∧ (ids.length : ℤ) ≤ len ∧
        forwardMqaRow cfg rank (tables rank) b (orders rank) len row =
          (packed cfg.numTopkTokens
            (ids.map (physicalSlot cfg.blockSize cfg.dcp (tables rank) b)),
            (ids.length : ℤ)) := by
    intro rank hrank
    obtain ⟨len, hlookup, hlen⟩ := cacheSeqLensPerToken_bound hcounts hrank (hlocal rank hrank) hq hj
    have howned : ((row.filter (isOwned cfg.dcp rank)).length : ℤ) ≤ len :=
      le_trans (by exact_mod_cast length_owned_le hrow rank) hlen
    obtain ⟨ids, hperm, hforward⟩ := forwardMqaRow_eq hrank (hcovers rank hrank) hrow
      (horders rank hrank) howned b
    exact ⟨ids, hperm, len, hlookup, hperm.length_eq ▸ howned, hforward⟩
  choose! ids hids using hrank
  refine ⟨ids, hids, List.Perm.trans (List.Perm.flatMap_left _ fun rank hmem => ?_)
    (flatMap_isOwned_perm cfg.dcp hrow.nodup)⟩
  exact (hids rank (List.mem_range.mp hmem)).1

/-- Two ranks, one request whose second token attends to six positions. -/
def pairTables : PageTableConfig :=
  ⟨⟨2, 1, Nat.two_pos, Nat.one_pos⟩, 64, 128, by decide, by decide, fun _ => by decide⟩

def extendBatch : MlaBatch where
  reqs := [⟨2, 6, 8, by decide, by decide⟩]
  numPaddingReqs := 0
  numActualTokens := 2
  maxQueryLen := 2
  hasUpperBound := true
  query_pos := by decide
  query_le := by decide
  tokens_le := by decide

def holedRow : List ℤ := [5, -1, 2, 3] ++ List.replicate 124 (-1)

theorem holedRow_filter (p : ℤ → Bool) (h : p (-1) = false) :
    holedRow.filter p = [5, 2, 3].filter p := by
  rw [holedRow, List.filter_append, List.filter_replicate]
  simp [h, List.filter_cons]

theorem extendBatch_split : ∃ ids : ℕ → List ℤ,
    (ids 0).Perm [2] ∧ (ids 1).Perm [5, 3] ∧ (ids 0 ++ ids 1).Perm [5, 2, 3] := by
  have hlocal : ∀ rank < 2, LocalCounts pairTables rank extendBatch (some [3]) := by
    intro rank hrank lens hlens b q hq
    obtain rfl := Option.some.inj hlens
    obtain ⟨hb, rfl⟩ := List.getElem?_eq_some_iff.mp hq
    obtain rfl : b = 0 := Nat.lt_one_iff.mp hb
    rcases (by omega : rank = 0 ∨ rank = 1) with rfl | rfl <;> rfl
  have hcovers : ∀ rank < 2, Covers 64 pairTables.dcp rank ⟨fun _ block => block, 1⟩ 6 := by
    intro rank hrank
    exact Nat.le_trans (length_ownedBelow_le _ _ _ _) (by decide)
  have hrow : TopkRow pairTables 6 holedRow := by
    refine ⟨rfl, fun tok htok => ?_, ?_⟩
    · simp [holedRow] at htok
      omega
    · rw [holedRow_filter _ rfl]
      decide
  obtain ⟨ids, hranks, hall⟩ := pageTable_owned pairTables DecodeBounds.dcpLocalSeqLens
    DecodeBounds.dcpLocalSeqLens_countsOwned extendBatch (fun _ => some [3]) hlocal
    (fun _ => ⟨fun _ block => block, 1⟩) (fun _ => List.range (tilesPerRow pairTables))
    (fun _ _ => List.Perm.refl _) 0 1 ⟨2, 6, 8, by decide, by decide⟩ rfl (by decide)
    hcovers holedRow hrow
  have h0 := (hranks 0 (by decide)).1
  have h1 := (hranks 1 (by decide)).1
  rw [holedRow_filter _ rfl] at h0 h1 hall
  refine ⟨ids, h0, h1, ?_⟩
  simpa [pairTables, List.range_succ] using hall

end SparkKit.Dcp.PageTable
