import Mathlib.Data.Int.ConditionallyCompleteOrder
import Mathlib.Data.Set.Function
import SparkKit.Dcp.Chunks

/-!
# One shard indexing, written three times

The top-k merge turns a rank's local index into a global id, the sparse index conversion
turns a global id into an owning rank and a local index, and the chunk kernel bounds the
local indices of a rank. All three are the block-cyclic distribution.
-/
namespace SparkKit.Dcp.ShardIndex

open SparkKit.Dcp.Candidates SparkKit.Dcp.Chunks
open SparkKit.Lib

/-- `owning_rank` of a global token id in `_convert_req_index_to_global_index_kernel`. -/
def owningRank (g : DcpGroup) (tok : ℤ) : ℤ := tok / g.interleave % g.worldSize

/-- `local_idx` in the same kernel. -/
def localIdx (g : DcpGroup) (tok : ℤ) : ℤ :=
  tok / (g.worldSize * g.interleave) * g.interleave + tok % g.interleave

/-- The ranks with their local indices below their local length of `n`. -/
def shard (cfg : IndexerConfig) (n : ℕ) : Set (ℕ × ℕ) :=
  {p | p.1 < cfg.dcp.worldSize ∧ p.2 < lenPerToken cfg p.1 n}

theorem owningRank_natCast (g : DcpGroup) (tok : ℕ) :
    owningRank g tok = (BlockCyclic.owner g.worldSize g.interleave tok : ℕ) := by
  rw [owningRank, BlockCyclic.owner]
  push_cast
  rfl

theorem localIdx_natCast (g : DcpGroup) (tok : ℕ) :
    localIdx g tok = (BlockCyclic.localIdx g.worldSize g.interleave tok : ℕ) := by
  rw [localIdx, BlockCyclic.localIdx]
  push_cast
  rfl

/-- The kernel's world-size test only saves the arithmetic. -/
theorem lenPerToken_eq (cfg : IndexerConfig) {rank : ℕ} (hrank : rank < cfg.dcp.worldSize)
    (n : ℕ) : lenPerToken cfg rank n =
      BlockCyclic.localLen cfg.dcp.worldSize cfg.dcp.interleave n rank := by
  rw [lenPerToken]
  split
  · rfl
  · have hworld : cfg.dcp.worldSize = 1 := by
      have := cfg.dcp.world_pos
      omega
    obtain rfl : rank = 0 := by omega
    have hsum := BlockCyclic.sum_localLen cfg.dcp.world_pos cfg.dcp.interleave_pos n
    rw [hworld] at hsum ⊢
    simpa using hsum.symm

theorem lt_lenPerToken_iff (cfg : IndexerConfig) {rank : ℕ} (hrank : rank < cfg.dcp.worldSize)
    (n i : ℕ) : i < lenPerToken cfg rank n ↔ globalTopkId cfg.dcp rank i < n := by
  rw [lenPerToken_eq cfg hrank, globalTopkId_natCast,
    BlockCyclic.lt_localLen_iff hrank cfg.dcp.interleave_pos]
  exact Int.ofNat_lt.symm

theorem owningRank_globalTopkId (g : DcpGroup) {rank : ℕ} (hrank : rank < g.worldSize) (i : ℕ) :
    owningRank g (globalTopkId g rank i) = rank := by
  rw [globalTopkId_natCast, owningRank_natCast,
    BlockCyclic.owner_globalId hrank g.interleave_pos]

theorem localIdx_globalTopkId (g : DcpGroup) {rank : ℕ} (hrank : rank < g.worldSize) (i : ℕ) :
    localIdx g (globalTopkId g rank i) = i := by
  rw [globalTopkId_natCast, localIdx_natCast,
    BlockCyclic.localIdx_globalId hrank g.interleave_pos]

/-- Every global id is the id of its owner's local index. -/
theorem exists_globalTopkId (g : DcpGroup) (tok : ℕ) :
    ∃ rank < g.worldSize, ∃ i : ℕ, owningRank g tok = rank ∧ localIdx g tok = i ∧
      globalTopkId g rank i = tok := by
  refine ⟨_, BlockCyclic.owner_lt g.world_pos tok, _, owningRank_natCast g tok,
    localIdx_natCast g tok, ?_⟩
  rw [globalTopkId_natCast, BlockCyclic.globalId_localIdx g.interleave_pos]

theorem sum_lenPerToken (cfg : IndexerConfig) (n : ℕ) :
    ((List.range cfg.dcp.worldSize).map fun rank => lenPerToken cfg rank n).sum = n := by
  have hlens : ((List.range cfg.dcp.worldSize).map fun rank => lenPerToken cfg rank n) =
      (List.range cfg.dcp.worldSize).map
        (BlockCyclic.localLen cfg.dcp.worldSize cfg.dcp.interleave n) :=
    List.map_congr_left fun rank hrank => lenPerToken_eq cfg (List.mem_range.mp hrank) n
  rw [hlens, BlockCyclic.sum_localLen cfg.dcp.world_pos cfg.dcp.interleave_pos]

/-- The three formulas agree: merging maps the shards onto the ids below `n` one to one, the
conversion kernel inverts it, and a rank's local length is its share of the first `n` ids. -/
theorem shardIndexing_agrees (cfg : IndexerConfig) (n : ℕ) :
    Set.BijOn (fun p : ℕ × ℕ => globalTopkId cfg.dcp p.1 p.2) (shard cfg n) (Set.Ico 0 (n : ℤ)) ∧
    (∀ p ∈ shard cfg n, owningRank cfg.dcp (globalTopkId cfg.dcp p.1 p.2) = p.1 ∧
      localIdx cfg.dcp (globalTopkId cfg.dcp p.1 p.2) = p.2) ∧
    (∀ tok ∈ Set.Ico 0 (n : ℤ), ∃ p ∈ shard cfg n, owningRank cfg.dcp tok = p.1 ∧
      localIdx cfg.dcp tok = p.2 ∧ globalTopkId cfg.dcp p.1 p.2 = tok) ∧
    (∀ rank < cfg.dcp.worldSize, ∀ i : ℕ,
      i < lenPerToken cfg rank n ↔ globalTopkId cfg.dcp rank i < n) ∧
    ((List.range cfg.dcp.worldSize).map fun rank => lenPerToken cfg rank n).sum = n := by
  have hinv : ∀ p ∈ shard cfg n, owningRank cfg.dcp (globalTopkId cfg.dcp p.1 p.2) = p.1 ∧
      localIdx cfg.dcp (globalTopkId cfg.dcp p.1 p.2) = p.2 := fun p hp =>
    ⟨owningRank_globalTopkId cfg.dcp hp.1 p.2, localIdx_globalTopkId cfg.dcp hp.1 p.2⟩
  have honto : ∀ tok ∈ Set.Ico 0 (n : ℤ), ∃ p ∈ shard cfg n, owningRank cfg.dcp tok = p.1 ∧
      localIdx cfg.dcp tok = p.2 ∧ globalTopkId cfg.dcp p.1 p.2 = tok := by
    intro tok htok
    obtain ⟨t, rfl⟩ := Int.eq_ofNat_of_zero_le htok.1
    obtain ⟨rank, hrank, i, howner, hlocal, hid⟩ := exists_globalTopkId cfg.dcp t
    refine ⟨(rank, i), ⟨hrank, (lt_lenPerToken_iff cfg hrank n i).mpr ?_⟩, howner, hlocal, hid⟩
    rw [hid]
    exact htok.2
  refine ⟨⟨fun p hp => ⟨?_, ?_⟩, fun p hp q hq he => ?_, fun tok htok => ?_⟩, hinv, honto,
    fun rank hrank i => lt_lenPerToken_iff cfg hrank n i, sum_lenPerToken cfg n⟩
  · change 0 ≤ globalTopkId cfg.dcp p.1 p.2
    rw [globalTopkId_natCast]
    exact Int.natCast_nonneg _
  · exact (lt_lenPerToken_iff cfg hp.1 n p.2).mp hp.2
  · -- equal ids have equal owners and equal local indices
    obtain ⟨hrank, hlocal⟩ := hinv p hp
    rw [show globalTopkId cfg.dcp p.1 p.2 = globalTopkId cfg.dcp q.1 q.2 from he] at hrank hlocal
    rw [(hinv q hq).1] at hrank
    rw [(hinv q hq).2] at hlocal
    exact Prod.ext (Int.ofNat_inj.mp hrank).symm (Int.ofNat_inj.mp hlocal).symm
  · obtain ⟨p, hp, -, -, hid⟩ := honto tok htok
    exact ⟨p, hp, hid⟩

end SparkKit.Dcp.ShardIndex
