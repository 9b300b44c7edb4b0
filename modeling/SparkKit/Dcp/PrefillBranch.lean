import SparkKit.Lib.Collective
import SparkKit.Dcp.Chunks

/-!
# The B12X prefill branch across a DCP group

Every rank walks its own chunk list. A chunk with no local keys is filled with `-1` and
skipped; any other runs the local top-k and, in a group, meets the other ranks in the
gather of the merge. The group completes with one top-k on every rank exactly when no
prefill request leaves a rank without keys while another rank has some.
-/
namespace SparkKit.Dcp.PrefillBranch

open SparkKit.Lib.BlockCyclic SparkKit.Lib.Collective
open SparkKit.Dcp.Candidates SparkKit.Dcp.Chunks

variable {α : Type*}

/-- A rank's `topk_indices_buffer` and the scores of its last local top-k, by query row. -/
structure TopkState (α : Type*) where
  topkIndices : ℕ → List ℤ
  topkScores : ℕ → List α

/-- The external kernels of the branch: the paged top-k of one query row, by rank, row,
request of the block table and key count, and the final stable top-k. -/
structure Kernels (α : Type*) where
  pagedTopk : ℕ → ℕ → ℕ → ℕ → List (α × ℤ)
  stableTopk : StableTopk α

/-- The request whose block-table row serves query row `i` of a chunk. -/
def blockTableRow (chunk : PrefillChunk) (i : ℕ) : ℕ :=
  if chunk.numReqs = 1 then chunk.firstReq else chunk.firstReq + chunk.tokenToSeq.getD i 0

/-- The local top-k of query row `i`, masked where the row has no keys. -/
def localTopkRow (ker : Kernels α) (rank : ℕ) (chunk : PrefillChunk) (i : ℕ) : List (α × ℤ) :=
  let ks := chunk.cuSeqlenKs.getD i 0
  let ke := chunk.cuSeqlenKe.getD i 0
  let rowHasNoKv : Bool := ke ≤ ks
  let seqLen := if rowHasNoKv then 0 else ke - ks
  let out := ker.pagedTopk rank (chunk.tokenStart + i) (blockTableRow chunk i) seqLen
  if rowHasNoKv then out.map fun entry => (entry.1, -1) else out

/-- Write the chunk's rows of the buffer. -/
def writeRows (chunk : PrefillChunk) (f : ℕ → List ℤ) (indices : ℕ → List ℤ) : ℕ → List ℤ :=
  fun row =>
    if chunk.tokenStart ≤ row ∧ row < chunk.tokenEnd then f (row - chunk.tokenStart)
    else indices row

def fillEmpty (cfg : IndexerConfig) (chunk : PrefillChunk) (st : TopkState α) : TopkState α where
  topkIndices := writeRows chunk (fun _ => List.replicate cfg.topkTokens (-1)) st.topkIndices
  topkScores := st.topkScores

def runLocalTopk (ker : Kernels α) (rank : ℕ) (chunk : PrefillChunk) (st : TopkState α) :
    TopkState α where
  topkIndices :=
    writeRows chunk (fun i => (localTopkRow ker rank chunk i).map Prod.snd) st.topkIndices
  topkScores := fun i => (localTopkRow ker rank chunk i).map Prod.fst

/-- The packed pairs a rank sends, one list for each row of the chunk. -/
def sendPacked (g : DcpGroup) (rank : ℕ) (chunk : PrefillChunk) (st : TopkState α) :
    List (List (Candidate α)) :=
  (List.range (chunk.tokenEnd - chunk.tokenStart)).map fun i =>
    packRow g rank ((st.topkScores i).zip (st.topkIndices (chunk.tokenStart + i)))

/-- Row `i` of the gathered tensor. -/
def gatheredRow (g : DcpGroup) (gathered : Fin g.worldSize → List (List (Candidate α))) (i : ℕ) :
    List (Candidate α) :=
  gatherRow g fun r => if h : r < g.worldSize then (gathered ⟨r, h⟩).getD i [] else []

def recvGathered (cfg : IndexerConfig) (ker : Kernels α) (chunk : PrefillChunk)
    (gathered : Fin cfg.dcp.worldSize → List (List (Candidate α))) (st : TopkState α) :
    TopkState α where
  topkIndices :=
    writeRows chunk (fun i => ker.stableTopk (gatheredRow cfg.dcp gathered i) cfg.topkTokens)
      st.topkIndices
  topkScores := st.topkScores

/-- An operation of a rank in this branch; a gather's shape is that of `packed`. -/
abbrev BranchOp (cfg : IndexerConfig) (α : Type*) :=
  Op (Fin cfg.dcp.worldSize) (ℕ × ℕ × ℕ) (List (List (Candidate α))) (TopkState α)

/-- The loop body for one chunk on one rank. -/
def chunkOps (cfg : IndexerConfig) (ker : Kernels α) (rank : ℕ) (chunk : PrefillChunk) :
    List (BranchOp cfg α) :=
  if chunk.localTotalSeqLens = 0 then [.compute (fillEmpty cfg chunk)]
  else if cfg.dcp.worldSize > 1 then
    [.compute (runLocalTopk ker rank chunk),
     .gather (chunk.tokenEnd - chunk.tokenStart, cfg.topkTokens, 2)
       (sendPacked cfg.dcp rank chunk) (recvGathered cfg ker chunk)]
  else [.compute (runLocalTopk ker rank chunk)]

/-- What one rank runs for a batch. -/
def branchOps (cfg : IndexerConfig) (localSeqLens : DcpLocalSeqLens) (ker : Kernels α)
    (batch : IndexerBatch) (rank : ℕ) : List (BranchOp cfg α) :=
  (b12xPrefillChunks cfg localSeqLens rank batch).flatMap (chunkOps cfg ker rank)

/-- The group at the start of the branch: every buffer row is cleared to `-1`. -/
def prefillGroup (cfg : IndexerConfig) (localSeqLens : DcpLocalSeqLens) (ker : Kernels α)
    (batch : IndexerBatch) :
    Group (Fin cfg.dcp.worldSize) (ℕ × ℕ × ℕ) (List (List (Candidate α))) (TopkState α) where
  ops := fun rank => branchOps cfg localSeqLens ker batch rank
  st := fun _ =>
    { topkIndices := fun _ => List.replicate cfg.topkTokens (-1), topkScores := fun _ => [] }

/-- Every rank issues the same gathers, the group completes, and every completion leaves
every rank with the same ids in every row. -/
def CollectivesAgree (cfg : IndexerConfig) (localSeqLens : DcpLocalSeqLens) (ker : Kernels α)
    (batch : IndexerBatch) : Prop :=
  (∀ r r' : Fin cfg.dcp.worldSize,
    trace (branchOps cfg localSeqLens ker batch r) = trace (branchOps cfg localSeqLens ker batch r')) ∧
  (∃ final, Completes (prefillGroup cfg localSeqLens ker batch) final) ∧
  ∀ final, Completes (prefillGroup cfg localSeqLens ker batch) final →
    ∀ r r' row, (final r).topkIndices row = (final r').topkIndices row

/-- Each prefill request with query tokens has no keys or keys on the last rank. -/
def NoEmptyShard (cfg : IndexerConfig) (batch : IndexerBatch) : Prop :=
  ∀ q ∈ batch.reqs.drop batch.numDecodes, 0 < q.queryLen →
    compressedSeqLen cfg q = 0 ∨
      (cfg.dcp.worldSize - 1) * cfg.dcp.interleave < compressedSeqLen cfg q

/-! ## One chunk -/

/-- The rank holds no keys of the chunk. -/
def Skips (cfg : IndexerConfig) (localSeqLens : DcpLocalSeqLens) (batch : IndexerBatch) (rank : ℕ)
    (key : ChunkKey) : Prop :=
  (chunkOf cfg localSeqLens rank batch key).localTotalSeqLens = 0

instance (cfg : IndexerConfig) (localSeqLens : DcpLocalSeqLens) (batch : IndexerBatch) (rank : ℕ)
    (key : ChunkKey) : Decidable (Skips cfg localSeqLens batch rank key) :=
  inferInstanceAs (Decidable (_ = 0))

/-- `get_dcp_local_seq_lens` counts a rank's share of the first `n` positions. -/
def CountsShares (g : DcpGroup) (localSeqLens : DcpLocalSeqLens) : Prop :=
  ∀ n rank, rank < g.worldSize → localSeqLens n rank = localLen g.worldSize g.interleave n rank

section
variable {cfg : IndexerConfig} {localSeqLens : DcpLocalSeqLens} {batch : IndexerBatch}

theorem skips_iff (hlocal : CountsShares cfg.dcp localSeqLens) (hW : 1 < cfg.dcp.worldSize)
    {rank : ℕ} (hr : rank < cfg.dcp.worldSize) (key : ChunkKey) :
    Skips cfg localSeqLens batch rank key ↔
      compressedSeqLen cfg key.req ≤ rank * cfg.dcp.interleave := by
  have hpos := localLen_pos_iff hr cfg.dcp.interleave_pos (compressedSeqLen cfg key.req)
  simp only [Skips, chunkOf, if_pos hW, hlocal _ _ hr]
  omega

variable (cfg localSeqLens batch) in
theorem branchOps_eq (ker : Kernels α) (rank : ℕ) :
    branchOps cfg localSeqLens ker batch rank =
      (chunkKeys cfg batch).flatMap fun key =>
        chunkOps cfg ker rank (chunkOf cfg localSeqLens rank batch key) := by
  rw [branchOps, b12xPrefillChunks_eq, List.flatMap_map]

/-- A rank gathers once for every chunk it does not skip. -/
theorem trace_length (hW : 1 < cfg.dcp.worldSize) (ker : Kernels α) (rank : ℕ) :
    (trace (branchOps cfg localSeqLens ker batch rank)).length =
      ((chunkKeys cfg batch).filter fun key => ¬ Skips cfg localSeqLens batch rank key).length := by
  rw [branchOps_eq]
  induction chunkKeys cfg batch with
  | nil => rfl
  | cons key keys ih =>
    rw [List.flatMap_cons, trace_append, List.length_append, ih]
    by_cases hskip : Skips cfg localSeqLens batch rank key
    · have hops : chunkOps cfg ker rank (chunkOf cfg localSeqLens rank batch key) =
          [.compute (fillEmpty cfg (chunkOf cfg localSeqLens rank batch key))] := if_pos hskip
      simp [hops, hskip]
    · have hops : chunkOps cfg ker rank (chunkOf cfg localSeqLens rank batch key) =
          [.compute (runLocalTopk ker rank _), .gather _ (sendPacked cfg.dcp rank _)
            (recvGathered cfg ker (chunkOf cfg localSeqLens rank batch key))] :=
        (if_neg hskip).trans (if_pos hW)
      simp [hops, hskip]
      omega

/-- Ranks with equally many gathers skip the same chunks, since a later rank skips every
chunk an earlier one skips. -/
theorem noEmptyShard_of_traces (hlocal : CountsShares cfg.dcp localSeqLens) (ker : Kernels α)
    (h : ∀ r r' : Fin cfg.dcp.worldSize, trace (branchOps cfg localSeqLens ker batch r) =
      trace (branchOps cfg localSeqLens ker batch r')) : NoEmptyShard cfg batch := by
  intro q hq hquery
  rcases Nat.eq_zero_or_pos (compressedSeqLen cfg q) with hz | hkeys
  · exact .inl hz
  refine .inr ?_
  rcases Nat.lt_or_ge 1 cfg.dcp.worldSize with hW | hW
  · have hlast : cfg.dcp.worldSize - 1 < cfg.dcp.worldSize := by omega
    have hlen := congrArg List.length (h ⟨0, cfg.dcp.world_pos⟩ ⟨_, hlast⟩)
    simp only [trace_length hW] at hlen
    have hsub : ((chunkKeys cfg batch).filter fun key =>
          ¬ Skips cfg localSeqLens batch (cfg.dcp.worldSize - 1) key).Sublist
        ((chunkKeys cfg batch).filter fun key => ¬ Skips cfg localSeqLens batch 0 key) := by
      refine List.monotone_filter_right _ fun key hkey => ?_
      simp only [decide_not, Bool.not_eq_true', decide_eq_false_iff_not] at hkey ⊢
      rw [skips_iff hlocal hW hlast] at hkey
      rw [skips_iff hlocal hW cfg.dcp.world_pos]
      omega
    have heq := hsub.eq_of_length hlen.symm
    obtain ⟨key, hkey, rfl⟩ := exists_chunkKey hq hquery hkeys
    have hmem : key ∈ (chunkKeys cfg batch).filter fun key =>
        ¬ Skips cfg localSeqLens batch 0 key := by
      refine List.mem_filter.mpr ⟨hkey, ?_⟩
      simp only [decide_not, Bool.not_eq_true', decide_eq_false_iff_not]
      rw [skips_iff hlocal hW cfg.dcp.world_pos]
      omega
    rw [← heq] at hmem
    have hgather := (List.mem_filter.mp hmem).2
    simp only [decide_not, Bool.not_eq_true', decide_eq_false_iff_not] at hgather
    rw [skips_iff hlocal hW hlast] at hgather
    omega
  · have hone : cfg.dcp.worldSize - 1 = 0 := by omega
    rw [hone, Nat.zero_mul]
    exact hkeys

/-- Under the condition the ranks skip a chunk all together or not at all. -/
theorem aligned_of_noEmptyShard (hlocal : CountsShares cfg.dcp localSeqLens)
    (h : NoEmptyShard cfg batch) {key : ChunkKey} (hkey : key ∈ chunkKeys cfg batch) :
    (∀ r : Fin cfg.dcp.worldSize, Skips cfg localSeqLens batch r key) ∨
      ∀ r : Fin cfg.dcp.worldSize, ¬ Skips cfg localSeqLens batch r key := by
  obtain ⟨hreq, hquery⟩ := req_of_mem_chunkKeys hkey
  rcases Nat.lt_or_ge 1 cfg.dcp.worldSize with hW | hW
  · rcases h key.req hreq hquery with hz | hlast
    · refine .inl fun r => ?_
      rw [skips_iff hlocal hW r.isLt]
      omega
    · refine .inr fun r => ?_
      rw [skips_iff hlocal hW r.isLt]
      have hle : (r : ℕ) * cfg.dcp.interleave ≤ (cfg.dcp.worldSize - 1) * cfg.dcp.interleave :=
        Nat.mul_le_mul_right _ (by omega)
      omega
  · by_cases hskip : Skips cfg localSeqLens batch 0 key
    · refine .inl fun r => ?_
      rwa [show (r : ℕ) = 0 by omega]
    · refine .inr fun r => ?_
      rwa [show (r : ℕ) = 0 by omega]

/-- The ranks' buffers agree. -/
def Agree {W : ℕ} (st : Fin W → TopkState α) : Prop :=
  ∀ r r' row, (st r).topkIndices row = (st r').topkIndices row

theorem writeRows_congr {chunk chunk' : PrefillChunk} (hstart : chunk.tokenStart = chunk'.tokenStart)
    (hend : chunk.tokenEnd = chunk'.tokenEnd) {f f' indices indices' : ℕ → List ℤ} {row : ℕ}
    (hf : chunk.tokenStart ≤ row → row < chunk.tokenEnd →
      f (row - chunk.tokenStart) = f' (row - chunk'.tokenStart))
    (hout : ¬ (chunk.tokenStart ≤ row ∧ row < chunk.tokenEnd) → indices row = indices' row) :
    writeRows chunk f indices row = writeRows chunk' f' indices' row := by
  unfold writeRows
  rw [← hstart, ← hend] at *
  by_cases hin : chunk.tokenStart ≤ row ∧ row < chunk.tokenEnd
  · rw [if_pos hin, if_pos hin]
    exact hf hin.1 hin.2
  · rw [if_neg hin, if_neg hin]
    exact hout hin

theorem agree_fillEmpty {st : Fin cfg.dcp.worldSize → TopkState α} (hst : Agree st) (key : ChunkKey) :
    Agree fun r => fillEmpty cfg (chunkOf cfg localSeqLens r batch key) (st r) := by
  intro r r' row
  dsimp only [fillEmpty]
  exact writeRows_congr rfl rfl (fun _ _ => rfl) fun _ => hst r r' row

/-- A gather overwrites the rows in which the local top-k made the ranks differ. -/
theorem agree_recvGathered (ker : Kernels α) {st : Fin cfg.dcp.worldSize → TopkState α}
    (hst : Agree st) (key : ChunkKey)
    (gathered : Fin cfg.dcp.worldSize → List (List (Candidate α))) :
    Agree fun r => recvGathered cfg ker (chunkOf cfg localSeqLens r batch key) gathered
      (runLocalTopk ker r (chunkOf cfg localSeqLens r batch key) (st r)) := by
  intro r r' row
  dsimp only [recvGathered]
  refine writeRows_congr rfl rfl (fun _ _ => rfl) fun hout => ?_
  have hkeep : ∀ i : Fin cfg.dcp.worldSize,
      (runLocalTopk ker i (chunkOf cfg localSeqLens i batch key) (st i)).topkIndices row =
        (st i).topkIndices row := fun i => if_neg hout
  rw [hkeep, hkeep]
  exact hst r r' row

variable (localSeqLens) in
/-- Ranks that skip together complete with buffers that agree. -/
theorem completes_of_aligned (ker : Kernels α) (keys : List ChunkKey)
    (haligned : ∀ key ∈ keys,
      (∀ r : Fin cfg.dcp.worldSize, Skips cfg localSeqLens batch r key) ∨
        ∀ r : Fin cfg.dcp.worldSize, ¬ Skips cfg localSeqLens batch r key)
    (st : Fin cfg.dcp.worldSize → TopkState α) (hst : Agree st) :
    ∃ final, Completes ⟨fun r : Fin cfg.dcp.worldSize => keys.flatMap fun key =>
      chunkOps cfg ker r (chunkOf cfg localSeqLens r batch key), st⟩ final ∧ Agree final := by
  induction keys generalizing st with
  | nil => exact ⟨st, .done fun _ => rfl, hst⟩
  | cons key keys ih =>
    have ih := ih fun k hk => haligned k (List.mem_cons_of_mem _ hk)
    rcases haligned key List.mem_cons_self with hskip | hrun
    · obtain ⟨final, hfinal, hagree⟩ := ih _ (agree_fillEmpty hst key)
      refine ⟨final, .computes (fun r => ?_) hfinal, hagree⟩
      rw [List.flatMap_cons]
      exact congrArg (· ++ _) (if_pos (hskip r))
    rcases Nat.lt_or_ge 1 cfg.dcp.worldSize with hW | hW
    · obtain ⟨final, hfinal, hagree⟩ := ih _ (agree_recvGathered ker hst key fun r =>
        sendPacked cfg.dcp r (chunkOf cfg localSeqLens r batch key)
          (runLocalTopk ker r (chunkOf cfg localSeqLens r batch key) (st r)))
      have hmeet : Completes ⟨fun r : Fin cfg.dcp.worldSize =>
          (.gather (queryStartLoc batch key.reqIdx + key.slice.2 -
              (queryStartLoc batch key.reqIdx + key.slice.1), cfg.topkTokens, 2)
            (sendPacked cfg.dcp r (chunkOf cfg localSeqLens r batch key))
            (recvGathered cfg ker (chunkOf cfg localSeqLens r batch key)) : BranchOp cfg α) ::
          keys.flatMap fun key => chunkOps cfg ker r (chunkOf cfg localSeqLens r batch key),
          fun r => runLocalTopk ker r (chunkOf cfg localSeqLens r batch key) (st r)⟩ final :=
        .gathers (fun _ => rfl) hfinal
      refine ⟨final, .computes (fun r => ?_) hmeet, hagree⟩
      rw [List.flatMap_cons]
      exact congrArg (· ++ _) ((if_neg (hrun r)).trans (if_pos hW))
    · obtain ⟨final, hfinal, hagree⟩ := ih
        (fun r => runLocalTopk ker r (chunkOf cfg localSeqLens r batch key) (st r))
        (fun r r' row => by rw [show r = r' by ext; omega])
      refine ⟨final, .computes (fun r => ?_) hfinal, hagree⟩
      rw [List.flatMap_cons]
      exact congrArg (· ++ _) ((if_neg (hrun r)).trans (if_neg (by omega)))

end

/-- The ranks agree on their gathers and on the merged ids exactly when no prefill request
leaves a rank without keys while another has some. -/
theorem collectives_agree_iff (cfg : IndexerConfig) (localSeqLens : DcpLocalSeqLens)
    (ker : Kernels α) (batch : IndexerBatch) (hlocal : CountsShares cfg.dcp localSeqLens) :
    CollectivesAgree cfg localSeqLens ker batch ↔ NoEmptyShard cfg batch := by
  constructor
  · intro h
    exact noEmptyShard_of_traces hlocal ker h.1
  · intro h
    have hrank : Nonempty (Fin cfg.dcp.worldSize) := ⟨⟨0, cfg.dcp.world_pos⟩⟩
    obtain ⟨final, hfinal, hagree⟩ := completes_of_aligned localSeqLens ker
      (chunkKeys cfg batch) (fun key hkey => aligned_of_noEmptyShard hlocal h hkey)
      (fun _ => { topkIndices := fun _ => List.replicate cfg.topkTokens (-1),
                  topkScores := fun _ => [] })
      (fun _ _ _ => rfl)
    have hcomplete : Completes (prefillGroup cfg localSeqLens ker batch) final := by
      simpa only [prefillGroup, branchOps_eq] using hfinal
    refine ⟨traces_agree_of_completes hcomplete, ⟨final, hcomplete⟩, fun other hother => ?_⟩
    rw [completes_unique hother hcomplete]
    exact hagree

/-- One prefill request in a batch without decodes. -/
def onePrefill (queryLen : ℕ) : IndexerBatch where
  reqs := [⟨queryLen, queryLen, queryLen, Nat.le_refl _, Nat.le_refl _⟩]
  numDecodes := 0

def smallConfig (worldSize : ℕ) (h : 0 < worldSize) : IndexerConfig where
  dcp := ⟨worldSize, 1, h, Nat.one_pos⟩
  compressRatio := 1
  topkTokens := 2
  maxPrefillBufferSize := 65536
  maxLogitsBytes := 1048576
  ratio_pos := Nat.one_pos

/-- A five-token prompt on four ranks gives every rank a key. -/
theorem collectives_agree_five :
    CollectivesAgree (smallConfig 4 (by decide)) (localLen 4 1)
      ⟨fun _ _ _ _ => [(0, -1), (0, -1)], fun _ _ => [-1, -1]⟩ (onePrefill 5) := by
  refine (collectives_agree_iff _ _ _ _ fun _ _ _ => rfl).mpr fun q hq _ => ?_
  obtain rfl := List.mem_singleton.mp hq
  decide

/-- A two-token prompt on four ranks leaves two of them out of the gather. -/
theorem collectives_disagree :
    ¬ ∀ (cfg : IndexerConfig) (localSeqLens : DcpLocalSeqLens) (ker : Kernels ℕ)
      (batch : IndexerBatch), CountsShares cfg.dcp localSeqLens →
      CollectivesAgree cfg localSeqLens ker batch := by
  intro h
  have hlocal : CountsShares (smallConfig 4 (by decide)).dcp (localLen 4 1) := fun _ _ _ => rfl
  have hagree := h _ _ ⟨fun _ _ _ _ => [(0, -1), (0, -1)], fun _ _ => [-1, -1]⟩ (onePrefill 2) hlocal
  have hshard := noEmptyShard_of_traces hlocal _ hagree.1 _ (List.mem_singleton.mpr rfl) (by decide)
  exact absurd hshard (by decide)

end SparkKit.Dcp.PrefillBranch
