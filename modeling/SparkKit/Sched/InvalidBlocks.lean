import SparkKit.Sched.Output
import SparkKit.Sched.Schedule

/-!
# Blocks whose load failed

The scan looks through the computed blocks of some requests for blocks whose external load
failed, and cuts each request back to its longest valid part. A block that several of them
share is computed again by one, and the others go on counting it as computed.
-/
namespace SparkKit.Sched.InvalidBlocks

open SparkKit.Sched.Requests SparkKit.Sched.StepState SparkKit.Sched.Schedule

/-- What `_update_requests_with_invalid_blocks` reads besides the requests. -/
structure FailedLoad where
  blockIds : ReqId → List ℕ
  invalidBlockIds : List ℕ
  numScheduledTokens : ReqDict ℤ

/-- The loop over one request's blocks. -/
structure RequestScan where
  numComputedTokens : ℤ
  isAffected : Bool
  markedInvalidBlock : Bool
  markedInvalidBlockIds : List ℕ
  totalAffectedTokens : ℤ
  blocksToEvict : List ℕ

/-- The loop over the requests. -/
structure BlockScan where
  sched : Scheduler
  markedInvalidBlockIds : List ℕ
  affectedReqIds : List ReqId
  totalAffectedTokens : ℤ
  blocksToEvict : List ℕ

/-- `req_num_computed_tokens`, the tokens computed before the step. -/
def reqNumComputedTokens (load : FailedLoad) (s : Scheduler) (id : ReqId) : ℤ :=
  (s.requests id).numComputedTokens - (load.numScheduledTokens.lookup id).getD 0

/-- The blocks that may hold externally computed tokens, with their places. -/
def computedBlocks (cfg : SchedulerConfig) (load : FailedLoad) (s : Scheduler) (id : ReqId) :
    List (ℕ × ℕ) :=
  let numBlocks := (reqNumComputedTokens load s id + cfg.blockSize - 1).fdiv cfg.blockSize
  (List.range numBlocks.toNat).zip (load.blockIds id)

def scanBlock (cfg : SchedulerConfig) (load : FailedLoad) (evictBlocks : Bool)
    (reqBlockIds : List ℕ) (reqNumComputed : ℤ) (scan : RequestScan) (entry : ℕ × ℕ) :
    RequestScan :=
  let (idx, blockId) := entry
  if blockId ∉ load.invalidBlockIds then scan
  else if blockId ∈ scan.markedInvalidBlockIds then { scan with isAffected := true }
  else
    let marked := { scan with
      isAffected := true
      markedInvalidBlockIds := blockId :: scan.markedInvalidBlockIds }
    if scan.markedInvalidBlock = true then marked
    else
      { marked with
        markedInvalidBlock := true
        numComputedTokens := idx * cfg.blockSize
        totalAffectedTokens := scan.totalAffectedTokens + (reqNumComputed - idx * cfg.blockSize)
        blocksToEvict :=
          if evictBlocks = true then scan.blocksToEvict ++ reqBlockIds.drop idx
          else scan.blocksToEvict }

def scanRequest (cfg : SchedulerConfig) (load : FailedLoad) (evictBlocks : Bool)
    (scan : BlockScan) (id : ReqId) : BlockScan :=
  let r := scan.sched.requests id
  let reqNumComputed := reqNumComputedTokens load scan.sched id
  let blocks := (computedBlocks cfg load scan.sched id).foldl
    (scanBlock cfg load evictBlocks (load.blockIds id) reqNumComputed)
    ⟨r.numComputedTokens, false, false, scan.markedInvalidBlockIds, scan.totalAffectedTokens,
      scan.blocksToEvict⟩
  if blocks.isAffected = false then scan
  else
    -- all its invalid blocks are shared with earlier requests: only cached tokens count
    let reverted := blocks.markedInvalidBlock = false
    { sched := scan.sched.setRequest id { r with
        numComputedTokens := if reverted then reqNumComputed else blocks.numComputedTokens }
      markedInvalidBlockIds := blocks.markedInvalidBlockIds
      affectedReqIds := scan.affectedReqIds ++ [id]
      totalAffectedTokens :=
        if reverted then
          blocks.totalAffectedTokens + (blocks.numComputedTokens - reqNumComputed)
        else blocks.totalAffectedTokens
      blocksToEvict := blocks.blocksToEvict }

/-- `_update_requests_with_invalid_blocks` -/
def updateRequestsWithInvalidBlocks (cfg : SchedulerConfig) (load : FailedLoad)
    (evictBlocks : Bool) (ids : List ReqId) (s : Scheduler) : BlockScan :=
  ids.foldl (scanRequest cfg load evictBlocks) ⟨s, [], [], 0, []⟩

/-- `_handle_invalid_blocks`: the requests whose output is skipped. -/
def handleInvalidBlocks (cfg : SchedulerConfig) (recomputeKvLoadFailures : Bool)
    (load : FailedLoad) (s : Scheduler) : Scheduler × List ReqId :=
  let asyncLoads := s.skippedWaiting.filter fun id =>
    (s.requests id).status = .waitingForRemoteKvs
  let async := updateRequestsWithInvalidBlocks cfg load false asyncLoads s
  let sync := updateRequestsWithInvalidBlocks cfg load true async.sched.running async.sched
  if async.affectedReqIds = [] ∧ sync.affectedReqIds = [] then (sync.sched, [])
  else if recomputeKvLoadFailures = false then
    (sync.sched, async.affectedReqIds ++ sync.affectedReqIds)
  else
    ({ sync.sched with
      failedRecvingKvReqIds :=
        sync.sched.failedRecvingKvReqIds ++ async.affectedReqIds.filter (· ∉ sync.sched.failedRecvingKvReqIds) },
      sync.affectedReqIds)

/-! ## One request -/

section
variable {cfg : SchedulerConfig} {load : FailedLoad} {evictBlocks : Bool} {reqBlockIds : List ℕ}
  {reqNumComputed : ℤ}

/-- What the loop over some blocks has found, `start` being the scan before it. -/
structure Scanned (cfg : SchedulerConfig) (load : FailedLoad) (start : RequestScan)
    (blocks : List (ℕ × ℕ)) (scan : RequestScan) : Prop where
  affected : scan.isAffected = true ↔ ∃ entry ∈ blocks, entry.2 ∈ load.invalidBlockIds
  marked : ∀ b, b ∈ scan.markedInvalidBlockIds ↔ b ∈ start.markedInvalidBlockIds ∨
    b ∈ load.invalidBlockIds ∧ ∃ j, (j, b) ∈ blocks
  kept : scan.markedInvalidBlock = false → scan.numComputedTokens = start.numComputedTokens ∧
    ∀ j b, (j, b) ∈ blocks → b ∈ load.invalidBlockIds → b ∈ start.markedInvalidBlockIds
  cut : scan.markedInvalidBlock = true → ∃ i b, (i, b) ∈ blocks ∧
    scan.numComputedTokens = i * cfg.blockSize ∧
    ∀ j b, (j, b) ∈ blocks → b ∈ load.invalidBlockIds → b ∉ start.markedInvalidBlockIds → i ≤ j

theorem scanned_nil {start : RequestScan} (haffected : start.isAffected = false)
    (hmarked : start.markedInvalidBlock = false) : Scanned cfg load start [] start := by
  refine ⟨?_, fun b => ?_, fun _ => ⟨rfl, nofun⟩, fun h => ?_⟩
  · rw [haffected]
    exact ⟨nofun, fun ⟨_, hmem, _⟩ => absurd hmem List.not_mem_nil⟩
  · exact ⟨.inl, fun h => h.elim id fun ⟨_, _, hmem⟩ => absurd hmem List.not_mem_nil⟩
  · rw [hmarked] at h
    cases h

theorem mem_concat {blocks : List (ℕ × ℕ)} {idx blockId j b : ℕ} :
    (j, b) ∈ blocks ++ [(idx, blockId)] ↔ (j, b) ∈ blocks ∨ j = idx ∧ b = blockId := by
  rw [List.mem_append, List.mem_singleton, Prod.mk.injEq]

section
variable {start scan : RequestScan} {blocks : List (ℕ × ℕ)} {idx blockId : ℕ}

/-- A block that loaded well changes nothing. -/
theorem Scanned.concat_valid (h : Scanned cfg load start blocks scan)
    (hvalid : blockId ∉ load.invalidBlockIds) :
    Scanned cfg load start (blocks ++ [(idx, blockId)]) scan := by
  have hold : ∀ j b, (j, b) ∈ blocks ++ [(idx, blockId)] → b ∈ load.invalidBlockIds →
      (j, b) ∈ blocks := by
    intro j b hjb hb
    rcases mem_concat.mp hjb with hjb | ⟨-, rfl⟩
    · exact hjb
    · exact absurd hb hvalid
  constructor
  case affected =>
    rw [h.affected]
    constructor
    · rintro ⟨entry, hentry, hb⟩
      exact ⟨entry, List.mem_append_left _ hentry, hb⟩
    · rintro ⟨⟨j, b⟩, hentry, hb⟩
      exact ⟨(j, b), hold j b hentry hb, hb⟩
  case marked =>
    intro b
    rw [h.marked]
    refine or_congr_right (and_congr_right fun hb => ⟨fun ⟨j, hj⟩ => ?_, fun ⟨j, hj⟩ => ?_⟩)
    · exact ⟨j, mem_concat.mpr (.inl hj)⟩
    · exact ⟨j, hold j b hj hb⟩
  case kept =>
    intro hkept
    obtain ⟨hcomputed, hshared⟩ := h.kept hkept
    exact ⟨hcomputed, fun j b hjb hb => hshared j b (hold j b hjb hb) hb⟩
  case cut =>
    intro hcut
    obtain ⟨i, b, hib, hcomputed, hfirst⟩ := h.cut hcut
    exact ⟨i, b, mem_concat.mpr (.inl hib), hcomputed,
      fun j b hjb hb => hfirst j b (hold j b hjb hb) hb⟩

theorem affected_concat {computed : ℤ} {marked : Bool} {ids : List ℕ} {total : ℤ} {evict : List ℕ}
    (hinvalid : blockId ∈ load.invalidBlockIds) :
    (⟨computed, true, marked, ids, total, evict⟩ : RequestScan).isAffected = true ↔
      ∃ entry ∈ blocks ++ [(idx, blockId)], entry.2 ∈ load.invalidBlockIds :=
  ⟨fun _ => ⟨(idx, blockId), mem_concat.mpr (.inr ⟨rfl, rfl⟩), hinvalid⟩, fun _ => rfl⟩

/-- The first cut stands: no new place is before it. -/
theorem Scanned.cut_concat (h : Scanned cfg load start blocks scan)
    (hlast : ∀ entry ∈ blocks, entry.1 ≤ idx) (hcut : scan.markedInvalidBlock = true) :
    ∃ i b, (i, b) ∈ blocks ++ [(idx, blockId)] ∧ scan.numComputedTokens = i * cfg.blockSize ∧
      ∀ j c, (j, c) ∈ blocks ++ [(idx, blockId)] → c ∈ load.invalidBlockIds →
        c ∉ start.markedInvalidBlockIds → i ≤ j := by
  obtain ⟨i, b, hib, hcomputed, hfirst⟩ := h.cut hcut
  refine ⟨i, b, mem_concat.mpr (.inl hib), hcomputed, ?_⟩
  intro j c hjc hc hnew
  rcases mem_concat.mp hjc with hjc | ⟨rfl, rfl⟩
  · exact hfirst j c hjc hc hnew
  · exact hlast _ hib

/-- A block marked by an earlier request, or by an earlier block of this one. -/
theorem Scanned.concat_shared (h : Scanned cfg load start blocks scan)
    (hlast : ∀ entry ∈ blocks, entry.1 ≤ idx) (hinvalid : blockId ∈ load.invalidBlockIds)
    (hshared : blockId ∈ scan.markedInvalidBlockIds) :
    Scanned cfg load start (blocks ++ [(idx, blockId)]) { scan with isAffected := true } := by
  have hcases := (h.marked blockId).mp hshared
  refine ⟨affected_concat hinvalid, ?_, ?_, fun hcut => h.cut_concat hlast hcut⟩
  · intro b
    show b ∈ scan.markedInvalidBlockIds ↔ _
    rw [h.marked]
    constructor
    · exact fun hor => hor.imp_right fun ⟨hb, j, hj⟩ => ⟨hb, j, mem_concat.mpr (.inl hj)⟩
    · rintro (hb | ⟨hb, j, hj⟩)
      · exact .inl hb
      · rcases mem_concat.mp hj with hj | ⟨-, rfl⟩
        · exact .inr ⟨hb, j, hj⟩
        · exact hcases
  · intro hkept
    obtain ⟨hcomputed, hall⟩ := h.kept hkept
    refine ⟨hcomputed, ?_⟩
    intro j b hjb hb
    rcases mem_concat.mp hjb with hjb | ⟨-, rfl⟩
    · exact hall j b hjb hb
    · exact hcases.elim id fun ⟨_, i, hi⟩ => hall i b hi hb

theorem Scanned.marked_concat (h : Scanned cfg load start blocks scan)
    (hinvalid : blockId ∈ load.invalidBlockIds) (b : ℕ) :
    b ∈ blockId :: scan.markedInvalidBlockIds ↔ b ∈ start.markedInvalidBlockIds ∨
      b ∈ load.invalidBlockIds ∧ ∃ j, (j, b) ∈ blocks ++ [(idx, blockId)] := by
  rw [List.mem_cons, h.marked]
  constructor
  · rintro (rfl | hb | ⟨hb, j, hj⟩)
    · exact .inr ⟨hinvalid, idx, mem_concat.mpr (.inr ⟨rfl, rfl⟩)⟩
    · exact .inl hb
    · exact .inr ⟨hb, j, mem_concat.mpr (.inl hj)⟩
  · rintro (hb | ⟨hb, j, hj⟩)
    · exact .inr (.inl hb)
    · rcases mem_concat.mp hj with hj | ⟨-, rfl⟩
      · exact .inr (.inr ⟨hb, j, hj⟩)
      · exact .inl rfl

/-- One more block, whose place is not before the others'. -/
theorem Scanned.concat (h : Scanned cfg load start blocks scan)
    (hlast : ∀ entry ∈ blocks, entry.1 ≤ idx) :
    Scanned cfg load start (blocks ++ [(idx, blockId)])
      (scanBlock cfg load evictBlocks reqBlockIds reqNumComputed scan (idx, blockId)) := by
  rw [scanBlock]
  dsimp only
  by_cases hvalid : blockId ∉ load.invalidBlockIds
  · rw [if_pos hvalid]
    exact h.concat_valid hvalid
  have hinvalid : blockId ∈ load.invalidBlockIds := not_not.mp hvalid
  rw [if_neg hvalid]
  by_cases hshared : blockId ∈ scan.markedInvalidBlockIds
  · rw [if_pos hshared]
    exact h.concat_shared hlast hinvalid hshared
  rw [if_neg hshared]
  by_cases hcut : scan.markedInvalidBlock = true
  · rw [if_pos hcut]
    refine ⟨affected_concat hinvalid, h.marked_concat hinvalid, ?_, fun _ => h.cut_concat hlast hcut⟩
    intro hkept
    have hkept : scan.markedInvalidBlock = false := hkept
    rw [hcut] at hkept
    cases hkept
  · have hkept := (h.kept (Bool.eq_false_iff.mpr hcut)).2
    rw [if_neg hcut]
    refine ⟨affected_concat hinvalid, h.marked_concat hinvalid, fun hfalse => ?_, fun _ => ?_⟩
    · cases hfalse
    refine ⟨idx, blockId, mem_concat.mpr (.inr ⟨rfl, rfl⟩), rfl, ?_⟩
    intro j c hjc hc hfresh
    rcases mem_concat.mp hjc with hjc | ⟨rfl, -⟩
    · exact absurd (hkept j c hjc hc) hfresh
    · exact Nat.le_refl _

end

/-- The whole loop over blocks in order of their places. -/
theorem scanned_foldl (cfg : SchedulerConfig) (load : FailedLoad) (evictBlocks : Bool)
    (reqBlockIds : List ℕ) (reqNumComputed : ℤ) (start : RequestScan)
    (haffected : start.isAffected = false)
    (hmarked : start.markedInvalidBlock = false) {blocks : List (ℕ × ℕ)}
    (hsorted : blocks.Pairwise fun x y => x.1 ≤ y.1) :
    Scanned cfg load start blocks
      (blocks.foldl (scanBlock cfg load evictBlocks reqBlockIds reqNumComputed) start) := by
  induction blocks using List.reverseRecOn with
  | nil => exact scanned_nil haffected hmarked
  | append_singleton blocks entry ih =>
    obtain ⟨hsorted, -, hlast⟩ := List.pairwise_append.mp hsorted
    rw [List.foldl_append, List.foldl_cons, List.foldl_nil]
    exact (ih hsorted).concat fun e he => hlast e he entry (List.mem_singleton.mpr rfl)

/-! ## All requests -/

/-- The request refers to a failed block among its computed ones, at the place `j`. -/
def Refers (cfg : SchedulerConfig) (load : FailedLoad) (s : Scheduler) (id : ReqId) (j b : ℕ) : Prop :=
  (j, b) ∈ computedBlocks cfg load s id ∧ b ∈ load.invalidBlockIds

theorem computedBlocks_sorted (cfg : SchedulerConfig) (load : FailedLoad) (s : Scheduler)
    (id : ReqId) : (computedBlocks cfg load s id).Pairwise fun x y => x.1 ≤ y.1 := by
  simp only [computedBlocks]
  generalize ((reqNumComputedTokens load s id + cfg.blockSize - 1).fdiv cfg.blockSize).toNat = n
  rw [List.pairwise_iff_getElem]
  intro i j hi hj hij
  rw [List.getElem_zip, List.getElem_zip, List.getElem_range, List.getElem_range]
  exact le_of_lt hij

/-- A block among the computed ones starts below the computed tokens. -/
theorem place_lt (hsize : 0 < cfg.blockSize) {s : Scheduler} {id : ReqId} {j b : ℕ}
    (h : (j, b) ∈ computedBlocks cfg load s id) :
    j * cfg.blockSize < reqNumComputedTokens load s id := by
  simp only [computedBlocks] at h
  have hlt := List.mem_range.mp (List.of_mem_zip h).1
  rw [Int.fdiv_eq_ediv_of_nonneg _ (le_of_lt hsize)] at hlt
  have hle : (j : ℤ) + 1 ≤ (reqNumComputedTokens load s id + cfg.blockSize - 1) / cfg.blockSize := by
    omega
  have hmul := (Int.le_ediv_iff_mul_le hsize).mp hle
  rw [Int.add_mul, Int.one_mul] at hmul
  omega

/-- What scanning one request does to it. -/
structure Truncates (cfg : SchedulerConfig) (load : FailedLoad) (scan scan' : BlockScan)
    (id : ReqId) : Prop where
  requests : ∃ computed, scan'.sched = scan.sched.setRequest id
    { scan.sched.requests id with numComputedTokens := computed }
  marked : ∀ b, b ∈ scan'.markedInvalidBlockIds ↔
    b ∈ scan.markedInvalidBlockIds ∨ ∃ j, Refers cfg load scan.sched id j b
  affected : (∃ j b, Refers cfg load scan.sched id j b) →
    scan'.affectedReqIds = scan.affectedReqIds ++ [id] ∧
      (scan'.sched.requests id).numComputedTokens ≤ reqNumComputedTokens load scan.sched id
  unaffected : (∀ j b, ¬Refers cfg load scan.sched id j b) → scan' = scan
  cut : ∀ j b, Refers cfg load scan.sched id j b → b ∉ scan.markedInvalidBlockIds →
    (scan'.sched.requests id).numComputedTokens ≤ j * cfg.blockSize

theorem scanRequest_truncates (hsize : 0 < cfg.blockSize) (scan : BlockScan) (id : ReqId) :
    Truncates cfg load scan (scanRequest cfg load evictBlocks scan id) id := by
  have h := scanned_foldl cfg load evictBlocks (load.blockIds id)
    (reqNumComputedTokens load scan.sched id) ⟨(scan.sched.requests id).numComputedTokens, false, false,
      scan.markedInvalidBlockIds, scan.totalAffectedTokens, scan.blocksToEvict⟩ rfl rfl
    (computedBlocks_sorted cfg load scan.sched id)
  rw [scanRequest]
  dsimp only
  generalize (computedBlocks cfg load scan.sched id).foldl _ _ = blocks at h ⊢
  have hrefers : blocks.isAffected = true ↔ ∃ j b, Refers cfg load scan.sched id j b := by
    rw [h.affected]
    exact ⟨fun ⟨entry, hmem, hb⟩ => ⟨entry.1, entry.2, hmem, hb⟩, fun ⟨j, b, hmem, hb⟩ => ⟨(j, b), hmem, hb⟩⟩
  have hmarked : ∀ b, b ∈ blocks.markedInvalidBlockIds ↔
      b ∈ scan.markedInvalidBlockIds ∨ ∃ j, Refers cfg load scan.sched id j b := by
    intro b
    rw [h.marked]
    exact or_congr_right ⟨fun ⟨hb, j, hj⟩ => ⟨j, hj, hb⟩, fun ⟨j, hj, hb⟩ => ⟨hb, j, hj⟩⟩
  by_cases haffected : blocks.isAffected = false
  · have hnone : ∀ j b, ¬Refers cfg load scan.sched id j b := by
      intro j b hjb
      rw [hrefers.mpr ⟨j, b, hjb⟩] at haffected
      cases haffected
    rw [if_pos haffected]
    refine ⟨⟨(scan.sched.requests id).numComputedTokens, ?_⟩, fun b => ?_, ?_, fun _ => rfl, ?_⟩
    · rw [Scheduler.setRequest, Function.update_eq_self]
    · exact ⟨.inl, fun hor => hor.elim (fun hb => hb) fun ⟨j, hj⟩ => absurd hj (hnone j b)⟩
    · exact fun ⟨j, b, hjb⟩ => absurd hjb (hnone j b)
    · exact fun j b hjb => absurd hjb (hnone j b)
  · have hsome := hrefers.mp (Bool.eq_true_of_not_eq_false haffected)
    rw [if_neg haffected]
    have hrequest : ∀ computed, ((scan.sched.setRequest id
        { scan.sched.requests id with numComputedTokens := computed }).requests id).numComputedTokens =
          computed := by
      intro computed
      rw [setRequest_self]
    refine ⟨⟨_, rfl⟩, hmarked, fun _ => ⟨rfl, ?_⟩, fun hnone => ?_, fun j b hjb hnew => ?_⟩
    · dsimp only
      rw [hrequest]
      split
      · exact le_refl _
      · rename_i hcut
        obtain ⟨i, b, hib, hcomputed, -⟩ := h.cut (Bool.eq_true_of_not_eq_false hcut)
        rw [hcomputed]
        exact le_of_lt (place_lt hsize hib)
    · obtain ⟨j, b, hjb⟩ := hsome
      exact absurd hjb (hnone j b)
    · dsimp only
      rw [hrequest]
      split
      · rename_i hkept
        exact absurd ((h.kept hkept).2 j b hjb.1 hjb.2) hnew
      · rename_i hcut
        obtain ⟨i, c, -, hcomputed, hfirst⟩ := h.cut (Bool.eq_true_of_not_eq_false hcut)
        have hle : (i : ℤ) ≤ j := Int.ofNat_le.mpr (hfirst j b hjb.1 hjb.2 hnew)
        rw [hcomputed]
        exact Int.mul_le_mul_of_nonneg_right hle (le_of_lt hsize)

theorem Truncates.others {scan scan' : BlockScan} {id x : ReqId}
    (h : Truncates cfg load scan scan' id) (hx : x ≠ id) :
    scan'.sched.requests x = scan.sched.requests x := by
  obtain ⟨computed, heq⟩ := h.requests
  rw [heq, setRequest_of_ne _ _ hx]

theorem refers_congr {s s' : Scheduler} {id : ReqId} (h : s'.requests id = s.requests id) (j b : ℕ) :
    Refers cfg load s' id j b ↔ Refers cfg load s id j b := by
  rw [Refers, Refers, computedBlocks, computedBlocks, reqNumComputedTokens, reqNumComputedTokens, h]

/-- What the scan of some requests leaves: a marked block is cut off from one of them, and each
failed block a request refers to is cut off from it or from one before it. -/
structure Settled (cfg : SchedulerConfig) (load : FailedLoad) (s : Scheduler) (ids : List ReqId)
    (scan : BlockScan) : Prop where
  marked : ∀ b ∈ scan.markedInvalidBlockIds, ∃ q ∈ ids, ∃ j, Refers cfg load s q j b ∧
    (scan.sched.requests q).numComputedTokens ≤ j * cfg.blockSize
  recomputed : ∀ before id after, ids = before ++ id :: after → ∀ j b, Refers cfg load s id j b →
    (scan.sched.requests id).numComputedTokens ≤ j * cfg.blockSize ∨
      ∃ q ∈ before, ∃ i, Refers cfg load s q i b ∧
        (scan.sched.requests q).numComputedTokens ≤ i * cfg.blockSize
  affected : ∀ id, id ∈ scan.affectedReqIds ↔ id ∈ ids ∧ ∃ j b, Refers cfg load s id j b
  shorter : ∀ id ∈ scan.affectedReqIds,
    (scan.sched.requests id).numComputedTokens ≤ reqNumComputedTokens load s id
  unaffected : ∀ id ∉ scan.affectedReqIds, scan.sched.requests id = s.requests id
  kept : ∀ id, ∃ computed,
    scan.sched.requests id = { s.requests id with numComputedTokens := computed }
  frame : scan.sched = { s with requests := scan.sched.requests }

theorem settled_nil (s : Scheduler) : Settled cfg load s [] ⟨s, [], [], 0, []⟩ := by
  refine ⟨nofun, fun before id after heq => ?_, fun id => ?_, nofun, fun _ _ => rfl,
    fun _ => ⟨_, rfl⟩, rfl⟩
  · exact absurd heq.symm (by simp)
  · exact ⟨nofun, fun h => absurd h.1 List.not_mem_nil⟩

/-- One more request. -/
theorem Settled.concat (hsize : 0 < cfg.blockSize) {s : Scheduler} {ids : List ReqId}
    {scan : BlockScan} {x : ReqId} (h : Settled cfg load s ids scan) (hx : x ∉ ids) :
    Settled cfg load s (ids ++ [x]) (scanRequest cfg load evictBlocks scan x) := by
  have htrunc : Truncates cfg load scan (scanRequest cfg load evictBlocks scan x) x :=
    scanRequest_truncates hsize scan x
  generalize scanRequest cfg load evictBlocks scan x = scan' at htrunc
  have hfresh : scan.sched.requests x = s.requests x :=
    h.unaffected x fun hmem => hx ((h.affected x).mp hmem).1
  have hrefers : ∀ j b, Refers cfg load scan.sched x j b ↔ Refers cfg load s x j b :=
    refers_congr hfresh
  have hreq : reqNumComputedTokens load scan.sched x = reqNumComputedTokens load s x := by
    rw [reqNumComputedTokens, reqNumComputedTokens, hfresh]
  have hothers : ∀ q ∈ ids, scan'.sched.requests q = scan.sched.requests q := fun q hq =>
    htrunc.others (ne_of_mem_of_not_mem hq hx)
  have hcut : ∀ b ∈ scan.markedInvalidBlockIds, ∃ q ∈ ids, ∃ j, Refers cfg load s q j b ∧
      (scan'.sched.requests q).numComputedTokens ≤ j * cfg.blockSize := by
    intro b hb
    obtain ⟨q, hq, j, hqj, hle⟩ := h.marked b hb
    exact ⟨q, hq, j, hqj, by rw [hothers q hq]; exact hle⟩
  have haffected : ∀ id, id ∈ scan'.affectedReqIds ↔
      id ∈ scan.affectedReqIds ∨ id = x ∧ ∃ j b, Refers cfg load s x j b := by
    intro id
    by_cases hsome : ∃ j b, Refers cfg load s x j b
    · obtain ⟨j, b, hjb⟩ := hsome
      rw [(htrunc.affected ⟨j, b, (hrefers j b).mpr hjb⟩).1, List.mem_append, List.mem_singleton]
      exact or_congr_right ⟨fun heq => ⟨heq, j, b, hjb⟩, fun heq => heq.1⟩
    · have hnone : ∀ j b, ¬Refers cfg load scan.sched x j b := fun j b hjb =>
        hsome ⟨j, b, (hrefers j b).mp hjb⟩
      rw [htrunc.unaffected hnone]
      exact ⟨.inl, fun hor => hor.elim (fun hid => hid) fun hid => absurd hid.2 hsome⟩
  refine ⟨fun b hb => ?_, fun before id after heq j b hjb => ?_, fun id => ?_, fun id hid => ?_,
    fun id hid => ?_, fun id => ?_, ?_⟩
  · by_cases hold : b ∈ scan.markedInvalidBlockIds
    · obtain ⟨q, hq, hrest⟩ := hcut b hold
      exact ⟨q, List.mem_append_left _ hq, hrest⟩
    · obtain ⟨j, hjb⟩ := ((htrunc.marked b).mp hb).resolve_left hold
      exact ⟨x, List.mem_append_right _ (List.mem_singleton.mpr rfl), j, (hrefers j b).mp hjb,
        htrunc.cut j b hjb hold⟩
  · rcases List.eq_nil_or_concat after with rfl | ⟨after, y, rfl⟩
    · obtain ⟨rfl, hid⟩ := List.append_inj' heq rfl
      obtain rfl : x = id := by simpa using hid
      have hjb' := (hrefers j b).mpr hjb
      by_cases hold : b ∈ scan.markedInvalidBlockIds
      · exact .inr (by
          obtain ⟨q, hq, i, hqi, hle⟩ := hcut b hold
          exact ⟨q, hq, i, hqi, hle⟩)
      · exact .inl (htrunc.cut j b hjb' hold)
    · have heq : ids ++ [x] = (before ++ id :: after) ++ [y] := by
        rw [heq]
        simp
      obtain ⟨rfl, -⟩ := List.append_inj' heq rfl
      have hid : id ∈ before ++ id :: after := by simp
      rcases h.recomputed before id after rfl j b hjb with hown | ⟨q, hq, i, hqi, hle⟩
      · left
        rw [hothers id hid]
        exact hown
      · exact .inr ⟨q, hq, i, hqi, by rw [hothers q (List.mem_append_left _ hq)]; exact hle⟩
  · rw [haffected, h.affected, List.mem_append, List.mem_singleton]
    constructor
    · rintro (⟨hid, hsome⟩ | ⟨rfl, hsome⟩)
      · exact ⟨.inl hid, hsome⟩
      · exact ⟨.inr rfl, hsome⟩
    · rintro ⟨hid | rfl, hsome⟩
      · exact .inl ⟨hid, hsome⟩
      · exact .inr ⟨rfl, hsome⟩
  · rcases (haffected id).mp hid with hid | ⟨rfl, j, b, hjb⟩
    · rw [hothers id ((h.affected id).mp hid).1]
      exact h.shorter id hid
    · have hle := (htrunc.affected ⟨j, b, (hrefers j b).mpr hjb⟩).2
      rw [hreq] at hle
      exact hle
  · rw [haffected, not_or] at hid
    by_cases heq : id = x
    · subst heq
      have hnone : ∀ j b, ¬Refers cfg load scan.sched id j b := fun j b hjb =>
        hid.2 ⟨rfl, j, b, (hrefers j b).mp hjb⟩
      rw [htrunc.unaffected hnone]
      exact hfresh
    · rw [htrunc.others heq]
      exact h.unaffected id hid.1
  · by_cases heq : id = x
    · subst heq
      obtain ⟨computed, hset⟩ := htrunc.requests
      rw [hset, setRequest_self, hfresh]
      exact ⟨computed, rfl⟩
    · rw [htrunc.others heq]
      exact h.kept id
  · obtain ⟨computed, hset⟩ := htrunc.requests
    rw [hset, h.frame]
    rfl

theorem updateRequests_settled (load : FailedLoad) (evictBlocks : Bool) (hsize : 0 < cfg.blockSize)
    {ids : List ReqId} (hnodup : ids.Nodup) (s : Scheduler) :
    Settled cfg load s ids (updateRequestsWithInvalidBlocks cfg load evictBlocks ids s) := by
  rw [updateRequestsWithInvalidBlocks]
  induction ids using List.reverseRecOn with
  | nil => exact settled_nil s
  | append_singleton ids x ih =>
    obtain ⟨hnodup, -, hdisjoint⟩ := List.nodup_append.mp hnodup
    rw [List.foldl_append, List.foldl_cons, List.foldl_nil]
    refine (ih hnodup).concat hsize fun hx => ?_
    exact hdisjoint x hx x (List.mem_singleton.mpr rfl) rfl

/-- What failed loads do to the scheduler: some requests count fewer tokens as computed. -/
structure Recomputes (s s' : Scheduler) : Prop where
  requests : ∀ id, ∃ computed ≤ (s.requests id).numComputedTokens,
    s'.requests id = { s.requests id with numComputedTokens := computed }
  running : s'.running = s.running
  waiting : s'.waiting = s.waiting
  skippedWaiting : s'.skippedWaiting = s.skippedWaiting
  active : s'.active = s.active
  streams : s'.numWaitingForStreamingInput = s.numWaitingForStreamingInput

theorem Settled.recomputes {s : Scheduler} {ids : List ReqId} {scan : BlockScan}
    (h : Settled cfg load s ids scan) (hbooked : ∀ id, 0 ≤ (load.numScheduledTokens.lookup id).getD 0) :
    Recomputes s scan.sched := by
  have hframe := h.frame
  refine ⟨fun id => ?_, by rw [hframe], by rw [hframe], by rw [hframe], by rw [hframe], by rw [hframe]⟩
  obtain ⟨computed, hkept⟩ := h.kept id
  by_cases hid : id ∈ scan.affectedReqIds
  · have hle := h.shorter id hid
    have hpos := hbooked id
    rw [hkept, reqNumComputedTokens] at hle
    dsimp only at hle
    exact ⟨computed, by omega, hkept⟩
  · exact ⟨_, le_refl _, h.unaffected id hid⟩

theorem Recomputes.trans {s s' s'' : Scheduler} (h : Recomputes s s') (h' : Recomputes s' s'') :
    Recomputes s s'' := by
  refine ⟨fun id => ?_, h'.running.trans h.running, h'.waiting.trans h.waiting,
    h'.skippedWaiting.trans h.skippedWaiting, h'.active.trans h.active, h'.streams.trans h.streams⟩
  obtain ⟨computed, hle, heq⟩ := h.requests id
  obtain ⟨computed', hle', heq'⟩ := h'.requests id
  rw [heq] at hle' heq'
  exact ⟨computed', hle'.trans hle, heq'⟩

/-- What the scan never touches, whatever the lists are. -/
structure Untouched (s s' : Scheduler) : Prop where
  status : ∀ id, (s'.requests id).status = (s.requests id).status
  running : s'.running = s.running
  waiting : s'.waiting = s.waiting
  skippedWaiting : s'.skippedWaiting = s.skippedWaiting
  active : s'.active = s.active

theorem Untouched.trans {s s' s'' : Scheduler} (h : Untouched s s') (h' : Untouched s' s'') :
    Untouched s s'' :=
  ⟨fun id => (h'.status id).trans (h.status id), h'.running.trans h.running,
    h'.waiting.trans h.waiting, h'.skippedWaiting.trans h.skippedWaiting, h'.active.trans h.active⟩

theorem foldl_scanRequest_untouched (hsize : 0 < cfg.blockSize) (ids : List ReqId) (scan : BlockScan) :
    Untouched scan.sched (ids.foldl (scanRequest cfg load evictBlocks) scan).sched := by
  induction ids generalizing scan with
  | nil => exact ⟨fun _ => rfl, rfl, rfl, rfl, rfl⟩
  | cons id ids ih =>
    rw [List.foldl_cons]
    refine Untouched.trans ?_ (ih _)
    have htrunc : Truncates cfg load scan (scanRequest cfg load evictBlocks scan id) id :=
      scanRequest_truncates hsize scan id
    obtain ⟨computed, hset⟩ := htrunc.requests
    rw [hset]
    refine ⟨fun x => ?_, rfl, rfl, rfl, rfl⟩
    by_cases hx : x = id
    · rw [hx, setRequest_self]
    · rw [setRequest_of_ne _ _ hx]

theorem updateRequests_untouched (load : FailedLoad) (evictBlocks : Bool) (hsize : 0 < cfg.blockSize)
    (ids : List ReqId) (s : Scheduler) :
    Untouched s (updateRequestsWithInvalidBlocks cfg load evictBlocks ids s).sched :=
  foldl_scanRequest_untouched hsize ids ⟨s, [], [], 0, []⟩

theorem handleInvalidBlocks_untouched (hsize : 0 < cfg.blockSize) (recompute : Bool) (s : Scheduler) :
    Untouched s (handleInvalidBlocks cfg recompute load s).1 := by
  rw [handleInvalidBlocks]
  dsimp only
  have hasync := updateRequests_untouched load false hsize
    (s.skippedWaiting.filter fun id => (s.requests id).status = .waitingForRemoteKvs) s
  generalize updateRequestsWithInvalidBlocks cfg load false _ s = async at hasync ⊢
  have hboth := hasync.trans (updateRequests_untouched load true hsize async.sched.running async.sched)
  split
  · exact hboth
  split
  · exact hboth
  · exact ⟨hboth.status, hboth.running, hboth.waiting, hboth.skippedWaiting, hboth.active⟩

theorem handleInvalidBlocks_recomputes (hsize : 0 < cfg.blockSize) {recompute : Bool} {s : Scheduler}
    (hrunning : s.running.Nodup) (hskipped : s.skippedWaiting.Nodup)
    (hbooked : ∀ id, 0 ≤ (load.numScheduledTokens.lookup id).getD 0) :
    Recomputes s (handleInvalidBlocks cfg recompute load s).1 := by
  have hasync := (updateRequests_settled load false hsize
    (hskipped.filter fun id => (s.requests id).status = .waitingForRemoteKvs) s).recomputes hbooked
  rw [handleInvalidBlocks]
  dsimp only
  generalize updateRequestsWithInvalidBlocks cfg load false _ s = async at hasync ⊢
  have hnodup : async.sched.running.Nodup := by
    rw [hasync.running]
    exact hrunning
  have hsync := (updateRequests_settled load true hsize hnodup async.sched).recomputes hbooked
  have hboth := hasync.trans hsync
  split
  · exact hboth
  split
  · exact hboth
  · exact ⟨hboth.requests, hboth.running, hboth.waiting, hboth.skippedWaiting, hboth.active,
      hboth.streams⟩

/-- The scan affects exactly the requests that count a failed block as computed. It cuts each back
to tokens computed before the step at most, leaves the others alone, and cuts every failed block
off from one of the requests that count it, which computes it again. -/
theorem failed_blocks_recomputed (hsize : 0 < cfg.blockSize) (load : FailedLoad) (evictBlocks : Bool)
    {ids : List ReqId} (hnodup : ids.Nodup) (s : Scheduler) :
    let scan := updateRequestsWithInvalidBlocks cfg load evictBlocks ids s
    (∀ id, id ∈ scan.affectedReqIds ↔ id ∈ ids ∧ ∃ j b, Refers cfg load s id j b) ∧
      (∀ id ∈ scan.affectedReqIds,
        (scan.sched.requests id).numComputedTokens ≤ reqNumComputedTokens load s id) ∧
      (∀ id ∉ scan.affectedReqIds, scan.sched.requests id = s.requests id) ∧
      ∀ id ∈ ids, ∀ j b, Refers cfg load s id j b → ∃ q ∈ ids, ∃ i, Refers cfg load s q i b ∧
        (scan.sched.requests q).numComputedTokens ≤ i * cfg.blockSize := by
  have h := updateRequests_settled load evictBlocks hsize hnodup s
  dsimp only
  refine ⟨h.affected, h.shorter, h.unaffected, fun id hid j b hjb => ?_⟩
  obtain ⟨before, after, rfl⟩ := List.append_of_mem hid
  rcases h.recomputed before id after rfl j b hjb with hown | ⟨q, hq, hrest⟩
  · exact ⟨id, hid, j, hjb, hown⟩
  · exact ⟨q, List.mem_append_left _ hq, hrest⟩

/-- Two requests with the same first block, whose load failed. -/
def sharedLoad : FailedLoad := ⟨fun _ => [5], [5], ∅⟩

def sharingScheduler : Scheduler := smallScheduler [smallRequest 0 1 9 4 [], smallRequest 1 1 9 4 []]

theorem failed_blocks_recomputed_shared :
    ∃ q ∈ [0, 1], ∃ i, Refers smallConfig sharedLoad sharingScheduler q i 5 ∧
      ((updateRequestsWithInvalidBlocks smallConfig sharedLoad true [0, 1]
        sharingScheduler).sched.requests q).numComputedTokens ≤ i * smallConfig.blockSize :=
  (failed_blocks_recomputed (by decide) sharedLoad true (by decide) sharingScheduler).2.2.2 1
    (by decide) 0 5 ⟨by decide, by decide⟩

end

end SparkKit.Sched.InvalidBlocks
