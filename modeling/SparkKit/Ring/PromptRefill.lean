import SparkKit.Ring.CacheTrim
import SparkKit.Ring.Ingest
import SparkKit.Ring.RowAgreement

/-!
# The ring at the first draft after a prompt

A request takes a state row, computes its prompt from the reported hit on in chunks of any
size, and drafts when the last one is done. The trim makes its chunks fill every slot below
its length; what the draft sees of the ring is decided by the mask row at its batch position.
-/
namespace SparkKit.Ring.PromptRefill

open SparkKit.Lib.RingWindow
open SparkKit.Ring.Inputs SparkKit.Ring.Mask SparkKit.Ring.RowAgreement SparkKit.Ring.Ingest
open SparkKit.Ring.CacheTrim

variable {Hash Block KV : Type*}

/-- What a step schedules for the request on a row whose prompt is computed so far. -/
structure IsChunk (row computed : ℕ) (q : BatchReq KV) : Prop where
  row_eq : q.row = row
  startPos_eq : q.startPos = computed
  seqLen_eq : q.seqLen = computed + q.kv.length
  numRejected_lt : q.numRejected < q.kv.length

/-- Steps since the request took its row, with none of its drafts yet: each computes a chunk
of the prompt or leaves the row alone. -/
inductive Prefills (row base : ℕ) : List (Batch KV) → ℕ → Prop
  | start : Prefills row base [] base
  | idle {steps : List (Batch KV)} {computed : ℕ} {batch : Batch KV}
      (before : Prefills row base steps computed) (hrow : ∀ q ∈ batch.reqs, q.row ≠ row) :
      Prefills row base (steps ++ [batch]) computed
  | chunk {steps : List (Batch KV)} {computed : ℕ} {batch : Batch KV} {q : BatchReq KV}
      (before : Prefills row base steps computed) (hq : q ∈ batch.reqs)
      (hchunk : IsChunk row computed q) (hrej : q.numRejected = 0) :
      Prefills row base (steps ++ [batch]) (computed + q.kv.length)

/-- The steps from a request's admission, with `base` of its `n` tokens reported as cached,
to the one that ends the prompt. A one-token prompt may be padded there with draft tokens,
which are rejected. -/
structure PromptRun (KV : Type*) (base n : ℕ) where
  row : ℕ
  earlier : List (Batch KV)
  computed : ℕ
  prefills : Prefills row base earlier computed
  last : Batch KV
  /-- the request's batch position in the last step -/
  pos : ℕ
  req : BatchReq KV
  at_pos : last.reqs[pos]? = some req
  chunk : IsChunk row computed req
  ends : computed + (req.kv.length - req.numRejected) = n

def PromptRun.steps {base n : ℕ} (run : PromptRun KV base n) : List (Batch KV) :=
  run.earlier ++ [run.last]

/-- One of the steps writes the slot; the row is the request's own in all of them. -/
def WrittenIn (cfg : RingConfig) (steps : List (Batch KV)) (row slot : ℕ) : Prop :=
  ∃ batch ∈ steps, ∃ kv, ((row, slot), kv) ∈ ringWrites cfg (stepTokens cfg batch)

/-- The ring at the first draft after the prompt. -/
structure Refills (cfg : RingConfig) (before : List (Batch KV)) {base n : ℕ}
    (run : PromptRun KV base n) : Prop where
  ingested : ∀ p : ℕ, p < n → n ≤ p + cfg.window →
    ∃ batch ∈ run.steps, ∃ kv, ⟨run.row, p, kv⟩ ∈ stepTokens cfg batch
  exposed : ∀ s, s < cfg.window →
    (ringAttention (runPropose cfg (before ++ run.steps)) run.pos).mask s = .zero →
    WrittenIn cfg run.steps run.row s

/-- A slot past the prompt that a rejected token of the last step takes: its own when
rejected tokens keep their positions, else the one of `-(1 << 40)` where the window reaches
that far back. -/
def RejectedLands (cfg : RingConfig) (q : BatchReq KV) (n s : ℕ) : Prop :=
  if cfg.ringDropRejected then 0 < q.numRejected ∧ s + 2 ^ 40 = cfg.window
  else s < n + q.numRejected

/-- The mask row at the request's batch position shows no slot past the prompt but those its
rejected tokens take. -/
def MaskFits (cfg : RingConfig) (before : List (Batch KV)) {base n : ℕ}
    (run : PromptRun KV base n) : Prop :=
  ∀ s, s < standingLength cfg (before ++ run.earlier) run.last run.pos →
    s < n ∨ RejectedLands cfg run.req n s

/-! ## The slots of one chunk -/

section
variable {cfg : RingConfig} {batch : Batch KV} {q : BatchReq KV} {row computed : ℕ}

theorem slotOf_of_kept (hq : q ∈ batch.reqs) (hchunk : IsChunk row computed q) {j : ℕ}
    (hj : j < keptLen cfg q) (hlen : j < q.kv.length) :
    slotOf cfg batch q j =
      if keptLen cfg q ≤ j + cfg.window then (computed + j) % cfg.window else cfg.window := by
  rw [slotOf, ringSlot, rowMax_kept cfg batch hq hchunk.numRejected_lt, ctxPosition_kept cfg q hlen,
    if_pos hj, hchunk.startPos_eq]
  have hwin : ((computed : ℤ) + j > computed + keptLen cfg q - 1 - cfg.window) ↔
      keptLen cfg q ≤ j + cfg.window := by omega
  have hres : (((computed : ℤ) + j) % cfg.window).toNat = (computed + j) % cfg.window := by
    rw [← Int.natCast_add, ← Int.natCast_emod, Int.toNat_natCast]
  simp only [hwin, hres]

theorem rejectedPos_mod {window : ℕ} (hlt : 2 ^ 40 < window) :
    (rejectedPos % window).toNat = window - 2 ^ 40 := by
  have hmod : rejectedPos % window = window - 2 ^ 40 := by
    rw [← Int.add_emod_right, Int.emod_eq_of_lt] <;> unfold rejectedPos <;> omega
  omega

theorem slotOf_of_rejected (hq : q ∈ batch.reqs) (hchunk : IsChunk row computed q) {j : ℕ}
    (hj : keptLen cfg q ≤ j) (hlen : j < q.kv.length) :
    slotOf cfg batch q j =
      if computed + keptLen cfg q + 2 ^ 40 ≤ cfg.window then cfg.window - 2 ^ 40
      else cfg.window := by
  rw [slotOf, ringSlot, rowMax_kept cfg batch hq hchunk.numRejected_lt, ctxPosition_kept cfg q hlen,
    if_neg (Nat.not_lt.mpr hj), hchunk.startPos_eq]
  have hwin : (rejectedPos > (computed : ℤ) + keptLen cfg q - 1 - cfg.window) ↔
      computed + keptLen cfg q + 2 ^ 40 ≤ cfg.window := by
    unfold rejectedPos
    omega
  have hkept := keptLen_pos cfg hchunk.numRejected_lt
  by_cases hfar : computed + keptLen cfg q + 2 ^ 40 ≤ cfg.window
  · rw [if_pos (hwin.mpr hfar), if_pos hfar, rejectedPos_mod (by omega)]
  · rw [if_neg (fun h => hfar (hwin.mp h)), if_neg hfar]

theorem written_iff_slotOf (hq : q ∈ batch.reqs) (hrow : q.row = row) {s : ℕ} :
    (∃ kv, ((row, s), kv) ∈ ringWrites cfg (stepTokens cfg batch)) ↔
      ∃ j, j < q.kv.length ∧ slotOf cfg batch q j = s := by
  constructor
  · rintro ⟨kv, hkv⟩
    obtain ⟨p, hp, j, hj, he⟩ := mem_ringWrites.mp hkv
    simp only [Prod.mk.injEq] at he
    obtain ⟨⟨hprow, hslot⟩, -⟩ := he
    obtain rfl := eq_of_row_eq batch hp hq (hprow.trans hrow.symm)
    exact ⟨j, hj, hslot⟩
  · rintro ⟨j, hj, rfl⟩
    exact ⟨_, mem_ringWrites.mpr ⟨q, hq, j, hj, by rw [hrow]⟩⟩

theorem accepted_le_keptLen (cfg : RingConfig) (q : BatchReq KV) :
    q.kv.length - q.numRejected ≤ keptLen cfg q := by
  unfold keptLen
  split <;> omega

/-- A chunk writes the slots of its kept positions, and the mark's slot in a window that
reaches back to the mark. -/
theorem written_chunk_iff (hq : q ∈ batch.reqs) (hchunk : IsChunk row computed q) {s : ℕ}
    (hs : s < cfg.window) :
    (∃ kv, ((row, s), kv) ∈ ringWrites cfg (stepTokens cfg batch)) ↔
      (∃ p, computed ≤ p ∧ p < computed + keptLen cfg q ∧ p % cfg.window = s) ∨
        keptLen cfg q < q.kv.length ∧ computed + keptLen cfg q + 2 ^ 40 ≤ cfg.window ∧
          s + 2 ^ 40 = cfg.window := by
  have hkept := keptLen_le cfg q
  rw [written_iff_slotOf hq hchunk.row_eq]
  constructor
  · rintro ⟨j, hj, rfl⟩
    by_cases hk : j < keptLen cfg q
    · rw [slotOf_of_kept hq hchunk hk hj] at hs ⊢
      split at hs
      · rename_i hwin
        rw [if_pos hwin]
        exact .inl ⟨computed + j, by omega, by omega, rfl⟩
      · omega
    · rw [slotOf_of_rejected hq hchunk (by omega) hj] at hs ⊢
      split at hs
      · rename_i hfar
        rw [if_pos hfar]
        exact .inr ⟨by omega, hfar, by omega⟩
      · omega
  · rintro (⟨p, hp, hlt, rfl⟩ | ⟨hk, hfar, hslot⟩)
    · obtain ⟨x, hpx, hx, hlast, hmod⟩ := exists_last_mod_eq cfg.window_pos hlt
      refine ⟨x - computed, by omega, ?_⟩
      rw [slotOf_of_kept hq hchunk (by omega) (by omega), if_pos (by omega), ← hmod]
      congr 1
      omega
    · refine ⟨keptLen cfg q, hk, ?_⟩
      rw [slotOf_of_rejected hq hchunk (Nat.le_refl _) hk, if_pos hfar]
      omega

theorem mem_stepTokens_chunk (hq : q ∈ batch.reqs) (hchunk : IsChunk row computed q) {p : ℕ}
    (hp : computed ≤ p) (hlt : p < computed + (q.kv.length - q.numRejected)) :
    ∃ kv, ⟨row, p, kv⟩ ∈ stepTokens cfg batch := by
  have hkept := accepted_le_keptLen cfg q
  have hj : p - computed < q.kv.length := by omega
  refine ⟨q.kv[p - computed], mem_stepTokens.mpr ⟨q, hq, p - computed, hj, ?_⟩⟩
  rw [ctxPosition_kept cfg q hj, if_pos (by omega), hchunk.startPos_eq, hchunk.row_eq]
  congr 1
  omega

end

/-! ## The slots of a run -/

theorem writtenIn_concat {cfg : RingConfig} {steps : List (Batch KV)} {batch : Batch KV}
    {row s : ℕ} : WrittenIn cfg (steps ++ [batch]) row s ↔
      WrittenIn cfg steps row s ∨ ∃ kv, ((row, s), kv) ∈ ringWrites cfg (stepTokens cfg batch) := by
  simp only [WrittenIn, List.mem_append, List.mem_singleton, or_and_right, exists_or,
    exists_eq_left]

theorem not_written_idle {cfg : RingConfig} {batch : Batch KV} {row s : ℕ}
    (hrow : ∀ q ∈ batch.reqs, q.row ≠ row) :
    ¬ ∃ kv, ((row, s), kv) ∈ ringWrites cfg (stepTokens cfg batch) := by
  rintro ⟨kv, hkv⟩
  obtain ⟨q, hq, j, hj, he⟩ := mem_ringWrites.mp hkv
  exact hrow q hq (congrArg (fun w : (ℕ × ℕ) × KV => w.1.1) he)

theorem keptLen_of_none {cfg : RingConfig} {q : BatchReq KV} (hrej : q.numRejected = 0) :
    keptLen cfg q = q.kv.length := by
  unfold keptLen
  split <;> omega

theorem Prefills.base_le {row base : ℕ} {steps : List (Batch KV)} {computed : ℕ}
    (h : Prefills row base steps computed) : base ≤ computed := by
  induction h with
  | start => exact Nat.le_refl _
  | idle _ _ ih => exact ih
  | chunk _ _ _ _ ih => exact ih.trans (Nat.le_add_right ..)

/-- Chunk by chunk the steps of a prompt write the slots of the positions computed. -/
theorem writtenIn_prefills {cfg : RingConfig} {row base : ℕ} {steps : List (Batch KV)}
    {computed : ℕ} (h : Prefills row base steps computed) {s : ℕ} (hs : s < cfg.window) :
    WrittenIn cfg steps row s ↔ ∃ p, base ≤ p ∧ p < computed ∧ p % cfg.window = s := by
  induction h with
  | start =>
    constructor
    · rintro ⟨batch, hbatch, -⟩
      cases hbatch
    · rintro ⟨p, hp, hlt, -⟩
      omega
  | idle before hrow ih => rw [writtenIn_concat, ih, or_iff_left (not_written_idle hrow)]
  | chunk before hq hchunk hrej ih =>
    rw [writtenIn_concat, ih, written_chunk_iff hq hchunk hs, keptLen_of_none hrej]
    rw [← or_assoc, exists_span_append before.base_le (Nat.le_add_right ..)]
    exact or_iff_left fun h => absurd h.1 (Nat.lt_irrefl _)

theorem ingested_prefills {cfg : RingConfig} {row base : ℕ} {steps : List (Batch KV)}
    {computed : ℕ} (h : Prefills row base steps computed) {p : ℕ} (hp : base ≤ p)
    (hlt : p < computed) : ∃ batch ∈ steps, ∃ kv, ⟨row, p, kv⟩ ∈ stepTokens cfg batch := by
  induction h with
  | start => omega
  | idle before hrow ih =>
    obtain ⟨batch, hbatch, hkv⟩ := ih hlt
    exact ⟨batch, List.mem_append_left _ hbatch, hkv⟩
  | @chunk steps computed batch q before hq hchunk hrej ih =>
    rcases Nat.lt_or_ge p computed with hold | hnew
    · obtain ⟨batch, hbatch, hkv⟩ := ih hold
      exact ⟨batch, List.mem_append_left _ hbatch, hkv⟩
    · exact ⟨batch, by simp, mem_stepTokens_chunk hq hchunk hnew (by omega)⟩

/-- The residues of the positions from a trimmed hit on. -/
theorem residues_iff {window base n top s : ℕ} (hleaves : base + min window n ≤ n) (hn : n ≤ top)
    (hs : s < window) : (∃ p, base ≤ p ∧ p < top ∧ p % window = s) ↔ s < top := by
  constructor
  · rintro ⟨p, hp, hlt, rfl⟩
    exact (Nat.mod_le p window).trans_lt hlt
  · intro hlt
    rcases Nat.lt_or_ge n window with hshort | hlong
    · exact ⟨s, by omega, hlt, Nat.mod_eq_of_lt hs⟩
    · obtain ⟨p, hp, hpw, hmod⟩ := exists_mod_eq base hs
      exact ⟨p, hp, by omega, hmod⟩

section
variable {cfg : RingConfig} {base n : ℕ} (run : PromptRun KV base n)

theorem PromptRun.req_mem : run.req ∈ run.last.reqs := List.mem_of_getElem? run.at_pos

/-- The slots a run has written when it drafts: those below the prompt's length, and the
ones its rejected tokens take. -/
theorem writtenIn_run_iff (hleaves : base + min cfg.window n ≤ n) {s : ℕ} (hs : s < cfg.window) :
    WrittenIn cfg run.steps run.row s ↔ s < n ∨ RejectedLands cfg run.req n s := by
  have hends := run.ends
  have hrej := run.chunk.numRejected_lt
  have hbase := run.prefills.base_le
  have hkept := accepted_le_keptLen cfg run.req
  have htop : n ≤ run.computed + keptLen cfg run.req := by omega
  rw [PromptRun.steps, writtenIn_concat, writtenIn_prefills run.prefills hs,
    written_chunk_iff run.req_mem run.chunk hs, ← or_assoc,
    exists_span_append hbase (Nat.le_add_right ..), residues_iff hleaves htop hs, RejectedLands,
    keptLen]
  split <;> omega

theorem ingested_run (hleaves : base + min cfg.window n ≤ n) {p : ℕ} (hp : p < n)
    (hwin : n ≤ p + cfg.window) :
    ∃ batch ∈ run.steps, ∃ kv, ⟨run.row, p, kv⟩ ∈ stepTokens cfg batch := by
  have hends := run.ends
  rcases Nat.lt_or_ge p run.computed with hold | hnew
  · obtain ⟨batch, hbatch, hkv⟩ := ingested_prefills run.prefills (by omega) hold
    exact ⟨batch, List.mem_append_left _ hbatch, hkv⟩
  · exact ⟨run.last, by simp [PromptRun.steps],
      mem_stepTokens_chunk run.req_mem run.chunk hnew (by omega)⟩

/-- After a trimmed hit the first draft sees only slots of its own request exactly when the
mask row it reads is no longer than the prompt. -/
theorem refills_iff (before : List (Batch KV)) (hleaves : base + min cfg.window n ≤ n) :
    Refills cfg before run ↔ MaskFits cfg before run := by
  have hsum := summarises_run cfg (before ++ run.steps)
  have hlen : ∀ s, s < cfg.window →
      ((ringAttention (runPropose cfg (before ++ run.steps)) run.pos).mask s = .zero ↔
        s < standingLength cfg (before ++ run.earlier) run.last run.pos) := by
    intro s hs
    rw [← lastWritten_concat, List.append_assoc]
    exact hsum.window run.pos s hs
  have hle : standingLength cfg (before ++ run.earlier) run.last run.pos ≤ cfg.window := by
    rw [← lastWritten_concat]
    exact lastWritten_le ..
  constructor
  · intro h s hs
    have hsW : s < cfg.window := by omega
    exact (writtenIn_run_iff run hleaves hsW).mp (h.exposed s hsW ((hlen s hsW).mpr hs))
  · intro h
    refine ⟨fun p hp hwin => ingested_run run hleaves hp hwin, fun s hs hzero => ?_⟩
    exact (writtenIn_run_iff run hleaves hs).mpr (h s ((hlen s hs).mp hzero))

/-- A prompt as long as the window fits any mask row. -/
theorem maskFits_of_window_le (before : List (Batch KV)) (hlong : cfg.window ≤ n) :
    MaskFits cfg before run := by
  intro s hs
  rw [← lastWritten_concat] at hs
  have hle := lastWritten_le cfg ((before ++ run.earlier) ++ [run.last]) run.pos
  exact .inl (by omega)

/-- So does one that reads the row the last step wrote for it. -/
theorem maskFits_of_own_row (before : List (Batch KV)) (hexcl : cfg.ringMaskExclRejected = true)
    (hreb : ¬ SkipsRebuild cfg (before ++ run.earlier) run.last) (hrow : run.row = run.pos) :
    MaskFits cfg before run := by
  have hends := run.ends
  have hseq := run.chunk.seqLen_eq
  have hrej := run.chunk.numRejected_lt
  have hreqrow : run.req.row = run.pos := run.chunk.row_eq.trans hrow
  have hown := lastWritten_of_rebuild hreb run.req_mem
  intro s hs
  rw [← lastWritten_concat, ← hreqrow, hown, validLen, hexcl] at hs
  simp only [if_true] at hs
  exact .inl (by omega)

end

/-! ## The guarantee of the trim -/

/-- What the trim promises of one lookup and of the run it leads to. -/
def TrimRefills (cfg : RingConfig) (manager : KVCacheManager Hash Block) (request : Request Hash)
    (reported whole : ComputedBlocks Block) (before : List (Batch KV)) {base n : ℕ}
    (run : PromptRun KV base n) : Prop :=
  TrimmedHit cfg manager request reported whole ∧ Refills cfg before run

/-- With the ring on and no override, every request's lookup succeeds, and in every run from
it the promise holds exactly when the mask row at the request's position fits its prompt. -/
theorem trim_refills_iff {environ : Environ} {numQueryPerReq : ℕ} {cfg : RingConfig}
    (hring : initRingConfig environ numQueryPerReq = some (some cfg))
    (hover : environ.cacheTrim = none) {manager : KVCacheManager Hash Block}
    (hhit : LongestHit manager) (request : Request Hash) :
    ∃ reported whole, getComputedBlocks manager environ request = some reported ∧
      getComputedBlocks manager (untrimmed environ) request = some whole ∧
      ∀ (before : List (Batch KV)) (run : PromptRun KV reported.numTokens request.numTokens),
        TrimRefills cfg manager request reported whole before run ↔ MaskFits cfg before run := by
  obtain ⟨reported, whole, hreported, hwhole, htrim⟩ :=
    getComputedBlocks_trimmed hring hover hhit request
  refine ⟨reported, whole, hreported, hwhole, fun before run => ?_⟩
  rw [TrimRefills, refills_iff run before htrim.leaves]
  exact and_iff_right htrim

/-- `VLLM_DSPARK_DRAFT_RING=1` and a window of four. -/
def ringOfFour : Environ where
  draftRing := some "1"
  draftWindow := some "4"
  cacheTrim := none
  ringDropRejected := none
  ringMaskExclRejected := none

def windowOfFour : RingConfig where
  window := 4
  numQueryPerReq := 2
  window_pos := by decide

/-- One group of two-token blocks with every hash cached. -/
def warmManager : KVCacheManager ℕ Unit where
  enableCaching := true
  enableKvCacheEvents := false
  blockSizes := [2]
  findLongestCacheHit := fun hashes limit =>
    let blocks := min hashes.length (limit.toNat / 2)
    ⟨[List.replicate blocks ()], 2 * blocks, 0⟩

theorem warmManager_longest : LongestHit warmManager where
  full := by
    intro hashes limit blockSize hmem
    obtain rfl := List.mem_singleton.mp hmem
    exact Nat.dvd_mul_right ..
  le_limit := by
    intro hashes limit hlimit
    simp only [warmManager]
    omega
  mono := by
    intro hashes limit limit' hlimit hle
    simp only [warmManager]
    omega

theorem ringOfFour_config : initRingConfig ringOfFour 2 = some (some windowOfFour) := by
  have hread : dsparkRingWindow ringOfFour = some 4 := by decide
  rw [initRingConfig, hread]
  rfl

def chunkOn (row start len : ℕ) : BatchReq Unit :=
  ⟨row, row, start + len, start + len, 0, start, List.replicate len ()⟩

theorem isChunk_chunkOn (row start : ℕ) {len : ℕ} (hlen : 0 < len) :
    IsChunk row start (chunkOn row start len) where
  row_eq := rfl
  startPos_eq := rfl
  seqLen_eq := by simp [chunkOn]
  numRejected_lt := by simpa [chunkOn] using hlen

/-- A step that schedules one request. -/
def oneReq (q : BatchReq Unit) : Batch Unit := ⟨[q], by simp, by simp⟩

theorem Prefills.concat_oneReq {row base computed len : ℕ} {steps : List (Batch Unit)} (hlen : 0 < len)
    (before : Prefills row base steps computed) :
    Prefills row base (steps ++ [oneReq (chunkOn row computed len)]) (computed + len) := by
  have hmem : chunkOn row computed len ∈ (oneReq (chunkOn row computed len)).reqs :=
    List.mem_singleton.mpr rfl
  have hchunk := before.chunk hmem (isChunk_chunkOn row computed hlen) rfl
  have hlength : (chunkOn row computed len).kv.length = len := List.length_replicate
  rwa [hlength] at hchunk

/-- Ten tokens of which eight are cached: four are reported, and six computed in two chunks. -/
def warmRun : PromptRun Unit 4 10 where
  row := 1
  earlier := [] ++ [oneReq (chunkOn 1 4 5)]
  computed := 4 + 5
  prefills := Prefills.start.concat_oneReq (by decide)
  last := ⟨[chunkOn 0 7 1, chunkOn 1 9 1], by simp, by decide⟩
  pos := 1
  req := chunkOn 1 9 1
  at_pos := rfl
  chunk := isChunk_chunkOn 1 9 (by decide)
  ends := rfl

def warmRequest : Request ℕ where
  numTokens := 10
  blockHashes := [0, 1, 2, 3, 4]
  skipReadingPrefixCache := false

/-- The whole hit is eight tokens, the trimmed one four, and the run refills the ring. -/
theorem trim_refills_warm :
    ∃ reported whole, getComputedBlocks warmManager ringOfFour warmRequest = some reported ∧
      getComputedBlocks warmManager (untrimmed ringOfFour) warmRequest = some whole ∧
      whole.numTokens = 8 ∧
      ∃ h : reported.numTokens = 4,
        TrimRefills windowOfFour warmManager warmRequest reported whole [] (h ▸ warmRun) := by
  obtain ⟨reported, whole, hreported, hwhole, hiff⟩ :=
    trim_refills_iff ringOfFour_config rfl warmManager_longest warmRequest
  have htrim : dsparkRingCacheTrim ringOfFour = some 4 := by decide
  have hlookup := getComputedBlocks_some warmManager htrim warmRequest
  have hzero := getComputedBlocks_some warmManager (cacheTrim_untrimmed ringOfFour) warmRequest
  obtain rfl := Option.some.inj (hreported.symm.trans hlookup)
  obtain rfl := Option.some.inj (hwhole.symm.trans hzero)
  refine ⟨_, _, hreported, hwhole, by decide, by decide, ?_⟩
  exact (hiff [] _).mpr (maskFits_of_window_le _ [] (by decide))

/-- No hash is cached. -/
def coldRequest : Request ℕ where
  numTokens := 2
  blockHashes := []
  skipReadingPrefixCache := false

/-- A two-token prompt on row 1 at batch position 0, beside a longer one on row 0. -/
def coldRun : PromptRun Unit 0 2 where
  row := 1
  earlier := []
  computed := 0
  prefills := .start
  last := ⟨[chunkOn 1 0 2, chunkOn 0 0 4], by simp, by decide⟩
  pos := 0
  req := chunkOn 1 0 2
  at_pos := rfl
  chunk := isChunk_chunkOn 1 0 (by decide)
  ends := rfl

/-- The draft reads the mask row of the longer prompt and sees slots nothing wrote. -/
theorem trim_refills_fails :
    ¬ ∀ (environ : Environ) (numQueryPerReq : ℕ) (cfg : RingConfig)
      (manager : KVCacheManager ℕ Unit) (request : Request ℕ),
      initRingConfig environ numQueryPerReq = some (some cfg) → environ.cacheTrim = none →
      LongestHit manager →
      ∃ reported whole, getComputedBlocks manager environ request = some reported ∧
        getComputedBlocks manager (untrimmed environ) request = some whole ∧
        ∀ (before : List (Batch Unit))
          (run : PromptRun Unit reported.numTokens request.numTokens),
          TrimRefills cfg manager request reported whole before run := by
  intro hall
  obtain ⟨reported, whole, hreported, -, hrun⟩ :=
    hall _ _ _ _ coldRequest ringOfFour_config rfl warmManager_longest
  have htrim : dsparkRingCacheTrim ringOfFour = some 4 := by decide
  have hlookup := getComputedBlocks_some warmManager htrim coldRequest
  obtain rfl := Option.some.inj (hreported.symm.trans hlookup)
  obtain ⟨batch, hbatch, kv, hkv⟩ := (hrun [] coldRun).2.exposed 2 (by decide) (by decide)
  obtain rfl := List.mem_singleton.mp hbatch
  revert hkv
  cases kv
  decide

end SparkKit.Ring.PromptRefill
