import SparkKit.Lib.Scatter
import SparkKit.Lib.History
import SparkKit.Ring.Inputs

/-!
# The window mask of ring attention

`propose` writes the mask by request-state row and `_ring_attention` reads it by
batch position. A mask row is always a prefix of visible slots, so its content is
summarised by one number, the length last written to it; the summary machine below
follows the code step by step, and both results are stated about it.
-/
namespace SparkKit.Ring.Mask

open SparkKit.Lib.Scatter SparkKit.Lib.History
open SparkKit.Ring.Inputs

variable {KV : Type*}

/-- An additive mask entry. -/
inductive MaskValue where
  | zero
  | negInf
  deriving DecidableEq, Repr

/-- The persistent buffers of `DSPARK_RING_CTX` that attention reads, with the
speculator's `_ring_mask_steady` flag. -/
structure RingCtx where
  /-- ring row gathered for a batch position -/
  queryRows : ℕ → ℕ
  /-- mask row, then column; the columns from the window on are the block tail -/
  attnMask : ℕ → ℕ → MaskValue
  /-- the request each mask row was last written for; the code does not keep it -/
  writtenFor : ℕ → Option ℕ
  maskSteady : Bool

/-- `_init_ring_state` allocates zeros: every slot of every row starts visible. -/
def initRingState : RingCtx where
  queryRows := fun _ => 0
  attnMask := fun _ _ => .zero
  writtenFor := fun _ => none
  maskSteady := false

/-- `torch.clamp(ctx_len, min=0, max=w)` for one request. -/
def validLen (cfg : RingConfig) (q : BatchReq KV) : ℕ :=
  let ctxLen : ℤ := if cfg.ringMaskExclRejected then q.seqLen - q.numRejected else q.seqLen
  (min (max ctxLen 0) cfg.window).toNat

/-- One row of `win_mask`. -/
def winMask (cfg : RingConfig) (q : BatchReq KV) (s : ℕ) : MaskValue :=
  if s < validLen cfg q then .zero else .negInf

/-- `attn_mask[idx_map, 0, 0, :w] = win_mask` -/
def rebuildMask (cfg : RingConfig) (batch : Batch KV) (mask : ℕ → ℕ → MaskValue) :
    ℕ → ℕ → MaskValue :=
  scatter (batch.reqs.map fun q =>
    (q.row, fun s => if s < cfg.window then winMask cfg q s else mask q.row s)) mask

/-- Whom the mask rows are for after that write. -/
def rebuildOwners (batch : Batch KV) (writtenFor : ℕ → Option ℕ) : ℕ → Option ℕ :=
  scatter (batch.reqs.map fun q => (q.row, some q.reqId)) writtenFor

/-- The ring bookkeeping of one propose call. -/
def propose (cfg : RingConfig) (ctx : RingCtx) (batch : Batch KV) : RingCtx where
  queryRows := fun b => (batch.reqs[b]?.map BatchReq.row).getD (ctx.queryRows b)
  attnMask :=
    if ctx.maskSteady && deep cfg batch then ctx.attnMask
    else rebuildMask cfg batch ctx.attnMask
  writtenFor :=
    if ctx.maskSteady && deep cfg batch then ctx.writtenFor
    else rebuildOwners batch ctx.writtenFor
  maskSteady :=
    if ctx.maskSteady && deep cfg batch then ctx.maskSteady else deep cfg batch

/-- The state after a run of propose calls. -/
def runPropose (cfg : RingConfig) (history : List (Batch KV)) : RingCtx :=
  runFrom (propose cfg) initRingState history

/-- What `_ring_attention` uses for the queries of one batch position. -/
structure RingRead where
  /-- the ring row the keys come from, `query_rows[b]` -/
  ringRow : ℕ
  /-- the number of the mask row applied to them, `b` in `attn_mask[:num_rows]` -/
  maskRow : ℕ
  /-- what that row holds -/
  mask : ℕ → MaskValue
  /-- the request that row was last written for -/
  writtenFor : Option ℕ

def ringAttention (ctx : RingCtx) (b : ℕ) : RingRead where
  ringRow := ctx.queryRows b
  maskRow := b
  mask := ctx.attnMask b
  writtenFor := ctx.writtenFor b

/-! ## The summary machine -/

/-- Per state row the length last written to its mask row and the request it was written
for, and the steady flag. -/
structure MaskSummary where
  written : ℕ → ℕ
  writtenFor : ℕ → Option ℕ
  steady : Bool

def summaryInit (cfg : RingConfig) : MaskSummary where
  written := fun _ => cfg.window
  writtenFor := fun _ => none
  steady := false

/-- A step skips the rebuild exactly when the flag is set and the batch is deep. -/
def skips (cfg : RingConfig) (m : MaskSummary) (batch : Batch KV) : Bool :=
  m.steady && deep cfg batch

def summaryStep (cfg : RingConfig) (m : MaskSummary) (batch : Batch KV) : MaskSummary :=
  if skips cfg m batch then m
  else
    { written := scatter (batch.reqs.map fun q => (q.row, validLen cfg q)) m.written
      writtenFor := rebuildOwners batch m.writtenFor
      steady := deep cfg batch }

def summaryOf (cfg : RingConfig) (history : List (Batch KV)) : MaskSummary :=
  runFrom (summaryStep cfg) (summaryInit cfg) history

/-- The length the last rebuild covering a state row wrote there, the window if none did. -/
def lastWritten (cfg : RingConfig) (history : List (Batch KV)) (row : ℕ) : ℕ :=
  (summaryOf cfg history).written row

/-- The request that rebuild was for, if there was one. -/
def lastWrittenFor (cfg : RingConfig) (history : List (Batch KV)) (row : ℕ) : Option ℕ :=
  (summaryOf cfg history).writtenFor row

/-- The step after a history skips the mask rebuild. -/
def SkipsRebuild (cfg : RingConfig) (history : List (Batch KV)) (batch : Batch KV) : Prop :=
  skips cfg (summaryOf cfg history) batch = true

instance (cfg : RingConfig) (history : List (Batch KV)) (batch : Batch KV) :
    Decidable (SkipsRebuild cfg history batch) :=
  inferInstanceAs (Decidable (_ = true))

/-- The physical mask is the prefix mask of the summary. -/
structure Summarises (cfg : RingConfig) (ctx : RingCtx) (m : MaskSummary) : Prop where
  steady : ctx.maskSteady = m.steady
  writtenFor : ctx.writtenFor = m.writtenFor
  bounded : ∀ r, m.written r ≤ cfg.window
  window : ∀ r s, s < cfg.window → (ctx.attnMask r s = .zero ↔ s < m.written r)
  tail : ∀ r s, cfg.window ≤ s → ctx.attnMask r s = .zero

theorem validLen_le (cfg : RingConfig) (q : BatchReq KV) : validLen cfg q ≤ cfg.window := by
  unfold validLen
  dsimp only
  omega

@[simp] theorem winMask_eq_zero (cfg : RingConfig) (q : BatchReq KV) (s : ℕ) :
    winMask cfg q s = .zero ↔ s < validLen cfg q := by
  simp [winMask]

theorem rebuildMask_row (cfg : RingConfig) (batch : Batch KV) (mask : ℕ → ℕ → MaskValue)
    {q : BatchReq KV} (hq : q ∈ batch.reqs) (s : ℕ) :
    rebuildMask cfg batch mask q.row s =
      if s < cfg.window then winMask cfg q s else mask q.row s :=
  congrFun (scatter_row batch _ mask hq) s

theorem rebuildMask_other (cfg : RingConfig) (batch : Batch KV) (mask : ℕ → ℕ → MaskValue)
    {r : ℕ} (hr : ∀ q ∈ batch.reqs, q.row ≠ r) : rebuildMask cfg batch mask r = mask r :=
  scatter_other batch _ mask hr

theorem summarises_init (cfg : RingConfig) : Summarises cfg initRingState (summaryInit cfg) where
  steady := rfl
  writtenFor := rfl
  bounded := fun _ => Nat.le_refl _
  window := fun _ _ hs => by simp [initRingState, summaryInit, hs]
  tail := fun _ _ _ => rfl

/-- Every propose call keeps the mask a prefix mask of its summary. -/
theorem summarises_step (cfg : RingConfig) (ctx : RingCtx) (m : MaskSummary) (batch : Batch KV)
    (h : Summarises cfg ctx m) :
    Summarises cfg (propose cfg ctx batch) (summaryStep cfg m batch) := by
  by_cases hskip : skips cfg m batch = true
  · have hc : (ctx.maskSteady && deep cfg batch) = true := by rw [h.steady]; exact hskip
    have hm : summaryStep cfg m batch = m := if_pos hskip
    rw [hm]
    refine ⟨?_, ?_, h.bounded, ?_, ?_⟩
    · simp only [propose, hc, if_true]
      exact h.steady
    · simp only [propose, hc, if_true]
      exact h.writtenFor
    · simp only [propose, hc, if_true]
      exact h.window
    · simp only [propose, hc, if_true]
      exact h.tail
  · have hc : ¬ (ctx.maskSteady && deep cfg batch) = true := by rw [h.steady]; exact hskip
    simp only [summaryStep, hskip]
    refine ⟨by simp only [propose, hc]; rfl, ?_, fun r => ?_, fun r s hs => ?_, fun r s hs => ?_⟩
    · simp only [propose, hc, Bool.false_eq_true, if_false]
      rw [h.writtenFor]
    all_goals by_cases hr : ∃ q ∈ batch.reqs, q.row = r
    · obtain ⟨q, hq, rfl⟩ := hr
      simp only [Bool.false_eq_true, if_false, scatter_row batch _ _ hq]
      exact validLen_le cfg q
    · simp only [not_exists, not_and] at hr
      simp only [Bool.false_eq_true, if_false, scatter_other batch _ _ hr]
      exact h.bounded r
    · obtain ⟨q, hq, rfl⟩ := hr
      simp only [propose, hc, Bool.false_eq_true, if_false, scatter_row batch _ _ hq,
        rebuildMask_row cfg batch _ hq, hs, if_true, winMask_eq_zero]
    · simp only [not_exists, not_and] at hr
      simp only [propose, hc, Bool.false_eq_true, if_false, scatter_other batch _ _ hr,
        rebuildMask_other cfg batch _ hr]
      exact h.window r s hs
    · obtain ⟨q, hq, rfl⟩ := hr
      simp only [propose, hc, Bool.false_eq_true, if_false, rebuildMask_row cfg batch _ hq,
        Nat.not_lt.mpr hs]
      exact h.tail q.row s hs
    · simp only [not_exists, not_and] at hr
      simp only [propose, hc, Bool.false_eq_true, if_false, rebuildMask_other cfg batch _ hr]
      exact h.tail r s hs

/-- After every run the mask is the prefix mask of the lengths last written. -/
theorem summarises_run (cfg : RingConfig) (history : List (Batch KV)) :
    Summarises cfg (runPropose cfg history) (summaryOf cfg history) :=
  runFrom_simulation (summarises_init cfg) (summarises_step cfg) history

end SparkKit.Ring.Mask
