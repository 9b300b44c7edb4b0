import Mathlib.Data.Int.Order.Basic
import SparkKit.Lib.Scatter

/-!
# Ring mode: settings and the batch one propose call sees

A batch lists its requests by batch position. Each one carries its request-state
row (`idx_mapping`), its lengths, its rejection count and the target tokens of
this step. Rows may be any permutation with any gaps, but two requests of one
batch never share a row.
-/
namespace SparkKit.Ring.Inputs

open SparkKit.Lib.Scatter

/-- Settings fixed by `_init_ring_state`. Ring mode is on, so the window is positive. -/
structure RingConfig where
  window : ℕ
  numQueryPerReq : ℕ
  /-- `VLLM_DSPARK_RING_DROP_REJECTED` -/
  ringDropRejected : Bool := true
  /-- `VLLM_DSPARK_RING_MASK_EXCL_REJECTED` -/
  ringMaskExclRejected : Bool := true
  window_pos : 0 < window

/-- What `propose` reads about the request at one batch position, and which request it is. -/
structure BatchReq (KV : Type*) where
  /-- `req_ids[b]`, which no part of `propose` looks at -/
  reqId : ℕ
  /-- `idx_mapping[b]` -/
  row : ℕ
  /-- `seq_lens[b]`, counting this step's block -/
  seqLen : ℕ
  /-- `seq_lens_cpu_upper_bound[b]` -/
  seqLenUpperBound : ℕ
  numRejected : ℕ
  /-- target position of the first scheduled token -/
  startPos : ℕ
  /-- the projected key and value of each scheduled token, in order -/
  kv : List KV

/-- `prepare_dflash_inputs` asserts a nonempty batch; the runner gives each request
a state row of its own. -/
structure Batch (KV : Type*) where
  reqs : List (BatchReq KV)
  nonempty : reqs ≠ []
  rows_nodup : (reqs.map BatchReq.row).Nodup

variable {KV : Type*}

/-- Requests of one batch are determined by their rows. -/
theorem eq_of_row_eq (batch : Batch KV) {p q : BatchReq KV} (hp : p ∈ batch.reqs)
    (hq : q ∈ batch.reqs) (h : p.row = q.row) : p = q :=
  List.inj_on_of_nodup_map batch.rows_nodup hp hq h

theorem mem_writes_iff {β : Type*} (batch : Batch KV) (f : BatchReq KV → β) {r : ℕ} {v : β} :
    (r, v) ∈ batch.reqs.map (fun q => (q.row, f q)) ↔ ∃ q ∈ batch.reqs, q.row = r ∧ f q = v := by
  simp

/-- A write per request lands at the request's own row. -/
theorem scatter_row {β : Type*} (batch : Batch KV) (f : BatchReq KV → β) (store : ℕ → β)
    {q : BatchReq KV} (hq : q ∈ batch.reqs) :
    scatter (batch.reqs.map fun q => (q.row, f q)) store q.row = f q := by
  refine scatter_of_nodup ?_ ((mem_writes_iff batch f).mpr ⟨q, hq, rfl, rfl⟩) store
  simpa [Function.comp_def] using batch.rows_nodup

/-- A row of no request keeps its value. -/
theorem scatter_other {β : Type*} (batch : Batch KV) (f : BatchReq KV → β) (store : ℕ → β)
    {r : ℕ} (hr : ∀ q ∈ batch.reqs, q.row ≠ r) :
    scatter (batch.reqs.map fun q => (q.row, f q)) store r = store r := by
  refine scatter_of_notMem (fun v hv => ?_) store
  obtain ⟨q, hq, he, -⟩ := (mem_writes_iff batch f).mp hv
  exact hr q hq he

/-- `int(seq_lens_cpu_upper_bound[:num_r].min())` -/
def minBound (batch : Batch KV) : ℕ :=
  (batch.reqs.map BatchReq.seqLenUpperBound).min?.getD 0

/-- The host-side test that every active request is deeper than the window. -/
def deep (cfg : RingConfig) (batch : Batch KV) : Bool :=
  decide (minBound batch > cfg.window + cfg.numQueryPerReq)

end SparkKit.Ring.Inputs
