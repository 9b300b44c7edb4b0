import Mathlib.Logic.Relation
import SparkKit.Lib.Scatter
import SparkKit.Lib.RingWindow
import SparkKit.Ring.Inputs

/-!
# Ring ingest

`propose` marks rejected tokens with a far negative position and `ring_ingest` sends
them, with everything older than the window, to the trash slot. The scatter of one
ingest has no defined order, so its result is any permutation of the writes. A log
per state row records what the row's request has had accepted; it is not in the code.
-/
namespace SparkKit.Ring.Ingest

open SparkKit.Lib.Scatter SparkKit.Lib.RingWindow
open SparkKit.Ring.Inputs

variable {KV : Type*}

structure Token (KV : Type*) where
  row : ℕ
  pos : ℤ
  kv : KV

/-- `-(1 << 40)` -/
def rejectedPos : ℤ := -(2 ^ 40)

/-- The ingest position of token `j` of a request whose tokens start at `start` in the
flattened step; `tok`, `seg_end` and `rej_start` are flattened indices. -/
def ctxPosition (cfg : RingConfig) (q : BatchReq KV) (start j : ℕ) : ℤ :=
  let tok : ℤ := start + j
  let segEnd : ℤ := start + q.kv.length
  let rejStart : ℤ := segEnd - q.numRejected
  if cfg.ringDropRejected ∧ tok ≥ rejStart then rejectedPos else q.startPos + j

/-- `ctx_rows`, the ingest positions and the projected pairs of one step. -/
def ctxTokens (cfg : RingConfig) : ℕ → List (BatchReq KV) → List (Token KV)
  | _, [] => []
  | start, q :: qs =>
      q.kv.mapIdx (fun j kv => ⟨q.row, ctxPosition cfg q start j, kv⟩) ++
        ctxTokens cfg (start + q.kv.length) qs

def stepTokens (cfg : RingConfig) (batch : Batch KV) : List (Token KV) :=
  ctxTokens cfg 0 batch.reqs

/-- `scatter_reduce_(amax, include_self=False)` over a zero tensor. -/
def rowMax (toks : List (Token KV)) (r : ℕ) : ℤ :=
  ((toks.filter fun t => t.row = r).map Token.pos).max?.getD 0

/-- The slot a token is written to: its residue inside the window, else the trash slot. -/
def ringSlot (cfg : RingConfig) (toks : List (Token KV)) (row : ℕ) (pos : ℤ) : ℕ :=
  if pos > rowMax toks row - cfg.window then (pos % cfg.window).toNat else cfg.window

def ringWrites (cfg : RingConfig) (toks : List (Token KV)) : List ((ℕ × ℕ) × KV) :=
  toks.map fun t => ((t.row, ringSlot cfg toks t.row t.pos), t.kv)

/-- `ring_k[rows, slots] = kk`: duplicate indices make the write order undefined. -/
def RingIngest (cfg : RingConfig) (batch : Batch KV) (ring ring' : ℕ × ℕ → KV) : Prop :=
  ∃ order, order.Perm (ringWrites cfg (stepTokens cfg batch)) ∧ ring' = scatter order ring

/-! ## Runs of ingests -/

/-- The accepted tokens of the request now on a row, from its first ingested position. -/
structure RowLog (KV : Type*) where
  base : ℕ
  kvs : List KV

structure RingState (KV : Type*) where
  ring : ℕ × ℕ → KV
  logs : ℕ → RowLog KV

def accepted (q : BatchReq KV) : List KV := q.kv.take (q.kv.length - q.numRejected)

def logIngest (batch : Batch KV) (logs : ℕ → RowLog KV) : ℕ → RowLog KV :=
  scatter (batch.reqs.map fun q =>
    (q.row, { logs q.row with kvs := (logs q.row).kvs ++ accepted q })) logs

/-- Each chunk starts right after its request's last accepted position and keeps at
least one token. -/
def Continues (logs : ℕ → RowLog KV) (batch : Batch KV) : Prop :=
  ∀ q ∈ batch.reqs, q.startPos = (logs q.row).base + (logs q.row).kvs.length ∧
    q.numRejected < q.kv.length

/-- A request joins a row at any position, or one step is ingested. -/
inductive RingStep (cfg : RingConfig) : RingState KV → RingState KV → Prop
  | join (s : RingState KV) (row base : ℕ) :
      RingStep cfg s { s with logs := Function.update s.logs row ⟨base, []⟩ }
  | ingest (s : RingState KV) (batch : Batch KV) (ring' : ℕ × ℕ → KV)
      (hcont : Continues s.logs batch) (hring : RingIngest cfg batch s.ring ring') :
      RingStep cfg s { ring := ring', logs := logIngest batch s.logs }

/-- The states reached from empty logs, whatever the ring buffers held. -/
def Reachable (cfg : RingConfig) (s : RingState KV) : Prop :=
  ∃ ring, Relation.ReflTransGen (RingStep cfg) { ring, logs := fun _ => ⟨0, []⟩ } s

/-- Every row holds the last `min W n` accepted positions of its request. -/
def HoldsWindow (cfg : RingConfig) (s : RingState KV) : Prop :=
  ∀ r, Holds cfg.window (s.logs r).base (s.logs r).kvs fun slot => s.ring (r, slot)

/-- The slot of token `j` of a request in a step's scatter. -/
def slotOf (cfg : RingConfig) (batch : Batch KV) (q : BatchReq KV) (j : ℕ) : ℕ :=
  ringSlot cfg (stepTokens cfg batch) q.row (ctxPosition cfg q 0 j)

/-! ## One scatter -/

theorem ctxPosition_start (cfg : RingConfig) (q : BatchReq KV) (start j : ℕ) :
    ctxPosition cfg q start j = ctxPosition cfg q 0 j := by
  have h : ((start : ℤ) + j ≥ start + q.kv.length - q.numRejected) ↔
      (((0 : ℕ) : ℤ) + j ≥ (0 : ℕ) + q.kv.length - q.numRejected) := by omega
  simp only [ctxPosition, h]

theorem ctxTokens_eq (cfg : RingConfig) (start : ℕ) (qs : List (BatchReq KV)) :
    ctxTokens cfg start qs =
      qs.flatMap fun q => q.kv.mapIdx fun j kv => ⟨q.row, ctxPosition cfg q 0 j, kv⟩ := by
  induction qs generalizing start with
  | nil => rfl
  | cons q qs ih => simp only [ctxTokens, ih, List.flatMap_cons, ctxPosition_start cfg q start]

theorem mem_stepTokens {cfg : RingConfig} {batch : Batch KV} {t : Token KV} :
    t ∈ stepTokens cfg batch ↔
      ∃ q ∈ batch.reqs, ∃ j, ∃ hj : j < q.kv.length, ⟨q.row, ctxPosition cfg q 0 j, q.kv[j]⟩ = t := by
  simp only [stepTokens, ctxTokens_eq, List.mem_flatMap, List.mem_mapIdx]

/-- The writes of one ingest, request by request. -/
theorem ringWrites_eq (cfg : RingConfig) (batch : Batch KV) :
    ringWrites cfg (stepTokens cfg batch) =
      batch.reqs.flatMap fun q => q.kv.mapIdx fun j kv => ((q.row, slotOf cfg batch q j), kv) := by
  unfold ringWrites slotOf
  conv_lhs => rw [stepTokens, ctxTokens_eq, List.map_flatMap]
  simp only [List.mapIdx_eq_zipIdx_map, List.map_map, Function.comp_def, stepTokens, ctxTokens_eq]

theorem mem_ringWrites {cfg : RingConfig} {batch : Batch KV} {w : (ℕ × ℕ) × KV} :
    w ∈ ringWrites cfg (stepTokens cfg batch) ↔
      ∃ q ∈ batch.reqs, ∃ j, ∃ hj : j < q.kv.length, ((q.row, slotOf cfg batch q j), q.kv[j]) = w := by
  simp only [ringWrites_eq, List.mem_flatMap, List.mem_mapIdx]

theorem ctxPosition_zero (cfg : RingConfig) (q : BatchReq KV) (j : ℕ) :
    ctxPosition cfg q 0 j =
      if cfg.ringDropRejected ∧ q.kv.length ≤ j + q.numRejected then rejectedPos
      else q.startPos + j := by
  have h : (((0 : ℕ) : ℤ) + j ≥ (0 : ℕ) + q.kv.length - q.numRejected) ↔
      q.kv.length ≤ j + q.numRejected := by omega
  simp only [ctxPosition, h]

theorem ctxPosition_eq {cfg : RingConfig} (hdrop : cfg.ringDropRejected = true)
    (q : BatchReq KV) (j : ℕ) :
    ctxPosition cfg q 0 j = if q.kv.length ≤ j + q.numRejected then rejectedPos else q.startPos + j := by
  simp only [ctxPosition_zero, hdrop, true_and]

/-- The number of tokens of a request that are ingested at their own positions. -/
def keptLen (cfg : RingConfig) (q : BatchReq KV) : ℕ :=
  if cfg.ringDropRejected then q.kv.length - q.numRejected else q.kv.length

theorem keptLen_pos (cfg : RingConfig) {q : BatchReq KV} (hrej : q.numRejected < q.kv.length) :
    0 < keptLen cfg q := by
  unfold keptLen
  split <;> omega

theorem keptLen_le (cfg : RingConfig) (q : BatchReq KV) : keptLen cfg q ≤ q.kv.length := by
  unfold keptLen
  split <;> omega

theorem ctxPosition_kept (cfg : RingConfig) (q : BatchReq KV) {j : ℕ} (hj : j < q.kv.length) :
    ctxPosition cfg q 0 j = if j < keptLen cfg q then (q.startPos + j : ℤ) else rejectedPos := by
  rw [ctxPosition_zero, keptLen]
  cases cfg.ringDropRejected
  · simp [hj]
  · by_cases hend : q.kv.length ≤ j + q.numRejected
    · rw [if_pos ⟨rfl, hend⟩, if_pos rfl, if_neg (by omega)]
    · rw [if_neg (fun h => hend h.2), if_pos rfl, if_pos (by omega)]

/-- A row's maximal position is the last kept one of the request on it. -/
theorem rowMax_kept (cfg : RingConfig) (batch : Batch KV) {q : BatchReq KV} (hq : q ∈ batch.reqs)
    (hrej : q.numRejected < q.kv.length) :
    rowMax (stepTokens cfg batch) q.row = q.startPos + keptLen cfg q - 1 := by
  have hkept := keptLen_pos cfg hrej
  have hle := keptLen_le cfg q
  have hmem : ∀ x : ℤ, x ∈ ((stepTokens cfg batch).filter fun t => t.row = q.row).map Token.pos ↔
      ∃ j, j < q.kv.length ∧ ctxPosition cfg q 0 j = x := by
    intro x
    simp only [List.mem_map, List.mem_filter, mem_stepTokens, decide_eq_true_eq]
    constructor
    · rintro ⟨t, ⟨⟨p, hp, j, hj, rfl⟩, hrow⟩, rfl⟩
      obtain rfl := eq_of_row_eq batch hp hq hrow
      exact ⟨j, hj, rfl⟩
    · rintro ⟨j, hj, rfl⟩
      exact ⟨_, ⟨⟨q, hq, j, hj, rfl⟩, rfl⟩, rfl⟩
  have hmax : (((stepTokens cfg batch).filter fun t => t.row = q.row).map Token.pos).max? =
      some ((q.startPos : ℤ) + keptLen cfg q - 1) := by
    rw [List.max?_eq_some_iff]
    constructor
    · refine (hmem _).mpr ⟨keptLen cfg q - 1, by omega, ?_⟩
      rw [ctxPosition_kept cfg q (by omega), if_pos (by omega)]
      omega
    · intro x hx
      obtain ⟨j, hj, rfl⟩ := (hmem x).mp hx
      rw [ctxPosition_kept cfg q hj]
      unfold rejectedPos
      split <;> omega
  rw [rowMax, hmax, Option.getD_some]

/-- A row's maximal position is the last accepted one of the request on it. -/
theorem rowMax_eq {cfg : RingConfig} (hdrop : cfg.ringDropRejected = true) (batch : Batch KV)
    {q : BatchReq KV} (hq : q ∈ batch.reqs) (hrej : q.numRejected < q.kv.length) :
    rowMax (stepTokens cfg batch) q.row = q.startPos + (q.kv.length - q.numRejected : ℕ) - 1 := by
  rw [rowMax_kept cfg batch hq hrej, keptLen, if_pos hdrop]

/-- A token keeps its residue exactly when it is one of the last `W` accepted tokens. -/
theorem slotOf_eq {cfg : RingConfig} (hdrop : cfg.ringDropRejected = true)
    (hW : cfg.window ≤ 2 ^ 40) (batch : Batch KV) {q : BatchReq KV} (hq : q ∈ batch.reqs)
    (hrej : q.numRejected < q.kv.length) (j : ℕ) :
    slotOf cfg batch q j =
      if j + q.numRejected < q.kv.length ∧ q.kv.length ≤ j + cfg.window + q.numRejected then
        (q.startPos + j) % cfg.window
      else cfg.window := by
  rw [slotOf, ringSlot, rowMax_eq hdrop batch hq hrej, ctxPosition_eq hdrop]
  by_cases hj : q.kv.length ≤ j + q.numRejected
  · have hfar : ¬ rejectedPos >
        (q.startPos : ℤ) + (q.kv.length - q.numRejected : ℕ) - 1 - cfg.window := by
      unfold rejectedPos
      omega
    rw [if_pos hj, if_neg hfar, if_neg (by omega)]
  · have hwin : (q.startPos + j : ℤ) >
        (q.startPos : ℤ) + (q.kv.length - q.numRejected : ℕ) - 1 - cfg.window ↔
        q.kv.length ≤ j + cfg.window + q.numRejected := by omega
    have hres : ((q.startPos + j : ℤ) % cfg.window).toNat = (q.startPos + j) % cfg.window := by
      rw [← Int.natCast_add, ← Int.natCast_emod, Int.toNat_natCast]
    simp only [if_neg hj, hwin, hres, show j + q.numRejected < q.kv.length by omega, true_and]

/-- Two tokens of one ingest that share a ring slot are the same token. -/
theorem slotOf_inj {cfg : RingConfig} (hdrop : cfg.ringDropRejected = true)
    (hW : cfg.window ≤ 2 ^ 40) (batch : Batch KV) {q : BatchReq KV} (hq : q ∈ batch.reqs)
    (hrej : q.numRejected < q.kv.length) {j j' : ℕ} (hj : slotOf cfg batch q j ≠ cfg.window)
    (hj' : slotOf cfg batch q j' ≠ cfg.window)
    (h : slotOf cfg batch q j = slotOf cfg batch q j') : j = j' := by
  simp only [slotOf_eq hdrop hW batch hq hrej] at hj hj' h
  split at hj
  case isFalse => exact absurd rfl hj
  split at hj'
  case isFalse => exact absurd rfl hj'
  rw [if_pos ‹_›, if_pos ‹_›] at h
  have hpos := eq_of_mod_eq h (by omega) (by omega)
  omega

/-- Two writes of one ingest to one ring slot carry the same pair. -/
theorem ringWrites_unique {cfg : RingConfig} (hdrop : cfg.ringDropRejected = true)
    (hW : cfg.window ≤ 2 ^ 40) {batch : Batch KV}
    (hrej : ∀ q ∈ batch.reqs, q.numRejected < q.kv.length) {r slot : ℕ} (hslot : slot ≠ cfg.window)
    (u v : KV) (hu : ((r, slot), u) ∈ ringWrites cfg (stepTokens cfg batch))
    (hv : ((r, slot), v) ∈ ringWrites cfg (stepTokens cfg batch)) : u = v := by
  obtain ⟨q, hq, j, hj, hwu⟩ := mem_ringWrites.mp hu
  obtain ⟨p, hp, i, hi, hwv⟩ := mem_ringWrites.mp hv
  simp only [Prod.mk.injEq] at hwu hwv
  obtain ⟨⟨rfl, rfl⟩, rfl⟩ := hwu
  obtain ⟨⟨hrow, hsl⟩, rfl⟩ := hwv
  obtain rfl := eq_of_row_eq batch hp hq hrow
  obtain rfl := slotOf_inj hdrop hW batch hq (hrej _ hq) (hsl ▸ hslot) hslot hsl
  rfl

/-- The in-window writes of one ingest go to pairwise distinct places. -/
theorem inWindow_nodup {cfg : RingConfig} (hdrop : cfg.ringDropRejected = true)
    (hW : cfg.window ≤ 2 ^ 40) (batch : Batch KV)
    (hrej : ∀ q ∈ batch.reqs, q.numRejected < q.kv.length) :
    (((ringWrites cfg (stepTokens cfg batch)).map Prod.fst).filter
      fun place => place.2 ≠ cfg.window).Nodup := by
  have hplaces : ∀ q : BatchReq KV,
      ((q.kv.mapIdx fun j kv => ((q.row, slotOf cfg batch q j), kv)).map Prod.fst).filter
          (fun place => place.2 ≠ cfg.window) =
        ((List.range q.kv.length).filter fun j => slotOf cfg batch q j ≠ cfg.window).map
          fun j => (q.row, slotOf cfg batch q j) := by
    intro q
    have hmap : (q.kv.mapIdx fun j kv => ((q.row, slotOf cfg batch q j), kv)).map Prod.fst =
        (List.range q.kv.length).map fun j => (q.row, slotOf cfg batch q j) := by
      rw [List.range_eq_range', ← List.zipIdx_map_snd 0 q.kv, List.mapIdx_eq_zipIdx_map,
        List.map_map, List.map_map]
      rfl
    rw [hmap, List.filter_map]
    rfl
  rw [ringWrites_eq, List.map_flatMap, List.filter_flatMap, List.nodup_flatMap]
  constructor
  · intro q hq
    rw [hplaces]
    refine List.Nodup.map_on ?_ (List.nodup_range.filter _)
    intro j hj i hi h
    have hj := (List.mem_filter.mp hj).2
    have hi := (List.mem_filter.mp hi).2
    exact slotOf_inj hdrop hW batch hq (hrej q hq) (by simpa using hj) (by simpa using hi)
      (congrArg Prod.snd h)
  · refine (List.pairwise_map.mp batch.rows_nodup).imp ?_
    intro p q hpq place hp hq
    simp only [hplaces, List.mem_map] at hp hq
    obtain ⟨j, -, rfl⟩ := hp
    obtain ⟨i, -, h⟩ := hq
    exact hpq (congrArg Prod.fst h).symm

end SparkKit.Ring.Ingest
