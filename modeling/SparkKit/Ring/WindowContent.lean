import SparkKit.Ring.Ingest

/-!
# What a ring row holds

Along every run of joins and ingests each row holds the end of its request's accepted
stream, whatever the chunk sizes and the rejections, and one ingest's result does not
depend on the order of its writes.
-/
namespace SparkKit.Ring.WindowContent

open SparkKit.Lib.Scatter SparkKit.Lib.RingWindow
open SparkKit.Ring.Inputs SparkKit.Ring.Ingest

variable {KV : Type*}

/-- Rejected tokens and tokens older than the window only write the trash slot. -/
def TrashOnly (cfg : RingConfig) (batch : Batch KV) : Prop :=
  ∀ q ∈ batch.reqs, ∀ j, j < q.kv.length →
    q.kv.length ≤ j + q.numRejected ∨ j + cfg.window + q.numRejected < q.kv.length →
    slotOf cfg batch q j = cfg.window

/-- The in-window writes hit distinct places, so every order of them gives one result. -/
def OrderIrrelevant (cfg : RingConfig) (batch : Batch KV) : Prop :=
  (((ringWrites cfg (stepTokens cfg batch)).map Prod.fst).filter
    fun place => place.2 ≠ cfg.window).Nodup ∧
  ∀ ring ring₁ ring₂, RingIngest cfg batch ring ring₁ → RingIngest cfg batch ring ring₂ →
    ∀ r slot, slot ≠ cfg.window → ring₁ (r, slot) = ring₂ (r, slot)

/-- The content invariant at a state, and the write discipline of any ingest from it. -/
def RingContent (cfg : RingConfig) (s : RingState KV) : Prop :=
  HoldsWindow cfg s ∧
  ∀ batch, Continues s.logs batch → TrashOnly cfg batch ∧ OrderIrrelevant cfg batch

theorem logIngest_row {batch : Batch KV} (logs : ℕ → RowLog KV) {q : BatchReq KV}
    (hq : q ∈ batch.reqs) :
    logIngest batch logs q.row =
      { logs q.row with kvs := (logs q.row).kvs ++ accepted q } :=
  scatter_row batch _ logs hq

theorem logIngest_other {batch : Batch KV} (logs : ℕ → RowLog KV) {r : ℕ}
    (hr : ∀ q ∈ batch.reqs, q.row ≠ r) : logIngest batch logs r = logs r :=
  scatter_other batch _ logs hr

section
variable {cfg : RingConfig} (hdrop : cfg.ringDropRejected = true) (hW : cfg.window ≤ 2 ^ 40)
include hdrop hW

theorem trashOnly (batch : Batch KV)
    (hrej : ∀ q ∈ batch.reqs, q.numRejected < q.kv.length) : TrashOnly cfg batch := by
  intro q hq j hj hout
  rw [slotOf_eq hdrop hW batch hq (hrej q hq), if_neg (by omega)]

theorem orderIrrelevant (batch : Batch KV)
    (hrej : ∀ q ∈ batch.reqs, q.numRejected < q.kv.length) : OrderIrrelevant cfg batch := by
  refine ⟨inWindow_nodup hdrop hW batch hrej, ?_⟩
  rintro ring _ _ ⟨order₁, hp₁, rfl⟩ ⟨order₂, hp₂, rfl⟩ r slot hslot
  refine scatter_perm (hp₁.trans hp₂.symm) (fun u v hu hv => ?_) ring
  exact ringWrites_unique hdrop hW hrej hslot u v (hp₁.mem_iff.mp hu) (hp₁.mem_iff.mp hv)

/-- After an ingest an accepted in-window token stands in its slot. -/
theorem ingest_new {batch : Batch KV} {ring ring' : ℕ × ℕ → KV}
    (hrej : ∀ q ∈ batch.reqs, q.numRejected < q.kv.length)
    (h : RingIngest cfg batch ring ring') {q : BatchReq KV} (hq : q ∈ batch.reqs) {j : ℕ}
    (hj : j + q.numRejected < q.kv.length) (hwin : q.kv.length ≤ j + cfg.window + q.numRejected) :
    ring' (q.row, (q.startPos + j) % cfg.window) = q.kv[j] := by
  obtain ⟨order, hperm, rfl⟩ := h
  have hslot : slotOf cfg batch q j = (q.startPos + j) % cfg.window := by
    rw [slotOf_eq hdrop hW batch hq (hrej q hq), if_pos ⟨hj, hwin⟩]
  have hlt : (q.startPos + j) % cfg.window < cfg.window := Nat.mod_lt _ cfg.window_pos
  have hmem : ((q.row, (q.startPos + j) % cfg.window), q.kv[j]) ∈
      ringWrites cfg (stepTokens cfg batch) :=
    mem_ringWrites.mpr ⟨q, hq, j, by omega, by rw [hslot]⟩
  refine scatter_of_unique (hperm.mem_iff.mpr hmem) (fun u hu => ?_) ring
  exact ringWrites_unique hdrop hW hrej (by omega) _ _ (hperm.mem_iff.mp hu) hmem

/-- A ring slot that no accepted in-window token maps to is left alone. -/
theorem ingest_keep {batch : Batch KV} {ring ring' : ℕ × ℕ → KV}
    (hrej : ∀ q ∈ batch.reqs, q.numRejected < q.kv.length)
    (h : RingIngest cfg batch ring ring') {r c : ℕ} (hc : c < cfg.window)
    (hfree : ∀ q ∈ batch.reqs, q.row = r → ∀ j, j + q.numRejected < q.kv.length →
      q.kv.length ≤ j + cfg.window + q.numRejected → (q.startPos + j) % cfg.window ≠ c) :
    ring' (r, c) = ring (r, c) := by
  obtain ⟨order, hperm, rfl⟩ := h
  refine scatter_of_notMem (fun v hv => ?_) ring
  obtain ⟨q, hq, j, hj, he⟩ := mem_ringWrites.mp (hperm.mem_iff.mp hv)
  simp only [Prod.mk.injEq] at he
  obtain ⟨⟨hrow, hslot⟩, -⟩ := he
  rw [slotOf_eq hdrop hW batch hq (hrej q hq)] at hslot
  split at hslot
  · rename_i hwin
    exact hfree q hq hrow j hwin.1 hwin.2 hslot
  · omega

/-- One ingest keeps the content invariant. -/
theorem holdsWindow_ingest {s : RingState KV} {batch : Batch KV} {ring' : ℕ × ℕ → KV}
    (hs : HoldsWindow cfg s) (hcont : Continues s.logs batch)
    (hring : RingIngest cfg batch s.ring ring') :
    HoldsWindow cfg { ring := ring', logs := logIngest batch s.logs } := by
  have hrej : ∀ q ∈ batch.reqs, q.numRejected < q.kv.length := fun q hq => (hcont q hq).2
  intro r
  by_cases hr : ∃ q ∈ batch.reqs, q.row = r
  · obtain ⟨q, hq, rfl⟩ := hr
    have hstart := (hcont q hq).1
    have hlen : (accepted q).length = q.kv.length - q.numRejected := by
      simp only [accepted, List.length_take]
      omega
    show Holds _ (logIngest batch s.logs q.row).base (logIngest batch s.logs q.row).kvs _
    rw [logIngest_row s.logs hq]
    refine (hs q.row).append cfg.window_pos (fun j hj hwin => ?_) (fun c hc hfree => ?_)
    · rw [← hstart]
      have hnew := ingest_new hdrop hW hrej hring hq (j := j) (by omega) (by omega)
      simpa only [accepted, List.getElem_take] using hnew
    · refine ingest_keep hdrop hW hrej hring hc fun p hp hrow j hj hwin => ?_
      obtain rfl := eq_of_row_eq batch hp hq hrow
      rw [hstart]
      exact hfree j (by omega) (by omega)
  · have hno : ∀ q ∈ batch.reqs, q.row ≠ r := fun q hq he => hr ⟨q, hq, he⟩
    show Holds _ (logIngest batch s.logs r).base (logIngest batch s.logs r).kvs _
    rw [logIngest_other s.logs hno]
    intro i hi hwin
    rw [← hs r i hi hwin]
    exact ingest_keep hdrop hW hrej hring (Nat.mod_lt _ cfg.window_pos)
      fun q hq hrow => absurd hrow (hno q hq)

theorem holdsWindow_step {s s' : RingState KV} (hs : HoldsWindow cfg s)
    (h : RingStep cfg s s') : HoldsWindow cfg s' := by
  cases h with
  | join row base =>
    intro r
    by_cases hr : r = row
    · subst hr
      simpa using holds_nil cfg.window base _
    · simpa [Function.update_of_ne hr] using hs r
  | ingest batch ring' hcont hring => exact holdsWindow_ingest hdrop hW hs hcont hring

theorem holdsWindow_reachable {s : RingState KV} (h : Reachable cfg s) : HoldsWindow cfg s := by
  obtain ⟨ring, hrun⟩ := h
  induction hrun with
  | refl => exact fun r => holds_nil _ _ _
  | tail _ hstep ih => exact holdsWindow_step hdrop hW ih hstep

end

/-- With rejected tokens dropped and a window no larger than the sentinel's magnitude,
every reachable ring holds its rows' accepted windows and every ingest from it keeps to
the write discipline. -/
theorem ring_content (cfg : RingConfig) (hdrop : cfg.ringDropRejected = true)
    (hW : cfg.window ≤ 2 ^ 40) (s : RingState KV) (hs : Reachable cfg s) :
    RingContent cfg s := by
  refine ⟨holdsWindow_reachable hdrop hW hs, fun batch hcont => ?_⟩
  have hrej : ∀ q ∈ batch.reqs, q.numRejected < q.kv.length := fun q hq => (hcont q hq).2
  exact ⟨trashOnly hdrop hW batch hrej, orderIrrelevant hdrop hW batch hrej⟩

/-- One request on row 0 whose tokens follow `startPos`, the last of them rejected. -/
def oneChunk (startPos : ℕ) (kv : List ℕ) : Batch ℕ where
  reqs := [⟨0, 0, startPos + kv.length, startPos + kv.length, 1, startPos, kv⟩]
  nonempty := by simp
  rows_nodup := by simp

/-- A four-token chunk wraps a two-slot ring and its last token is rejected. -/
theorem ring_content_chunk :
    let cfg : RingConfig := { window := 2, numQueryPerReq := 1, window_pos := by decide }
    let batch := oneChunk 0 [10, 11, 12, 13]
    let ring := scatter (ringWrites cfg (stepTokens cfg batch)) fun _ => 0
    RingContent cfg { ring, logs := logIngest batch fun _ => ⟨0, []⟩ } ∧
      ring (0, 0) = 12 ∧ ring (0, 1) = 11 := by
  refine ⟨ring_content _ rfl (by decide) _ ⟨fun _ => 0, .single ?_⟩, by decide, by decide⟩
  refine .ingest _ _ _ (fun q hq => ?_) ⟨_, .refl _, rfl⟩
  obtain rfl := List.mem_singleton.mp hq
  decide

/-- With the drop switched off a rejected token takes a ring slot; so it does when the
window is larger than the sentinel's magnitude. -/
theorem ring_content_fails :
    (¬ ∀ s : RingState ℕ,
      Reachable { window := 2, numQueryPerReq := 1, ringDropRejected := false,
                  window_pos := by decide } s →
      RingContent { window := 2, numQueryPerReq := 1, ringDropRejected := false,
                    window_pos := by decide } s) ∧
    ¬ ∀ s : RingState ℕ,
      Reachable { window := 2 ^ 40 + 2, numQueryPerReq := 1, window_pos := by decide } s →
      RingContent { window := 2 ^ 40 + 2, numQueryPerReq := 1, window_pos := by decide } s := by
  have hcont : Continues (fun _ => ⟨0, []⟩) (oneChunk 0 [10, 11]) := by
    intro q hq
    obtain rfl := List.mem_singleton.mp hq
    decide
  constructor
  · intro h
    have htrash := ((h { ring := fun _ => 0, logs := fun _ => ⟨0, []⟩ } ⟨_, .refl⟩).2 _ hcont).1
    exact absurd (htrash _ (List.mem_singleton.mpr rfl) 1 (by decide) (.inl (by decide))) (by decide)
  · intro h
    have htrash := ((h { ring := fun _ => 0, logs := fun _ => ⟨0, []⟩ } ⟨_, .refl⟩).2 _ hcont).1
    exact absurd (htrash _ (List.mem_singleton.mpr rfl) 1 (by decide) (.inl (by decide))) (by decide)

end SparkKit.Ring.WindowContent
