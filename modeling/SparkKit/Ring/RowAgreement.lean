import SparkKit.Ring.Mask

/-!
# Which mask row ring attention applies

Two questions about one run of propose calls. Is the mask row read at a batch
position the one written for the request there, with its accepted context, and
does a skipped rebuild leave the rows a rebuild would have written? Neither holds
for every run; each is shown equivalent to a condition on the history and the batch.
-/
namespace SparkKit.Ring.RowAgreement

open SparkKit.Lib.Scatter SparkKit.Lib.History
open SparkKit.Ring.Inputs SparkKit.Ring.Mask

variable {KV : Type*}

/-- The number of ring slots that hold accepted context of the request. -/
def acceptedLen (cfg : RingConfig) (q : BatchReq KV) : ℕ :=
  min (q.seqLen - q.numRejected) cfg.window

/-- What attention uses at one batch position is the request's own: the keys of its row, the
mask row of its row, last written for it, and in that the slots below
`min (seq_len - num_rejected) W` and no others. -/
structure ReadsOwn (cfg : RingConfig) (q : BatchReq KV) (read : RingRead) : Prop where
  keys : read.ringRow = q.row
  maskRow : read.maskRow = q.row
  writtenFor : read.writtenFor = some q.reqId
  exposes : ∀ s, s < cfg.window →
    (read.mask s = .zero ↔ (s : ℤ) < min ((q.seqLen : ℤ) - q.numRejected) cfg.window)

def RowsAgree (cfg : RingConfig) (history : List (Batch KV)) (batch : Batch KV) : Prop :=
  ∀ b q, batch.reqs[b]? = some q →
    ReadsOwn cfg q (ringAttention (runPropose cfg (history ++ [batch])) b)

/-- Every request sits at the batch position with the number of its state row, and the length
in its mask row is the one it needs: the length this step writes, or where the rebuild is
skipped the one last written, which must have been written for this request. -/
def RowMatches (cfg : RingConfig) (history : List (Batch KV)) (batch : Batch KV) : Prop :=
  ∀ b q, batch.reqs[b]? = some q → q.row = b ∧
    if SkipsRebuild cfg history batch then
      lastWrittenFor cfg history b = some q.reqId ∧ lastWritten cfg history b = acceptedLen cfg q
    else validLen cfg q = acceptedLen cfg q

theorem summaryOf_concat (cfg : RingConfig) (history : List (Batch KV)) (batch : Batch KV) :
    summaryOf cfg (history ++ [batch]) = summaryStep cfg (summaryOf cfg history) batch :=
  runFrom_concat ..

theorem runPropose_concat (cfg : RingConfig) (history : List (Batch KV)) (batch : Batch KV) :
    runPropose cfg (history ++ [batch]) = propose cfg (runPropose cfg history) batch :=
  runFrom_concat ..

theorem summaryOf_skip {cfg : RingConfig} {history : List (Batch KV)} {batch : Batch KV}
    (h : SkipsRebuild cfg history batch) :
    summaryOf cfg (history ++ [batch]) = summaryOf cfg history :=
  (summaryOf_concat cfg history batch).trans (if_pos h)

theorem summaryOf_rebuild {cfg : RingConfig} {history : List (Batch KV)} {batch : Batch KV}
    (h : ¬ SkipsRebuild cfg history batch) :
    (summaryOf cfg (history ++ [batch])).written =
        scatter (batch.reqs.map fun q => (q.row, validLen cfg q)) (lastWritten cfg history) ∧
      (summaryOf cfg (history ++ [batch])).writtenFor =
        rebuildOwners batch (lastWrittenFor cfg history) := by
  rw [summaryOf_concat]
  exact ⟨congrArg MaskSummary.written (if_neg h), congrArg MaskSummary.writtenFor (if_neg h)⟩

theorem lastWritten_le (cfg : RingConfig) (history : List (Batch KV)) (r : ℕ) :
    lastWritten cfg history r ≤ cfg.window := (summarises_run cfg history).bounded r

theorem lastWritten_of_skip {cfg : RingConfig} {history : List (Batch KV)} {batch : Batch KV}
    (h : SkipsRebuild cfg history batch) (r : ℕ) :
    lastWritten cfg (history ++ [batch]) r = lastWritten cfg history r := by
  rw [lastWritten, summaryOf_skip h, lastWritten]

theorem lastWritten_of_rebuild {cfg : RingConfig} {history : List (Batch KV)} {batch : Batch KV}
    (h : ¬ SkipsRebuild cfg history batch) {q : BatchReq KV} (hq : q ∈ batch.reqs) :
    lastWritten cfg (history ++ [batch]) q.row = validLen cfg q := by
  rw [lastWritten, (summaryOf_rebuild h).1]
  exact scatter_row batch _ _ hq

theorem lastWritten_of_absent {cfg : RingConfig} {history : List (Batch KV)} {batch : Batch KV}
    {r : ℕ} (hr : ∀ q ∈ batch.reqs, q.row ≠ r) :
    lastWritten cfg (history ++ [batch]) r = lastWritten cfg history r := by
  by_cases h : SkipsRebuild cfg history batch
  · exact lastWritten_of_skip h r
  · rw [lastWritten, (summaryOf_rebuild h).1]
    exact scatter_other batch _ _ hr

/-- The length standing in mask row `b` when a step drafts: written by that step for the
request on state row `b`, or left from before. -/
def standingLength (cfg : RingConfig) (history : List (Batch KV)) (batch : Batch KV) (b : ℕ) : ℕ :=
  match batch.reqs.find? (fun p => p.row = b) with
  | some p => if SkipsRebuild cfg history batch then lastWritten cfg history b else validLen cfg p
  | none => lastWritten cfg history b

theorem lastWritten_concat (cfg : RingConfig) (history : List (Batch KV)) (batch : Batch KV)
    (b : ℕ) : lastWritten cfg (history ++ [batch]) b = standingLength cfg history batch b := by
  unfold standingLength
  cases hf : batch.reqs.find? (fun p => p.row = b) with
  | none =>
    have hno : ∀ p ∈ batch.reqs, p.row ≠ b := fun p hp => by
      simpa using List.find?_eq_none.mp hf p hp
    exact lastWritten_of_absent hno
  | some p =>
    have hp : p ∈ batch.reqs := List.mem_of_find?_eq_some hf
    have hpb : p.row = b := by simpa using List.find?_some hf
    subst hpb
    by_cases hskip : SkipsRebuild cfg history batch
    · simp only [hskip, if_true, lastWritten_of_skip hskip]
    · simp only [hskip, if_false, lastWritten_of_rebuild hskip hp]

theorem lastWrittenFor_of_skip {cfg : RingConfig} {history : List (Batch KV)} {batch : Batch KV}
    (h : SkipsRebuild cfg history batch) (r : ℕ) :
    lastWrittenFor cfg (history ++ [batch]) r = lastWrittenFor cfg history r := by
  rw [lastWrittenFor, summaryOf_skip h, lastWrittenFor]

theorem lastWrittenFor_of_rebuild {cfg : RingConfig} {history : List (Batch KV)}
    {batch : Batch KV} (h : ¬ SkipsRebuild cfg history batch) {q : BatchReq KV}
    (hq : q ∈ batch.reqs) : lastWrittenFor cfg (history ++ [batch]) q.row = some q.reqId := by
  rw [lastWrittenFor, (summaryOf_rebuild h).2]
  exact scatter_row batch _ _ hq

/-- The mask row read at position `b` exposes the slots below one length exactly when
that length is the one standing there. -/
theorem exposes_iff (cfg : RingConfig) (history : List (Batch KV)) (b : ℕ) {n : ℕ}
    (hn : n ≤ cfg.window) :
    (∀ s, s < cfg.window → ((runPropose cfg history).attnMask b s = .zero ↔ s < n)) ↔
      lastWritten cfg history b = n := by
  have hsum := summarises_run cfg history
  have hle := lastWritten_le cfg history b
  constructor
  · intro h
    have hiff : ∀ s, s < cfg.window → (s < lastWritten cfg history b ↔ s < n) := fun s hs =>
      (hsum.window b s hs).symm.trans (h s hs)
    by_contra hne
    rcases Nat.lt_or_gt_of_ne hne with hlt | hgt
    · exact absurd ((hiff _ (by omega)).mpr hlt) (Nat.lt_irrefl _)
    · exact absurd ((hiff n (by omega)).mp hgt) (Nat.lt_irrefl _)
  · rintro rfl s hs
    exact hsum.window b s hs

theorem acceptedLen_spec (cfg : RingConfig) (q : BatchReq KV) (s : ℕ) :
    (s : ℤ) < min ((q.seqLen : ℤ) - q.numRejected) cfg.window ↔ s < acceptedLen cfg q := by
  unfold acceptedLen
  omega

theorem queryRows_propose (cfg : RingConfig) (ctx : RingCtx) (batch : Batch KV) {b : ℕ}
    {q : BatchReq KV} (hq : batch.reqs[b]? = some q) :
    (propose cfg ctx batch).queryRows b = q.row := by
  simp [propose, hq]

/-- One position reads its own rows exactly when the row there carries its number, was last
written for its request, and holds the length that request needs. -/
theorem readsOwn_iff (cfg : RingConfig) (history : List (Batch KV)) (batch : Batch KV) {b : ℕ}
    {q : BatchReq KV} (hq : batch.reqs[b]? = some q) :
    ReadsOwn cfg q (ringAttention (runPropose cfg (history ++ [batch])) b) ↔
      q.row = b ∧ lastWrittenFor cfg (history ++ [batch]) b = some q.reqId ∧
        lastWritten cfg (history ++ [batch]) b = acceptedLen cfg q := by
  have hkeys : (runPropose cfg (history ++ [batch])).queryRows b = q.row := by
    rw [runPropose_concat]
    exact queryRows_propose cfg _ batch hq
  have howner : (runPropose cfg (history ++ [batch])).writtenFor b =
      lastWrittenFor cfg (history ++ [batch]) b :=
    congrFun (summarises_run cfg (history ++ [batch])).writtenFor b
  have hexp := exposes_iff cfg (history ++ [batch]) b (n := acceptedLen cfg q) (Nat.min_le_right _ _)
  constructor
  · intro h
    refine ⟨h.maskRow.symm, howner.symm.trans h.writtenFor, hexp.mp fun s hs => ?_⟩
    rw [← acceptedLen_spec]
    exact h.exposes s hs
  · rintro ⟨hrow, hfor, hlen⟩
    refine ⟨hkeys, hrow.symm, howner.trans hfor, fun s hs => ?_⟩
    rw [acceptedLen_spec]
    exact hexp.mpr hlen s hs

/-- One step agrees at every batch position exactly when its rows match. -/
theorem rowsAgree_iff (cfg : RingConfig) (history : List (Batch KV)) (batch : Batch KV) :
    RowsAgree cfg history batch ↔ RowMatches cfg history batch := by
  refine forall_congr' fun b => forall_congr' fun q => forall_congr' fun hq => ?_
  rw [readsOwn_iff cfg history batch hq]
  refine and_congr_right fun hrow => ?_
  subst hrow
  have hmem : q ∈ batch.reqs := List.mem_of_getElem? hq
  by_cases hskip : SkipsRebuild cfg history batch
  · rw [if_pos hskip, lastWrittenFor_of_skip hskip, lastWritten_of_skip hskip]
  · rw [if_neg hskip, lastWrittenFor_of_rebuild hskip hmem, lastWritten_of_rebuild hskip hmem]
    exact and_iff_right rfl

/-- A run of propose calls applies each request's own mask row, with its own length, at every
batch position of every step exactly when the rows match at every step. -/
theorem ring_rows_agree_iff (cfg : RingConfig) (steps : List (Batch KV)) :
    EveryStep (RowsAgree cfg) steps ↔ EveryStep (RowMatches cfg) steps :=
  everyStep_congr (rowsAgree_iff cfg) steps

/-- Two requests on each other's batch positions read each other's mask rows. -/
theorem ring_rows_disagree :
    ¬ ∀ (cfg : RingConfig) (steps : List (Batch Unit)), EveryStep (RowsAgree cfg) steps := by
  intro h
  let cfg : RingConfig := { window := 4, numQueryPerReq := 2, window_pos := by decide }
  let batch : Batch Unit :=
    { reqs := [⟨7, 1, 2, 2, 0, 0, [(), ()]⟩, ⟨8, 0, 4, 4, 0, 0, [(), (), (), ()]⟩]
      nonempty := by decide
      rows_nodup := by decide }
  have hagree := h cfg [batch] [] batch (List.prefix_refl _) 0 ⟨7, 1, 2, 2, 0, 0, [(), ()]⟩ rfl
  have hslot := (hagree.exposes 2 (by decide)).mp (by decide)
  exact absurd hslot (by decide)

/-- With `idx_mapping` the identity, the flag on and a rebuild, the rows agree. -/
theorem rowsAgree_of_identity {cfg : RingConfig} {history : List (Batch KV)} {batch : Batch KV}
    (hexcl : cfg.ringMaskExclRejected = true) (hreb : ¬ SkipsRebuild cfg history batch)
    (hid : ∀ (b : ℕ) (q : BatchReq KV), batch.reqs[b]? = some q → q.row = b) :
    RowsAgree cfg history batch := by
  rw [rowsAgree_iff]
  intro b q hq
  refine ⟨hid b q hq, ?_⟩
  rw [if_neg hreb]
  simp only [validLen, hexcl, if_true, acceptedLen]
  omega

/-! ## Skipping the rebuild -/

/-- The step leaves, for every active request, the mask row an unconditional rebuild
in that step would have written. -/
def SkipSound (cfg : RingConfig) (history : List (Batch KV)) (batch : Batch KV) : Prop :=
  ∀ q ∈ batch.reqs, ∀ s,
    (runPropose cfg (history ++ [batch])).attnMask q.row s =
      rebuildMask cfg batch (runPropose cfg history).attnMask q.row s

/-- A skipping step finds, on every active row, the length that row's request has now. -/
def RowsCurrent (cfg : RingConfig) (history : List (Batch KV)) (batch : Batch KV) : Prop :=
  SkipsRebuild cfg history batch →
    ∀ q ∈ batch.reqs, lastWritten cfg history q.row = validLen cfg q

theorem attnMask_of_rebuild {cfg : RingConfig} {history : List (Batch KV)} {batch : Batch KV}
    (h : ¬ SkipsRebuild cfg history batch) :
    (runPropose cfg (history ++ [batch])).attnMask =
      rebuildMask cfg batch (runPropose cfg history).attnMask := by
  have hs := (summarises_run cfg history).steady
  rw [runPropose_concat]
  unfold propose
  rw [if_neg]
  rw [hs]
  exact h

theorem attnMask_of_skip {cfg : RingConfig} {history : List (Batch KV)} {batch : Batch KV}
    (h : SkipsRebuild cfg history batch) :
    (runPropose cfg (history ++ [batch])).attnMask = (runPropose cfg history).attnMask := by
  have hs := (summarises_run cfg history).steady
  rw [runPropose_concat]
  unfold propose
  rw [if_pos]
  rw [hs]
  exact h

theorem maskValue_eq_iff (a b : MaskValue) : a = b ↔ (a = .zero ↔ b = .zero) := by
  cases a <;> cases b <;> simp

/-- One step is as good as a rebuild exactly when its rows were current. -/
theorem skipSound_iff (cfg : RingConfig) (history : List (Batch KV)) (batch : Batch KV) :
    SkipSound cfg history batch ↔ RowsCurrent cfg history batch := by
  by_cases hskip : SkipsRebuild cfg history batch
  · simp only [SkipSound, RowsCurrent, hskip, true_imp_iff, attnMask_of_skip hskip]
    refine forall_congr' fun q => forall_congr' fun hq => ?_
    rw [← exposes_iff cfg history q.row (validLen_le cfg q)]
    refine forall_congr' fun s => ?_
    rw [rebuildMask_row cfg batch _ hq]
    by_cases hs : s < cfg.window
    · simp only [hs, if_true, true_imp_iff]
      rw [maskValue_eq_iff, winMask_eq_zero]
    · simp only [hs, if_false, false_imp_iff]
  · simp only [SkipSound, RowsCurrent, hskip, attnMask_of_rebuild hskip, implies_true,
      false_imp_iff]

/-- Along a run every step leaves the rows a rebuild would have written exactly when
every skipping step finds its rows current. -/
theorem mask_skip_sound_iff (cfg : RingConfig) (steps : List (Batch KV)) :
    EveryStep (SkipSound cfg) steps ↔ EveryStep (RowsCurrent cfg) steps :=
  everyStep_congr (skipSound_iff cfg) steps

/-- A short request leaves its row, a long one sets the flag, and a new long request
takes the row over without a rebuild. -/
theorem mask_skip_unsound :
    ¬ ∀ (cfg : RingConfig) (steps : List (Batch Unit)), EveryStep (SkipSound cfg) steps := by
  intro h
  let cfg : RingConfig := { window := 2, numQueryPerReq := 1, window_pos := by decide }
  let short : Batch Unit :=
    { reqs := [⟨4, 1, 1, 1, 0, 0, [()]⟩], nonempty := by decide, rows_nodup := by decide }
  let long : Batch Unit :=
    { reqs := [⟨5, 0, 9, 9, 0, 8, [()]⟩], nonempty := by decide, rows_nodup := by decide }
  let reuse : Batch Unit :=
    { reqs := [⟨6, 1, 9, 9, 0, 0, List.replicate 9 ()⟩], nonempty := by decide,
      rows_nodup := by decide }
  have hsound := h cfg [short, long, reuse] [short, long] reuse (List.prefix_refl _)
    ⟨6, 1, 9, 9, 0, 0, List.replicate 9 ()⟩ (List.mem_singleton.mpr rfl) 1
  exact absurd hsound (by decide)

end SparkKit.Ring.RowAgreement
