import SparkKit.Lib.History
import SparkKit.Lib.Scatter
import SparkKit.Lib.Segments
import SparkKit.Ring.Capture

/-!
# The positions a capture is saved with

The capture hook reads `context_positions`, a buffer the speculator allocates once. The
kernel that copies a batch's target positions into it is launched later in the same call,
and a dummy run that skips attention returns before the launch.
-/
namespace SparkKit.Ring.CapturePositions

open SparkKit.Lib.History SparkKit.Lib.Scatter SparkKit.Lib.Segments SparkKit.Ring.Capture

variable {β : Type}

structure DraftConfig where
  maxNumTokens : ℕ
  maxModelLen : ℕ
  numQueryPerReq : ℕ

/-- What `propose` reads of one call. The batch's token arrays reach past its tokens when
the target ran padded. -/
structure ProposeCall (β : Type) (cfg : DraftConfig) where
  dummyRun : Bool
  skipAttnForDummyRun : Bool
  /-- tokens per request; `query_start_loc` is their running sum -/
  numScheduledTokens : List ℕ
  numRejected : List ℕ
  auxHiddenStates : List (List (List β))
  inputIds : List ℤ
  positions : List ℤ
  epochMs : ℕ
  /-- whether building and writing the record succeeds -/
  saves : Bool
  numTokens_le : numScheduledTokens.sum ≤ cfg.maxNumTokens
  positions_length : numScheduledTokens.sum ≤ positions.length

variable {cfg : DraftConfig}

namespace ProposeCall

def numTokens (call : ProposeCall β cfg) : ℕ := call.numScheduledTokens.sum

def queryStartLoc (call : ProposeCall β cfg) (reqIdx : ℕ) : ℕ :=
  (call.numScheduledTokens.take reqIdx).sum

def position (call : ProposeCall β cfg) (t : ℕ) : ℤ := call.positions.getD t 0

end ProposeCall

/-! ## `prepare_dflash_inputs` -/

def maxTokensPerReq (call : ProposeCall β cfg) : ℕ :=
  call.numScheduledTokens.max?.getD 0 + cfg.numQueryPerReq

def blockSize (call : ProposeCall β cfg) : ℕ :=
  min 256 (Nat.nextPowerOfTwo (max 1 (maxTokensPerReq call)))

def numBlocks (call : ProposeCall β cfg) : ℕ :=
  (maxTokensPerReq call + blockSize call - 1) / blockSize call

/-- The lanes of the programs `(req_idx, 0), (req_idx, 1), ..`. -/
def lanes (call : ProposeCall β cfg) : List ℕ :=
  (List.range (numBlocks call)).flatMap fun blockIdx =>
    (List.range (blockSize call)).map fun lane => blockIdx * blockSize call + lane

def numCtx (call : ProposeCall β cfg) (reqIdx : ℕ) : ℕ :=
  call.queryStartLoc (reqIdx + 1) - call.queryStartLoc reqIdx

/-- The stores of one request's programs to `out_context_positions`, under `is_ctx`. -/
def contextStores (call : ProposeCall β cfg) (reqIdx : ℕ) : List (ℕ × ℤ) :=
  ((lanes call).filter fun j => j < numCtx call reqIdx).map fun j =>
    (call.queryStartLoc reqIdx + j, call.position (call.queryStartLoc reqIdx + j))

/-- The stores of one request's programs to `out_query_positions`, under `is_query`. -/
def queryStores (call : ProposeCall β cfg) (reqIdx : ℕ) : List (ℕ × ℤ) :=
  let validCtxEnd := call.queryStartLoc (reqIdx + 1) - call.numRejected.getD reqIdx 0
  let lastValidPos := call.position (validCtxEnd - 1)
  ((lanes call).filter fun j =>
      numCtx call reqIdx ≤ j ∧ j < numCtx call reqIdx + cfg.numQueryPerReq).map fun j =>
    let queryOff := j - numCtx call reqIdx
    (reqIdx * cfg.numQueryPerReq + queryOff,
      min (lastValidPos + 1 + queryOff) (cfg.maxModelLen - 1))

structure Buffers where
  contextPositions : ℕ → ℤ
  queryPositions : ℕ → ℤ

def contextWrites (call : ProposeCall β cfg) : List (ℕ × ℤ) :=
  (List.range call.numScheduledTokens.length).flatMap (contextStores call)

def prepareDflashInputs (call : ProposeCall β cfg) (buffers : Buffers) : Buffers where
  contextPositions := scatter (contextWrites call) buffers.contextPositions
  queryPositions :=
    scatter ((List.range call.numScheduledTokens.length).flatMap (queryStores call))
      buffers.queryPositions

/-! ## `propose` -/

/-- The speculator between calls, with what it has saved so far and for which call. A call
that raises ends the run. -/
structure Speculator (β : Type) (cfg : DraftConfig) where
  hook : Hook
  buffers : Buffers
  saved : List (ProposeCall β cfg × CaptureFile β)
  raised : Option String

def initSpeculator (settings : Settings) : Speculator β cfg where
  hook := initCapture settings
  buffers := ⟨fun _ => 0, fun _ => 0⟩
  saved := []
  raised := none

/-- The arguments of the capture hook in this call: the positions are the buffer's. -/
def captureCall (buffers : Buffers) (call : ProposeCall β cfg) : Call β where
  dummyRun := call.dummyRun
  numTargetTokens := call.numTokens
  auxHiddenStates := call.auxHiddenStates
  inputIds := call.inputIds
  positions := (List.range cfg.maxNumTokens).map buffers.contextPositions
  epochMs := call.epochMs
  saves := call.saves

def preparesInputs (call : ProposeCall β cfg) : Bool :=
  !(call.dummyRun && call.skipAttnForDummyRun)

def propose (bfloat16 : β → β) (s : Speculator β cfg) (call : ProposeCall β cfg) :
    Speculator β cfg :=
  match s.raised with
  | some _ => s
  | none =>
    match captureHook bfloat16 s.hook (captureCall s.buffers call) with
    | .error message => { s with raised := some message }
    | .ok (hook, file) =>
      { hook := hook
        buffers :=
          if preparesInputs call then prepareDflashInputs call s.buffers else s.buffers
        saved := s.saved ++ file.toList.map fun f => (call, f)
        raised := none }

def proposeRun (bfloat16 : β → β) (settings : Settings) (calls : List (ProposeCall β cfg)) :
    Speculator β cfg :=
  runFrom (propose bfloat16) (initSpeculator settings) calls

/-! ## What a capture should hold, and what the buffer holds -/

/-- The record the hook builds from this call's own hidden states, ids and positions. -/
def ownPayload (bfloat16 : β → β) (call : ProposeCall β cfg) : Payload β :=
  dsparkBuildCapturePayload bfloat16 call.auxHiddenStates call.inputIds call.positions
    call.numTokens

/-- The position a run leaves at a place of the buffer: that of the last call that prepared
inputs and had a token there, zero when there was none. -/
def leftPosition (calls : List (ProposeCall β cfg)) (t : ℕ) : ℤ :=
  match calls.reverse.find? fun call => preparesInputs call && decide (t < call.numTokens) with
  | some call => call.position t
  | none => 0

/-- The call's gate is open and its file gets written. -/
def writesCapture (call : ProposeCall β cfg) : Bool :=
  !call.dummyRun && decide (64 ≤ call.numTokens) && !call.auxHiddenStates.isEmpty && call.saves

/-- Every place a capture of this call reads already holds the call's own position. -/
def InheritsPositions (history : List (ProposeCall β cfg)) (call : ProposeCall β cfg) : Prop :=
  writesCapture call → ∀ t < call.numTokens, leftPosition history t = call.position t

/-! ## The kernel writes the batch's positions over its own tokens -/

theorem queryStartLoc_succ (call : ProposeCall β cfg) {reqIdx : ℕ}
    (h : reqIdx < call.numScheduledTokens.length) :
    call.queryStartLoc (reqIdx + 1) =
      call.queryStartLoc reqIdx + call.numScheduledTokens[reqIdx] :=
  start_succ h

theorem numCtx_eq (call : ProposeCall β cfg) {reqIdx : ℕ}
    (h : reqIdx < call.numScheduledTokens.length) :
    numCtx call reqIdx = call.numScheduledTokens[reqIdx] := by
  rw [numCtx, queryStartLoc_succ call h]
  omega

theorem blockSize_pos (call : ProposeCall β cfg) : 0 < blockSize call := by
  have h : 0 < Nat.nextPowerOfTwo (max 1 (maxTokensPerReq call)) :=
    Nat.pos_of_isPowerOfTwo (Nat.isPowerOfTwo_nextPowerOfTwo _)
  rw [blockSize]
  omega

/-- The grid has a lane for every token of every request. -/
theorem mem_lanes (call : ProposeCall β cfg) {j : ℕ} (h : j < maxTokensPerReq call) :
    j ∈ lanes call := by
  have hpos := blockSize_pos call
  have hblock : j / blockSize call < numBlocks call := by
    have hnext : j / blockSize call + 1 = (j + blockSize call) / blockSize call :=
      (Nat.add_div_right j hpos).symm
    have hle : (j + blockSize call) / blockSize call ≤ numBlocks call :=
      Nat.div_le_div_right (by omega)
    omega
  refine List.mem_flatMap.mpr ⟨j / blockSize call, List.mem_range.mpr hblock, ?_⟩
  refine List.mem_map.mpr ⟨j % blockSize call, List.mem_range.mpr (Nat.mod_lt j hpos), ?_⟩
  rw [Nat.mul_comm]
  exact Nat.div_add_mod j _

theorem lt_maxTokensPerReq (call : ProposeCall β cfg) {reqIdx j : ℕ}
    (h : reqIdx < call.numScheduledTokens.length) (hj : j < call.numScheduledTokens[reqIdx]) :
    j < maxTokensPerReq call := by
  have hle : call.numScheduledTokens[reqIdx] ≤ call.numScheduledTokens.max?.getD 0 := by
    have hmem := List.getElem_mem h
    cases hmax : call.numScheduledTokens.max? with
    | none => simp [List.max?_eq_none_iff.mp hmax] at h
    | some m => exact (List.max?_eq_some_iff.mp hmax).2 _ hmem
  rw [maxTokensPerReq]
  omega

theorem mem_contextWrites {call : ProposeCall β cfg} {t : ℕ} {p : ℤ} :
    (t, p) ∈ contextWrites call ↔ t < call.numTokens ∧ p = call.position t := by
  constructor
  · intro h
    obtain ⟨reqIdx, hreq, h⟩ := List.mem_flatMap.mp h
    obtain ⟨j, hj, he⟩ := List.mem_map.mp h
    have hreq := List.mem_range.mp hreq
    have hctx := numCtx_eq call hreq
    have hjctx : j < numCtx call reqIdx := of_decide_eq_true (List.mem_filter.mp hj).2
    obtain ⟨rfl, rfl⟩ := Prod.mk.inj he
    refine ⟨?_, rfl⟩
    have hsucc := queryStartLoc_succ call hreq
    have hle : call.queryStartLoc (reqIdx + 1) ≤ call.numTokens := start_le_sum _ _
    omega
  · intro h
    obtain ⟨ht, rfl⟩ := h
    obtain ⟨i, hi, j, hj, he⟩ := exists_segment call.numScheduledTokens ht
    refine List.mem_flatMap.mpr ⟨i, List.mem_range.mpr hi, List.mem_map.mpr ⟨j, ?_, ?_⟩⟩
    · refine List.mem_filter.mpr ⟨mem_lanes call (lt_maxTokensPerReq call hi hj), ?_⟩
      rw [numCtx_eq call hi]
      exact decide_eq_true hj
    · rw [he]
      rfl

/-- In whatever order the programs store, a token's place gets the token's position and the
places past the batch keep what they held. -/
theorem scatter_contextWrites (call : ProposeCall β cfg) {order : List (ℕ × ℤ)}
    (horder : order.Perm (contextWrites call)) (store : ℕ → ℤ) (t : ℕ) :
    scatter order store t = if t < call.numTokens then call.position t else store t := by
  split
  · rename_i ht
    refine scatter_of_unique (horder.mem_iff.mpr (mem_contextWrites.mpr ⟨ht, rfl⟩)) ?_ store
    exact fun u hu => (mem_contextWrites.mp (horder.mem_iff.mp hu)).2
  · rename_i ht
    exact scatter_of_notMem
      (fun v hv => ht (mem_contextWrites.mp (horder.mem_iff.mp hv)).1) store

@[simp] theorem prepareDflashInputs_contextPositions (call : ProposeCall β cfg)
    (buffers : Buffers) (t : ℕ) : (prepareDflashInputs call buffers).contextPositions t =
      if t < call.numTokens then call.position t else buffers.contextPositions t :=
  scatter_contextWrites call (List.Perm.refl _) _ t

theorem leftPosition_concat (calls : List (ProposeCall β cfg)) (call : ProposeCall β cfg)
    (t : ℕ) : leftPosition (calls ++ [call]) t =
      if preparesInputs call ∧ t < call.numTokens then call.position t
      else leftPosition calls t := by
  rw [leftPosition, List.reverse_concat, List.find?_cons]
  by_cases h : preparesInputs call ∧ t < call.numTokens
  · rw [if_pos h]
    simp [h]
  · rw [if_neg h]
    have hfalse : (preparesInputs call && decide (t < call.numTokens)) = false := by
      simpa [Bool.and_eq_false_iff] using fun hp => Nat.not_lt.mp fun ht => h ⟨hp, ht⟩
    rw [hfalse]
    rfl

/-! ## What the hook saves -/

theorem captureCall_positions (s : Buffers) (call : ProposeCall β cfg) :
    (captureCall s call).positions.take call.numTokens =
      (List.range call.numTokens).map s.contextPositions := by
  have hmin : min call.numTokens cfg.maxNumTokens = call.numTokens :=
    Nat.min_eq_left call.numTokens_le
  rw [captureCall, ← List.map_take, List.take_range, hmin]

theorem ownPositions (call : ProposeCall β cfg) :
    call.positions.take call.numTokens = (List.range call.numTokens).map call.position := by
  have hlen := call.positions_length
  refine List.ext_getElem ?_ fun t ht ht' => ?_
  · rw [List.length_take, List.length_map, List.length_range, ProposeCall.numTokens]
    exact Nat.min_eq_left hlen
  · have hlt : t < call.positions.length := by
      rw [List.length_take] at ht
      omega
    rw [List.getElem_take, List.getElem_map, List.getElem_range, ProposeCall.position,
      List.getD_eq_getElem?_getD, List.getElem?_eq_getElem hlt, Option.getD_some]

/-- A record is the call's own exactly when the buffer holds the call's positions. -/
theorem payload_eq_own (bfloat16 : β → β) (buffers : Buffers) (call : ProposeCall β cfg) :
    dsparkBuildCapturePayload bfloat16 call.auxHiddenStates call.inputIds
        (captureCall buffers call).positions call.numTokens = ownPayload bfloat16 call ↔
      ∀ t < call.numTokens, buffers.contextPositions t = call.position t := by
  have hpos : (List.range call.numTokens).map buffers.contextPositions =
      (List.range call.numTokens).map call.position ↔
      ∀ t < call.numTokens, buffers.contextPositions t = call.position t := by
    simp only [List.map_inj_left, List.mem_range]
  rw [← hpos, ← captureCall_positions, ← ownPositions]
  rw [ownPayload, dsparkBuildCapturePayload, dsparkBuildCapturePayload]
  constructor
  · intro h
    exact congrArg Payload.positions h
  · intro h
    rw [h]

/-- At a cadence of one the hook saves each call it can, with what the buffer holds. -/
theorem captureHook_armed (bfloat16 : β → β) {hook : Hook} {captureIdx : ℕ}
    (hidx : hook.captureIdx = some captureIdx) (hdir : hook.captureDir ≠ "")
    (hevery : hook.captureEvery ≤ 1) (buffers : Buffers) (call : ProposeCall β cfg) :
    ∃ captureIdx' file,
      captureHook bfloat16 hook (captureCall buffers call) =
        .ok ({ hook with captureIdx := some captureIdx' }, file) ∧
      file.map CaptureFile.payload = if writesCapture call then
        some (dsparkBuildCapturePayload bfloat16 call.auxHiddenStates call.inputIds
          (captureCall buffers call).positions call.numTokens) else none := by
  have hmax : max 1 hook.captureEvery = 1 := by omega
  have hgate : dsparkCaptureShouldSave hook.captureDir call.dummyRun call.numTokens
      (captureIdx + 1) hook.captureEvery 64 =
        (!call.dummyRun && decide (64 ≤ call.numTokens)) := by
    rw [dsparkCaptureShouldSave, hmax]
    cases hdummy : call.dummyRun
    · by_cases hlt : call.numTokens < 64
      · simp [hlt, Nat.not_le.mpr hlt]
      · simp [hdir, hlt, Nat.not_lt.mp hlt]
    · simp
  rw [captureHook, hidx]
  change ∃ captureIdx' file, (if dsparkCaptureShouldSave hook.captureDir call.dummyRun
    call.numTokens (captureIdx + 1) hook.captureEvery 64 then _ else _) = _ ∧ _
  rw [hgate, writesCapture]
  cases hopen : (!call.dummyRun && decide (64 ≤ call.numTokens))
  · exact ⟨captureIdx, none, by rw [← hidx]; rfl, rfl⟩
  · refine ⟨captureIdx + 1, _, rfl, ?_⟩
    cases haux : call.auxHiddenStates with
    | nil => simp [captureCall, haux]
    | cons layer layers => cases hsaves : call.saves <;> simp [captureCall, haux, hsaves]

/-- An armed run at a cadence of one, followed call by call. -/
structure Follows (settings : Settings) (calls : List (ProposeCall β cfg))
    (s : Speculator β cfg) : Prop where
  running : s.raised = none
  hook : ∃ captureIdx, s.hook = ⟨settings.captureDir, settings.captureEvery, some captureIdx⟩
  left : ∀ t, s.buffers.contextPositions t = leftPosition calls t

theorem follows_init {settings : Settings} (harmed : Armed settings) :
    Follows settings [] (initSpeculator settings : Speculator β cfg) where
  running := rfl
  hook := ⟨0, initCapture_armed harmed⟩
  left := fun _ => rfl

theorem propose_follows (bfloat16 : β → β) {settings : Settings} (harmed : Armed settings)
    (hevery : settings.captureEvery ≤ 1) {calls : List (ProposeCall β cfg)}
    {s : Speculator β cfg} (hs : Follows settings calls s) (call : ProposeCall β cfg) :
    Follows settings (calls ++ [call]) (propose bfloat16 s call) ∧
      ((∀ p ∈ (propose bfloat16 s call).saved, p.2.payload = ownPayload bfloat16 p.1) ↔
        (∀ p ∈ s.saved, p.2.payload = ownPayload bfloat16 p.1) ∧
          InheritsPositions calls call) := by
  obtain ⟨captureIdx, hhook⟩ := hs.hook
  have hidx : s.hook.captureIdx = some captureIdx := by rw [hhook]
  have hdir : s.hook.captureDir ≠ "" := by
    rw [hhook]
    exact harmed.1
  have hpace : s.hook.captureEvery ≤ 1 := by
    rw [hhook]
    exact hevery
  obtain ⟨captureIdx', file, hstep, hfile⟩ :=
    captureHook_armed bfloat16 hidx hdir hpace s.buffers call
  have hpropose : propose bfloat16 s call =
      { hook := { s.hook with captureIdx := some captureIdx' }
        buffers := if preparesInputs call then prepareDflashInputs call s.buffers else s.buffers
        saved := s.saved ++ file.toList.map fun f => (call, f)
        raised := none } := by
    rw [propose, hs.running]
    simp only [hstep]
  rw [hpropose]
  refine ⟨⟨rfl, ⟨captureIdx', by rw [hhook]⟩, fun t => ?_⟩, ?_⟩
  · rw [leftPosition_concat, ← hs.left t]
    cases hprepares : preparesInputs call <;> simp
  · have hlast : (∀ p ∈ file.toList.map fun f => (call, f), p.2.payload = ownPayload bfloat16 p.1) ↔
        InheritsPositions calls call := by
      simp only [InheritsPositions, ← hs.left]
      rw [← payload_eq_own bfloat16 s.buffers call]
      cases file with
      | none =>
        have hwrites : writesCapture call = false := by simpa using hfile
        simp [hwrites]
      | some f =>
        obtain ⟨hwrites, hpayload⟩ : writesCapture call ∧ _ = _ := by simpa using hfile
        simp [hwrites, hpayload]
    rw [← hlast, ← List.forall_mem_append]

/-- Not armed, or at a cadence above one: nothing is ever saved. -/
theorem proposeRun_saves_nothing (bfloat16 : β → β) {settings : Settings}
    (hidle : ¬ (Armed settings ∧ settings.captureEvery ≤ 1))
    (calls : List (ProposeCall β cfg)) :
    (proposeRun bfloat16 settings calls).saved = [] ∧
      (proposeRun bfloat16 settings calls).hook = initCapture settings := by
  induction calls using List.reverseRecOn with
  | nil => exact ⟨rfl, rfl⟩
  | append_singleton calls call ih =>
    obtain ⟨hsaved, hhook⟩ := ih
    rw [proposeRun, runFrom_concat, ← proposeRun, propose, hhook]
    cases hraised : (proposeRun bfloat16 settings calls).raised with
    | some message => exact ⟨hsaved, hhook⟩
    | none =>
      by_cases harmed : Armed settings
      · have hevery : 2 ≤ (initCapture settings).captureEvery := by
          have habove : ¬ settings.captureEvery ≤ 1 := fun h => hidle ⟨harmed, h⟩
          rw [initCapture_armed harmed]
          change 2 ≤ settings.captureEvery
          omega
        have hidx : (initCapture settings).captureIdx = some 0 := by
          rw [initCapture_armed harmed]
        rw [captureHook_stuck hidx hevery]
        exact ⟨by simpa using hsaved, rfl⟩
      · rw [captureHook, initCapture_unarmed harmed]
        exact ⟨hsaved, rfl⟩

/-! ## Which runs save consistent records -/

/-- Every record saved by a run pairs hidden states, ids and positions of one call. -/
def SavesOwnPositions (bfloat16 : β → β) (settings : Settings)
    (calls : List (ProposeCall β cfg)) : Prop :=
  ∀ p ∈ (proposeRun bfloat16 settings calls).saved, p.2.payload = ownPayload bfloat16 p.1

theorem follows_run (bfloat16 : β → β) {settings : Settings} (harmed : Armed settings)
    (hevery : settings.captureEvery ≤ 1) (calls : List (ProposeCall β cfg)) :
    Follows settings calls (proposeRun bfloat16 settings calls) ∧
      (SavesOwnPositions bfloat16 settings calls ↔ EveryStep InheritsPositions calls) := by
  induction calls using List.reverseRecOn with
  | nil => exact ⟨follows_init harmed, fun _ => everyStep_nil, fun _ p hp => nomatch hp⟩
  | append_singleton calls call ih =>
    obtain ⟨hfollows, hiff⟩ := ih
    obtain ⟨hnext, hsaved⟩ := propose_follows bfloat16 harmed hevery hfollows call
    rw [SavesOwnPositions, proposeRun, runFrom_concat, ← proposeRun, everyStep_concat, ← hiff]
    exact ⟨hnext, hsaved⟩

/-- The records of a run are consistent exactly when every call that writes one finds its
own positions in the buffer already, or the hook never saves. Rejections play no part. -/
theorem savesOwnPositions_iff (bfloat16 : β → β) (settings : Settings)
    (calls : List (ProposeCall β cfg)) :
    SavesOwnPositions bfloat16 settings calls ↔
      (Armed settings ∧ settings.captureEvery ≤ 1 → EveryStep InheritsPositions calls) := by
  by_cases hsaving : Armed settings ∧ settings.captureEvery ≤ 1
  · rw [(follows_run bfloat16 hsaving.1 hsaving.2 calls).2]
    simp [hsaving]
  · refine iff_of_true (fun p hp => ?_) fun h => absurd h hsaving
    rw [(proposeRun_saves_nothing bfloat16 hsaving calls).1] at hp
    cases hp

/-- Sixty-four prompt tokens of one request, from a given position on. -/
def promptChunk (start : ℕ) : ProposeCall ℕ ⟨64, 1024, 8⟩ where
  dummyRun := false
  skipAttnForDummyRun := false
  numScheduledTokens := [64]
  numRejected := [0]
  auxHiddenStates := [List.replicate 64 [0]]
  inputIds := List.replicate 64 0
  positions := (List.range 64).map fun t => ((start + t : ℕ) : ℤ)
  epochMs := 0
  saves := true
  numTokens_le := by decide
  positions_length := by simp

/-- Two chunks of one prompt, saved every step: the second is saved with the positions of
the first. -/
theorem promptChunk_not_own :
    ¬ ∀ (bfloat16 : ℕ → ℕ) (settings : Settings) (calls : List (ProposeCall ℕ ⟨64, 1024, 8⟩)),
      SavesOwnPositions bfloat16 settings calls := by
  intro h
  have hsaved := h id ⟨"captures", 1, 0⟩ [promptChunk 0, promptChunk 64]
  rw [(follows_run id ⟨by decide, rfl⟩ (by decide) _).2] at hsaved
  have hsecond := hsaved [promptChunk 0] (promptChunk 64) (List.prefix_refl _) (by decide) 0
    (by decide)
  exact absurd hsecond (by decide)

end SparkKit.Ring.CapturePositions
