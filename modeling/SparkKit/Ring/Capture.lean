import Mathlib.Data.Int.Order.Basic
import Mathlib.Data.List.Nodup
import Mathlib.Tactic.Common

/-!
# The training capture hook of `propose`

`_init_ring_state` reads the capture settings once. Each `propose` call then asks, between
copying the hidden states and drafting, whether to save its target batch to a file.
-/
namespace SparkKit.Ring.Capture

variable {β σ ρ : Type}

/-- `VLLM_DSPARK_CAPTURE_DIR`, empty when unset, `VLLM_DSPARK_CAPTURE_EVERY` and the
tensor-parallel rank. -/
structure Settings where
  captureDir : String
  captureEvery : ℤ
  rank : ℕ

/-- The hook's attributes; `_capture_idx` exists only once it has been assigned. -/
structure Hook where
  captureDir : String
  captureEvery : ℤ
  captureIdx : Option ℕ

def initCapture (settings : Settings) : Hook :=
  if settings.captureDir ≠ "" then
    if settings.rank = 0 then
      ⟨settings.captureDir, settings.captureEvery, some 0⟩
    else
      ⟨"", settings.captureEvery, none⟩
  else
    ⟨settings.captureDir, settings.captureEvery, none⟩

/-- What the hook reads of one call: the target batch, the clock, and whether building and
writing the record succeeds. -/
structure Call (β : Type) where
  dummyRun : Bool
  numTargetTokens : ℕ
  /-- per layer and token, the features; empty when there are none -/
  auxHiddenStates : List (List (List β))
  inputIds : List ℤ
  positions : List ℤ
  epochMs : ℕ
  saves : Bool

structure Payload (β : Type) where
  aux : List (List β)
  inputIds : List ℤ
  positions : List ℤ

/-- `cap-<epoch_ms>-<idx>.pt` and its content. -/
structure CaptureFile (β : Type) where
  captureDir : String
  epochMs : ℕ
  idx : ℕ
  payload : Payload β

def dsparkCaptureShouldSave (captureDir : String) (dummyRun : Bool) (numTargetTokens : ℕ)
    (captureIdx : ℕ) (captureEvery : ℤ) (minT : ℕ) : Bool :=
  if captureDir = "" ∨ dummyRun ∨ numTargetTokens < minT then false
  else (captureIdx : ℤ) % max 1 captureEvery = 0

def dsparkBuildCapturePayload (bfloat16 : β → β) (auxHiddenStates : List (List (List β)))
    (inputIds positions : List ℤ) (numTargetTokens : ℕ) : Payload β :=
  let rows := ((auxHiddenStates.headD []).take numTargetTokens).length
  { aux := (List.range rows).map fun t =>
      (auxHiddenStates.flatMap fun layer => layer.getD t []).map bfloat16
    inputIds := inputIds.take numTargetTokens
    positions := positions.take numTargetTokens }

/-- The lines between copying the hidden states and drafting. The argument
`self._capture_idx + 1` is evaluated before the gate is asked. -/
def captureHook (bfloat16 : β → β) (hook : Hook) (call : Call β) :
    Except String (Hook × Option (CaptureFile β)) :=
  match hook.captureIdx with
  | none => .error "AttributeError: _capture_idx"
  | some captureIdx =>
    if dsparkCaptureShouldSave hook.captureDir call.dummyRun call.numTargetTokens
        (captureIdx + 1) hook.captureEvery 64 then
      let file : CaptureFile β :=
        { captureDir := hook.captureDir
          epochMs := call.epochMs
          idx := captureIdx + 1
          payload := dsparkBuildCapturePayload bfloat16 call.auxHiddenStates call.inputIds
            call.positions call.numTargetTokens }
      .ok ({ hook with captureIdx := some (captureIdx + 1) },
        if call.auxHiddenStates ≠ [] ∧ call.saves then some file else none)
    else .ok (hook, none)

/-- `propose` around the hook: everything before it, and everything after it. -/
structure Body (β σ ρ : Type) where
  copyHidden : Call β → σ → σ
  draft : Call β → σ → σ × ρ

def proposeWithoutHook (body : Body β σ ρ) (s : σ) (call : Call β) : σ × ρ :=
  body.draft call (body.copyHidden call s)

def propose (bfloat16 : β → β) (body : Body β σ ρ) (hook : Hook) (s : σ) (call : Call β) :
    Except String ((Hook × Option (CaptureFile β)) × σ × ρ) := do
  let s := body.copyHidden call s
  let captured ← captureHook bfloat16 hook call
  return (captured, body.draft call s)

/-- The outcomes of a run of calls: what each call saved and what it drafted. -/
def proposeRun (bfloat16 : β → β) (body : Body β σ ρ) :
    Hook → σ → List (Call β) → Except String (List (Option (CaptureFile β)) × σ × List ρ)
  | _, s, [] => .ok ([], s, [])
  | hook, s, call :: calls => do
      let (captured, s', drafted) ← propose bfloat16 body hook s call
      let (files, final, drafts) ← proposeRun bfloat16 body captured.1 s' calls
      return (captured.2 :: files, final, drafted :: drafts)

def runWithoutHook (body : Body β σ ρ) : σ → List (Call β) → σ × List ρ
  | s, [] => (s, [])
  | s, call :: calls =>
      let (s', drafted) := proposeWithoutHook body s call
      let (final, drafts) := runWithoutHook body s' calls
      (final, drafted :: drafts)

/-! ## What a run saves -/

def Armed (settings : Settings) : Prop := settings.captureDir ≠ "" ∧ settings.rank = 0

/-- A step whose batch a capture record can be made of. -/
def Call.eligible (call : Call β) : Bool :=
  !call.dummyRun && decide (64 ≤ call.numTargetTokens) && !call.auxHiddenStates.isEmpty

/-- What each eligible step of a run saved, in order. -/
def eligibleCaptures (calls : List (Call β)) (files : List (Option (CaptureFile β))) :
    List (Option (CaptureFile β)) :=
  ((calls.zip files).filter fun p => p.1.eligible).map Prod.snd

/-- Each whole block of `every` consecutive eligible steps has exactly one saved step. -/
def OncePerBlock (every : ℕ) (captures : List (Option (CaptureFile β))) : Prop :=
  ∀ block, (block + 1) * every ≤ captures.length →
    (((captures.drop (block * every)).take every).filter Option.isSome).length = 1

/-- The run keeps its promise. Armed: it drafts as without the hook, saves once per block,
and no file replaces another. Not armed: it drafts as without the hook. -/
def KeepsCadence (bfloat16 : β → β) (body : Body β σ ρ) (settings : Settings) (s : σ)
    (calls : List (Call β)) : Prop :=
  ∃ files, proposeRun bfloat16 body (initCapture settings) s calls =
      .ok (files, runWithoutHook body s calls) ∧
    (Armed settings →
      OncePerBlock settings.captureEvery.toNat (eligibleCaptures calls files) ∧
      ((files.filterMap id).map CaptureFile.idx).Nodup)

/-! ## The index -/

variable {bfloat16 : β → β} {body : Body β σ ρ}

/-- Without the attribute the gate's argument raises, whatever the call is. -/
theorem propose_unarmed {hook : Hook} (hidx : hook.captureIdx = none) (s : σ) (call : Call β) :
    propose bfloat16 body hook s call = .error "AttributeError: _capture_idx" := by
  rw [propose, captureHook, hidx]
  rfl

/-- The index moves only on a save, and the first candidate index is one: at a cadence
above one nothing is ever saved. -/
theorem captureHook_stuck {hook : Hook} (hidx : hook.captureIdx = some 0)
    (hevery : 2 ≤ hook.captureEvery) (call : Call β) :
    captureHook bfloat16 hook call = .ok (hook, none) := by
  have hgate : dsparkCaptureShouldSave hook.captureDir call.dummyRun call.numTargetTokens
      (0 + 1) hook.captureEvery 64 = false := by
    rw [dsparkCaptureShouldSave]
    split
    · rfl
    · have hmax : max 1 hook.captureEvery = hook.captureEvery := by omega
      have hone : ((0 + 1 : ℕ) : ℤ) % hook.captureEvery = 1 :=
        Int.emod_eq_of_lt (by decide) (by omega)
      rw [hmax, hone]
      rfl
  rw [captureHook, hidx]
  simp only [hgate, Bool.false_eq_true, if_false]

theorem proposeRun_stuck (bfloat16 : β → β) (body : Body β σ ρ) {hook : Hook} (hidx : hook.captureIdx = some 0)
    (hevery : 2 ≤ hook.captureEvery) (s : σ) (calls : List (Call β)) :
    proposeRun bfloat16 body hook s calls =
      .ok (calls.map fun _ => none, runWithoutHook body s calls) := by
  induction calls generalizing s with
  | nil => rfl
  | cons call calls ih =>
    rw [proposeRun, propose, captureHook_stuck hidx hevery]
    change (do
      let (files, final, drafts) ← proposeRun bfloat16 body hook (proposeWithoutHook body s call).1 calls
      return (none :: files, final, (proposeWithoutHook body s call).2 :: drafts)) = _
    rw [ih]
    rfl

/-- What a call does to the hook when every step may be saved: the index never goes back,
a saved file takes a fresh one, and an eligible step is saved when the write succeeds. -/
structure Captured (captureIdx : ℕ) (call : Call β) (hook hook' : Hook)
    (file : Option (CaptureFile β)) : Prop where
  dir : hook'.captureDir = hook.captureDir
  every : hook'.captureEvery = hook.captureEvery
  next : ∃ captureIdx', hook'.captureIdx = some captureIdx' ∧ captureIdx ≤ captureIdx' ∧
    ∀ f, file = some f → captureIdx < f.idx ∧ f.idx ≤ captureIdx'
  saved : call.eligible → file.isSome = call.saves

theorem captureHook_every (bfloat16 : β → β) {hook : Hook} {captureIdx : ℕ} (hidx : hook.captureIdx = some captureIdx)
    (hdir : hook.captureDir ≠ "") (hevery : hook.captureEvery = 1) (call : Call β) :
    ∃ hook' file, captureHook bfloat16 hook call = .ok (hook', file) ∧
      Captured captureIdx call hook hook' file := by
  rw [captureHook, hidx]
  by_cases hgate : dsparkCaptureShouldSave hook.captureDir call.dummyRun call.numTargetTokens
      (captureIdx + 1) hook.captureEvery 64
  · simp only [hgate, if_true]
    refine ⟨_, _, rfl, rfl, rfl, ⟨captureIdx + 1, rfl, by omega, fun f hf => ?_⟩, fun helig => ?_⟩
    · split at hf
      · obtain rfl := Option.some.inj hf
        exact ⟨by simp, by simp⟩
      · cases hf
    · have haux : call.auxHiddenStates ≠ [] := by
        simp only [Call.eligible, Bool.and_eq_true, Bool.not_eq_true', List.isEmpty_eq_false_iff]
          at helig
        exact helig.2
      cases hsaves : call.saves <;> simp [haux]
  · simp only [hgate, Bool.false_eq_true, if_false]
    refine ⟨_, _, rfl, rfl, rfl, ⟨captureIdx, hidx, Nat.le_refl _, fun f hf => nomatch hf⟩, fun helig => ?_⟩
    -- an eligible step passes the gate when the cadence is one
    refine absurd ?_ hgate
    simp only [Call.eligible, Bool.and_eq_true, Bool.not_eq_true', decide_eq_true_eq] at helig
    rw [dsparkCaptureShouldSave, if_neg, hevery]
    · simp
    · rintro (h | h | h)
      · exact hdir h
      · rw [helig.1.1] at h
        cases h
      · omega

theorem proposeRun_every (bfloat16 : β → β) (body : Body β σ ρ) {hook : Hook} {captureIdx : ℕ}
    (hidx : hook.captureIdx = some captureIdx)
    (hdir : hook.captureDir ≠ "") (hevery : hook.captureEvery = 1) (s : σ)
    (calls : List (Call β)) :
    ∃ files, proposeRun bfloat16 body hook s calls = .ok (files, runWithoutHook body s calls) ∧
      (eligibleCaptures calls files).map Option.isSome =
        (calls.filter Call.eligible).map Call.saves ∧
      ((files.filterMap id).map CaptureFile.idx).Pairwise (· < ·) ∧
      ∀ f ∈ files.filterMap id, captureIdx < f.idx := by
  induction calls generalizing hook captureIdx s with
  | nil => exact ⟨[], rfl, rfl, List.Pairwise.nil, fun f hf => nomatch hf⟩
  | cons call calls ih =>
    obtain ⟨hook', file, hhook, hcap⟩ := captureHook_every bfloat16 hidx hdir hevery call
    obtain ⟨captureIdx', hidx', hle, hfile⟩ := hcap.next
    obtain ⟨files, hrun, hsaved, hsorted, hfresh⟩ :=
      ih hidx' (hcap.dir ▸ hdir) (hcap.every.trans hevery) (proposeWithoutHook body s call).1
    refine ⟨file :: files, ?_, ?_, ?_, ?_⟩
    · rw [proposeRun, propose, hhook]
      change (do
        let (files, final, drafts) ← proposeRun bfloat16 body hook' (proposeWithoutHook body s call).1 calls
        return (file :: files, final, (proposeWithoutHook body s call).2 :: drafts)) = _
      rw [hrun]
      rfl
    · cases helig : call.eligible
      · simpa [eligibleCaptures, helig] using hsaved
      · simpa [eligibleCaptures, helig, hcap.saved helig] using hsaved
    · cases file with
      | none => exact hsorted
      | some f =>
        refine List.pairwise_cons.mpr ⟨fun i hi => ?_, hsorted⟩
        obtain ⟨g, hg, rfl⟩ := List.mem_map.mp hi
        have hf := (hfile f rfl).2
        have hg := hfresh g hg
        omega
    · cases file with
      | none => exact fun g hg => Nat.lt_of_le_of_lt hle (hfresh g hg)
      | some f =>
        intro g hg
        rcases List.mem_cons.mp hg with rfl | hg
        · exact (hfile g rfl).1
        · exact Nat.lt_of_le_of_lt hle (hfresh g hg)

/-! ## Blocks -/

theorem oncePerBlock_one {captures : List (Option (CaptureFile β))} :
    OncePerBlock 1 captures ↔ ∀ c ∈ captures, c.isSome := by
  have hblock : ∀ block (h : block < captures.length),
      (captures.drop (block * 1)).take 1 = [captures[block]] := by
    intro block h
    rw [Nat.mul_one, List.drop_eq_getElem_cons h, List.take_succ_cons, List.take_zero]
  constructor
  · intro h c hc
    obtain ⟨block, hlt, rfl⟩ := List.mem_iff_getElem.mp hc
    have hone := h block (by omega)
    rw [hblock block hlt] at hone
    by_contra hnone
    simp [hnone] at hone
  · intro h block hlt
    rw [hblock block (by omega)]
    simp [h _ (List.getElem_mem (by omega : block < captures.length))]

theorem oncePerBlock_none {every : ℕ} {captures : List (Option (CaptureFile β))}
    (hnone : ∀ c ∈ captures, c = none) :
    OncePerBlock every captures ↔ captures.length < every := by
  constructor
  · intro h
    by_contra hle
    have hone := h 0 (by omega)
    have hempty : ((captures.drop (0 * every)).take every).filter Option.isSome = [] := by
      refine List.filter_eq_nil_iff.mpr fun c hc => ?_
      rw [hnone c (List.mem_of_mem_drop (List.mem_of_mem_take hc))]
      exact Bool.false_ne_true
    rw [hempty] at hone
    cases hone
  · intro hlt block hle
    have : every ≤ (block + 1) * every := Nat.le_mul_of_pos_left _ (by omega)
    omega

/-! ## The cadence -/

theorem initCapture_armed {settings : Settings} (harmed : Armed settings) :
    initCapture settings = ⟨settings.captureDir, settings.captureEvery, some 0⟩ := by
  rw [initCapture, if_pos harmed.1, if_pos harmed.2]

theorem initCapture_unarmed {settings : Settings} (hunarmed : ¬ Armed settings) :
    (initCapture settings).captureIdx = none := by
  rw [initCapture]
  split
  · rename_i hdir
    rw [if_neg fun hrank => hunarmed ⟨hdir, hrank⟩]
  · rfl

theorem keepsCadence_unarmed {settings : Settings} (hunarmed : ¬ Armed settings) (s : σ)
    (calls : List (Call β)) : KeepsCadence bfloat16 body settings s calls ↔ calls = [] := by
  constructor
  · rintro ⟨files, hrun, -⟩
    cases calls with
    | nil => rfl
    | cons call calls =>
      rw [proposeRun, propose_unarmed (initCapture_unarmed hunarmed)] at hrun
      cases hrun
  · rintro rfl
    exact ⟨[], rfl, fun harmed => absurd harmed hunarmed⟩

theorem keepsCadence_every {settings : Settings} (harmed : Armed settings)
    (hevery : settings.captureEvery = 1) (s : σ) (calls : List (Call β)) :
    KeepsCadence bfloat16 body settings s calls ↔
      ∀ call ∈ calls.filter Call.eligible, call.saves := by
  have hinit := initCapture_armed harmed
  obtain ⟨files, hrun, hsaved, hsorted, -⟩ :=
    proposeRun_every bfloat16 body (show (initCapture settings).captureIdx = some 0 by rw [hinit])
      (by rw [hinit]; exact harmed.1) (by rw [hinit]; exact hevery) s calls
  have hall : (∀ c ∈ eligibleCaptures calls files, c.isSome) ↔
      ∀ call ∈ calls.filter Call.eligible, call.saves := by
    rw [← List.forall_mem_map (f := Option.isSome) (P := fun b => b = true), hsaved,
      List.forall_mem_map]
  rw [← hall, ← oncePerBlock_one]
  constructor
  · rintro ⟨files', hrun', hkept⟩
    obtain ⟨rfl, -⟩ := Prod.mk.inj (Except.ok.inj (hrun'.symm.trans hrun))
    have hblocks := (hkept harmed).1
    rwa [hevery] at hblocks
  · intro hblocks
    refine ⟨files, hrun, fun _ => ⟨by rwa [hevery], ?_⟩⟩
    exact hsorted.imp fun hlt => Nat.ne_of_lt hlt

theorem eligibleCaptures_none (calls : List (Call β)) :
    eligibleCaptures calls (calls.map fun _ => none) =
      (calls.filter Call.eligible).map fun _ => none := by
  rw [eligibleCaptures]
  induction calls with
  | nil => rfl
  | cons call calls ih => cases helig : call.eligible <;> simp_all

theorem keepsCadence_stuck {settings : Settings} (harmed : Armed settings)
    (hevery : 2 ≤ settings.captureEvery) (s : σ) (calls : List (Call β)) :
    KeepsCadence bfloat16 body settings s calls ↔
      (calls.filter Call.eligible).length < settings.captureEvery := by
  have hinit := initCapture_armed harmed
  have hrun := proposeRun_stuck bfloat16 body
    (show (initCapture settings).captureIdx = some 0 by rw [hinit]) (by rw [hinit]; exact hevery)
    s calls
  have hblocks : OncePerBlock settings.captureEvery.toNat
      (eligibleCaptures calls (calls.map fun _ => (none : Option (CaptureFile β)))) ↔
        (calls.filter Call.eligible).length < settings.captureEvery := by
    rw [eligibleCaptures_none, oncePerBlock_none fun c hc => ?_, List.length_map]
    · omega
    · obtain ⟨_, _, rfl⟩ := List.mem_map.mp hc
      rfl
  rw [← hblocks]
  constructor
  · rintro ⟨files, hrun', hkept⟩
    obtain ⟨rfl, -⟩ := Prod.mk.inj (Except.ok.inj (hrun'.symm.trans hrun))
    exact (hkept harmed).1
  · intro h
    refine ⟨_, hrun, fun _ => ⟨h, ?_⟩⟩
    have hempty : (calls.map fun _ => (none : Option (CaptureFile β))).filterMap id = [] := by
      refine List.filterMap_eq_nil_iff.mpr fun c hc => ?_
      obtain ⟨_, _, rfl⟩ := List.mem_map.mp hc
      rfl
    rw [hempty]
    exact List.nodup_nil

/-- The cadence is kept exactly by an armed run that either saves every eligible step, at a
cadence of one, or is too short to hold a whole block. -/
theorem keepsCadence_iff (settings : Settings) (hevery : 1 ≤ settings.captureEvery) (s : σ)
    (calls : List (Call β)) :
    KeepsCadence bfloat16 body settings s calls ↔
      (Armed settings ∧
        ((calls.filter Call.eligible).length < settings.captureEvery ∨
          settings.captureEvery = 1 ∧ ∀ call ∈ calls.filter Call.eligible, call.saves)) ∨
      (¬ Armed settings ∧ calls = []) := by
  by_cases harmed : Armed settings
  · by_cases hone : settings.captureEvery = 1
    · rw [keepsCadence_every harmed hone]
      simp only [harmed, true_and, not_true, false_and, or_false, hone]
      refine ⟨Or.inr, ?_⟩
      rintro (hlt | h)
      · have hempty : calls.filter Call.eligible = [] := List.length_eq_zero_iff.mp (by omega)
        rw [hempty]
        exact fun call hcall => absurd hcall List.not_mem_nil
      · exact h
    · rw [keepsCadence_stuck harmed (by omega)]
      simp [harmed, hone]
  · rw [keepsCadence_unarmed harmed]
    simp [harmed]

def smallCall : Call ℕ :=
  { dummyRun := false, numTargetTokens := 64, auxHiddenStates := [List.replicate 64 [7]]
    inputIds := List.replicate 64 3, positions := List.replicate 64 0, epochMs := 0, saves := true }

/-- A body that counts its drafts. -/
def smallBody : Body ℕ ℕ ℕ := { copyHidden := fun _ s => s, draft := fun _ s => (s + 1, s) }

/-- A dummy run among eligible steps: fewer of them than a block of three holds, and each of them
a block of its own. -/
theorem keepsCadence_iff_small :
    KeepsCadence id smallBody ⟨"/capture", 3, 0⟩ 0
        [smallCall, { smallCall with dummyRun := true }, smallCall] ∧
      KeepsCadence id smallBody ⟨"/capture", 1, 0⟩ 0
        [smallCall, { smallCall with dummyRun := true }, smallCall] := by
  constructor
  · apply (keepsCadence_iff ⟨"/capture", 3, 0⟩ (by decide) 0 _).mpr
    exact .inl ⟨⟨by decide, rfl⟩, .inl (by decide)⟩
  · apply (keepsCadence_iff ⟨"/capture", 1, 0⟩ (by decide) 0 _).mpr
    exact .inl ⟨⟨by decide, rfl⟩, .inr ⟨rfl, by decide⟩⟩

/-- Two eligible steps at a cadence of two save nothing, and without a capture directory
the first call raises. -/
theorem cadence_broken :
    ¬ KeepsCadence id smallBody ⟨"/capture", 2, 0⟩ 0 [smallCall, smallCall] ∧
      ¬ KeepsCadence id smallBody ⟨"", 50, 0⟩ 0 [smallCall] := by
  constructor
  · rw [keepsCadence_stuck ⟨by decide, rfl⟩ (by decide)]
    decide
  · rw [keepsCadence_unarmed fun harmed => harmed.1 rfl]
    exact List.cons_ne_nil _ _

end SparkKit.Ring.Capture
