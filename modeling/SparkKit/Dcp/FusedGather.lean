import SparkKit.Lib.History
import SparkKit.Dcp.Candidates

/-!
# The fused DCP gather

At decode the sparse indexer leaves its packed candidates in a stash and the layer's MLA
gathers them together with its queries. The two sides decide on their own, from separate
metadata, whether to leave and whether to take. A run is well paired when each stash is
taken by the layer that left it, with as many rows as its queries have, and merged before
that layer's attention reads the buffer.
-/
namespace SparkKit.Dcp.FusedGather

open SparkKit.Lib.History
open SparkKit.Dcp.Candidates

/-- Settings the two sides share. The stock merge is supported on this machine. -/
structure FusedConfig where
  /-- `FUSED_DCP_GATHER` -/
  fusedDcpGather : Bool
  dcpWorldSize : ℕ
  usePcp : Bool
  useB12xIndexer : Bool
  sparseMlaForceMqa : Bool
  topkTokens : ℕ
  support : MergeSupport
  supported : assertCutedslDcpMergeSupported support topkTokens = .ok ()

structure Layer where
  ownIndexer : Bool
  isSparse : Bool
  /-- `q_dcp_replicated is not None` -/
  qDcpReplicated : Bool
  /-- `dense_mha_metadata_layer_name` resolves to a layer -/
  denseMhaLayer : Bool
  sparse_of_indexer : ownIndexer = true → isSparse = true

/-- The attention metadata of one step, the indexer's fields and then the MLA's. -/
structure AttnMetadata where
  /-- `cudagraph_runtime_mode == FULL` -/
  runtimeModeFull : Bool
  streamCapturing : Bool
  numActualTokens : ℕ
  numDecodes : ℕ
  numDecodeTokens : ℕ
  requiresPadding : Bool
  /-- rows of the packed decode queries, read when the batch needs padding -/
  packedRows : ℕ
  hasGlobalSeqLens : Bool
  mlaNumDecodeTokens : ℕ
  useDenseMha : Bool
  /-- the backend offers masked MHA for this batch -/
  maskedMha : Bool
  mla_le : mlaNumDecodeTokens ≤ numActualTokens

structure Tag where
  step : ℕ
  layer : ℕ
deriving DecidableEq

/-- A deferred candidate set. -/
structure CandidateSet where
  tag : Tag
  rows : ℕ
deriving DecidableEq

/-- What the decode rows of the top-k buffer hold. -/
inductive BufferIds where
  | untouched
  | unmerged (tag : Tag)
  | merged (tag : Tag)
deriving DecidableEq

inductive Event where
  | defer (set : CandidateSet)
  | take (set : CandidateSet) (reader : Tag) (queryRows : ℕ)
  | finish (set : CandidateSet)
  | read (reader : Tag) (ids : BufferIds)
deriving DecidableEq

/-- `_PENDING_DCP_TOPK`, the shared top-k buffer and the log of the run. -/
structure GatherState where
  pending : Option CandidateSet
  buffer : BufferIds
  log : List Event

/-- One layer run in one step; a profile run has no metadata. -/
structure LayerRun where
  tag : Tag
  layer : Layer
  metadata : Option AttnMetadata

def GatherState.record (s : GatherState) (e : Event) : GatherState := { s with log := s.log ++ [e] }

/-! ## Producer -/

def dcpTopkDefer (s : GatherState) (set : CandidateSet) : Except String GatherState :=
  match s.pending with
  | some _ => .error "fused DCP gather: a deferred top-k candidate set was never consumed"
  | none => .ok ({ s with pending := some set }.record (.defer set))

/-- `num_padded_tokens` -/
def numPaddedTokens (md : AttnMetadata) : ℕ :=
  if md.numDecodeTokens = 0 then 1
  else if md.requiresPadding then md.packedRows
  else md.numDecodeTokens

/-- Dense MHA will not read top-k indices in this batch, so the indexer returns at once. -/
def denseMhaSkip (layer : Layer) (md : AttnMetadata) : Bool :=
  !md.runtimeModeFull && layer.denseMhaLayer && md.useDenseMha && md.mlaNumDecodeTokens == 0 &&
    !md.streamCapturing

/-- The decode merge of `_merge_dcp_topk_global` after the local top-k. -/
def mergeDecode (cfg : FusedConfig) (tag : Tag) (md : AttnMetadata) (s : GatherState) :
    Except String GatherState :=
  if cfg.dcpWorldSize ≤ 1 then .ok { s with buffer := .merged tag }
  else do
    assertCutedslDcpMergeSupported cfg.support cfg.topkTokens
    if !md.requiresPadding && cfg.fusedDcpGather then
      dcpTopkDefer { s with buffer := .unmerged tag } ⟨tag, numPaddedTokens md⟩
    else return { s with buffer := .merged tag }

/-- `sparse_attn_indexer` as far as the stash and the decode rows of the buffer go. -/
def sparseAttnIndexer (cfg : FusedConfig) (tag : Tag) (layer : Layer) (md : AttnMetadata)
    (s : GatherState) : Except String GatherState :=
  if denseMhaSkip layer md then .ok s
  else if md.numDecodes > 0 then
    if cfg.useB12xIndexer then .ok { s with buffer := .merged tag }
    else if md.hasGlobalSeqLens then mergeDecode cfg tag md s
    else .ok { s with buffer := .merged tag }
  else .ok { s with buffer := .untouched }

/-! ## Consumer -/

/-- `num_mqa_tokens` -/
def numMqaTokens (cfg : FusedConfig) (layer : Layer) (md : AttnMetadata) : ℕ :=
  let numMhaTokens := md.numActualTokens - md.mlaNumDecodeTokens
  if layer.isSparse && numMhaTokens > 0 then
    let useMaskedMha := decide (cfg.dcpWorldSize ≤ 1) && md.maskedMha
    let useMha := (md.useDenseMha || useMaskedMha) && !cfg.sparseMlaForceMqa
    if useMha then md.mlaNumDecodeTokens else md.numActualTokens
  else md.mlaNumDecodeTokens

/-- Take the stash, if there is one, for `queryRows` query rows and finish its top-k. -/
def takeAndFinish (reader : Tag) (queryRows : ℕ) (s : GatherState) : Except String GatherState :=
  match s.pending with
  | none => .ok s
  | some set =>
      let s := { s with pending := none }.record (.take set reader queryRows)
      if set.rows = queryRows then .ok ({ s with buffer := .merged set.tag }.record (.finish set))
      else .error s!"fused DCP gather: batch mismatch q={queryRows} cand={set.rows}"

/-- The query gather before the MQA kernel; it takes the stash on the way. -/
def gatherQueries (cfg : FusedConfig) (tag : Tag) (layer : Layer) (rows : ℕ) (s : GatherState) :
    Except String GatherState :=
  if cfg.dcpWorldSize > 1 ∧ cfg.usePcp = false ∧ layer.qDcpReplicated = false then
    takeAndFinish tag rows s
  else .ok s

/-- `forward_mqa`: a sparse layer's attention reads the top-k buffer. -/
def forwardMqa (tag : Tag) (layer : Layer) (s : GatherState) : GatherState :=
  if layer.isSparse then s.record (.read tag s.buffer) else s

/-- The MQA part of `forward_impl`. -/
def forwardImpl (cfg : FusedConfig) (tag : Tag) (layer : Layer) (md : AttnMetadata)
    (s : GatherState) : Except String GatherState :=
  let rows := numMqaTokens cfg layer md
  if rows > 0 then do
    let s ← gatherQueries cfg tag layer rows s
    return forwardMqa tag layer s
  else .ok s

/-! ## Runs -/

/-- One layer: its indexer, where it has one, then its MLA. -/
def runLayer (cfg : FusedConfig) (s : GatherState) (run : LayerRun) : Except String GatherState :=
  match run.metadata with
  | none => .ok s
  | some md => do
      let s ← if run.layer.ownIndexer then sparseAttnIndexer cfg run.tag run.layer md s else .ok s
      forwardImpl cfg run.tag run.layer md s

/-- An exception ends the run. -/
def runStep (cfg : FusedConfig) (s : Except String GatherState) (run : LayerRun) :
    Except String GatherState := s >>= fun s => runLayer cfg s run

/-- The layer runs of a list of steps, in order. -/
def layerRuns (layers : List Layer) (steps : List (Option AttnMetadata)) : List LayerRun :=
  (steps.mapIdx fun i md => layers.mapIdx fun j layer => ⟨⟨i, j⟩, layer, md⟩).flatten

def initGather : GatherState := { pending := none, buffer := .untouched, log := [] }

def BufferIds.Settled : BufferIds → Prop
  | .unmerged _ => False
  | _ => True

/-- Reads see no unmerged ids, and every deferral is followed at once by its own layer's
take with its own row count, its merge and that layer's read of the merged ids. -/
inductive WellPaired : List Event → Prop
  | nil : WellPaired []
  | read {log : List Event} (tag : Tag) (ids : BufferIds) (h : WellPaired log) (hids : ids.Settled) :
      WellPaired (log ++ [.read tag ids])
  | fused {log : List Event} (set : CandidateSet) (h : WellPaired log) :
      WellPaired (log ++ [.defer set, .take set set.tag set.rows, .finish set,
        .read set.tag (.merged set.tag)])

/-- Nothing is pending or unmerged and the log so far is well paired. -/
structure Paired (s : GatherState) : Prop where
  pending : s.pending = none
  buffer : s.buffer.Settled
  log : WellPaired s.log

/-- No exception was raised and the state is paired. -/
def PairedRun (s : Except String GatherState) : Prop := ∃ s', s = .ok s' ∧ Paired s'

/-- After every layer of every step the run is paired. -/
def PairingHolds (cfg : FusedConfig) (layers : List Layer) (steps : List (Option AttnMetadata)) :
    Prop :=
  EveryStep (fun history next =>
    PairedRun (runFrom (runStep cfg) (.ok initGather) (history ++ [next]))) (layerRuns layers steps)

/-- The layer's indexer defers its decode candidates in this step. -/
def Defers (cfg : FusedConfig) (layer : Layer) (md : AttnMetadata) : Prop :=
  layer.ownIndexer = true ∧ denseMhaSkip layer md = false ∧ 0 < md.numDecodes ∧
    cfg.useB12xIndexer = false ∧ md.hasGlobalSeqLens = true ∧ 1 < cfg.dcpWorldSize ∧
    md.requiresPadding = false ∧ cfg.fusedDcpGather = true

/-- The layer's MLA reaches the gather, with one query row for each candidate row. -/
def Consumes (cfg : FusedConfig) (layer : Layer) (md : AttnMetadata) : Prop :=
  cfg.usePcp = false ∧ layer.qDcpReplicated = false ∧ numMqaTokens cfg layer md = numPaddedTokens md

instance (cfg : FusedConfig) (layer : Layer) (md : AttnMetadata) : Decidable (Defers cfg layer md) :=
  inferInstanceAs (Decidable (_ ∧ _))

instance (cfg : FusedConfig) (layer : Layer) (md : AttnMetadata) :
    Decidable (Consumes cfg layer md) :=
  inferInstanceAs (Decidable (_ ∧ _))

/-! ## One layer -/

theorem numPaddedTokens_pos {md : AttnMetadata} (h : md.requiresPadding = false) :
    0 < numPaddedTokens md := by
  simp only [numPaddedTokens, h, Bool.false_eq_true, if_false]
  split <;> omega

section
variable {cfg : FusedConfig} {layer : Layer} {md : AttnMetadata} {s : GatherState}

theorem mergeDecode_defers (hpending : s.pending = none) (tag : Tag) (hW : 1 < cfg.dcpWorldSize)
    (hpad : md.requiresPadding = false) (hfused : cfg.fusedDcpGather = true) :
    mergeDecode cfg tag md s =
      .ok { pending := some ⟨tag, numPaddedTokens md⟩, buffer := .unmerged tag,
            log := s.log ++ [.defer ⟨tag, numPaddedTokens md⟩] } := by
  simp only [mergeDecode, Nat.not_le.mpr hW, if_false, cfg.supported, hpad, hfused, dcpTopkDefer,
    hpending, Bool.not_false, Bool.and_true, if_true]
  rfl

theorem mergeDecode_gathers (tag : Tag)
    (h : ¬ (1 < cfg.dcpWorldSize ∧ md.requiresPadding = false ∧ cfg.fusedDcpGather = true)) :
    mergeDecode cfg tag md s = .ok { s with buffer := .merged tag } := by
  unfold mergeDecode
  by_cases hW : cfg.dcpWorldSize ≤ 1
  · rw [if_pos hW]
  · rw [if_neg hW, cfg.supported]
    have hnot : (!md.requiresPadding && cfg.fusedDcpGather) = false := by
      cases hp : md.requiresPadding <;> cases hf : cfg.fusedDcpGather <;> simp_all
    simp [hnot]

/-- A deferring indexer leaves its set in the stash and its local ids in the buffer. -/
theorem sparseAttnIndexer_defers (hpending : s.pending = none) (tag : Tag)
    (h : Defers cfg layer md) :
    sparseAttnIndexer cfg tag layer md s =
      .ok { pending := some ⟨tag, numPaddedTokens md⟩, buffer := .unmerged tag,
            log := s.log ++ [.defer ⟨tag, numPaddedTokens md⟩] } := by
  obtain ⟨-, hskip, hdecodes, hb12x, hglobal, hW, hpad, hfused⟩ := h
  rw [← mergeDecode_defers hpending tag hW hpad hfused]
  simp [sparseAttnIndexer, hskip, hdecodes, hb12x, hglobal]

/-- Any other indexer leaves the stash alone and no unmerged ids behind. -/
theorem sparseAttnIndexer_gathers (tag : Tag) (hown : layer.ownIndexer = true)
    (h : ¬ Defers cfg layer md) (hbuffer : s.buffer.Settled) :
    ∃ buffer : BufferIds, buffer.Settled ∧
      sparseAttnIndexer cfg tag layer md s = .ok { s with buffer } := by
  unfold sparseAttnIndexer
  by_cases hskip : denseMhaSkip layer md = true
  · exact ⟨s.buffer, hbuffer, if_pos hskip⟩
  rw [if_neg hskip]
  by_cases hdecodes : md.numDecodes > 0
  case neg => exact ⟨.untouched, trivial, if_neg hdecodes⟩
  refine ⟨.merged tag, trivial, ?_⟩
  rw [if_pos hdecodes]
  by_cases hb12x : cfg.useB12xIndexer = true
  · exact if_pos hb12x
  rw [if_neg hb12x]
  by_cases hglobal : md.hasGlobalSeqLens = true
  case neg => exact if_neg hglobal
  rw [if_pos hglobal]
  refine mergeDecode_gathers tag fun hdef => h ?_
  exact ⟨hown, by simpa using hskip, hdecodes, by simpa using hb12x, hglobal, hdef⟩

theorem forwardMqa_paired (tag : Tag) (h : Paired s) : Paired (forwardMqa tag layer s) := by
  unfold forwardMqa
  split
  · exact ⟨h.pending, h.buffer, .read tag s.buffer h.log h.buffer⟩
  · exact h

/-- With nothing in the stash the MLA keeps the run paired. -/
theorem forwardImpl_paired (tag : Tag) (h : Paired s) :
    PairedRun (forwardImpl cfg tag layer md s) := by
  have hgather : ∀ rows, gatherQueries cfg tag layer rows s = .ok s := by
    intro rows
    simp only [gatherQueries, takeAndFinish, h.pending, ite_self]
  unfold forwardImpl
  by_cases hrows : numMqaTokens cfg layer md > 0
  · refine ⟨forwardMqa tag layer s, ?_, forwardMqa_paired tag h⟩
    rw [if_pos hrows, hgather]
    rfl
  · exact ⟨s, if_neg hrows, h⟩

theorem takeAndFinish_some (reader : Tag) (queryRows : ℕ) (set : CandidateSet)
    (buffer : BufferIds) (log : List Event) :
    takeAndFinish reader queryRows { pending := some set, buffer := buffer, log := log } =
      if set.rows = queryRows then
        .ok { pending := none, buffer := .merged set.tag,
              log := log ++ [.take set reader queryRows] ++ [.finish set] }
      else .error s!"fused DCP gather: batch mismatch q={queryRows} cand={set.rows}" := rfl

/-- The MLA keeps a run with a set in the stash paired exactly when it takes the set with
as many query rows. -/
theorem forwardImpl_pending_iff {tag : Tag} {rows : ℕ} {log : List Event} (hlog : WellPaired log)
    (hsparse : layer.isSparse = true) (hW : 1 < cfg.dcpWorldSize) (hrows : 0 < rows) :
    PairedRun (forwardImpl cfg tag layer md
        { pending := some ⟨tag, rows⟩, buffer := .unmerged tag, log := log ++ [.defer ⟨tag, rows⟩] }) ↔
      cfg.usePcp = false ∧ layer.qDcpReplicated = false ∧ numMqaTokens cfg layer md = rows := by
  unfold forwardImpl
  constructor
  · rintro ⟨s', hs', hpaired⟩
    by_cases hmqa : numMqaTokens cfg layer md > 0
    case neg =>
      rw [if_neg hmqa] at hs'
      obtain rfl := Except.ok.inj hs'
      cases hpaired.pending
    rw [if_pos hmqa, gatherQueries] at hs'
    by_cases hgather : cfg.dcpWorldSize > 1 ∧ cfg.usePcp = false ∧ layer.qDcpReplicated = false
    case neg =>
      rw [if_neg hgather] at hs'
      obtain rfl := Except.ok.inj hs'
      have hpending := hpaired.pending
      simp only [forwardMqa, hsparse, if_true, GatherState.record, reduceCtorEq] at hpending
    rw [if_pos hgather, takeAndFinish_some] at hs'
    by_cases heq : rows = numMqaTokens cfg layer md
    · exact ⟨hgather.2.1, hgather.2.2, heq.symm⟩
    · rw [if_neg heq] at hs'
      cases hs'
  · rintro ⟨hpcp, hrep, heq⟩
    refine ⟨{ pending := none, buffer := .merged tag,
              log := log ++ [.defer ⟨tag, rows⟩, .take ⟨tag, rows⟩ tag rows, .finish ⟨tag, rows⟩,
                .read tag (.merged tag)] }, ?_, rfl, trivial, .fused ⟨tag, rows⟩ hlog⟩
    rw [heq, if_pos hrows, gatherQueries, if_pos ⟨hW, hpcp, hrep⟩, takeAndFinish_some, if_pos rfl]
    show Except.ok (forwardMqa tag layer _) = _
    simp only [forwardMqa, hsparse, if_true, GatherState.record, List.append_assoc]
    rfl

end

/-- One layer keeps a paired run paired exactly when it consumes what it defers. -/
theorem runLayer_paired_iff (cfg : FusedConfig) {s : GatherState} (h : Paired s) (run : LayerRun) :
    PairedRun (runLayer cfg s run) ↔
      ∀ md, run.metadata = some md → Defers cfg run.layer md → Consumes cfg run.layer md := by
  unfold runLayer
  cases hmd : run.metadata with
  | none => exact ⟨fun _ md hmd => (by cases hmd), fun _ => ⟨s, rfl, h⟩⟩
  | some md =>
    simp only [Option.some.injEq, forall_eq']
    by_cases hown : run.layer.ownIndexer = true
    case neg =>
      refine ⟨fun _ hdef => absurd hdef.1 hown, fun _ => ?_⟩
      rw [if_neg hown]
      exact forwardImpl_paired run.tag h
    rw [if_pos hown]
    by_cases hdef : Defers cfg run.layer md
    · rw [sparseAttnIndexer_defers h.pending run.tag hdef]
      simp only [hdef, true_imp_iff]
      exact forwardImpl_pending_iff h.log (run.layer.sparse_of_indexer hown) hdef.2.2.2.2.2.1
        (numPaddedTokens_pos hdef.2.2.2.2.2.2.1)
    · obtain ⟨buffer, hbuffer, hrun⟩ := sparseAttnIndexer_gathers run.tag hown hdef h.buffer
      refine ⟨fun _ hd => absurd hd hdef, fun _ => ?_⟩
      rw [hrun]
      exact forwardImpl_paired run.tag ⟨h.pending, hbuffer, h.log⟩

theorem mem_layerRuns {layers : List Layer} {steps : List (Option AttnMetadata)}
    {P : Layer → Option AttnMetadata → Prop} :
    (∀ run ∈ layerRuns layers steps, P run.layer run.metadata) ↔
      ∀ md ∈ steps, ∀ layer ∈ layers, P layer md := by
  constructor
  · intro h md hmd layer hlayer
    obtain ⟨i, hi, rfl⟩ := List.getElem_of_mem hmd
    obtain ⟨j, hj, rfl⟩ := List.getElem_of_mem hlayer
    exact h ⟨⟨i, j⟩, _, _⟩ (List.mem_flatten.mpr
      ⟨_, List.mem_mapIdx.mpr ⟨i, hi, rfl⟩, List.mem_mapIdx.mpr ⟨j, hj, rfl⟩⟩)
  · intro h run hrun
    obtain ⟨runs, hruns, hrun⟩ := List.mem_flatten.mp hrun
    obtain ⟨i, hi, rfl⟩ := List.mem_mapIdx.mp hruns
    obtain ⟨j, hj, rfl⟩ := List.mem_mapIdx.mp hrun
    exact h _ (List.getElem_mem hi) _ (List.getElem_mem hj)

theorem initGather_paired : Paired initGather := ⟨rfl, trivial, .nil⟩

/-- Along every run of layers and steps the fused gather is well paired exactly when
every layer consumes what it defers. -/
theorem fused_gather_paired_iff (cfg : FusedConfig) (layers : List Layer)
    (steps : List (Option AttnMetadata)) :
    PairingHolds cfg layers steps ↔
      ∀ md, some md ∈ steps → ∀ layer ∈ layers, Defers cfg layer md → Consumes cfg layer md := by
  have hstep : ∀ (s : Except String GatherState) (run : LayerRun), PairedRun s →
      (PairedRun (runStep cfg s run) ↔
        ∀ md, run.metadata = some md → Defers cfg run.layer md → Consumes cfg run.layer md) := by
    rintro _ run ⟨s, rfl, hs⟩
    exact runLayer_paired_iff cfg hs run
  have hinit : PairedRun (.ok initGather) := ⟨initGather, rfl, initGather_paired⟩
  rw [PairingHolds, everyStep_invariant_iff hinit hstep]
  rw [mem_layerRuns (P := fun layer md =>
    ∀ m, md = some m → Defers cfg layer m → Consumes cfg layer m)]
  constructor
  · intro h md hmd layer hlayer
    exact h (some md) hmd layer hlayer md rfl
  · rintro h md hmd layer hlayer m rfl
    exact h m hmd layer hlayer

/-- A batch of one decode token and a four-token prefill chunk, all of it on the MQA route. -/
theorem fused_gather_mismatch :
    ¬ ∀ (cfg : FusedConfig) (layers : List Layer) (steps : List (Option AttnMetadata)),
      PairingHolds cfg layers steps := by
  intro h
  let cfg : FusedConfig :=
    { fusedDcpGather := true, dcpWorldSize := 4, usePcp := false, useB12xIndexer := false,
      sparseMlaForceMqa := false, topkTokens := 2048, support := ⟨true, true, true, true⟩,
      supported := by decide }
  let layer : Layer :=
    { ownIndexer := true, isSparse := true, qDcpReplicated := false, denseMhaLayer := false,
      sparse_of_indexer := fun _ => rfl }
  let md : AttnMetadata :=
    { runtimeModeFull := false, streamCapturing := false, numActualTokens := 5, numDecodes := 1,
      numDecodeTokens := 1, requiresPadding := false, packedRows := 1, hasGlobalSeqLens := true,
      mlaNumDecodeTokens := 1, useDenseMha := false, maskedMha := false, mla_le := by decide }
  have hfirst : PairedRun (runLayer cfg initGather ⟨⟨0, 0⟩, layer, some md⟩) :=
    h cfg [layer] [some md] [] ⟨⟨0, 0⟩, layer, some md⟩ (List.prefix_refl _)
  have hconsume := (runLayer_paired_iff cfg initGather_paired _).mp hfirst md rfl (by decide)
  exact absurd hconsume (by decide)

end SparkKit.Dcp.FusedGather
