import SparkKit.Dcp.Candidates
import SparkKit.Dcp.DecodeExpansion
import Mathlib.Data.List.TakeWhile

/-!
# Local key bounds of decode tokens

Under DCP a rank scores a decode token against the keys it owns below the token's causal
length. The builder keeps the global lengths until they are expanded to one per token and
localises each of those.
-/
namespace SparkKit.Dcp.DecodeBounds

open SparkKit.Dcp.Candidates SparkKit.Dcp.DecodeExpansion
open SparkKit.Lib SparkKit.Lib.Segments

/-- The builder's settings. Its constructor refuses compression under DCP. -/
structure DecodeConfig where
  dcp : DcpGroup
  dcpRank : ℕ
  shape : BufferShape
  numSpeculativeTokens : ℕ
  /-- `is_device_capability_family(100)` -/
  capabilityFamily100 : Bool
  compressRatio : ℕ
  rank_lt : dcpRank < dcp.worldSize
  ratio_eq : 1 < dcp.worldSize → compressRatio = 1

def DecodeConfig.nextN (cfg : DecodeConfig) : ℕ := 1 + cfg.numSpeculativeTokens

def DecodeConfig.useFlattening (cfg : DecodeConfig) : Bool :=
  !cfg.capabilityFamily100 && decide (cfg.nextN ∉ [1, 2])

/-- A scheduled batch; a request's `decodeLen` is its query length. The value of
`dcp_local_seq_lens` is never read. -/
structure CommonAttentionMetadata where
  reqs : List DecodeReq
  numActualTokens : ℕ
  blockTable : BlockTable
  dcpLocalSeqLens : Option (List ℤ)
  tokens_le : (decodeLensCpu reqs).sum ≤ numActualTokens

/-- `get_dcp_local_seq_lens` of one length, by world size, rank and interleave. -/
abbrev GetDcpLocalSeqLens := ℤ → ℕ → ℕ → ℕ → ℤ

/-- `split_decodes_and_prefills`: the decode threshold and `require_uniform` give
`num_decodes` and `num_decode_tokens`. -/
abbrev SplitDecodesAndPrefills := CommonAttentionMetadata → ℕ → Bool → ℕ × ℕ

/-- The layouts of `seq_lens`: one entry per request, one per token, or a row per request. -/
inductive DecodeSeqLens
  | plain (lens : List ℤ)
  | flatten (lens : List ℤ)
  | native (rows : List (List ℤ))

def DecodeSeqLens.map (f : ℤ → ℤ) : DecodeSeqLens → DecodeSeqLens
  | .plain lens => .plain (lens.map f)
  | .flatten lens => .flatten (lens.map f)
  | .native rows => .native (rows.map fun row => row.map f)

/-- The bound of token `j` of request `b`. -/
def DecodeSeqLens.bound (reqs : List DecodeReq) : DecodeSeqLens → ℕ → ℕ → Option ℤ
  | .plain lens, b, _ => lens[b]?
  | .flatten lens, b, j => lens[queryStartLoc reqs b + j]?
  | .native rows, b, j => rows[b]?.bind fun row => row[j]?

structure DecodeTensors where
  seqLens : DecodeSeqLens
  blockTable : List (List ℤ)
  decodeLens : List ℤ
  batchSize : ℕ
  requiresPadding : Bool

/-- `_prepare_decode_tensors`, `none` where it raises. -/
def prepareDecodeTensors (shape : BufferShape) (buffers : DecodeBuffers) (reqs : List DecodeReq)
    (table : BlockTable) (numDecodeTokens : ℕ) (useNative : Bool) (nextN : ℕ) :
    Option DecodeTensors :=
  if useNative = false ∧ maxDecodeLen reqs > 1 then
    (flattenStores shape reqs table numDecodeTokens (maxDecodeLen reqs)).map fun (rows, stores) =>
      let out := (stores.run buffers).view shape rows
      { seqLens := .flatten out.seqLens
        blockTable := out.blockTable
        decodeLens := out.decodeLens
        batchSize := rows
        requiresPadding := false }
  else
    let tensors : DecodeTensors :=
      { seqLens := .plain (reqs.map fun q => (q.seqLen : ℤ))
        blockTable := (List.range reqs.length).map fun b =>
          (List.range table.width).map (table.entry b)
        decodeLens := reqs.map fun q => (q.decodeLen : ℤ)
        batchSize := reqs.length
        requiresPadding := decide (minDecodeLen reqs ≠ maxDecodeLen reqs) }
    if useNative = true ∧ nextN > 1 then
      -- the `view` of a slice the buffer is too short for raises
      if reqs.length * maxDecodeLen reqs ≤ shape.maxNumBatchedTokens then
        some { tensors with
          seqLens := .native (reqs.map fun q => (List.range (maxDecodeLen reqs)).map fun (j : ℕ) =>
            (q.seqLen : ℤ) - maxDecodeLen reqs + 1 + j) }
      else none
    else some tensors

/-- `_dcp_localize_decode_seq_lens`: in place, or into the lengths buffer. -/
def dcpLocalizeDecodeSeqLens (cfg : DecodeConfig) (getDcpLocalSeqLens : GetDcpLocalSeqLens)
    (seqLens : DecodeSeqLens) (numDecodes : ℕ) (seqLensIsBufferView : Bool) :
    Option DecodeSeqLens :=
  let localSeqLens := seqLens.map fun len =>
    getDcpLocalSeqLens len cfg.dcp.worldSize cfg.dcpRank cfg.dcp.interleave
  if seqLensIsBufferView then some localSeqLens
  else if numDecodes ≤ cfg.shape.maxNumBatchedTokens then some localSeqLens
  else none

/-- `use_native` -/
def DecodeConfig.useNative (cfg : DecodeConfig) (reqs : List DecodeReq) : Bool :=
  !cfg.useFlattening && decide (maxDecodeLen reqs ≤ cfg.nextN)

/-- The decode half of `build` for the batch's decode requests. -/
def buildDecode (cfg : DecodeConfig) (getDcpLocalSeqLens : GetDcpLocalSeqLens)
    (buffers : DecodeBuffers) (cm : CommonAttentionMetadata) (reqs : List DecodeReq)
    (numDecodeTokens : ℕ) : Option DecodeTensors := do
  let useNative := cfg.useNative reqs
  let tensors ← prepareDecodeTensors cfg.shape buffers reqs cm.blockTable numDecodeTokens
    useNative cfg.nextN
  let seqLensIsBufferView :=
    (useNative && decide (cfg.nextN > 1)) || (!useNative && decide (maxDecodeLen reqs > 1))
  let localized ←
    if cm.dcpLocalSeqLens.isSome then
      dcpLocalizeDecodeSeqLens cfg getDcpLocalSeqLens tensors.seqLens reqs.length
        seqLensIsBufferView
    else some tensors.seqLens
  let seqLens :=
    if cfg.compressRatio > 1 then localized.map fun len => len / cfg.compressRatio else localized
  some { tensors with seqLens := seqLens }

section
variable (cfg : DecodeConfig) (split : SplitDecodesAndPrefills) (cm : CommonAttentionMetadata)

def numDecodes : ℕ := (split cm cfg.nextN (!cfg.useFlattening)).1

def numDecodeTokens : ℕ := (split cm cfg.nextN (!cfg.useFlattening)).2

/-- The requests `build` treats as decodes. -/
def decodes : List DecodeReq := cm.reqs.take (numDecodes cfg split cm)

/-- The decode metadata of `build`: `some none` when there are no decodes. -/
def build (getDcpLocalSeqLens : GetDcpLocalSeqLens) (buffers : DecodeBuffers) :
    Option (Option DecodeTensors) :=
  if numDecodes cfg split cm > 0 then
    (buildDecode cfg getDcpLocalSeqLens buffers cm (decodes cfg split cm)
      (numDecodeTokens cfg split cm)).map some
  else some none

end

/-! ## Global bounds -/

theorem DecodeSeqLens.bound_map (reqs : List DecodeReq) (seqLens : DecodeSeqLens) (f : ℤ → ℤ)
    (b j : ℕ) : (seqLens.map f).bound reqs b j = (seqLens.bound reqs b j).map f := by
  cases seqLens with
  | plain lens => exact List.getElem?_map
  | flatten lens => exact List.getElem?_map
  | native rows =>
    change ((rows.map fun row => row.map f)[b]?.bind fun row => row[j]?) = _
    rw [List.getElem?_map, DecodeSeqLens.bound]
    cases rows[b]? with
    | none => rfl
    | some row => exact List.getElem?_map

theorem maxDecodeLen_le {reqs : List DecodeReq} {n : ℕ} (h : ∀ q ∈ reqs, q.decodeLen ≤ n) :
    maxDecodeLen reqs ≤ n := by
  cases hmax : (decodeLensCpu reqs).max? with
  | none =>
    rw [maxDecodeLen, hmax]
    exact Nat.zero_le n
  | some m =>
    obtain ⟨q, hq, hm⟩ := List.mem_map.mp (List.max?_eq_some_iff.mp hmax).1
    rw [maxDecodeLen, hmax, Option.getD_some, ← hm]
    exact h q hq

/-- The requests share one query length, padding rows apart, and their rows fill no more than
`numTokens` tokens. -/
def PaddedUniform (reqs : List DecodeReq) (numTokens : ℕ) : Prop :=
  ∃ len, (∀ q ∈ reqs, q.decodeLen = len ∨ q.decodeLen = 0) ∧ reqs.length * len ≤ numTokens

section
variable {reqs : List DecodeReq} {numTokens : ℕ}

theorem PaddedUniform.eq_max (h : PaddedUniform reqs numTokens) {q : DecodeReq} (hq : q ∈ reqs)
    (hpos : 0 < q.decodeLen) : q.decodeLen = maxDecodeLen reqs := by
  obtain ⟨len, huniform, -⟩ := h
  have hlen : q.decodeLen = len := (huniform q hq).resolve_right (by omega)
  refine Nat.le_antisymm (le_maxDecodeLen hq) (maxDecodeLen_le fun q' hq' => ?_)
  rcases huniform q' hq' with h | h <;> omega

theorem PaddedUniform.rows_le (h : PaddedUniform reqs numTokens) :
    reqs.length * maxDecodeLen reqs ≤ numTokens := by
  obtain ⟨len, huniform, hrows⟩ := h
  have hmax : maxDecodeLen reqs ≤ len := maxDecodeLen_le fun q hq => by
    rcases huniform q hq with h | h <;> omega
  exact Nat.le_trans (Nat.mul_le_mul_left _ hmax) hrows

end

theorem getElem?_view_seqLens (buffers : DecodeBuffers) (shape : BufferShape) {rows i : ℕ}
    (h : i < rows) : (buffers.view shape rows).seqLens[i]? = some (buffers.decodeSeqLens i) := by
  rw [DecodeBuffers.view, List.getElem?_map, List.getElem?_range h]
  rfl

/-- Outside the flattened and the native paths every decode has one token. -/
theorem decodeLen_of_plain {reqs : List DecodeReq} {useNative : Bool} {nextN j : ℕ} {q : DecodeReq}
    (hflatten : ¬ (useNative = false ∧ maxDecodeLen reqs > 1)) (hrows : ¬ (useNative = true ∧ nextN > 1))
    (hnative : useNative = true → maxDecodeLen reqs ≤ nextN) (hq : q ∈ reqs) (hj : j < q.decodeLen) :
    q.decodeLen = 1 ∧ j = 0 := by
  have hle := le_maxDecodeLen hq
  cases useNative with
  | false =>
    have hone : ¬ maxDecodeLen reqs > 1 := fun h => hflatten ⟨rfl, h⟩
    omega
  | true =>
    have hmax := hnative rfl
    have hone : ¬ nextN > 1 := fun h => hrows ⟨rfl, h⟩
    omega

/-- Whatever path prepares the tensors, a token's bound is its own causal length. -/
theorem prepareDecodeTensors_bound {shape : BufferShape} (buffers : DecodeBuffers)
    (reqs : List DecodeReq) {table : BlockTable} {numDecodeTokens : ℕ} {useNative : Bool}
    {nextN : ℕ} (hwidth : shape.blockTableWidth ≤ table.width)
    (htokens : (decodeLensCpu reqs).sum ≤ numDecodeTokens)
    (hfit : numDecodeTokens ≤ shape.maxNumBatchedTokens)
    (hnative : useNative = true → maxDecodeLen reqs ≤ nextN)
    (huniform : useNative = true → 1 < nextN → PaddedUniform reqs numDecodeTokens) :
    ∃ t, prepareDecodeTensors shape buffers reqs table numDecodeTokens useNative nextN = some t ∧
      ∀ b j q, reqs[b]? = some q → j < q.decodeLen →
        t.seqLens.bound reqs b j = some ((q.seqLen : ℤ) - q.decodeLen + j + 1) := by
  rw [prepareDecodeTensors]
  by_cases hflatten : useNative = false ∧ maxDecodeLen reqs > 1
  · obtain ⟨rows, s, hs, hsum, -, hexpands⟩ := flattenStores_expands reqs hwidth htokens hfit
    rw [if_pos hflatten, hs]
    refine ⟨_, rfl, fun b j q hq hj => ?_⟩
    have htoken : IsToken reqs b j q (queryStartLoc reqs b + j) := ⟨hq, hj, rfl⟩
    rw [DecodeSeqLens.bound, getElem?_view_seqLens _ _ (Nat.lt_of_lt_of_le htoken.lt_sum hsum),
      (hexpands.run_token hsum buffers htoken).1]
  rw [if_neg hflatten]
  by_cases hrows : useNative = true ∧ nextN > 1
  · have hpadded := huniform hrows.1 hrows.2
    rw [if_pos hrows, if_pos (Nat.le_trans hpadded.rows_le hfit)]
    refine ⟨_, rfl, fun b j q hq hj => ?_⟩
    have hmax := hpadded.eq_max (List.mem_of_getElem? hq) (by omega)
    rw [DecodeSeqLens.bound, List.getElem?_map, hq, Option.map_some, Option.bind_some,
      List.getElem?_map, List.getElem?_range (hmax ▸ hj), Option.map_some, ← hmax]
    congr 1
    omega
  · rw [if_neg hrows]
    refine ⟨_, rfl, fun b j q hq hj => ?_⟩
    have hone := decodeLen_of_plain hflatten hrows hnative (List.mem_of_getElem? hq) hj
    rw [DecodeSeqLens.bound, List.getElem?_map, hq, hone.1, hone.2]
    simp

/-! ## Local bounds -/

/-- The positions below `len` that a rank owns. -/
def ownedBelow (world interleave rank len : ℕ) : List ℕ :=
  (List.range len).filter fun pos => BlockCyclic.owner world interleave pos = rank

/-- `get_dcp_local_seq_lens` counts the positions a rank owns. -/
def CountsOwned (getDcpLocalSeqLens : GetDcpLocalSeqLens) : Prop :=
  ∀ len world rank interleave : ℕ, rank < world → 0 < interleave →
    getDcpLocalSeqLens len world rank interleave = (ownedBelow world interleave rank len).length

/-- What `split_decodes_and_prefills` promises: the decodes' tokens are counted, and with
`require_uniform` the decodes share one query length, padding rows apart. -/
structure SplitsDecodes (split : SplitDecodesAndPrefills) : Prop where
  counted : ∀ cm threshold requireUniform,
    (decodeLensCpu (cm.reqs.take (split cm threshold requireUniform).1)).sum ≤
      (split cm threshold requireUniform).2
  within : ∀ cm threshold requireUniform,
    (split cm threshold requireUniform).2 ≤ cm.numActualTokens
  uniform : ∀ cm threshold, 1 < threshold →
    PaddedUniform (cm.reqs.take (split cm threshold true).1) (split cm threshold true).2

theorem dcpLocalizeDecodeSeqLens_eq {cfg : DecodeConfig} (getDcpLocalSeqLens : GetDcpLocalSeqLens)
    (seqLens : DecodeSeqLens) {numDecodes : ℕ} (seqLensIsBufferView : Bool)
    (hdecodes : numDecodes ≤ cfg.shape.maxNumBatchedTokens) :
    dcpLocalizeDecodeSeqLens cfg getDcpLocalSeqLens seqLens numDecodes seqLensIsBufferView =
      some (seqLens.map fun len =>
        getDcpLocalSeqLens len cfg.dcp.worldSize cfg.dcpRank cfg.dcp.interleave) := by
  rw [dcpLocalizeDecodeSeqLens, if_pos hdecodes, ite_self]

/-- Localising the expanded lengths gives every token the number of keys its rank owns below
the token's own causal length. -/
theorem buildDecode_bound {cfg : DecodeConfig} {getDcpLocalSeqLens : GetDcpLocalSeqLens}
    (hcounts : CountsOwned getDcpLocalSeqLens) (buffers : DecodeBuffers)
    {cm : CommonAttentionMetadata} (reqs : List DecodeReq) {numDecodeTokens : ℕ}
    (hdcp : 1 < cfg.dcp.worldSize) (hlocal : cm.dcpLocalSeqLens.isSome)
    (hwidth : cfg.shape.blockTableWidth ≤ cm.blockTable.width)
    (hreqs : reqs.length ≤ cfg.shape.maxNumBatchedTokens)
    (htokens : (decodeLensCpu reqs).sum ≤ numDecodeTokens)
    (hfit : numDecodeTokens ≤ cfg.shape.maxNumBatchedTokens)
    (huniform : cfg.useFlattening = false → 1 < cfg.nextN → PaddedUniform reqs numDecodeTokens) :
    ∃ t, buildDecode cfg getDcpLocalSeqLens buffers cm reqs numDecodeTokens = some t ∧
      ∀ b j q, reqs[b]? = some q → j < q.decodeLen →
        t.seqLens.bound reqs b j =
          some ((ownedBelow cfg.dcp.worldSize cfg.dcp.interleave cfg.dcpRank
            (q.seqLen - q.decodeLen + j + 1)).length : ℤ) := by
  have hnative : cfg.useNative reqs = true →
      cfg.useFlattening = false ∧ maxDecodeLen reqs ≤ cfg.nextN := by
    simp [DecodeConfig.useNative]
  obtain ⟨t, ht, hbound⟩ := prepareDecodeTensors_bound buffers reqs hwidth htokens hfit
    (fun h => (hnative h).2) (fun h => huniform (hnative h).1)
  have hratio : ¬ cfg.compressRatio > 1 := by
    have := cfg.ratio_eq hdcp
    omega
  refine ⟨{ t with seqLens := t.seqLens.map fun len =>
    getDcpLocalSeqLens len cfg.dcp.worldSize cfg.dcpRank cfg.dcp.interleave }, ?_,
    fun b j q hq hj => ?_⟩
  · simp only [buildDecode, ht, Option.bind_eq_bind, Option.bind_some, if_pos hlocal,
      dcpLocalizeDecodeSeqLens_eq _ _ _ hreqs, if_neg hratio]
  · have hle := q.decode_le
    have hcast : (q.seqLen : ℤ) - q.decodeLen + j + 1 =
        ((q.seqLen - q.decodeLen + j + 1 : ℕ) : ℤ) := by
      push_cast [hle]
      rfl
    rw [DecodeSeqLens.bound_map, hbound b j q hq hj, Option.map_some, hcast,
      hcounts _ _ _ _ cfg.rank_lt cfg.dcp.interleave_pos]

/-- For every batch under DCP the bound of a decode token is the number of positions its rank
owns below the token's own causal length. -/
theorem decodeBounds_owned (cfg : DecodeConfig) (getDcpLocalSeqLens : GetDcpLocalSeqLens)
    (hcounts : CountsOwned getDcpLocalSeqLens) (split : SplitDecodesAndPrefills)
    (hsplit : SplitsDecodes split) (buffers : DecodeBuffers) (cm : CommonAttentionMetadata)
    (hdcp : 1 < cfg.dcp.worldSize) (hlocal : cm.dcpLocalSeqLens.isSome)
    (hwidth : cfg.shape.blockTableWidth ≤ cm.blockTable.width)
    (hreqs : cm.reqs.length ≤ cfg.shape.maxNumBatchedTokens)
    (hfit : cm.numActualTokens ≤ cfg.shape.maxNumBatchedTokens) :
    ∃ md, build cfg split cm getDcpLocalSeqLens buffers = some md ∧
      ∀ b j q, (decodes cfg split cm)[b]? = some q → j < q.decodeLen →
        ∃ t, md = some t ∧ t.seqLens.bound (decodes cfg split cm) b j =
          some ((ownedBelow cfg.dcp.worldSize cfg.dcp.interleave cfg.dcpRank
            (q.seqLen - q.decodeLen + j + 1)).length : ℤ) := by
  have hlen : (decodes cfg split cm).length ≤ cfg.shape.maxNumBatchedTokens :=
    Nat.le_trans (List.length_take_le' _ _) hreqs
  obtain ⟨t, ht, hbound⟩ := buildDecode_bound hcounts buffers (decodes cfg split cm) hdcp hlocal
    hwidth hlen (hsplit.counted cm cfg.nextN _)
    (Nat.le_trans (hsplit.within cm cfg.nextN (!cfg.useFlattening)) hfit)
    (fun hflatten hthreshold => by
      rw [decodes, numDecodes, hflatten]
      exact hsplit.uniform cm cfg.nextN hthreshold)
  rw [build]
  by_cases hdecodes : numDecodes cfg split cm > 0
  · rw [if_pos hdecodes, numDecodeTokens, ht]
    exact ⟨some t, rfl, fun b j q hq hj => ⟨t, rfl, hbound b j q hq hj⟩⟩
  · have hnone : decodes cfg split cm = [] := by
      rw [decodes, Nat.eq_zero_of_not_pos hdecodes, List.take_zero]
    rw [if_neg hdecodes]
    refine ⟨none, rfl, fun b j q hq _ => ?_⟩
    simp [hnone] at hq

/-- `get_dcp_local_seq_lens` written out. -/
def dcpLocalSeqLens : GetDcpLocalSeqLens := fun len world rank interleave =>
  let base := len / interleave / world * interleave
  base + max 0 (min (len - base * world - rank * interleave) interleave)

theorem dcpLocalSeqLens_countsOwned : CountsOwned dcpLocalSeqLens := by
  intro len world rank interleave hrank hpos
  have hbase : len / interleave / world * interleave * world ≤ len := by
    rw [Nat.mul_assoc, Nat.mul_comm interleave, Nat.div_div_eq_div_mul, Nat.mul_comm interleave]
    exact Nat.div_mul_le_self _ _
  have hclip : ∀ taken before : ℕ, taken ≤ len →
      max 0 (min ((len : ℤ) - taken - before) interleave) =
        (min (len - taken - before) interleave : ℕ) := by
    intro taken before htaken
    omega
  rw [ownedBelow, BlockCyclic.length_owned hrank hpos, BlockCyclic.localLen, Nat.cast_add,
    ← hclip _ _ hbase, dcpLocalSeqLens]
  push_cast
  rfl

/-- The leading requests of at most the threshold, of the first one's length if asked. -/
def splitByQueryLen : SplitDecodesAndPrefills := fun cm threshold requireUniform =>
  let first := (cm.reqs.head?.map DecodeReq.decodeLen).getD 0
  let decodes := cm.reqs.takeWhile fun q =>
    decide (q.decodeLen ≤ threshold) && (!requireUniform || q.decodeLen == first)
  (decodes.length, (decodeLensCpu decodes).sum)

theorem splitByQueryLen_splits : SplitsDecodes splitByQueryLen := by
  have htake : ∀ (p : DecodeReq → Bool) (reqs : List DecodeReq),
      reqs.take (reqs.takeWhile p).length = reqs.takeWhile p := fun p reqs =>
    (List.prefix_iff_eq_take.mp (List.takeWhile_prefix p)).symm
  refine ⟨fun cm threshold requireUniform => ?_, fun cm threshold requireUniform => ?_,
    fun cm threshold _ => ?_⟩
  · rw [splitByQueryLen, htake]
  · refine Nat.le_trans ?_ cm.tokens_le
    have hsum := congrArg (fun reqs => (decodeLensCpu reqs).sum)
      (List.takeWhile_append_dropWhile (p := fun q => decide (q.decodeLen ≤ threshold) &&
        (!requireUniform || q.decodeLen == (cm.reqs.head?.map DecodeReq.decodeLen).getD 0))
        (l := cm.reqs))
    simp only [decodeLensCpu, List.map_append, List.sum_append] at hsum
    rw [splitByQueryLen, decodeLensCpu, decodeLensCpu]
    omega
  · rw [splitByQueryLen, htake]
    have huniform : ∀ q ∈ cm.reqs.takeWhile fun q => decide (q.decodeLen ≤ threshold) &&
        (!true || q.decodeLen == (cm.reqs.head?.map DecodeReq.decodeLen).getD 0),
        q.decodeLen = (cm.reqs.head?.map DecodeReq.decodeLen).getD 0 := by
      intro q hq
      have hp := List.mem_takeWhile_imp hq
      simp only [Bool.not_true, Bool.false_or, Bool.and_eq_true, beq_iff_eq] at hp
      exact hp.2
    exact ⟨_, fun q hq => Or.inl (huniform q hq), (sum_uniform huniform).ge⟩

/-- Two ranks, four tokens a step at most, flattened. -/
def pairConfig : DecodeConfig where
  dcp := ⟨2, 1, Nat.two_pos, Nat.one_pos⟩
  dcpRank := 1
  shape := smallShape
  numSpeculativeTokens := 3
  capabilityFamily100 := false
  compressRatio := 1
  rank_lt := Nat.one_lt_two
  ratio_eq := fun _ => rfl

def paddedBatch : CommonAttentionMetadata := ⟨paddedReqs, 9, wideTable, some [], by decide⟩

/-- The first request's tokens see 4 to 5 of the keys; expanding its localised length 5 would
start at 3. -/
theorem paddedBatch_bounds : ∃ t,
    build pairConfig splitByQueryLen paddedBatch dcpLocalSeqLens staleBuffers = some (some t) ∧
      t.seqLens.bound paddedReqs 0 0 = some 4 ∧ t.seqLens.bound paddedReqs 0 2 = some 5 := by
  obtain ⟨md, hmd, hbound⟩ := decodeBounds_owned pairConfig dcpLocalSeqLens
    dcpLocalSeqLens_countsOwned splitByQueryLen splitByQueryLen_splits staleBuffers paddedBatch
    (by decide) rfl (by decide) (by decide) (by decide)
  obtain ⟨t, rfl, hfirst⟩ := hbound 0 0 ⟨10, 3, by decide⟩ rfl (by decide)
  obtain ⟨t', ht', hlast⟩ := hbound 0 2 ⟨10, 3, by decide⟩ rfl (by decide)
  obtain rfl := Option.some.inj ht'
  exact ⟨t, hmd, hfirst, hlast⟩

end SparkKit.Dcp.DecodeBounds
