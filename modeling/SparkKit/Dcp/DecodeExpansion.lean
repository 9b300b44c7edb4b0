import SparkKit.Lib.Scatter
import SparkKit.Lib.Segments
import Mathlib.Data.Int.Order.Basic

/-!
# Expanding a decode batch to one entry per token

The sparse indexer scores one query token per row, so a batch of multi-token decodes is
flattened: every token gets a length, a block-table row and a decode length of one, in
persistent buffers that still hold the previous batch. A batch of equal decode lengths is
expanded by one fused kernel, any other by repeat-interleave.
-/
namespace SparkKit.Dcp.DecodeExpansion

open SparkKit.Lib.Scatter SparkKit.Lib.Segments

/-- One decode request: its entries of `seq_lens` and `decode_lens`. A padding row has
decode length 0. -/
structure DecodeReq where
  seqLen : ℕ
  decodeLen : ℕ
  decode_le : decodeLen ≤ seqLen

/-- `block_table` from its data pointer on, with `stride(0)` and `shape[1]`. -/
structure BlockTable where
  mem : ℕ → ℤ
  stride : ℕ
  width : ℕ
  width_le : width ≤ stride

def BlockTable.entry (table : BlockTable) (row col : ℕ) : ℤ :=
  table.mem (row * table.stride + col)

/-- `max_num_batched_tokens` and `block_table_width`, the shape of the persistent buffers. -/
structure BufferShape where
  maxNumBatchedTokens : ℕ
  blockTableWidth : ℕ
  width_pos : 0 < blockTableWidth

/-- `decode_seq_lens_buffer`, `decode_lens_buffer` and `expanded_block_table_buffer`, by
address; the last one by row and column. -/
structure DecodeBuffers where
  decodeSeqLens : ℕ → ℤ
  decodeLens : ℕ → ℤ
  expandedBlockTable : ℕ × ℕ → ℤ

/-- What a call stores into each buffer, in order. -/
structure Stores where
  decodeSeqLens : List (ℕ × ℤ)
  decodeLens : List (ℕ × ℤ)
  expandedBlockTable : List ((ℕ × ℕ) × ℤ)

def Stores.run (s : Stores) (buffers : DecodeBuffers) : DecodeBuffers where
  decodeSeqLens := scatter s.decodeSeqLens buffers.decodeSeqLens
  decodeLens := scatter s.decodeLens buffers.decodeLens
  expandedBlockTable := scatter s.expandedBlockTable buffers.expandedBlockTable

/-- Every store goes to a cell of its buffer. -/
structure Stores.InBounds (s : Stores) (shape : BufferShape) : Prop where
  decodeSeqLens : ∀ w ∈ s.decodeSeqLens, w.1 < shape.maxNumBatchedTokens
  decodeLens : ∀ w ∈ s.decodeLens, w.1 < shape.maxNumBatchedTokens
  expandedBlockTable : ∀ w ∈ s.expandedBlockTable,
    w.1.1 < shape.maxNumBatchedTokens ∧ w.1.2 < shape.blockTableWidth

/-- The first `rows` entries of the buffers, as returned. -/
structure Expanded where
  seqLens : List ℤ
  blockTable : List (List ℤ)
  decodeLens : List ℤ
  deriving DecidableEq

def DecodeBuffers.view (buffers : DecodeBuffers) (shape : BufferShape) (rows : ℕ) : Expanded where
  seqLens := (List.range rows).map buffers.decodeSeqLens
  blockTable := (List.range rows).map fun i =>
    (List.range shape.blockTableWidth).map fun col => buffers.expandedBlockTable (i, col)
  decodeLens := (List.range rows).map buffers.decodeLens

/-- `decode_lens_cpu`, the same numbers as `decode_lens`. -/
def decodeLensCpu (reqs : List DecodeReq) : List ℕ := reqs.map DecodeReq.decodeLen

def maxDecodeLen (reqs : List DecodeReq) : ℕ := (decodeLensCpu reqs).max?.getD 0

def minDecodeLen (reqs : List DecodeReq) : ℕ := (decodeLensCpu reqs).min?.getD 0

/-- `query_start_loc` -/
def queryStartLoc (reqs : List DecodeReq) (b : ℕ) : ℕ := start (decodeLensCpu reqs) b

/-- `seq_lens[b]`; nothing is loaded past the batch. -/
def seqLen (reqs : List DecodeReq) (b : ℕ) : ℤ := (reqs[b]?.map fun q => (q.seqLen : ℤ)).getD 0

/-! ## The uniform kernel -/

/-- `_prepare_uniform_decode_kernel` in program `idx`. The column blocks of the copy are
masked to `expandedBtStride`. -/
def prepareUniformDecodeKernel (reqs : List DecodeReq) (table : BlockTable)
    (expandedBtStride maxDecodeLen idx : ℕ) : Stores :=
  let reqId := idx / maxDecodeLen
  let localIdx := idx % maxDecodeLen
  { decodeSeqLens := [(idx, seqLen reqs reqId - maxDecodeLen + localIdx + 1)]
    decodeLens := [(idx, 1)]
    expandedBlockTable := (List.range expandedBtStride).map fun off =>
      ((idx, off), table.entry reqId off) }

/-- `buffer[first:last] = value` -/
def fill {ι : Type*} (first last : ℕ) (cell : ℕ → ι) (value : ℤ) : List (ι × ℤ) :=
  (List.range' first (last - first)).map fun i => (cell i, value)

/-- The uniform branch: one program per token, then the rest of the lengths is cleared. -/
def uniformStores (shape : BufferShape) (reqs : List DecodeReq) (table : BlockTable)
    (maxDecodeLen : ℕ) : Stores :=
  let numDecodeTokens := reqs.length * maxDecodeLen
  let programs := (List.range numDecodeTokens).map
    (prepareUniformDecodeKernel reqs table shape.blockTableWidth maxDecodeLen)
  { decodeSeqLens := programs.flatMap Stores.decodeSeqLens ++
      fill numDecodeTokens shape.maxNumBatchedTokens id 0
    decodeLens := programs.flatMap Stores.decodeLens
    expandedBlockTable := programs.flatMap Stores.expandedBlockTable }

/-! ## Repeat-interleave -/

/-- `seq_lens - decode_lens - query_start_loc`, repeated by `decode_lens`. -/
def expandedOffsets (reqs : List DecodeReq) : List ℤ :=
  repeatInterleave
    (fun b => seqLen reqs b - (decodeLensCpu reqs).getD b 0 - queryStartLoc reqs b) (decodeLensCpu reqs)

/-- The request each row of `repeat_interleave(block_table, decode_lens, dim=0)` comes from. -/
def expandedRows (reqs : List DecodeReq) : List ℕ := repeatInterleave id (decodeLensCpu reqs)

/-- The variable branch, `none` where an assignment raises because the shapes differ: more
tokens than the buffers have rows, or a source that is narrower than they are. One
column is broadcast. -/
def variableStores (shape : BufferShape) (reqs : List DecodeReq) (table : BlockTable)
    (numDecodeTokens : ℕ) : Option Stores :=
  let actualExpanded := (decodeLensCpu reqs).sum
  let columns := min table.width shape.blockTableWidth
  let numRows := min numDecodeTokens shape.maxNumBatchedTokens
  if actualExpanded ≤ shape.maxNumBatchedTokens ∧
      (columns = shape.blockTableWidth ∨ columns = 1) then
    some
      { decodeSeqLens := ((expandedOffsets reqs).mapIdx fun i (offset : ℤ) => (i, offset + i + 1)) ++
          fill actualExpanded shape.maxNumBatchedTokens id 0
        decodeLens := fill 0 numRows id 1
        expandedBlockTable :=
          ((expandedRows reqs).mapIdx fun i b => (List.range shape.blockTableWidth).map fun col =>
            ((i, col), table.entry b (if columns = 1 then 0 else col))).flatten ++
          -- only when there are rows left over, and only their first column
          if actualExpanded < numDecodeTokens then fill actualExpanded numRows (·, 0) 0 else [] }
  else none

/-- The flatten path of `_prepare_decode_tensors`: how many rows it returns and what it
stores. -/
def flattenStores (shape : BufferShape) (reqs : List DecodeReq) (table : BlockTable)
    (numDecodeTokens maxDecodeLen : ℕ) : Option (ℕ × Stores) :=
  if minDecodeLen reqs = maxDecodeLen then
    some (reqs.length * maxDecodeLen, uniformStores shape reqs table maxDecodeLen)
  else (variableStores shape reqs table numDecodeTokens).map (numDecodeTokens, ·)

/-! ## Rows and tokens -/

/-- Row `i` stands for token `j` of request `b`. -/
structure IsToken (reqs : List DecodeReq) (b j : ℕ) (q : DecodeReq) (i : ℕ) : Prop where
  req : reqs[b]? = some q
  lt : j < q.decodeLen
  row : i = queryStartLoc reqs b + j

section
variable {reqs : List DecodeReq} {b j i : ℕ} {q : DecodeReq}

theorem getElem?_decodeLensCpu (h : reqs[b]? = some q) :
    (decodeLensCpu reqs)[b]? = some q.decodeLen := by
  rw [decodeLensCpu, List.getElem?_map, h]
  rfl

theorem seqLen_eq (h : reqs[b]? = some q) : seqLen reqs b = q.seqLen := by
  rw [seqLen, h]
  rfl

theorem IsToken.segment (h : IsToken reqs b j q i) :
    ∃ hb : b < (decodeLensCpu reqs).length, j < (decodeLensCpu reqs)[b] := by
  obtain ⟨hb, hlen⟩ := List.getElem?_eq_some_iff.mp (getElem?_decodeLensCpu h.req)
  exact ⟨hb, hlen ▸ h.lt⟩

theorem IsToken.lt_sum (h : IsToken reqs b j q i) : i < (decodeLensCpu reqs).sum := by
  obtain ⟨hb, hj⟩ := h.segment
  have hnext := start_add_le (decodeLensCpu reqs) hb (Nat.succ_le_of_lt hj)
  rw [h.row, queryStartLoc]
  omega

theorem exists_token (h : i < (decodeLensCpu reqs).sum) : ∃ b j q, IsToken reqs b j q i := by
  obtain ⟨b, hb, j, hj, hi⟩ := exists_segment (decodeLensCpu reqs) h
  have hlen : b < reqs.length := by simpa [decodeLensCpu] using hb
  have hq : reqs[b]? = some reqs[b] := List.getElem?_eq_getElem hlen
  refine ⟨b, j, reqs[b], hq, ?_, hi⟩
  simpa [decodeLensCpu] using hj

theorem IsToken.unique {b' j' : ℕ} {q' : DecodeReq} (h : IsToken reqs b j q i)
    (h' : IsToken reqs b' j' q' i) : b = b' ∧ j = j' ∧ q = q' := by
  obtain ⟨hb, hj⟩ := h.segment
  obtain ⟨hb', hj'⟩ := h'.segment
  obtain ⟨rfl, rfl⟩ := segment_unique hb hb' hj hj' (h.row.symm.trans h'.row)
  exact ⟨rfl, rfl, Option.some.inj (h.req.symm.trans h'.req)⟩

end

/-! ## What both paths store -/

/-- Expansion to `rows` rows: a row of a token gets the token's causal length and its
request's block-table row, the lengths are cleared to the end of the buffer and the other
rows point to block 0. -/
structure Expands (shape : BufferShape) (reqs : List DecodeReq) (table : BlockTable) (rows : ℕ)
    (s : Stores) : Prop where
  decodeSeqLens : ∀ i v, (i, v) ∈ s.decodeSeqLens ↔
    (∃ b j q, IsToken reqs b j q i ∧ v = q.seqLen - q.decodeLen + j + 1) ∨
      (decodeLensCpu reqs).sum ≤ i ∧ i < shape.maxNumBatchedTokens ∧ v = 0
  decodeLens : ∀ i v, (i, v) ∈ s.decodeLens ↔ i < rows ∧ v = 1
  expandedBlockTable : ∀ i col v, ((i, col), v) ∈ s.expandedBlockTable ↔
    (∃ b j q, IsToken reqs b j q i ∧ col < shape.blockTableWidth ∧ v = table.entry b col) ∨
      (decodeLensCpu reqs).sum ≤ i ∧ i < rows ∧ col = 0 ∧ v = 0

theorem mem_fill {ι : Type*} {first last : ℕ} {cell : ℕ → ι} {value : ℤ} {a : ι} {v : ℤ} :
    (a, v) ∈ fill first last cell value ↔
      ∃ i, first ≤ i ∧ i < last ∧ cell i = a ∧ v = value := by
  simp only [fill, List.mem_map, List.mem_range'_1, Prod.mk.injEq]
  constructor
  · rintro ⟨i, hi, hcell, hv⟩
    exact ⟨i, hi.1, by omega, hcell, hv.symm⟩
  · rintro ⟨i, hfirst, hlast, hcell, hv⟩
    exact ⟨i, ⟨hfirst, by omega⟩, hcell, hv.symm⟩

/-! ### The kernel -/

section
variable {reqs : List DecodeReq} {maxDecodeLen : ℕ}
  (huniform : ∀ q ∈ reqs, q.decodeLen = maxDecodeLen)
include huniform

theorem queryStartLoc_uniform {b : ℕ} (hb : b ≤ reqs.length) :
    queryStartLoc reqs b = b * maxDecodeLen := by
  refine start_uniform (fun x hx => ?_) (by simpa [decodeLensCpu] using hb)
  obtain ⟨q, hq, rfl⟩ := List.mem_map.mp hx
  exact huniform q hq

theorem sum_uniform : (decodeLensCpu reqs).sum = reqs.length * maxDecodeLen := by
  rw [← queryStartLoc_uniform huniform (Nat.le_refl _), queryStartLoc, start, decodeLensCpu,
    List.take_of_length_le (by simp)]

/-- The kernel's `req_id` and `local_idx`. -/
theorem isToken_uniform_iff {b j i : ℕ} {q : DecodeReq} : IsToken reqs b j q i ↔
    i < reqs.length * maxDecodeLen ∧ b = i / maxDecodeLen ∧ j = i % maxDecodeLen ∧
      reqs[b]? = some q := by
  constructor
  · intro h
    have hb : b < reqs.length := (List.getElem?_eq_some_iff.mp h.req).1
    have hj : j < maxDecodeLen := huniform q (List.mem_of_getElem? h.req) ▸ h.lt
    have hi : i = b * maxDecodeLen + j := by
      rw [h.row, queryStartLoc_uniform huniform (Nat.le_of_lt hb)]
    refine ⟨sum_uniform huniform ▸ h.lt_sum, ?_, ?_, h.req⟩
    · rw [hi, Nat.mul_comm, Nat.mul_add_div (by omega), Nat.div_eq_of_lt hj, Nat.add_zero]
    · rw [hi, Nat.mul_comm, Nat.mul_add_mod, Nat.mod_eq_of_lt hj]
  · rintro ⟨hi, hb, hj, hq⟩
    have hpos : 0 < maxDecodeLen := Nat.pos_of_ne_zero fun h => by simp [h] at hi
    have hlen : b < reqs.length := (List.getElem?_eq_some_iff.mp hq).1
    refine ⟨hq, ?_, ?_⟩
    · rw [huniform q (List.mem_of_getElem? hq), hj]
      exact Nat.mod_lt i hpos
    · rw [queryStartLoc_uniform huniform (Nat.le_of_lt hlen), hb, hj, Nat.mul_comm,
        Nat.div_add_mod]

theorem exists_program_token {idx : ℕ} (hidx : idx < reqs.length * maxDecodeLen) :
    ∃ q, reqs[idx / maxDecodeLen]? = some q ∧
      IsToken reqs (idx / maxDecodeLen) (idx % maxDecodeLen) q idx := by
  have hpos : 0 < maxDecodeLen := Nat.pos_of_ne_zero fun h => by simp [h] at hidx
  have hb : idx / maxDecodeLen < reqs.length := Nat.div_lt_of_lt_mul (by rwa [Nat.mul_comm])
  have hq : reqs[idx / maxDecodeLen]? = some reqs[idx / maxDecodeLen] :=
    List.getElem?_eq_getElem hb
  exact ⟨_, hq, (isToken_uniform_iff huniform).mpr ⟨hidx, rfl, rfl, hq⟩⟩

theorem uniformStores_expands (shape : BufferShape) (table : BlockTable) :
    Expands shape reqs table (decodeLensCpu reqs).sum
      (uniformStores shape reqs table maxDecodeLen) := by
  have hsum := sum_uniform huniform
  refine ⟨fun i v => ?_, fun i v => ?_, fun i col v => ?_⟩
  · simp only [uniformStores, List.mem_append, mem_fill, List.flatMap_map, List.mem_flatMap,
      List.mem_range, prepareUniformDecodeKernel, List.mem_singleton, Prod.mk.injEq, id_eq]
    constructor
    · rintro (⟨idx, hidx, rfl, rfl⟩ | ⟨k, hfirst, hlast, rfl, rfl⟩)
      · obtain ⟨q, hq, htoken⟩ := exists_program_token huniform hidx
        refine Or.inl ⟨_, _, q, htoken, ?_⟩
        rw [seqLen_eq hq, huniform q (List.mem_of_getElem? hq)]
      · exact Or.inr ⟨by omega, hlast, rfl⟩
    · rintro (⟨b, j, q, htoken, rfl⟩ | ⟨hsumle, hlt, rfl⟩)
      · obtain ⟨hi, rfl, rfl, hq⟩ := (isToken_uniform_iff huniform).mp htoken
        refine Or.inl ⟨i, hi, rfl, ?_⟩
        rw [seqLen_eq hq, huniform q (List.mem_of_getElem? hq)]
      · exact Or.inr ⟨i, by omega, hlt, rfl, rfl⟩
  · simp only [uniformStores, List.flatMap_map, List.mem_flatMap, List.mem_range,
      prepareUniformDecodeKernel, List.mem_singleton, Prod.mk.injEq, hsum]
    constructor
    · rintro ⟨idx, hidx, rfl, rfl⟩
      exact ⟨hidx, rfl⟩
    · rintro ⟨hi, rfl⟩
      exact ⟨i, hi, rfl, rfl⟩
  · simp only [uniformStores, List.flatMap_map, List.mem_flatMap, List.mem_range,
      prepareUniformDecodeKernel, List.mem_map, Prod.mk.injEq]
    constructor
    · rintro ⟨idx, hidx, off, hoff, ⟨rfl, rfl⟩, rfl⟩
      obtain ⟨q, -, htoken⟩ := exists_program_token huniform hidx
      exact Or.inl ⟨_, _, q, htoken, hoff, rfl⟩
    · rintro (⟨b, j, q, htoken, hcol, rfl⟩ | ⟨hsumle, hlt, -⟩)
      · obtain ⟨hi, rfl, -, -⟩ := (isToken_uniform_iff huniform).mp htoken
        exact ⟨i, hi, col, hcol, ⟨rfl, rfl⟩, rfl⟩
      · exact absurd hlt (Nat.not_lt.mpr hsumle)

end

/-! ### Repeat-interleave -/

section
variable {reqs : List DecodeReq} {b j i : ℕ} {q : DecodeReq}

theorem mem_mapIdx_pair {α β : Type*} {l : List α} {g : ℕ → α → β} {i : ℕ} {v : β} :
    (i, v) ∈ l.mapIdx (fun k x => (k, g k x)) ↔ ∃ x, l[i]? = some x ∧ v = g i x := by
  rw [List.mem_mapIdx]
  constructor
  · rintro ⟨k, hk, he⟩
    obtain ⟨rfl, rfl⟩ := Prod.mk.inj he
    exact ⟨_, List.getElem?_eq_getElem hk, rfl⟩
  · rintro ⟨x, hx, rfl⟩
    obtain ⟨hi, rfl⟩ := List.getElem?_eq_some_iff.mp hx
    exact ⟨i, hi, rfl⟩

theorem getElem?_expandedOffsets (h : IsToken reqs b j q i) : (expandedOffsets reqs)[i]? =
    some ((q.seqLen : ℤ) - q.decodeLen - queryStartLoc reqs b) := by
  obtain ⟨hb, hj⟩ := h.segment
  rw [h.row, expandedOffsets, queryStartLoc, getElem?_repeatInterleave _ hb hj, seqLen_eq h.req,
    List.getD_eq_getElem?_getD, getElem?_decodeLensCpu h.req]
  rfl

theorem getElem?_expandedRows (h : IsToken reqs b j q i) : (expandedRows reqs)[i]? = some b := by
  obtain ⟨hb, hj⟩ := h.segment
  rw [h.row, expandedRows, queryStartLoc, getElem?_repeatInterleave _ hb hj]
  rfl

/-- Past the last token there is no row. -/
theorem exists_token_of_getElem? {x : ℕ} (h : (expandedRows reqs)[i]? = some x) :
    ∃ b j q, IsToken reqs b j q i := by
  have hlt := (List.getElem?_eq_some_iff.mp h).1
  rw [expandedRows, length_repeatInterleave] at hlt
  exact exists_token hlt

theorem mem_offsets {v : ℤ} :
    (i, v) ∈ (expandedOffsets reqs).mapIdx (fun i (offset : ℤ) => (i, offset + i + 1)) ↔
      ∃ b j q, IsToken reqs b j q i ∧ v = q.seqLen - q.decodeLen + j + 1 := by
  rw [mem_mapIdx_pair]
  constructor
  · rintro ⟨offset, hoffset, rfl⟩
    have hlt := (List.getElem?_eq_some_iff.mp hoffset).1
    rw [expandedOffsets, length_repeatInterleave] at hlt
    obtain ⟨b, j, q, htoken⟩ := exists_token hlt
    rw [getElem?_expandedOffsets htoken, Option.some.injEq] at hoffset
    refine ⟨b, j, q, htoken, ?_⟩
    rw [← hoffset, htoken.row]
    push_cast
    omega
  · rintro ⟨b, j, q, htoken, rfl⟩
    refine ⟨_, getElem?_expandedOffsets htoken, ?_⟩
    rw [htoken.row]
    push_cast
    omega

theorem mem_tableRows {col width : ℕ} {entry : ℕ → ℕ → ℤ} {v : ℤ} :
    ((i, col), v) ∈ ((expandedRows reqs).mapIdx fun i b =>
        (List.range width).map fun col => ((i, col), entry b col)).flatten ↔
      ∃ b j q, IsToken reqs b j q i ∧ col < width ∧ v = entry b col := by
  simp only [List.mem_flatten, List.mem_mapIdx]
  constructor
  · rintro ⟨row, ⟨k, hk, rfl⟩, hmem⟩
    obtain ⟨c, hc, he⟩ := List.mem_map.mp hmem
    obtain ⟨⟨rfl, rfl⟩, rfl⟩ : (k = i ∧ c = col) ∧ entry (expandedRows reqs)[k] c = v := by
      simpa only [Prod.mk.injEq] using he
    have hrow := List.getElem?_eq_getElem hk
    obtain ⟨b, j, q, htoken⟩ := exists_token_of_getElem? hrow
    have hb := Option.some.inj (hrow.symm.trans (getElem?_expandedRows htoken))
    exact ⟨b, j, q, htoken, List.mem_range.mp hc, by rw [hb]⟩
  · rintro ⟨b, j, q, htoken, hcol, rfl⟩
    obtain ⟨hi, hb⟩ := List.getElem?_eq_some_iff.mp (getElem?_expandedRows htoken)
    refine ⟨_, ⟨i, hi, rfl⟩, List.mem_map.mpr ⟨col, List.mem_range.mpr hcol, ?_⟩⟩
    rw [hb]

end

theorem variableStores_expands {shape : BufferShape} (reqs : List DecodeReq) {table : BlockTable}
    {numDecodeTokens : ℕ} (hwidth : shape.blockTableWidth ≤ table.width)
    (htokens : (decodeLensCpu reqs).sum ≤ numDecodeTokens)
    (hfit : numDecodeTokens ≤ shape.maxNumBatchedTokens) :
    ∃ s, variableStores shape reqs table numDecodeTokens = some s ∧
      Expands shape reqs table numDecodeTokens s := by
  have hcolumns : min table.width shape.blockTableWidth = shape.blockTableWidth :=
    Nat.min_eq_right hwidth
  rw [variableStores, if_pos ⟨Nat.le_trans htokens hfit, Or.inl hcolumns⟩]
  refine ⟨_, rfl, fun i v => ?_, fun i v => ?_, fun i col v => ?_⟩
  · rw [List.mem_append, mem_offsets, mem_fill]
    refine or_congr Iff.rfl ⟨?_, fun h => ⟨i, h.1, h.2.1, rfl, h.2.2⟩⟩
    rintro ⟨k, hfirst, hlast, rfl, hv⟩
    exact ⟨hfirst, hlast, hv⟩
  · rw [mem_fill, Nat.min_eq_left hfit]
    refine ⟨?_, fun h => ⟨i, Nat.zero_le i, h.1, rfl, h.2⟩⟩
    rintro ⟨k, -, hlast, rfl, hv⟩
    exact ⟨hlast, hv⟩
  · rw [List.mem_append, mem_tableRows, hcolumns, Nat.min_eq_left hfit]
    refine or_congr ?_ ?_
    · -- a one-column buffer is its column 0
      have hentry : ∀ b, col < shape.blockTableWidth →
          table.entry b (if shape.blockTableWidth = 1 then 0 else col) = table.entry b col := by
        intro b hcol
        split
        · rw [show col = 0 by omega]
        · rfl
      constructor
      · rintro ⟨b, j, q, htoken, hcol, rfl⟩
        exact ⟨b, j, q, htoken, hcol, hentry b hcol⟩
      · rintro ⟨b, j, q, htoken, hcol, rfl⟩
        exact ⟨b, j, q, htoken, hcol, (hentry b hcol).symm⟩
    · constructor
      · intro hmem
        split at hmem
        · obtain ⟨k, hfirst, hlast, hcell, rfl⟩ := mem_fill.mp hmem
          obtain ⟨rfl, rfl⟩ := Prod.mk.inj hcell
          exact ⟨hfirst, hlast, rfl, rfl⟩
        · cases hmem
      · rintro ⟨hfirst, hlast, rfl, rfl⟩
        rw [if_pos (by omega)]
        exact mem_fill.mpr ⟨i, hfirst, hlast, rfl, rfl⟩

/-! ## What an expansion leaves in the buffers -/

namespace Expands

variable {shape : BufferShape} {reqs : List DecodeReq} {table : BlockTable} {rows : ℕ} {s : Stores}

theorem inBounds (h : Expands shape reqs table rows s)
    (hsum : (decodeLensCpu reqs).sum ≤ shape.maxNumBatchedTokens)
    (hrows : rows ≤ shape.maxNumBatchedTokens) : s.InBounds shape := by
  refine ⟨fun w hw => ?_, fun w hw => ?_, fun w hw => ?_⟩
  · rcases (h.decodeSeqLens w.1 w.2).mp hw with ⟨b, j, q, htoken, -⟩ | ⟨-, hlt, -⟩
    · exact Nat.lt_of_lt_of_le htoken.lt_sum hsum
    · exact hlt
  · exact Nat.lt_of_lt_of_le ((h.decodeLens w.1 w.2).mp hw).1 hrows
  · rcases (h.expandedBlockTable w.1.1 w.1.2 w.2).mp hw with
      ⟨b, j, q, htoken, hcol, -⟩ | ⟨-, hlt, hcol, -⟩
    · exact ⟨Nat.lt_of_lt_of_le htoken.lt_sum hsum, hcol⟩
    · exact ⟨Nat.lt_of_lt_of_le hlt hrows, hcol ▸ shape.width_pos⟩

theorem decodeSeqLens_unique (h : Expands shape reqs table rows s) {i : ℕ} {u v : ℤ}
    (hu : (i, u) ∈ s.decodeSeqLens) (hv : (i, v) ∈ s.decodeSeqLens) : u = v := by
  rcases (h.decodeSeqLens i u).mp hu with ⟨b, j, q, htoken, rfl⟩ | ⟨hle, -, rfl⟩ <;>
    rcases (h.decodeSeqLens i v).mp hv with ⟨b', j', q', htoken', rfl⟩ | ⟨hle', -, rfl⟩
  · obtain ⟨rfl, rfl, rfl⟩ := htoken.unique htoken'
    rfl
  · exact absurd htoken.lt_sum (Nat.not_lt.mpr hle')
  · exact absurd htoken'.lt_sum (Nat.not_lt.mpr hle)
  · rfl

theorem expandedBlockTable_unique (h : Expands shape reqs table rows s) {cell : ℕ × ℕ} {u v : ℤ}
    (hu : (cell, u) ∈ s.expandedBlockTable) (hv : (cell, v) ∈ s.expandedBlockTable) : u = v := by
  rcases (h.expandedBlockTable cell.1 cell.2 u).mp hu with
      ⟨b, j, q, htoken, -, rfl⟩ | ⟨hle, -, -, rfl⟩ <;>
    rcases (h.expandedBlockTable cell.1 cell.2 v).mp hv with
      ⟨b', j', q', htoken', -, rfl⟩ | ⟨hle', -, -, rfl⟩
  · obtain ⟨rfl, rfl, rfl⟩ := htoken.unique htoken'
    rfl
  · exact absurd htoken.lt_sum (Nat.not_lt.mpr hle')
  · exact absurd htoken'.lt_sum (Nat.not_lt.mpr hle)
  · rfl

theorem decodeLens_unique (h : Expands shape reqs table rows s) {i : ℕ} {u v : ℤ}
    (hu : (i, u) ∈ s.decodeLens) (hv : (i, v) ∈ s.decodeLens) : u = v :=
  ((h.decodeLens i u).mp hu).2.trans ((h.decodeLens i v).mp hv).2.symm

/-- The row of a token, whatever the buffers held. -/
theorem run_token (h : Expands shape reqs table rows s)
    (hrows : (decodeLensCpu reqs).sum ≤ rows) (buffers : DecodeBuffers) {b j i : ℕ}
    {q : DecodeReq} (htoken : IsToken reqs b j q i) :
    (s.run buffers).decodeSeqLens i = q.seqLen - q.decodeLen + j + 1 ∧
    (∀ col < shape.blockTableWidth,
      (s.run buffers).expandedBlockTable (i, col) = table.entry b col) ∧
    (s.run buffers).decodeLens i = 1 := by
  refine ⟨?_, fun col hcol => ?_, ?_⟩
  · exact scatter_of_unique ((h.decodeSeqLens i _).mpr (Or.inl ⟨b, j, q, htoken, rfl⟩))
      (fun u hu => h.decodeSeqLens_unique hu
        ((h.decodeSeqLens i _).mpr (Or.inl ⟨b, j, q, htoken, rfl⟩))) _
  · have hmem := (h.expandedBlockTable i col _).mpr (Or.inl ⟨b, j, q, htoken, hcol, rfl⟩)
    exact scatter_of_unique hmem (fun u hu => h.expandedBlockTable_unique hu hmem) _
  · have hmem := (h.decodeLens i 1).mpr ⟨Nat.lt_of_lt_of_le htoken.lt_sum hrows, rfl⟩
    exact scatter_of_unique hmem (fun u hu => h.decodeLens_unique hu hmem) _

/-- No length of an earlier batch is left past the last token. -/
theorem run_cleared (h : Expands shape reqs table rows s) (buffers : DecodeBuffers) {i : ℕ}
    (hle : (decodeLensCpu reqs).sum ≤ i) (hlt : i < shape.maxNumBatchedTokens) :
    (s.run buffers).decodeSeqLens i = 0 := by
  have hmem := (h.decodeSeqLens i 0).mpr (Or.inr ⟨hle, hlt, rfl⟩)
  exact scatter_of_unique hmem (fun u hu => h.decodeSeqLens_unique hu hmem) _

/-- Two expansions store the same lengths, whatever else they return. -/
theorem run_decodeSeqLens {rows' : ℕ} {s' : Stores} (h : Expands shape reqs table rows s)
    (h' : Expands shape reqs table rows' s') (buffers : DecodeBuffers) :
    (s.run buffers).decodeSeqLens = (s'.run buffers).decodeSeqLens := by
  funext i
  exact scatter_congr (fun v => (h.decodeSeqLens i v).trans (h'.decodeSeqLens i v).symm)
    (fun u v hu hv => h.decodeSeqLens_unique hu hv) _

/-- Two expansions agree on the rows of the tokens. -/
theorem run_view {rows' : ℕ} {s' : Stores} (h : Expands shape reqs table rows s)
    (h' : Expands shape reqs table rows' s') (hrows : (decodeLensCpu reqs).sum ≤ rows)
    (hrows' : (decodeLensCpu reqs).sum ≤ rows') (buffers : DecodeBuffers) :
    (s.run buffers).view shape (decodeLensCpu reqs).sum =
      (s'.run buffers).view shape (decodeLensCpu reqs).sum := by
  rw [DecodeBuffers.view, DecodeBuffers.view, Expanded.mk.injEq]
  refine ⟨?_, List.map_congr_left fun i hi => List.map_congr_left fun col hcol => ?_,
    List.map_congr_left fun i hi => ?_⟩
  · rw [h.run_decodeSeqLens h' buffers]
  · obtain ⟨b, j, q, htoken⟩ := exists_token (List.mem_range.mp hi)
    rw [(h.run_token hrows buffers htoken).2.1 col (List.mem_range.mp hcol),
      (h'.run_token hrows' buffers htoken).2.1 col (List.mem_range.mp hcol)]
  · obtain ⟨b, j, q, htoken⟩ := exists_token (List.mem_range.mp hi)
    rw [(h.run_token hrows buffers htoken).2.2, (h'.run_token hrows' buffers htoken).2.2]

end Expands

/-! ## The flatten path -/

theorem le_maxDecodeLen {reqs : List DecodeReq} {q : DecodeReq} (hq : q ∈ reqs) :
    q.decodeLen ≤ maxDecodeLen reqs := by
  have hmem : q.decodeLen ∈ decodeLensCpu reqs := List.mem_map_of_mem hq
  cases hmax : (decodeLensCpu reqs).max? with
  | none =>
    rw [List.max?_eq_none_iff] at hmax
    simp [hmax] at hmem
  | some m =>
    rw [maxDecodeLen, hmax]
    exact (List.max?_eq_some_iff.mp hmax).2 _ hmem

theorem minDecodeLen_le {reqs : List DecodeReq} {q : DecodeReq} (hq : q ∈ reqs) :
    minDecodeLen reqs ≤ q.decodeLen := by
  have hmem : q.decodeLen ∈ decodeLensCpu reqs := List.mem_map_of_mem hq
  cases hmin : (decodeLensCpu reqs).min? with
  | none =>
    rw [List.min?_eq_none_iff] at hmin
    simp [hmin] at hmem
  | some m =>
    rw [minDecodeLen, hmin]
    exact (List.min?_eq_some_iff.mp hmin).2 _ hmem

theorem flattenStores_expands {shape : BufferShape} (reqs : List DecodeReq) {table : BlockTable}
    {numDecodeTokens : ℕ} (hwidth : shape.blockTableWidth ≤ table.width)
    (htokens : (decodeLensCpu reqs).sum ≤ numDecodeTokens)
    (hfit : numDecodeTokens ≤ shape.maxNumBatchedTokens) :
    ∃ rows s, flattenStores shape reqs table numDecodeTokens (maxDecodeLen reqs) = some (rows, s) ∧
      (decodeLensCpu reqs).sum ≤ rows ∧ rows ≤ numDecodeTokens ∧
      Expands shape reqs table rows s := by
  rw [flattenStores]
  split
  · rename_i hmin
    have huniform : ∀ q ∈ reqs, q.decodeLen = maxDecodeLen reqs := fun q hq =>
      Nat.le_antisymm (le_maxDecodeLen hq) (hmin ▸ minDecodeLen_le hq)
    have hsum := sum_uniform huniform
    exact ⟨_, _, rfl, by omega, by omega, hsum ▸ uniformStores_expands huniform shape table⟩
  · obtain ⟨s, hs, hexpands⟩ := variableStores_expands reqs hwidth htokens hfit
    rw [hs]
    exact ⟨_, s, rfl, htokens, Nat.le_refl _, hexpands⟩

/-- On equal decode lengths the fused kernel and repeat-interleave leave the same lengths, and
the same rows for the batch's tokens. For every batch the path taken stays inside the
buffers, gives each token its causal length and its request's row, and clears the lengths
past the last token. -/
theorem decodeExpansion_exact (shape : BufferShape) (buffers : DecodeBuffers)
    (reqs : List DecodeReq) (table : BlockTable) (numDecodeTokens : ℕ)
    (hwidth : shape.blockTableWidth ≤ table.width)
    (htokens : (decodeLensCpu reqs).sum ≤ numDecodeTokens)
    (hfit : numDecodeTokens ≤ shape.maxNumBatchedTokens) :
    (∀ len, (∀ q ∈ reqs, q.decodeLen = len) →
      ∃ s, variableStores shape reqs table numDecodeTokens = some s ∧
        ((uniformStores shape reqs table len).run buffers).decodeSeqLens =
          (s.run buffers).decodeSeqLens ∧
        ((uniformStores shape reqs table len).run buffers).view shape (reqs.length * len) =
          (s.run buffers).view shape (reqs.length * len)) ∧
    ∃ rows s, flattenStores shape reqs table numDecodeTokens (maxDecodeLen reqs) =
        some (rows, s) ∧
      (decodeLensCpu reqs).sum ≤ rows ∧ rows ≤ numDecodeTokens ∧ s.InBounds shape ∧
      (∀ b j q i, IsToken reqs b j q i →
        (s.run buffers).decodeSeqLens i = q.seqLen - q.decodeLen + j + 1 ∧
        (∀ col < shape.blockTableWidth,
          (s.run buffers).expandedBlockTable (i, col) = table.entry b col) ∧
        (s.run buffers).decodeLens i = 1) ∧
      ∀ i, (decodeLensCpu reqs).sum ≤ i → i < shape.maxNumBatchedTokens →
        (s.run buffers).decodeSeqLens i = 0 := by
  constructor
  · intro len huniform
    obtain ⟨s, hs, hvariable⟩ := variableStores_expands reqs hwidth htokens hfit
    have hkernel := uniformStores_expands huniform shape table
    refine ⟨s, hs, hkernel.run_decodeSeqLens hvariable buffers, ?_⟩
    rw [← sum_uniform huniform]
    exact hkernel.run_view hvariable (Nat.le_refl _) htokens buffers
  · obtain ⟨rows, s, hs, hsum, hrows, hexpands⟩ :=
      flattenStores_expands reqs hwidth htokens hfit
    exact ⟨rows, s, hs, hsum, hrows,
      hexpands.inBounds (Nat.le_trans htokens hfit) (Nat.le_trans hrows hfit),
      fun b j q i htoken => hexpands.run_token hsum buffers htoken,
      fun i hle hlt => hexpands.run_cleared buffers hle hlt⟩

/-- Decode lengths 3, 1, 4 and a padding row, in buffers of 16 rows of 2 columns that hold
an older batch. -/
def paddedReqs : List DecodeReq :=
  [⟨10, 3, by decide⟩, ⟨7, 1, by decide⟩, ⟨12, 4, by decide⟩, ⟨0, 0, by decide⟩]

def wideTable : BlockTable := ⟨fun address => address, 3, 3, by decide⟩

def smallShape : BufferShape := ⟨16, 2, by decide⟩

def staleBuffers : DecodeBuffers := ⟨fun _ => 99, fun _ => 99, fun _ => 99⟩

theorem paddedReqs_expanded : ∃ rows s,
    flattenStores smallShape paddedReqs wideTable 9 (maxDecodeLen paddedReqs) = some (rows, s) ∧
      (s.run staleBuffers).view smallShape rows =
        { seqLens := [8, 9, 10, 7, 9, 10, 11, 12, 0]
          blockTable := [[0, 1], [0, 1], [0, 1], [3, 4], [6, 7], [6, 7], [6, 7], [6, 7], [0, 99]]
          decodeLens := [1, 1, 1, 1, 1, 1, 1, 1, 1] } ∧
      s.InBounds smallShape ∧ (s.run staleBuffers).decodeSeqLens 15 = 0 := by
  obtain ⟨-, rows, s, hs, -, -, hbounds, -, hcleared⟩ := decodeExpansion_exact smallShape
    staleBuffers paddedReqs wideTable 9 (by decide) (by decide) (by decide)
  have hs' := hs
  rw [show flattenStores smallShape paddedReqs wideTable 9 (maxDecodeLen paddedReqs) =
    some (9, _) from rfl] at hs'
  obtain ⟨rfl, rfl⟩ := Prod.mk.inj (Option.some.inj hs')
  exact ⟨9, _, rfl, by decide, hbounds, hcleared 15 (by decide) (by decide)⟩

end SparkKit.Dcp.DecodeExpansion
