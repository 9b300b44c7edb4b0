import SparkKit.Lib.BlockCyclic
import Mathlib.Data.Int.Order.Basic
import Mathlib.Order.WithBot

/-!
# Top-k candidates of a DCP group

Each rank packs its local top-k of a query row as pairs of float32 numbers, a score and
a global token id, the ranks exchange the pairs, and a stable top-k of the gathered row
gives the global ids. Scores are finite, so the padding's `-inf` is a bottom element.
-/
namespace SparkKit.Dcp.Candidates

open SparkKit.Lib.BlockCyclic

/-- `dcp_world_size` and `cp_kv_cache_interleave_size`. -/
structure DcpGroup where
  worldSize : ℕ
  interleave : ℕ
  world_pos : 0 < worldSize
  interleave_pos : 0 < interleave

/-- One packed pair. -/
structure Candidate (α : Type*) where
  score : WithBot α
  id : ℤ

variable {α : Type*}

/-- `.to(torch.float32)` of an integer: 24 significant bits, ties to even. -/
def toFloat32 (n : ℤ) : ℤ :=
  let a := n.natAbs
  let ulp := 2 ^ (Nat.log2 a - 23)
  let q := a / ulp
  let r := a % ulp
  let rounded := if 2 * r > ulp ∨ (2 * r = ulp ∧ q % 2 = 1) then q + 1 else q
  n.sign * (rounded * ulp : ℕ)

/-- The global id of a local index, `-1` where the index is padding. -/
def globalTopkId (g : DcpGroup) (rank : ℕ) (idx : ℤ) : ℤ :=
  if idx ≥ 0 then
    let i := max idx 0
    i / g.interleave * (g.worldSize * g.interleave) + rank * g.interleave + i % g.interleave
  else -1

def packCandidate (g : DcpGroup) (rank : ℕ) (entry : α × ℤ) : Candidate α where
  score := if entry.2 ≥ 0 then entry.1 else ⊥
  id := toFloat32 (globalTopkId g rank entry.2)

/-- `packed` for one query row of a rank's local top-k. -/
def packRow (g : DcpGroup) (rank : ℕ) (row : List (α × ℤ)) : List (Candidate α) :=
  row.map (packCandidate g rank)

/-- `all_gather(packed, dim=1)` for one query row: the ranks' pairs in rank order. -/
def gatherRow (g : DcpGroup) (packed : ℕ → List (Candidate α)) : List (Candidate α) :=
  (List.range g.worldSize).flatMap packed

/-- `stable_topk_from_gathered_candidates_cutedsl` on one query row. -/
abbrev StableTopk (α : Type*) := List (Candidate α) → ℕ → List ℤ

/-- `_merge_b12x_dcp_topk` on one query row; `rows` are the ranks' local results. -/
def mergeB12xDcpTopk (g : DcpGroup) (stableTopk : StableTopk α) (topkTokens : ℕ)
    (rows : ℕ → List (α × ℤ)) (rank : ℕ) : List ℤ :=
  if g.worldSize ≤ 1 then (rows rank).map Prod.snd
  else stableTopk (gatherRow g fun r => packRow g r (rows r)) topkTokens

/-- What `_assert_cutedsl_dcp_merge_supported` looks at besides `k`. -/
structure MergeSupport where
  hasCutedsl : Bool
  isCuda : Bool
  logitsFloat32 : Bool
  indicesInt32 : Bool

def assertCutedslDcpMergeSupported (sup : MergeSupport) (k : ℕ) : Except String Unit :=
  if !sup.hasCutedsl then
    .error "DCP sparse-indexer merge requires CuteDSL; install it or disable DCP."
  else if !sup.isCuda then
    .error "DCP sparse-indexer merge requires CUDA tensors."
  else if !sup.logitsFloat32 || !sup.indicesInt32 then
    .error "DCP sparse-indexer merge requires fp32 logits and int32 indices."
  else if k ∉ [512, 1024, 2048] then
    .error s!"DCP sparse-indexer merge requires index_topk in (512, 1024, 2048); got {k}."
  else .ok ()

/-- `pack_dcp_topk_candidates_cutedsl` on one query row of a rank: it looks the scores of
the local indices up in the logits row, past the row's start. -/
abbrev PackKernel (α : Type*) := ℕ → (ℕ → α) → ℕ → List ℤ → List (Candidate α)

/-- The local indices of a row with the scores found for them in the logits row. -/
def scoredRow (logits : ℕ → α) (rowStart : ℕ) (indices : List ℤ) : List (α × ℤ) :=
  indices.map fun i => (logits (rowStart + i.toNat), i)

/-- `_merge_dcp_topk_global` with the immediate gather, on one query row. -/
def mergeDcpTopkGlobal (g : DcpGroup) (sup : MergeSupport) (pack : PackKernel α)
    (stableTopk : StableTopk α) (topkTokens : ℕ) (logits : ℕ → ℕ → α) (rowStart : ℕ → ℕ)
    (indices : ℕ → List ℤ) (rank : ℕ) : Except String (List ℤ) :=
  if g.worldSize ≤ 1 then .ok (indices rank)
  else do
    assertCutedslDcpMergeSupported sup topkTokens
    return stableTopk (gatherRow g fun r => pack r (logits r) (rowStart r) (indices r)) topkTokens

theorem toFloat32_of_lt {n : ℤ} (h : n.natAbs < 2 ^ 24) : toFloat32 n = n := by
  have hlog : Nat.log2 n.natAbs - 23 = 0 := by
    rcases Nat.eq_zero_or_pos n.natAbs with hz | hpos
    · rw [hz]
      decide
    · have := (Nat.log2_lt (by omega)).mpr h
      omega
  unfold toFloat32
  simp only [hlog, pow_zero, Nat.div_one, Nat.mod_one, Nat.mul_one, Nat.mul_zero]
  rw [if_neg (by omega)]
  exact Int.sign_mul_natAbs n

theorem toFloat32_neg_one : toFloat32 (-1) = -1 := toFloat32_of_lt (by decide)

theorem globalTopkId_natCast (g : DcpGroup) (rank i : ℕ) :
    globalTopkId g rank i = (globalId g.worldSize g.interleave rank i : ℕ) := by
  have hi : (i : ℤ) ≥ 0 := Int.natCast_nonneg i
  simp only [globalTopkId, if_pos hi, max_eq_left hi, globalId]
  push_cast
  rfl

theorem packCandidate_pad (g : DcpGroup) (rank : ℕ) {entry : α × ℤ} (h : entry.2 = -1) :
    packCandidate g rank entry = ⟨⊥, -1⟩ := by
  simp [packCandidate, globalTopkId, h, toFloat32_neg_one]

end SparkKit.Dcp.Candidates
