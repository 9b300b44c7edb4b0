import SparkKit.Lib.RowMajor
import SparkKit.Dcp.Candidates
import Mathlib.Data.List.FinRange

/-!
# The layout of the fused DCP gather

The queries and the packed candidates of a decode batch have different element types, so the
fused gather views both as bytes, puts them side by side in each batch row, gathers once and
cuts the ranks' stripes apart again. The order of ranks, heads and bytes must come out as two
gathers would leave it.
-/
namespace SparkKit.Dcp.GatherLayout

open SparkKit.Lib.RowMajor

/-- An element type as its bytes in memory. -/
structure DType (α : Type*) where
  itemsize : ℕ
  bytes : α → Fin itemsize → UInt8
  ofBytes : (Fin itemsize → UInt8) → α
  ofBytes_bytes : ∀ v, ofBytes (bytes v) = v

variable {α β γ : Type*} {W B n : ℕ}

/-- `x.view(torch.uint8)` of one contiguous row. -/
def DType.viewBytes (dt : DType α) (x : Fin n → α) : Fin (n * dt.itemsize) → UInt8 :=
  flatten fun i => dt.bytes (x i)

/-- `y.view(dtype)` of one contiguous row of bytes. -/
def DType.viewAs (dt : DType α) (y : Fin (n * dt.itemsize) → UInt8) : Fin n → α :=
  fun i => dt.ofBytes (split y i)

@[simp] theorem DType.viewAs_viewBytes (dt : DType α) (x : Fin n → α) :
    dt.viewAs (dt.viewBytes x) = x := by
  funext i
  rw [viewAs, viewBytes, split_flatten, dt.ofBytes_bytes]

/-- `all_gather(x, dim=1)`: in each batch row the ranks' entries in rank order. -/
def allGather (x : Fin W → Fin B → Fin n → γ) : Fin B → Fin (W * n) → γ :=
  fun b => flatten fun r => x r b

/-- Entry `i` of rank `r` stands at `r * n + i` of its batch row. -/
theorem allGather_apply (x : Fin W → Fin B → Fin n → γ) (b : Fin B) (r : Fin W) (i : Fin n) :
    allGather x b (finProdFinEquiv (r, i)) = x r b i :=
  flatten_apply _ r i

/-- The gathered candidates of a query row are the row the stable top-k is given. -/
theorem ofFn_allGather (g : Candidates.DcpGroup) (packed : ℕ → List (Candidates.Candidate α))
    (hwidth : ∀ r, (packed r).length = n) (b : Fin B) :
    List.ofFn (allGather (fun (r : Fin g.worldSize) _ i => (packed r).get (i.cast (hwidth r).symm))
      b) = Candidates.gatherRow g packed := by
  have hrow : ∀ r : ℕ, List.ofFn (fun i => (packed r).get (i.cast (hwidth r).symm)) = packed r := by
    intro r
    exact (List.ofFn_congr (hwidth r) _).symm.trans (List.ofFn_get _)
  rw [allGather, ofFn_flatten]
  simp only [hrow]
  rw [Candidates.gatherRow, List.flatMap_def, List.ofFn_eq_map, ← List.map_coe_finRange_eq_range,
    List.map_map]
  rfl

/-- The stripes of `(B, W, qbytes + pbytes)` after the one gather of `cat([_qb, _pb], dim=1)`. -/
def gatherBytes {qbytes pbytes : ℕ} (qb : Fin W → Fin B → Fin qbytes → UInt8)
    (pb : Fin W → Fin B → Fin pbytes → UInt8) : Fin B → Fin W → Fin (qbytes + pbytes) → UInt8 :=
  fun b => split (allGather (fun r b => Fin.append (qb r b) (pb r b)) b)

theorem gatherBytes_left {qbytes pbytes : ℕ} (qb : Fin W → Fin B → Fin qbytes → UInt8)
    (pb : Fin W → Fin B → Fin pbytes → UInt8) (b : Fin B) (r : Fin W) (k : Fin qbytes) :
    gatherBytes qb pb b r (Fin.castAdd pbytes k) = qb r b k := by
  rw [gatherBytes, allGather, split_flatten, Fin.append_left]

theorem gatherBytes_right {qbytes pbytes : ℕ} (qb : Fin W → Fin B → Fin qbytes → UInt8)
    (pb : Fin W → Fin B → Fin pbytes → UInt8) (b : Fin B) (r : Fin W) (k : Fin pbytes) :
    gatherBytes qb pb b r (Fin.natAdd qbytes k) = pb r b k := by
  rw [gatherBytes, allGather, split_flatten, Fin.append_right]

/-- The bytes at `pos` of every stripe joined per batch row, read as elements and cut into
`(W * heads, dim)`. -/
def restripe {bytes heads dim : ℕ} (dt : DType α) (g : Fin B → Fin W → Fin bytes → UInt8)
    (pos : Fin (heads * dim * dt.itemsize) → Fin bytes) : Fin B → Fin (W * heads) → Fin dim → α :=
  fun b =>
    let stripes := flatten fun r k => g b r (pos k)
    let elements := dt.viewAs (view (Nat.mul_assoc W (heads * dim) dt.itemsize).symm stripes)
    split (view (Nat.mul_assoc W heads dim).symm elements)

/-- The fused branch of `forward_impl`: the gathered queries and candidates of all ranks. -/
def fusedGather {rows qh qd pk pd : ℕ} (dt : DType α) (float32 : DType β)
    (mqaQ : Fin W → Fin B → Fin qh → Fin qd → α)
    (packed : Fin W → Fin rows → Fin pk → Fin pd → β) :
    Except String ((Fin B → Fin (W * qh) → Fin qd → α) × (Fin B → Fin (W * pk) → Fin pd → β)) :=
  if h : B = rows then
    let qb := fun r b => dt.viewBytes (flatten (mqaQ r b))
    let pb := fun r b => float32.viewBytes (flatten (packed r (b.cast h)))
    let g := gatherBytes qb pb
    -- the slices `[:_qbytes]` and `[_qbytes:]` of each stripe
    .ok (restripe dt g (Fin.castAdd _), restripe float32 g (Fin.natAdd _))
  else .error s!"fused DCP gather: batch mismatch q={B} cand={rows}"

/-- Stripes that hold the bytes of each rank's rows read back as the gathered tensor. -/
theorem restripe_gathered {bytes heads dim : ℕ} (dt : DType α)
    (x : Fin W → Fin B → Fin heads → Fin dim → α) (g : Fin B → Fin W → Fin bytes → UInt8)
    (pos : Fin (heads * dim * dt.itemsize) → Fin bytes)
    (hg : ∀ b r k, g b r (pos k) = dt.viewBytes (flatten (x r b)) k) :
    restripe dt g pos = allGather x := by
  funext b
  have hstripes : view (Nat.mul_assoc W (heads * dim) dt.itemsize).symm
        (flatten fun r k => g b r (pos k)) =
      dt.viewBytes (flatten fun r => flatten (x r b)) := by
    simp only [hg]
    exact view_flatten_flatten fun r k => dt.bytes (flatten (x r b) k)
  show split (view _ (dt.viewAs (view _ (flatten fun r k => g b r (pos k))))) = _
  rw [hstripes, DType.viewAs_viewBytes, view_flatten_flatten, split_flatten]
  rfl

/-- A batch mismatch is refused before anything is gathered. -/
theorem fusedGather_mismatch {rows qh qd pk pd : ℕ} (dt : DType α) (float32 : DType β)
    (mqaQ : Fin W → Fin B → Fin qh → Fin qd → α)
    (packed : Fin W → Fin rows → Fin pk → Fin pd → β) (h : B ≠ rows) :
    fusedGather dt float32 mqaQ packed =
      .error s!"fused DCP gather: batch mismatch q={B} cand={rows}" :=
  dif_neg h

/-- One gather of the bytes of `[q | candidates]` gives both tensors as two gathers do. -/
theorem fusedGather_eq_two_gathers {qh qd pk pd : ℕ} (dt : DType α) (float32 : DType β)
    (mqaQ : Fin W → Fin B → Fin qh → Fin qd → α)
    (packed : Fin W → Fin B → Fin pk → Fin pd → β) :
    fusedGather dt float32 mqaQ packed = .ok (allGather mqaQ, allGather packed) := by
  have hq := restripe_gathered dt mqaQ _ _ (gatherBytes_left
    (fun r b => dt.viewBytes (flatten (mqaQ r b)))
    (fun r b => float32.viewBytes (flatten (packed r b))))
  have hp := restripe_gathered float32 packed _ _ (gatherBytes_right
    (fun r b => dt.viewBytes (flatten (mqaQ r b)))
    (fun r b => float32.viewBytes (flatten (packed r b))))
  rw [fusedGather, dif_pos rfl]
  exact congrArg Except.ok (Prod.ext hq hp)

end SparkKit.Dcp.GatherLayout
