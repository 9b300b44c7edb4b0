import SparkKit.Gemv.Weights
import SparkKit.Lib.Checked
import SparkKit.Lib.Reduction
import SparkKit.Lib.Scatter
import Mathlib.Algebra.BigOperators.Ring.Finset
import Mathlib.Algebra.BigOperators.Fin
import Mathlib.Algebra.BigOperators.Pi
import Mathlib.Data.Int.Cast.Lemmas

/-!
# What the two GEMV kernels share

A warp owns eight output rows. Each lane loads two 64-bit words of every row, sixteen bytes
and their group's scale, and adds the dot product with sixteen activations to its own
accumulators. The lanes' accumulators are then summed by a butterfly and lane `0` stores.
-/
namespace SparkKit.Gemv.Lanes

open SparkKit.Lib.RowMajor SparkKit.Lib.Checked SparkKit.Lib.Reduction SparkKit.Lib.Scatter
open SparkKit.Gemv.Weights

/-- `MAXM` -/
abbrev maxM : ℕ := 4

/-- `LANES` -/
abbrev lanes : ℕ := 32

/-- `ROWS` -/
abbrev rows : ℕ := 8

/-- `WARPS` -/
abbrev warps : ℕ := 4

variable {R : Type} [CommRing R] {N M KQ G : ℕ}

/-- `b` and `scs` of one row in one iteration. -/
structure RowLoad (R : Type) where
  b : Fin 16 → ℤ
  scs : R

/-- `b[0] .. b[15]` of the two loaded words. -/
def bytes16 (wa wb : BitVec 64) : Fin 16 → ℤ :=
  Fin.append (fun e => (kernelBytes wa e).toInt) (fun e => (kernelBytes wb e).toInt)

/-- `wa`, `wb` and `scs` of the warp's rows. -/
def loadRows (mW : Fin N → Fin KQ → BitVec 64) (mS : Fin N → Fin G → R) (row0 q0 gidx : ℕ) :
    Option (Fin rows → RowLoad R) :=
  collect fun r => do
    let wa ← load mW (row0 + r) q0
    let wb ← load mW (row0 + r) (q0 + 1)
    let scs ← load mS (row0 + r) gidx
    return ⟨bytes16 wa wb, scs⟩

/-- `d` -/
def dot (b : Fin 16 → ℤ) (xs : Fin 16 → R) : R := ∑ e, (b e : R) * xs e

/-- The five shuffles of one accumulator, as lane `0` ends with it. -/
def warpSum (acc : Fin lanes → R) : R := butterfly 5 (fun lane => acc (Fin.ofNat lanes lane)) 0

theorem warpSum_eq (acc : Fin lanes → R) : warpSum acc = ∑ lane, acc lane := by
  rw [warpSum, butterfly_zero, ← Fin.sum_univ_eq_sum_range]
  refine Finset.sum_congr rfl fun lane _ => congrArg acc (Fin.ext ?_)
  exact Nat.mod_eq_of_lt lane.isLt

/-- Lane `0` stores the warp's sums of the rows in the batch. -/
def warpStores {ι : Type} (M : ℕ) (place : Fin maxM → Fin rows → ι)
    (acc : Fin lanes → Fin rows → Fin maxM → R) : List (ι × R) :=
  ((List.finRange rows ×ˢ List.finRange maxM).filter fun p => (p.2 : ℕ) < M).map fun p =>
    (place p.2 p.1, warpSum fun lane => acc lane p.1 p.2)

theorem mem_warpStores {ι : Type} {place : Fin maxM → Fin rows → ι}
    {acc : Fin lanes → Fin rows → Fin maxM → R} {w : ι × R} :
    w ∈ warpStores M place acc ↔
      ∃ (r : Fin rows) (m : Fin maxM), (m : ℕ) < M ∧
        w = (place m r, warpSum fun lane => acc lane r m) := by
  rw [warpStores, List.mem_map]
  constructor
  · intro h
    obtain ⟨p, hp, rfl⟩ := h
    exact ⟨p.1, p.2, of_decide_eq_true (List.mem_filter.mp hp).2, rfl⟩
  · intro h
    obtain ⟨r, m, hm, rfl⟩ := h
    refine ⟨(r, m), List.mem_filter.mpr ⟨?_, decide_eq_true hm⟩, rfl⟩
    exact List.mem_product.mpr ⟨List.mem_finRange r, List.mem_finRange m⟩

/-- A warp's stores pass a check that lets its own places through, and each carries what belongs
at its place. -/
theorem exists_checked_stores {ι : Type} (belongs : ι → R) {place : Fin maxM → Fin rows → ι}
    {acc : Fin lanes → Fin rows → Fin maxM → R} {check : ι × R → Option (ι × R)}
    (hcheck : ∀ (r : Fin rows) (m : Fin maxM) (v : R), (m : ℕ) < M →
      check (place m r, v) = some (place m r, v))
    (hsum : ∀ (r : Fin rows) (m : Fin maxM), (m : ℕ) < M →
      warpSum (fun lane => acc lane r m) = belongs (place m r)) :
    ∃ stores, (warpStores M place acc).mapM check = some stores ∧
      (∀ w ∈ stores, w.2 = belongs w.1) ∧
      ∀ (r : Fin rows) (m : Fin maxM), (m : ℕ) < M → ∃ v, (place m r, v) ∈ stores := by
  refine ⟨warpStores M place acc, ?_, fun w hw => ?_, fun r m hm => ?_⟩
  · refine (mapM_some (g := id) fun w hw => ?_).trans (congrArg some (List.map_id _))
    obtain ⟨r, m, hm, rfl⟩ := mem_warpStores.mp hw
    exact hcheck r m _ hm
  · obtain ⟨r, m, hm, rfl⟩ := mem_warpStores.mp hw
    exact hsum r m hm
  · exact ⟨_, mem_warpStores.mpr ⟨r, m, hm, rfl⟩⟩

/-- The blocks and warps of `launch(grid=(N // (WARPS * ROWS), nsplit, 1))`. -/
def grid (N nsplit : ℕ) : List (ℕ × ℕ × ℕ) :=
  List.range (N / (warps * rows)) ×ˢ List.range nsplit ×ˢ List.range warps

theorem mem_grid {nsplit bidx bidy warp : ℕ} : (bidx, bidy, warp) ∈ grid N nsplit ↔
    bidx < N / (warps * rows) ∧ bidy < nsplit ∧ warp < warps := by
  rw [grid, List.mem_product, List.mem_product, List.mem_range, List.mem_range, List.mem_range]

/-- The rows of a warp of the grid are rows of the matrix. -/
theorem row_lt {bidx warp : ℕ} (hN : warps * rows ∣ N) (hbidx : bidx < N / (warps * rows))
    (hwarp : warp < warps) : (bidx * warps + warp) * rows + rows ≤ N := by
  obtain ⟨blocks, rfl⟩ := hN
  rw [Nat.mul_div_cancel_left _ (by decide)] at hbidx
  simp only [warps, rows] at *
  omega

/-- Every row is a row of some warp. -/
theorem exists_warp_row (hN : warps * rows ∣ N) {n : ℕ} (hn : n < N) :
    ∃ bidx < N / (warps * rows), ∃ warp < warps, ∃ r : Fin rows,
      (bidx * warps + warp) * rows + (r : ℕ) = n := by
  obtain ⟨blocks, rfl⟩ := hN
  rw [Nat.mul_div_cancel_left _ (by decide)]
  refine ⟨n / 32, ?_, n % 32 / 8, ?_, ⟨n % 8, Nat.mod_lt n (by decide)⟩, ?_⟩ <;>
    simp only [warps, rows] at * <;> omega

/-- The output after every warp of the grid has stored its part. -/
def launch {ι : Type} [DecidableEq ι] (grid : List (ℕ × ℕ × ℕ))
    (kernel : ℕ × ℕ × ℕ → Option (List (ι × R))) (init : ι → R) : Option (ι → R) := do
  let stores ← grid.mapM kernel
  return scatter stores.flatten init

omit [CommRing R] in
/-- Where every store carries what belongs at its place, each place stored to holds it. -/
theorem launch_eq {ι : Type} [DecidableEq ι] {grid : List (ℕ × ℕ × ℕ)}
    {kernel : ℕ × ℕ × ℕ → Option (List (ι × R))} (init belongs : ι → R) (place : ι → Prop)
    (hstores : ∀ b ∈ grid, ∃ stores, kernel b = some stores ∧ ∀ w ∈ stores, w.2 = belongs w.1)
    (hplace : ∀ i, place i → ∃ b ∈ grid, ∀ stores, kernel b = some stores → ∃ v, (i, v) ∈ stores) :
    ∃ out, launch grid kernel init = some out ∧ ∀ i, place i → out i = belongs i := by
  choose! stores hkernel hbelongs using hstores
  refine ⟨scatter (grid.map stores).flatten init, ?_, fun i hi => ?_⟩
  · simp only [launch, mapM_some hkernel, Option.bind_eq_bind, Option.bind_some, Option.pure_def]
  · obtain ⟨b, hb, hmem⟩ := hplace i hi
    obtain ⟨v, hv⟩ := hmem _ (hkernel b hb)
    have hall : ∀ u, (i, u) ∈ (grid.map stores).flatten → u = belongs i := by
      intro u hu
      obtain ⟨l, hl, hul⟩ := List.mem_flatten.mp hu
      obtain ⟨b', hb', rfl⟩ := List.mem_map.mp hl
      exact hbelongs b' hb' _ hul
    have hin := List.mem_flatten.mpr ⟨_, List.mem_map.mpr ⟨b, hb, rfl⟩, hv⟩
    rw [scatter_of_unique hin (fun u hu => (hall u hu).trans (hall v hin).symm), hall v hin]

/-- The scales have a column for every group of 128. -/
theorem group_lt (hG : KQ * 2 * 4 = G * 128) {k : ℕ} (hk : k < KQ * 2 * 4) : k / 128 < G := by
  omega

/-- `reference`: dequantise and multiply, with a scale for each group of 128 columns. -/
def reference (hG : KQ * 2 * 4 = G * 128) (wp : Fin N → Fin (KQ * 2) → BitVec 32)
    (scales : Fin N → Fin G → R) (x : Fin M → Fin (KQ * 2 * 4) → R) : Fin M → Fin N → R :=
  fun m n => ∑ k, x m k *
    (((unpackInt8 wp n k).toInt : R) * scales n ⟨k / 128, group_lt hG k.isLt⟩)

/-! ## Columns by number -/

/-- Weight `k` of a row as the reference reads it, zero behind its end. -/
def weightAt (wp : Fin N → Fin (KQ * 2) → BitVec 32) (n k : ℕ) : ℤ :=
  if h : n < N ∧ k < KQ * 2 * 4 then (unpackInt8 wp ⟨n, h.1⟩ ⟨k, h.2⟩).toInt else 0

/-- An entry by number, zero outside. -/
def entryAt {a b : ℕ} (t : Fin a → Fin b → R) (i j : ℕ) : R := (load t i j).getD 0

theorem entryAt_of_lt {a b : ℕ} (t : Fin a → Fin b → R) {i j : ℕ} (hi : i < a) (hj : j < b) :
    entryAt t i j = t ⟨i, hi⟩ ⟨j, hj⟩ := by
  rw [entryAt, load_of_lt t hi hj]
  rfl

theorem load_eq_entryAt {a b : ℕ} (t : Fin a → Fin b → R) {i j : ℕ} (hi : i < a) (hj : j < b) :
    load t i j = some (entryAt t i j) := by
  rw [entryAt_of_lt t hi hj, load_of_lt t hi hj]

theorem entryAt_of_row_ge {a b : ℕ} (t : Fin a → Fin b → R) {i j : ℕ} (hi : ¬ i < a) :
    entryAt t i j = 0 := by
  rw [entryAt, load, dif_neg fun h => hi h.1]
  rfl

/-- One summand of an output element. -/
def term (wp : Fin N → Fin (KQ * 2) → BitVec 32) (scales : Fin N → Fin G → R)
    (x : Fin M → Fin (KQ * 2 * 4) → R) (m n k : ℕ) : R :=
  entryAt x m k * ((weightAt wp n k : R) * entryAt scales n (k / 128))

theorem reference_eq_sum (hG : KQ * 2 * 4 = G * 128) (wp : Fin N → Fin (KQ * 2) → BitVec 32)
    (scales : Fin N → Fin G → R) (x : Fin M → Fin (KQ * 2 * 4) → R) (m : Fin M) (n : Fin N) :
    reference hG wp scales x m n = ∑ k ∈ Finset.range (KQ * 2 * 4), term wp scales x m n k := by
  rw [← Fin.sum_univ_eq_sum_range]
  refine Finset.sum_congr rfl fun k _ => ?_
  rw [term, entryAt_of_lt x m.isLt k.isLt, weightAt, dif_pos ⟨n.isLt, k.isLt⟩,
    entryAt_of_lt scales n.isLt (group_lt hG k.isLt)]

/-- The sixteen bytes of two neighbouring words are sixteen neighbouring weights. -/
theorem bytes16_eq (wp : Fin N → Fin (KQ * 2) → BitVec 32) {n q : ℕ} (hn : n < N) (hq : q + 1 < KQ)
    (e : Fin 16) :
    bytes16 (viewInt64 wp ⟨n, hn⟩ ⟨q, by omega⟩) (viewInt64 wp ⟨n, hn⟩ ⟨q + 1, hq⟩) e =
      weightAt wp n (q * 8 + e) := by
  have hbyte : ∀ (q' : Fin KQ) (e' : Fin 8), (kernelBytes (viewInt64 wp ⟨n, hn⟩ q') e').toInt =
      weightAt wp n (q' * 8 + e') := by
    intro q' e'
    obtain ⟨half, j, rfl⟩ : ∃ (half : Fin 2) (j : Fin 4), e' = finProdFinEquiv (half, j) :=
      exists_row (m := 2) (n := 4) e'
    rw [toInt_kernelBytes_viewInt64, weightAt, dif_pos ⟨hn, by have := q'.isLt; omega⟩]
    congr 2
    apply Fin.ext
    simp only [finProdFinEquiv_apply_val]
    omega
  refine Fin.addCases (m := 8) (n := 8) (motive := fun e => bytes16 _ _ e = weightAt wp n (q * 8 + e))
    (fun e' => ?_) (fun e' => ?_) e
  · exact (Fin.append_left _ _ e').trans (hbyte ⟨q, by omega⟩ e')
  · refine (Fin.append_right _ _ e').trans ((hbyte ⟨q + 1, hq⟩ e').trans ?_)
    congr 1
    simp only [Fin.val_natAdd]
    omega

theorem loadRows_eq (wp : Fin N → Fin (KQ * 2) → BitVec 32) (scales : Fin N → Fin G → R)
    {row0 q0 gidx : ℕ} (hrow : row0 + rows ≤ N) (hq : q0 + 1 < KQ) (hg : gidx < G) :
    loadRows (viewInt64 wp) scales row0 q0 gidx = some fun r =>
      ⟨fun e => weightAt wp (row0 + r) (q0 * 8 + e), entryAt scales (row0 + r) gidx⟩ := by
  refine collect_some fun r => ?_
  have hr : row0 + r < N := by have := r.isLt; omega
  rw [load_of_lt _ hr (show q0 < KQ by omega), load_of_lt _ hr hq, load_eq_entryAt _ hr hg]
  simp only [Option.bind_eq_bind, Option.bind_some, Option.pure_def]
  congr 2
  funext e
  exact bytes16_eq wp hr hq e

/-- A scaled dot product over sixteen columns of one group is sixteen summands. -/
theorem scaled_dot_eq (wp : Fin N → Fin (KQ * 2) → BitVec 32) (scales : Fin N → Fin G → R)
    (x : Fin M → Fin (KQ * 2 * 4) → R) (m n : ℕ) {k0 gidx : ℕ}
    (hgroup : ∀ e < 16, (k0 + e) / 128 = gidx) :
    entryAt scales n gidx * dot (fun e => weightAt wp n (k0 + e)) (fun e => entryAt x m (k0 + e)) =
      ∑ e ∈ Finset.range 16, term wp scales x m n (k0 + e) := by
  rw [dot, Finset.mul_sum, ← Fin.sum_univ_eq_sum_range (fun e => term wp scales x m n (k0 + e))]
  refine Finset.sum_congr rfl fun e _ => ?_
  rw [term, hgroup e e.isLt]
  ring

end SparkKit.Gemv.Lanes
