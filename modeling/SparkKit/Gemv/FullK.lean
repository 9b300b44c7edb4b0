import SparkKit.Gemv.Lanes

/-!
# The full-K kernel

Version four does not split the columns: a warp walks all of them, two stripes of 512 in each
iteration, reads the activations straight from memory and stores finished outputs.
-/
namespace SparkKit.Gemv.FullK

open SparkKit.Lib.Checked SparkKit.Lib.Reduction
open SparkKit.Gemv.Weights SparkKit.Gemv.Lanes

/-- `UNR` -/
abbrev unr : ℕ := 2

variable {R : Type} [CommRing R] {N M KQ G : ℕ}

/-- The body of both loops: `acc` of one lane after stripe `u` of iteration `it`. -/
def stripeTurn (mW : Fin N → Fin KQ → BitVec 64) (mS : Fin N → Fin G → R)
    (mX : Fin M → Fin (KQ * 2 * 4) → R) (row0 lane it : ℕ) (acc : Fin rows → Fin maxM → R)
    (u : ℕ) : Option (Fin rows → Fin maxM → R) := do
  let stripe := it * unr + u
  let q0 := (stripe * lanes + lane) * 2
  let k0 := q0 * 8
  let gidx := stripe * 4 + lane / 8
  let xs ← collect fun m : Fin maxM => collect fun e : Fin 16 =>
    if (m : ℕ) < M then load mX m (k0 + e) else some 0
  let w ← loadRows mW mS row0 q0 gidx
  return fun r m =>
    if (m : ℕ) < M then acc r m + (w r).scs * dot (w r).b (xs m) else acc r m

def laneAcc (mW : Fin N → Fin KQ → BitVec 64) (mS : Fin N → Fin G → R)
    (mX : Fin M → Fin (KQ * 2 * 4) → R) (row0 lane : ℕ) : Option (Fin rows → Fin maxM → R) :=
  (List.range (KQ / (lanes * 2 * unr))).foldlM (fun acc it =>
    (List.range unr).foldlM (stripeTurn mW mS mX row0 lane it) acc) 0

/-- A store into `mY[M, N]`. -/
def checkStore (M N : ℕ) (w : (ℕ × ℕ) × R) : Option ((ℕ × ℕ) × R) :=
  if w.1.1 < M ∧ w.1.2 < N then some w else none

/-- What one warp of `gemv_kernel` stores into `mY`. -/
def gemvKernel (mW : Fin N → Fin KQ → BitVec 64) (mS : Fin N → Fin G → R)
    (mX : Fin M → Fin (KQ * 2 * 4) → R) (bidx warp : ℕ) : Option (List ((ℕ × ℕ) × R)) := do
  let row0 := (bidx * warps + warp) * rows
  let acc ← collect fun lane : Fin lanes => laneAcc mW mS mX row0 lane
  (warpStores M (fun m r => ((m : ℕ), row0 + (r : ℕ))) acc).mapM (checkStore M N)

/-- `mY` after `gemv_launch`, from a tensor that holds anything. -/
def gemvLaunch (mW : Fin N → Fin KQ → BitVec 64) (mS : Fin N → Fin G → R)
    (mX : Fin M → Fin (KQ * 2 * 4) → R) (empty : ℕ × ℕ → R) : Option (ℕ × ℕ → R) :=
  launch (grid N 1) (fun b => gemvKernel mW mS mX b.1 b.2.2) empty

/-- `wq = wp.view(torch.int64)` and the launch into an empty `y`. -/
def gemv (wp : Fin N → Fin (KQ * 2) → BitVec 32) (scales : Fin N → Fin G → R)
    (x : Fin M → Fin (KQ * 2 * 4) → R) (empty : ℕ × ℕ → R) : Option (Fin M → Fin N → R) := do
  let mY ← gemvLaunch (viewInt64 wp) scales x empty
  return fun m n => mY (m, n)

/-- One byte in one product. -/
structure ByteUse where
  bidx : ℕ
  warp : ℕ
  lane : ℕ
  it : ℕ
  u : ℕ
  r : ℕ
  e : ℕ

def ByteUse.row (b : ByteUse) : ℕ := (b.bidx * warps + b.warp) * rows + b.r

/-- Byte `e` of the words `q0` and `q0 + 1`. -/
def ByteUse.column (b : ByteUse) : ℕ := (((b.it * unr + b.u) * lanes + b.lane) * 2) * 8 + b.e

/-- The uses that a launch makes. -/
def ByteUse.InGrid (N KQ : ℕ) (b : ByteUse) : Prop :=
  (b.bidx, 0, b.warp) ∈ grid N 1 ∧ b.lane < lanes ∧ b.it < KQ / (lanes * 2 * unr) ∧ b.u < unr ∧
    b.r < rows ∧ b.e < 16

section
variable (wp : Fin N → Fin (KQ * 2) → BitVec 32) (scales : Fin N → Fin G → R)
  (x : Fin M → Fin (KQ * 2 * 4) → R)

/-- What lane by lane and stripe by stripe is added for one output. -/
def output (m n : ℕ) : R :=
  ∑ lane ∈ Finset.range lanes, ∑ it ∈ Finset.range (KQ / (lanes * 2 * unr)),
    ∑ u ∈ Finset.range unr, ∑ e ∈ Finset.range 16,
      term wp scales x m n (((it * unr + u) * lanes + lane) * 2 * 8 + e)

omit [CommRing R] in
/-- A lane's sixteen columns in one stripe: two words within the matrix, one group of scales. -/
theorem lane_columns (hG : KQ * 2 * 4 = G * 128) {it u lane : ℕ}
    (hit : it < KQ / (lanes * 2 * unr)) (hu : u < unr) (hlane : lane < lanes) :
    ((it * unr + u) * lanes + lane) * 2 + 1 < KQ ∧ (it * unr + u) * 4 + lane / 8 < G ∧
      ∀ e < 16, (((it * unr + u) * lanes + lane) * 2 * 8 + e) / 128 =
        (it * unr + u) * 4 + lane / 8 := by
  simp only [unr, lanes] at *
  exact ⟨by omega, by omega, fun e he => by omega⟩

/-- What one stripe adds, nothing for batch rows that are not there. -/
def stripePart (row0 lane it u : ℕ) : Fin rows → Fin maxM → R := fun r m =>
  if (m : ℕ) < M then ∑ e ∈ Finset.range 16,
    term wp scales x m (row0 + r) (((it * unr + u) * lanes + lane) * 2 * 8 + e) else 0

theorem stripeTurn_eq (hG : KQ * 2 * 4 = G * 128) {row0 lane it u : ℕ} (hrow : row0 + rows ≤ N)
    (hit : it < KQ / (lanes * 2 * unr)) (hu : u < unr) (hlane : lane < lanes)
    (acc : Fin rows → Fin maxM → R) :
    stripeTurn (viewInt64 wp) scales x row0 lane it acc u =
      some (acc + stripePart wp scales x row0 lane it u) := by
  obtain ⟨hq, hg, hgroup⟩ := lane_columns hG hit hu hlane
  have hw := loadRows_eq wp scales hrow hq hg
  have hx : (collect fun m : Fin maxM => collect fun e : Fin 16 =>
      if (m : ℕ) < M then load x m (((it * unr + u) * lanes + lane) * 2 * 8 + e) else some 0) =
      some fun (m : Fin maxM) (e : Fin 16) =>
        entryAt x m (((it * unr + u) * lanes + lane) * 2 * 8 + e) := by
    refine collect_some fun m => collect_some fun e => ?_
    have he := e.isLt
    split
    · next hm => exact load_eq_entryAt x hm (by omega)
    · next hm => rw [entryAt_of_row_ge _ hm]
  simp only [stripeTurn, hw, hx, Option.bind_eq_bind, Option.bind_some, Option.pure_def]
  refine congrArg some (funext fun r => funext fun m => ?_)
  rw [Pi.add_apply, Pi.add_apply, stripePart]
  split
  · rw [scaled_dot_eq wp scales x m (row0 + r) hgroup]
  · rw [add_zero]

theorem laneAcc_eq (hG : KQ * 2 * 4 = G * 128) {row0 lane : ℕ} (hrow : row0 + rows ≤ N)
    (hlane : lane < lanes) :
    laneAcc (viewInt64 wp) scales x row0 lane =
      some (∑ it ∈ Finset.range (KQ / (lanes * 2 * unr)), ∑ u ∈ Finset.range unr,
        stripePart wp scales x row0 lane it u) := by
  refine (foldlM_add 0 fun acc it hit => ?_).trans (congrArg some (zero_add _))
  exact foldlM_add acc fun acc u hu => stripeTurn_eq wp scales x hG hrow hit hu hlane acc

/-- Every lane has a result, and the butterfly adds them to an output. -/
theorem exists_warpAcc (hG : KQ * 2 * 4 = G * 128) {row0 : ℕ} (hrow : row0 + rows ≤ N) :
    ∃ acc, (collect fun lane : Fin lanes => laneAcc (viewInt64 wp) scales x row0 lane) = some acc ∧
      ∀ (r : Fin rows) (m : Fin maxM), (m : ℕ) < M →
        warpSum (fun lane => acc lane r m) = output wp scales x m (row0 + r) := by
  refine ⟨_, collect_some fun lane => laneAcc_eq wp scales x hG hrow lane.isLt, fun r m hm => ?_⟩
  rw [warpSum_eq, output, ← Fin.sum_univ_eq_sum_range (fun lane =>
    ∑ it ∈ Finset.range (KQ / (lanes * 2 * unr)), ∑ u ∈ Finset.range unr, ∑ e ∈ Finset.range 16,
      term wp scales x m (row0 + r) (((it * unr + u) * lanes + lane) * 2 * 8 + e))]
  refine Finset.sum_congr rfl fun lane _ => ?_
  rw [Finset.sum_apply, Finset.sum_apply]
  refine Finset.sum_congr rfl fun it _ => ?_
  rw [Finset.sum_apply, Finset.sum_apply]
  exact Finset.sum_congr rfl fun u _ => if_pos hm

/-- The stores of one warp: its eight rows, for the batch rows that are there. -/
theorem gemvKernel_eq (hG : KQ * 2 * 4 = G * 128) {bidx warp : ℕ}
    (hrow : (bidx * warps + warp) * rows + rows ≤ N) :
    ∃ stores, gemvKernel (viewInt64 wp) scales x bidx warp = some stores ∧
      (∀ w ∈ stores, w.2 = output wp scales x w.1.1 w.1.2) ∧
      ∀ (r : Fin rows) (m : Fin maxM), (m : ℕ) < M →
        ∃ v, (((m : ℕ), (bidx * warps + warp) * rows + (r : ℕ)), v) ∈ stores := by
  obtain ⟨acc, hacc, hsum⟩ := exists_warpAcc wp scales x hG hrow
  simp only [gemvKernel, hacc, Option.bind_eq_bind, Option.bind_some]
  refine exists_checked_stores (fun i : ℕ × ℕ => output wp scales x i.1 i.2)
    (fun r m v hm => if_pos ⟨hm, ?_⟩) hsum
  have hr := r.isLt
  simp only
  omega

/-- The launch has a result, and every output is the sum over all columns. -/
theorem gemvLaunch_eq (hG : KQ * 2 * 4 = G * 128) (hN : warps * rows ∣ N) (hM : M ≤ maxM)
    (empty : ℕ × ℕ → R) :
    ∃ mY, gemvLaunch (viewInt64 wp) scales x empty = some mY ∧
      ∀ i : ℕ × ℕ, i.1 < M ∧ i.2 < N → mY i = output wp scales x i.1 i.2 := by
  refine launch_eq empty (fun i : ℕ × ℕ => output wp scales x i.1 i.2)
    (fun i : ℕ × ℕ => i.1 < M ∧ i.2 < N) (fun b hb => ?_) fun i hi => ?_
  · obtain ⟨hbidx, -, hwarp⟩ := mem_grid.mp hb
    obtain ⟨stores, hstores, hvalue, -⟩ := gemvKernel_eq wp scales x hG (row_lt hN hbidx hwarp)
    exact ⟨stores, hstores, hvalue⟩
  · obtain ⟨hm, hn⟩ := hi
    obtain ⟨bidx, hbidx, warp, hwarp, r, hr⟩ := exists_warp_row hN hn
    obtain ⟨stores, hstores, -, hcover⟩ := gemvKernel_eq wp scales x hG (row_lt hN hbidx hwarp)
    refine ⟨(bidx, 0, warp), mem_grid.mpr ⟨hbidx, Nat.one_pos, hwarp⟩, fun stores' hstores' => ?_⟩
    obtain rfl := Option.some_injective _ (hstores.symm.trans hstores')
    have h := hcover r ⟨i.1, hm.trans_le hM⟩ hm
    rwa [hr] at h

/-- Iteration by iteration, stripe by stripe and lane by lane, every column is added once. -/
theorem output_eq (hK : lanes * 2 * unr ∣ KQ) (m n : ℕ) :
    output wp scales x m n = ∑ k ∈ Finset.range (KQ * 2 * 4), term wp scales x m n k := by
  obtain ⟨niter, rfl⟩ := hK
  have hcolumns : lanes * 2 * unr * niter * 2 * 4 = niter * (unr * (lanes * 16)) := by ring
  rw [output, Nat.mul_div_cancel_left _ (by decide), hcolumns, sum_range_mul _ niter,
    Finset.sum_comm]
  refine Finset.sum_congr rfl fun it _ => ?_
  rw [Finset.sum_comm, sum_range_mul _ unr (lanes * 16)]
  refine Finset.sum_congr rfl fun u _ => ?_
  rw [sum_range_mul _ lanes 16]
  refine Finset.sum_congr rfl fun lane _ => Finset.sum_congr rfl fun e _ => ?_
  refine congrArg (term wp scales x m n) ?_
  ring

/-- In exact arithmetic the launch gives the reference; no load and no store leaves its
tensor, and every output is stored to. -/
theorem gemv_eq (hG : KQ * 2 * 4 = G * 128) (hN : warps * rows ∣ N) (hM : M ≤ maxM)
    (hK : 1024 ∣ KQ * 2 * 4) (empty : ℕ × ℕ → R) :
    gemv wp scales x empty = some (reference hG wp scales x) := by
  have hKQ : lanes * 2 * unr ∣ KQ := by
    simp only [lanes, unr]
    omega
  obtain ⟨mY, hmY, hvalue⟩ := gemvLaunch_eq wp scales x hG hN hM empty
  simp only [gemv, hmY, Option.bind_eq_bind, Option.bind_some, Option.pure_def]
  refine congrArg some (funext fun m => funext fun n => ?_)
  rw [hvalue (m, n) ⟨m.isLt, n.isLt⟩, output_eq wp scales x hKQ, reference_eq_sum]

end

/-- Each byte of the matrix is used in one place of the launch and in no other. -/
theorem byteUse_unique {n k : ℕ} (hN : warps * rows ∣ N) (hK : 1024 ∣ KQ * 2 * 4) (hn : n < N)
    (hk : k < KQ * 2 * 4) :
    ∃! b : ByteUse, b.InGrid N KQ ∧ b.row = n ∧ b.column = k := by
  obtain ⟨blocks, rfl⟩ := hN
  have hdiv : warps * rows * blocks / (warps * rows) = blocks := Nat.mul_div_cancel_left _ (by decide)
  refine ⟨⟨n / 32, n % 32 / 8, k % 512 / 16, k / 1024, k % 1024 / 512, n % 8, k % 16⟩, ?_,
    fun b hb => ?_⟩
  · simp only [ByteUse.InGrid, ByteUse.row, ByteUse.column, mem_grid, hdiv, warps, rows, lanes,
      unr] at *
    omega
  · obtain ⟨bidx, warp, lane, it, u, r, e⟩ := b
    simp only [ByteUse.InGrid, ByteUse.row, ByteUse.column, mem_grid, hdiv, warps, rows, lanes,
      unr] at hb
    simp only [ByteUse.mk.injEq]
    omega

end SparkKit.Gemv.FullK
