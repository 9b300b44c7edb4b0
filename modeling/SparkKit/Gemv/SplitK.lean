import SparkKit.Gemv.Lanes
import SparkKit.Lib.PyRange

/-!
# The split-K kernel

Each block takes 32 rows and 2048 columns. Its threads first stage the activations of those
columns in shared memory, zero for the batch rows that are not there; then each lane walks
the columns in four stripes of 512. The partial products of the splits are added outside.
-/
namespace SparkKit.Gemv.SplitK

open SparkKit.Lib.Checked SparkKit.Lib.PyRange SparkKit.Lib.Reduction SparkKit.Lib.Scatter
open SparkKit.Gemv.Weights SparkKit.Gemv.Lanes

/-- `KS` -/
abbrev ks : ℕ := 2048

/-- `NT` -/
abbrev nt : ℕ := warps * lanes

variable {R : Type} [CommRing R] {N M KQ G : ℕ}

/-- The value staged at `idx`. -/
def staged (mX : Fin M → Fin (KQ * 2 * 4) → R) (kbase idx : ℕ) : Option R :=
  let m := idx / ks
  let kk := idx % ks
  if m < M then load mX m (kbase + kk) else some 0

/-- `s_x` after the barrier: every thread has stored each `NT`-th entry from its own on. -/
def stagedX (mX : Fin M → Fin (KQ * 2 * 4) → R) (kbase : ℕ) : ℕ → Option R :=
  scatter ((List.range nt).flatMap fun tidx =>
    (pyRange tidx (maxM * ks) nt).map fun idx => (idx, staged mX kbase idx)) fun _ => none

/-- `acc` of one lane after the loop over the stripes. -/
def laneAcc (mW : Fin N → Fin KQ → BitVec 64) (mS : Fin N → Fin G → R) (sX : ℕ → Option R)
    (row0 kbase lane : ℕ) : Option (Fin rows → Fin maxM → R) :=
  (List.range (ks / (lanes * 16))).foldlM (fun acc it => do
    let q0 := kbase / 8 + (it * lanes + lane) * 2
    let kl := (it * lanes + lane) * 16
    let gidx := (kbase + kl) / 128
    let w ← loadRows mW mS row0 q0 gidx
    let xs ← collect fun m : Fin maxM => collect fun e : Fin 16 => sX (m * ks + kl + e)
    return acc + fun r m => (w r).scs * dot (w r).b (xs m)) 0

/-- A store into `mP[NSPLIT, M, N]`. -/
def checkStore (nsplit M N : ℕ) (w : (ℕ × ℕ × ℕ) × R) : Option ((ℕ × ℕ × ℕ) × R) :=
  if w.1.1 < nsplit ∧ w.1.2.1 < M ∧ w.1.2.2 < N then some w else none

/-- What one warp of `gemv_kernel` stores into `mP`. -/
def gemvKernel (mW : Fin N → Fin KQ → BitVec 64) (mS : Fin N → Fin G → R)
    (mX : Fin M → Fin (KQ * 2 * 4) → R) (nsplit bidx bidy warp : ℕ) :
    Option (List ((ℕ × ℕ × ℕ) × R)) := do
  let row0 := (bidx * warps + warp) * rows
  let kbase := bidy * ks
  let acc ← collect fun lane : Fin lanes => laneAcc mW mS (stagedX mX kbase) row0 kbase lane
  (warpStores M (fun m r => (bidy, (m : ℕ), row0 + (r : ℕ))) acc).mapM (checkStore nsplit M N)

/-- `mP` after `gemv_launch`, from a zero tensor. -/
def gemvLaunch (mW : Fin N → Fin KQ → BitVec 64) (mS : Fin N → Fin G → R)
    (mX : Fin M → Fin (KQ * 2 * 4) → R) (nsplit : ℕ) : Option (ℕ × ℕ × ℕ → R) :=
  launch (grid N nsplit) (fun b => gemvKernel mW mS mX nsplit b.1 b.2.1 b.2.2) fun _ => 0

/-- `wq = wp.view(torch.int64)`, the launch with `NSPLIT = K // KS`, and `P.sum(0)`. -/
def gemv (wp : Fin N → Fin (KQ * 2) → BitVec 32) (scales : Fin N → Fin G → R)
    (x : Fin M → Fin (KQ * 2 * 4) → R) : Option (Fin M → Fin N → R) := do
  let nsplit := KQ * 2 * 4 / ks
  let p ← gemvLaunch (viewInt64 wp) scales x nsplit
  return fun m n => ∑ s ∈ Finset.range nsplit, p (s, (m : ℕ), (n : ℕ))

/-- One byte in one product: the warp and lane, the stripe, the row and the place in the dot
product. -/
structure ByteUse where
  bidx : ℕ
  bidy : ℕ
  warp : ℕ
  lane : ℕ
  it : ℕ
  r : ℕ
  e : ℕ

def ByteUse.row (u : ByteUse) : ℕ := (u.bidx * warps + u.warp) * rows + u.r

/-- Byte `e` of the words `q0` and `q0 + 1`. -/
def ByteUse.column (u : ByteUse) : ℕ := (u.bidy * ks / 8 + (u.it * lanes + u.lane) * 2) * 8 + u.e

/-- The uses that a launch makes. -/
def ByteUse.InGrid (N nsplit : ℕ) (u : ByteUse) : Prop :=
  (u.bidx, u.bidy, u.warp) ∈ grid N nsplit ∧ u.lane < lanes ∧ u.it < ks / (lanes * 16) ∧
    u.r < rows ∧ u.e < 16

/-! ## Shared memory -/

/-- Every thread's stores carry what belongs at their place, so the order does not matter. -/
theorem stagedX_eq (mX : Fin M → Fin (KQ * 2 * 4) → R) {kbase idx : ℕ}
    (hk : kbase + ks ≤ KQ * 2 * 4) (hidx : idx < maxM * ks) :
    stagedX mX kbase idx = some (entryAt mX (idx / ks) (kbase + idx % ks)) := by
  have hvalue : staged mX kbase idx = some (entryAt mX (idx / ks) (kbase + idx % ks)) := by
    have hmod : idx % ks < ks := Nat.mod_lt _ (by decide)
    simp only [staged]
    split
    · next hm => exact load_eq_entryAt mX hm (by omega)
    · next hm => rw [entryAt_of_row_ge _ hm]
  rw [← hvalue]
  refine scatter_of_unique ?_ (fun u hu => ?_) _
  · refine List.mem_flatMap.mpr ⟨idx % nt, List.mem_range.mpr (Nat.mod_lt _ (by decide)), ?_⟩
    refine List.mem_map.mpr ⟨idx, (mem_pyRange (by decide)).mpr ⟨Nat.mod_le .., hidx, ?_⟩, rfl⟩
    exact Nat.sub_mod_eq_zero_of_mod_eq (Nat.mod_mod ..).symm
  · obtain ⟨tidx, -, hmem⟩ := List.mem_flatMap.mp hu
    obtain ⟨idx', -, heq⟩ := List.mem_map.mp hmem
    rw [Prod.mk.injEq] at heq
    rw [← heq.2, heq.1]

/-! ## One lane, one warp, the grid -/

section
variable (wp : Fin N → Fin (KQ * 2) → BitVec 32) (scales : Fin N → Fin G → R)
  (x : Fin M → Fin (KQ * 2 * 4) → R)

/-- What lane by lane and stripe by stripe is added for one output of one split. -/
def partialSum (split m n : ℕ) : R :=
  ∑ lane ∈ Finset.range lanes, ∑ it ∈ Finset.range 4, ∑ e ∈ Finset.range 16,
    term wp scales x m n (split * ks + (it * lanes + lane) * 16 + e)

omit [CommRing R] in
/-- A lane's sixteen columns in one stripe: two words within the matrix, one group of scales. -/
theorem lane_columns (hG : KQ * 2 * 4 = G * 128) {split it lane : ℕ}
    (hsplit : (split + 1) * ks ≤ KQ * 2 * 4) (hit : it < 4) (hlane : lane < lanes) :
    (split * ks / 8 + (it * lanes + lane) * 2) + 1 < KQ ∧
      (split * ks / 8 + (it * lanes + lane) * 2) * 8 = split * ks + (it * lanes + lane) * 16 ∧
      (split * ks + (it * lanes + lane) * 16) / 128 < G ∧
      ∀ e < 16, (split * ks + (it * lanes + lane) * 16 + e) / 128 =
        (split * ks + (it * lanes + lane) * 16) / 128 := by
  simp only [ks, lanes] at *
  exact ⟨by omega, by omega, by omega, fun e he => by omega⟩

omit [CommRing R] in
/-- Where those columns are in shared memory. -/
theorem staged_columns {it lane : ℕ} (hit : it < 4) (hlane : lane < lanes) (m : Fin maxM)
    (e : Fin 16) :
    m * ks + (it * lanes + lane) * 16 + e < maxM * ks ∧
      (m * ks + (it * lanes + lane) * 16 + e) / ks = (m : ℕ) ∧
      (m * ks + (it * lanes + lane) * 16 + e) % ks = (it * lanes + lane) * 16 + e := by
  have hm := m.isLt
  have he := e.isLt
  simp only [ks, lanes, maxM] at *
  omega

theorem laneAcc_eq (hG : KQ * 2 * 4 = G * 128) {row0 split lane : ℕ} (hrow : row0 + rows ≤ N)
    (hsplit : (split + 1) * ks ≤ KQ * 2 * 4) (hlane : lane < lanes) :
    laneAcc (viewInt64 wp) scales (stagedX x (split * ks)) row0 (split * ks) lane =
      some (∑ it ∈ Finset.range 4, fun (r : Fin rows) (m : Fin maxM) => ∑ e ∈ Finset.range 16,
        term wp scales x m (row0 + r) (split * ks + (it * lanes + lane) * 16 + e)) := by
  refine (foldlM_add 0 fun acc it hit => ?_).trans (congrArg some (zero_add _))
  obtain ⟨hq, hq8, hg, hgroup⟩ := lane_columns hG hsplit hit hlane
  have hw := loadRows_eq wp scales hrow hq hg
  have hx : (collect fun m : Fin maxM => collect fun e : Fin 16 =>
      stagedX x (split * ks) (m * ks + (it * lanes + lane) * 16 + e)) =
      some fun (m : Fin maxM) (e : Fin 16) =>
        entryAt x m (split * ks + (it * lanes + lane) * 16 + e) := by
    refine collect_some fun m => collect_some fun e => ?_
    obtain ⟨hidx, hdiv, hmod⟩ := staged_columns hit hlane m e
    rw [stagedX_eq x ((Nat.add_one_mul split ks).symm.trans_le hsplit) hidx, hdiv, hmod,
      ← Nat.add_assoc]
  simp only [hw, hx, Option.bind_eq_bind, Option.bind_some, Option.pure_def]
  refine congrArg (fun terms => some (acc + terms)) (funext fun r => funext fun m => ?_)
  rw [hq8]
  exact scaled_dot_eq wp scales x m (row0 + r) hgroup

/-- Every lane has a result, and the butterfly adds them to the split's part of an output. -/
theorem exists_warpAcc (hG : KQ * 2 * 4 = G * 128) {row0 split : ℕ} (hrow : row0 + rows ≤ N)
    (hsplit : (split + 1) * ks ≤ KQ * 2 * 4) :
    ∃ acc, (collect fun lane : Fin lanes => laneAcc (viewInt64 wp) scales
        (stagedX x (split * ks)) row0 (split * ks) lane) = some acc ∧
      ∀ r m, warpSum (fun lane => acc lane r m) = partialSum wp scales x split m (row0 + r) := by
  refine ⟨_, collect_some fun lane => laneAcc_eq wp scales x hG hrow hsplit lane.isLt, fun r m => ?_⟩
  rw [warpSum_eq, partialSum, ← Fin.sum_univ_eq_sum_range (fun lane =>
    ∑ it ∈ Finset.range 4, ∑ e ∈ Finset.range 16,
      term wp scales x m (row0 + r) (split * ks + (it * lanes + lane) * 16 + e))]
  refine Finset.sum_congr rfl fun lane _ => ?_
  rw [Finset.sum_apply, Finset.sum_apply]

/-- The stores of one warp: its eight rows of its split, for the batch rows that are there. -/
theorem gemvKernel_eq (hG : KQ * 2 * 4 = G * 128) {nsplit bidx bidy warp : ℕ}
    (hbidy : bidy < nsplit) (hsplit : nsplit * ks ≤ KQ * 2 * 4)
    (hrow : (bidx * warps + warp) * rows + rows ≤ N) :
    ∃ stores, gemvKernel (viewInt64 wp) scales x nsplit bidx bidy warp = some stores ∧
      (∀ w ∈ stores, w.2 = partialSum wp scales x w.1.1 w.1.2.1 w.1.2.2) ∧
      ∀ (r : Fin rows) (m : Fin maxM), (m : ℕ) < M →
        ∃ v, ((bidy, (m : ℕ), (bidx * warps + warp) * rows + (r : ℕ)), v) ∈ stores := by
  have hle : (bidy + 1) * ks ≤ KQ * 2 * 4 := (Nat.mul_le_mul_right ks hbidy).trans hsplit
  obtain ⟨acc, hacc, hsum⟩ := exists_warpAcc wp scales x hG hrow hle
  simp only [gemvKernel, hacc, Option.bind_eq_bind, Option.bind_some]
  refine exists_checked_stores
    (fun i : ℕ × ℕ × ℕ => partialSum wp scales x i.1 i.2.1 i.2.2)
    (fun r m v hm => if_pos ⟨hbidy, hm, ?_⟩) fun r m _ => hsum r m
  have hr := r.isLt
  simp only
  omega

/-- The grid has a result, and every partial output is the sum over its split's columns. -/
theorem gemvLaunch_eq (hG : KQ * 2 * 4 = G * 128) (hN : warps * rows ∣ N) (hM : M ≤ maxM)
    {nsplit : ℕ} (hsplit : nsplit * ks ≤ KQ * 2 * 4) :
    ∃ p, gemvLaunch (viewInt64 wp) scales x nsplit = some p ∧
      ∀ i : ℕ × ℕ × ℕ, i.1 < nsplit ∧ i.2.1 < M ∧ i.2.2 < N →
        p i = partialSum wp scales x i.1 i.2.1 i.2.2 := by
  refine launch_eq (fun _ => 0) (fun i : ℕ × ℕ × ℕ => partialSum wp scales x i.1 i.2.1 i.2.2)
    (fun i : ℕ × ℕ × ℕ => i.1 < nsplit ∧ i.2.1 < M ∧ i.2.2 < N) (fun b hb => ?_) fun i hi => ?_
  · obtain ⟨hbidx, hbidy, hwarp⟩ := mem_grid.mp hb
    obtain ⟨stores, hstores, hvalue, -⟩ :=
      gemvKernel_eq wp scales x hG hbidy hsplit (row_lt hN hbidx hwarp)
    exact ⟨stores, hstores, hvalue⟩
  · obtain ⟨hs, hm, hn⟩ := hi
    obtain ⟨bidx, hbidx, warp, hwarp, r, hr⟩ := exists_warp_row hN hn
    obtain ⟨stores, hstores, -, hcover⟩ :=
      gemvKernel_eq wp scales x hG hs hsplit (row_lt hN hbidx hwarp)
    refine ⟨(bidx, i.1, warp), mem_grid.mpr ⟨hbidx, hs, hwarp⟩, fun stores' hstores' => ?_⟩
    obtain rfl := Option.some_injective _ (hstores.symm.trans hstores')
    have h := hcover r ⟨i.2.1, hm.trans_le hM⟩ hm
    rwa [hr] at h

/-- Split by split, stripe by stripe and lane by lane, every column is added once. -/
theorem sum_partialSum (nsplit m n : ℕ) :
    ∑ s ∈ Finset.range nsplit, partialSum wp scales x s m n =
      ∑ k ∈ Finset.range (nsplit * ks), term wp scales x m n k := by
  have hks : Finset.range ks = Finset.range (4 * (lanes * 16)) := congrArg _ (by norm_num)
  rw [sum_range_mul _ nsplit ks]
  refine Finset.sum_congr rfl fun s _ => ?_
  rw [partialSum, Finset.sum_comm, hks, sum_range_mul _ 4 (lanes * 16)]
  refine Finset.sum_congr rfl fun it _ => ?_
  rw [sum_range_mul _ lanes 16]
  refine Finset.sum_congr rfl fun lane _ => Finset.sum_congr rfl fun e _ => ?_
  refine congrArg (term wp scales x m n) ?_
  ring

/-- In exact arithmetic the launch and the sum over splits give the reference; no load and no
store leaves its tensor. -/
theorem gemv_eq (hG : KQ * 2 * 4 = G * 128) (hN : warps * rows ∣ N) (hM : M ≤ maxM)
    (hK : ks ∣ KQ * 2 * 4) : gemv wp scales x = some (reference hG wp scales x) := by
  obtain ⟨p, hp, hvalue⟩ := gemvLaunch_eq wp scales x hG hN hM (Nat.div_mul_le_self (KQ * 2 * 4) ks)
  simp only [gemv, hp, Option.bind_eq_bind, Option.bind_some, Option.pure_def]
  refine congrArg some (funext fun m => funext fun n => ?_)
  have hpart : ∀ s ∈ Finset.range (KQ * 2 * 4 / ks), p (s, (m : ℕ), (n : ℕ)) =
      partialSum wp scales x s m n := by
    intro s hs
    exact hvalue (s, m, n) ⟨Finset.mem_range.mp hs, m.isLt, n.isLt⟩
  rw [Finset.sum_congr rfl hpart, sum_partialSum, Nat.div_mul_cancel hK, reference_eq_sum]

end

/-- Each byte of the matrix is used in one place of the launch and in no other. -/
theorem byteUse_unique {nsplit n k : ℕ} (hN : warps * rows ∣ N) (hn : n < N) (hk : k < nsplit * ks) :
    ∃! u : ByteUse, u.InGrid N nsplit ∧ u.row = n ∧ u.column = k := by
  obtain ⟨blocks, rfl⟩ := hN
  have hdiv : warps * rows * blocks / (warps * rows) = blocks := Nat.mul_div_cancel_left _ (by decide)
  refine ⟨⟨n / 32, k / 2048, n % 32 / 8, k % 512 / 16, k % 2048 / 512, n % 8, k % 16⟩, ?_, fun u hu => ?_⟩
  · simp only [ByteUse.InGrid, ByteUse.row, ByteUse.column, mem_grid, hdiv, warps, rows, lanes, ks] at *
    omega
  · obtain ⟨bidx, bidy, warp, lane, it, r, e⟩ := u
    simp only [ByteUse.InGrid, ByteUse.row, ByteUse.column, mem_grid, hdiv, warps, rows, lanes,
      ks] at hu
    simp only [ByteUse.mk.injEq]
    omega

end SparkKit.Gemv.SplitK
