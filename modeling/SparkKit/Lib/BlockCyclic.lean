import Mathlib.Tactic.Ring
import Mathlib.Tactic.Linarith
import Mathlib.Tactic.Common
import Mathlib.Data.List.Nodup
import Mathlib.Data.List.Range

/-!
# Block-cyclic distribution

Positions are dealt to `W` ranks in blocks of `I`. The local index and the rank of a
position determine it and are determined by it, and the positions below a bound that a
rank owns are the first `localLen` of its local indices.
-/
namespace SparkKit.Lib.BlockCyclic

/-- The position of local index `i` of rank `r`. -/
def globalId (W I r i : ℕ) : ℕ := i / I * (W * I) + r * I + i % I

/-- The rank that owns a position. -/
def owner (W I g : ℕ) : ℕ := g / I % W

/-- The index a position has on its owner. -/
def localIdx (W I g : ℕ) : ℕ := g / (W * I) * I + g % I

/-- How many of the first `n` positions rank `r` owns. -/
def localLen (W I n r : ℕ) : ℕ := n / I / W * I + min (n - n / I / W * I * W - r * I) I

section
variable {W I r : ℕ}

theorem block_lt (hr : r < W) {d : ℕ} (hd : d < I) : r * I + d < W * I := by
  have h : (r + 1) * I ≤ W * I := Nat.mul_le_mul_right I hr
  rw [Nat.succ_mul] at h
  omega

theorem globalId_div (hr : r < W) (hI : 0 < I) (i : ℕ) :
    globalId W I r i / (W * I) = i / I := by
  have hlt := block_lt hr (Nat.mod_lt i hI)
  rw [globalId, Nat.add_assoc, Nat.mul_comm (i / I), Nat.mul_add_div (by omega),
    Nat.div_eq_of_lt hlt, Nat.add_zero]

theorem globalId_mod (hr : r < W) (hI : 0 < I) (i : ℕ) :
    globalId W I r i % (W * I) = r * I + i % I := by
  have hlt := block_lt hr (Nat.mod_lt i hI)
  rw [globalId, Nat.add_assoc, Nat.mul_comm (i / I), Nat.mul_add_mod, Nat.mod_eq_of_lt hlt]

theorem localIdx_globalId (hr : r < W) (hI : 0 < I) (i : ℕ) :
    localIdx W I (globalId W I r i) = i := by
  have hmod : globalId W I r i % I = i % I := by
    rw [← Nat.mod_mul_left_mod (globalId W I r i) W I, globalId_mod hr hI, Nat.mul_comm r,
      Nat.mul_add_mod, Nat.mod_mod]
  rw [localIdx, globalId_div hr hI, hmod, Nat.mul_comm, Nat.div_add_mod]

theorem owner_globalId (hr : r < W) (hI : 0 < I) (i : ℕ) : owner W I (globalId W I r i) = r := by
  have hdiv : globalId W I r i / I = W * (i / I) + r := by
    have he : globalId W I r i = I * (W * (i / I) + r) + i % I := by
      unfold globalId
      ring
    rw [he, Nat.mul_add_div hI, Nat.div_eq_of_lt (Nat.mod_lt i hI), Nat.add_zero]
  rw [owner, hdiv, Nat.mul_add_mod, Nat.mod_eq_of_lt hr]

theorem globalId_localIdx (hI : 0 < I) (g : ℕ) :
    globalId W I (owner W I g) (localIdx W I g) = g := by
  have hmod : g % I < I := Nat.mod_lt g hI
  have hdiv : localIdx W I g / I = g / (W * I) := by
    rw [localIdx, Nat.mul_comm, Nat.mul_add_div hI, Nat.div_eq_of_lt hmod, Nat.add_zero]
  have hrem : localIdx W I g % I = g % I := by
    rw [localIdx, Nat.mul_comm, Nat.mul_add_mod, Nat.mod_eq_of_lt hmod]
  have hblock : g / I = W * (g / (W * I)) + g / I % W := by
    rw [Nat.mul_comm W I, ← Nat.div_div_eq_div_mul]
    exact (Nat.div_add_mod _ _).symm
  calc globalId W I (owner W I g) (localIdx W I g)
      = I * (W * (g / (W * I)) + g / I % W) + g % I := by
        rw [globalId, hdiv, hrem, owner]
        ring
    _ = g := by rw [← hblock, Nat.div_add_mod]

theorem owner_lt (hW : 0 < W) (g : ℕ) : owner W I g < W := Nat.mod_lt _ hW

/-- A rank's local indices below its local length are its positions below the bound. -/
theorem lt_localLen_iff (hr : r < W) (hI : 0 < I) (n i : ℕ) :
    i < localLen W I n r ↔ globalId W I r i < n := by
  have hWI : 0 < W * I := Nat.mul_pos (by omega) hI
  have hbase : n / I / W = n / (W * I) := by rw [Nat.div_div_eq_div_mul, Nat.mul_comm]
  have hn : n = n / (W * I) * (W * I) + n % (W * I) := by
    rw [Nat.mul_comm]
    exact (Nat.div_add_mod _ _).symm
  have hi : i = i / I * I + i % I := by
    rw [Nat.mul_comm]
    exact (Nat.div_add_mod _ _).symm
  have hd : i % I < I := Nat.mod_lt i hI
  have hb : n % (W * I) < W * I := Nat.mod_lt n hWI
  have hrd := block_lt hr hd
  rw [localLen, globalId, hbase]
  generalize n / (W * I) = a at *
  generalize n % (W * I) = b at *
  generalize i / I = c at *
  generalize i % I = d at *
  subst hn hi
  have hrest : a * (W * I) + b - a * I * W = b := by
    rw [Nat.mul_assoc a I W, Nat.mul_comm I W]
    omega
  rw [hrest]
  rcases Nat.lt_trichotomy c a with hca | rfl | hca
  · have h₁ : (c + 1) * I ≤ a * I := Nat.mul_le_mul_right I hca
    have h₂ : (c + 1) * (W * I) ≤ a * (W * I) := Nat.mul_le_mul_right _ hca
    rw [Nat.succ_mul] at h₁ h₂
    constructor <;> intro _ <;> omega
  · omega
  · have h₁ : (a + 1) * I ≤ c * I := Nat.mul_le_mul_right I hca
    have h₂ : (a + 1) * (W * I) ≤ c * (W * I) := Nat.mul_le_mul_right _ hca
    rw [Nat.succ_mul] at h₁ h₂
    constructor <;> intro _ <;> omega

/-- A rank owns some of the first `n` positions exactly when its first block starts below `n`. -/
theorem localLen_pos_iff (hr : r < W) (hI : 0 < I) (n : ℕ) : 0 < localLen W I n r ↔ r * I < n := by
  rw [lt_localLen_iff hr hI]
  simp [globalId]

theorem localLen_le (hr : r < W) (hI : 0 < I) (n : ℕ) : localLen W I n r ≤ n := by
  by_contra h
  have hlt := (lt_localLen_iff hr hI n n).mp (Nat.lt_of_not_le h)
  have hI' : I ≤ W * I := Nat.le_mul_of_pos_left I (by omega)
  have hblocks : n / I * I ≤ n / I * (W * I) := Nat.mul_le_mul_left _ hI'
  have hn : n / I * I + n % I = n := by rw [Nat.mul_comm, Nat.div_add_mod]
  unfold globalId at hlt
  omega

/-- The positions of a rank below `n` are those of its first local indices. -/
theorem owned_perm (hr : r < W) (hI : 0 < I) (n : ℕ) :
    ((List.range n).filter fun g => owner W I g = r).Perm
      ((List.range (localLen W I n r)).map (globalId W I r)) := by
  rw [List.perm_ext_iff_of_nodup (List.nodup_range.filter _) ?_]
  · intro g
    simp only [List.mem_filter, List.mem_map, List.mem_range, decide_eq_true_eq]
    constructor
    · rintro ⟨hg, rfl⟩
      refine ⟨localIdx W I g, ?_, globalId_localIdx hI g⟩
      rw [lt_localLen_iff hr hI, globalId_localIdx hI]
      exact hg
    · rintro ⟨i, hi, rfl⟩
      exact ⟨(lt_localLen_iff hr hI n i).mp hi, owner_globalId hr hI i⟩
  · refine List.Nodup.map_on (fun i _ j _ h => ?_) List.nodup_range
    rw [← localIdx_globalId hr hI i, h, localIdx_globalId hr hI]

theorem length_owned (hr : r < W) (hI : 0 < I) (n : ℕ) :
    ((List.range n).filter fun g => owner W I g = r).length = localLen W I n r := by
  rw [(owned_perm hr hI n).length_eq, List.length_map, List.length_range]

/-- The ranks' shares of the first `n` positions are a partition of them. -/
theorem shares_perm (hW : 0 < W) (hI : 0 < I) (n : ℕ) :
    ((List.range W).flatMap fun r =>
      (List.range (localLen W I n r)).map (globalId W I r)).Perm (List.range n) := by
  rw [List.perm_ext_iff_of_nodup ?_ List.nodup_range]
  · intro g
    simp only [List.mem_flatMap, List.mem_map, List.mem_range]
    constructor
    · rintro ⟨r, hr, i, hi, rfl⟩
      exact (lt_localLen_iff hr hI n i).mp hi
    · intro hg
      have hr := owner_lt (I := I) hW g
      refine ⟨owner W I g, hr, localIdx W I g, ?_, globalId_localIdx hI g⟩
      rw [lt_localLen_iff hr hI, globalId_localIdx hI]
      exact hg
  · rw [List.nodup_flatMap]
    constructor
    · intro r hr
      refine List.Nodup.map_on (fun i _ j _ h => ?_) List.nodup_range
      have hr := List.mem_range.mp hr
      rw [← localIdx_globalId hr hI i, h, localIdx_globalId hr hI]
    · refine List.Pairwise.imp_of_mem ?_ List.nodup_range
      intro r r' hr hr' hne g hg hg'
      obtain ⟨i, -, rfl⟩ := List.mem_map.mp hg
      obtain ⟨j, -, h⟩ := List.mem_map.mp hg'
      apply hne
      rw [← owner_globalId (List.mem_range.mp hr) hI i, ← h, owner_globalId (List.mem_range.mp hr') hI]

theorem sum_localLen (hW : 0 < W) (hI : 0 < I) (n : ℕ) :
    ((List.range W).map (localLen W I n)).sum = n := by
  have hlen := (shares_perm hW hI n).length_eq
  rw [List.length_flatMap, List.length_range] at hlen
  simpa using hlen

end

end SparkKit.Lib.BlockCyclic
