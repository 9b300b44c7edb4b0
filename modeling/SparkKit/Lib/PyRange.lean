import Mathlib.Data.List.Nodup
import Mathlib.Data.List.Count
import Mathlib.Logic.Function.Iterate
import Mathlib.Tactic.Common

/-!
# Loops over windows

`range(start, stop, step)` and a loop whose turns each rewrite the entries of one window. An
entry is rewritten as often as windows contain it, and windows a step apart contain every entry
once.
-/
namespace SparkKit.Lib.PyRange

/-- `range(start, stop, step)` -/
def pyRange (start stop step : ℕ) : List ℕ :=
  List.range' start ((stop - start + step - 1) / step) step

theorem mem_pyRange {start stop step idx : ℕ} (hstep : 0 < step) :
    idx ∈ pyRange start stop step ↔ start ≤ idx ∧ idx < stop ∧ (idx - start) % step = 0 := by
  rw [pyRange, List.mem_range']
  constructor
  · intro h
    obtain ⟨i, hi, rfl⟩ := h
    have hle : (i + 1) * step ≤ (stop - start + step - 1) / step * step :=
      Nat.mul_le_mul_right step hi
    have hdiv := Nat.div_mul_le_self (stop - start + step - 1) step
    rw [Nat.add_one_mul] at hle
    have hcomm : step * i = i * step := Nat.mul_comm ..
    refine ⟨Nat.le_add_right .., by omega, ?_⟩
    rw [Nat.add_sub_cancel_left, Nat.mul_mod_right]
  · intro h
    obtain ⟨hge, hlt, hmod⟩ := h
    obtain ⟨i, hi⟩ := Nat.dvd_of_mod_eq_zero hmod
    refine ⟨i, ?_, by omega⟩
    rw [Nat.lt_div_iff_mul_lt hstep, Nat.mul_comm, ← hi]
    omega

/-- The windows of `range(0, stop, step)` contain every index below `stop` once. -/
theorem countP_windows {stop step i : ℕ} (hstep : 0 < step) (hi : i < stop) :
    (pyRange 0 stop step).countP (fun s => s ≤ i ∧ i < s + step) = 1 := by
  have hwindow : ∀ s ∈ pyRange 0 stop step, (s ≤ i ∧ i < s + step) ↔ s = i / step * step := by
    intro s hs
    obtain ⟨-, -, hmod⟩ := (mem_pyRange hstep).mp hs
    obtain ⟨k, rfl⟩ := Nat.dvd_of_mod_eq_zero hmod
    constructor
    · intro h
      have hk : i / step = k := by
        refine Nat.div_eq_of_lt_le (by rw [Nat.mul_comm]; exact h.1) ?_
        rw [Nat.add_one_mul, Nat.mul_comm]
        exact h.2
      rw [hk, Nat.mul_comm]
    · intro h
      have hdiv := Nat.div_add_mod' i step
      have hlt := Nat.mod_lt i hstep
      omega
  have hmem : i / step * step ∈ pyRange 0 stop step := by
    refine (mem_pyRange hstep).mpr ⟨Nat.zero_le _, ?_, ?_⟩
    · exact Nat.lt_of_le_of_lt (Nat.div_mul_le_self i step) hi
    · rw [Nat.sub_zero, Nat.mul_mod_left]
  have hnodup : (pyRange 0 stop step).Nodup := List.nodup_range' step hstep
  calc (pyRange 0 stop step).countP (fun s => s ≤ i ∧ i < s + step)
      = (pyRange 0 stop step).count (i / step * step) :=
        List.countP_congr fun s hs => by simpa using hwindow s hs
    _ = 1 := List.count_eq_one_of_mem hnodup hmem

/-- Every turn that covers an entry rewrites it. -/
theorem foldl_rewrites {ι κ α : Type*} (covers : κ → ι → Prop) [∀ t i, Decidable (covers t i)]
    (f : ι → α → α) (turns : List κ) (store : ι → α) (i : ι) :
    turns.foldl (fun store t i => if covers t i then f i (store i) else store i) store i =
      (f i)^[turns.countP fun t => covers t i] (store i) := by
  induction turns generalizing store with
  | nil => rfl
  | cons t turns ih =>
    rw [List.foldl_cons, ih, List.countP_cons]
    by_cases ht : covers t i
    · rw [if_pos ht, if_pos (decide_eq_true ht), Function.iterate_succ_apply]
    · rw [if_neg ht, if_neg (by rw [decide_eq_true_iff]; exact ht), Nat.add_zero]

end SparkKit.Lib.PyRange
