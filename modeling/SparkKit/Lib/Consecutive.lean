import Mathlib.Data.List.Range
import Mathlib.Data.List.Nodup

/-!
# Lists of consecutive numbers

The tags of a first-in first-out channel: whoever takes from the front and appends at the
back keeps them consecutive, wherever the list is cut.
-/
namespace SparkKit.Lib.Consecutive

/-- `xs` counts up from `a`. -/
def CountsFrom (a : ℕ) (xs : List ℕ) : Prop := xs = List.range' a xs.length

variable {a : ℕ} {xs ys : List ℕ}

theorem countsFrom_append :
    CountsFrom a (xs ++ ys) ↔ CountsFrom a xs ∧ CountsFrom (a + xs.length) ys := by
  unfold CountsFrom
  rw [List.length_append, ← List.range'_append_1]
  constructor
  · intro h
    exact List.append_inj h (by rw [List.length_range'])
  · rintro ⟨hxs, hys⟩
    rw [← hxs, ← hys]

theorem countsFrom_singleton {b : ℕ} : CountsFrom a [b] ↔ b = a := by
  simp [CountsFrom]

theorem CountsFrom.mem_iff (h : CountsFrom a xs) {b : ℕ} :
    b ∈ xs ↔ a ≤ b ∧ b < a + xs.length := by
  rw [h, List.mem_range'_1, List.length_range']

theorem CountsFrom.nodup (h : CountsFrom a xs) : xs.Nodup := by
  rw [h]
  exact List.nodup_range'

end SparkKit.Lib.Consecutive
