import Mathlib.Data.Nat.ModEq
import Mathlib.Tactic.Common

/-!
# A circular store holding the end of a stream

A stream starts at an absolute position and grows at its end; the store keeps the
element at position `p` in cell `p % W`. The window predicate says the store still
holds the last `W` elements. Appending a block preserves it when the block's own
last `W` elements are stored and every other cell is left alone.
-/
namespace SparkKit.Lib.RingWindow

variable {α : Type*}

/-- The cells hold the last `W` elements of the stream `xs` that starts at `base`. -/
def Holds (W base : ℕ) (xs : List α) (cell : ℕ → α) : Prop :=
  ∀ i (hi : i < xs.length), xs.length ≤ i + W → cell ((base + i) % W) = xs[i]

theorem holds_nil (W base : ℕ) (cell : ℕ → α) : Holds W base [] cell :=
  fun i hi => absurd hi (Nat.not_lt_zero i)

/-- Two positions less than a window apart have different residues. -/
theorem mod_ne_of_lt_add {W x y : ℕ} (hxy : x < y) (hy : y < x + W) : x % W ≠ y % W := by
  intro h
  have hdvd : W ∣ y - x := (Nat.modEq_iff_dvd' hxy.le).mp h
  have hle := Nat.le_of_dvd (by omega) hdvd
  omega

theorem eq_of_mod_eq {W x y : ℕ} (h : x % W = y % W) (hxy : x < y + W) (hyx : y < x + W) :
    x = y := by
  rcases Nat.lt_trichotomy x y with hlt | heq | hgt
  · exact absurd h (mod_ne_of_lt_add hlt hyx)
  · exact heq
  · exact absurd h.symm (mod_ne_of_lt_add hgt hxy)

/-- The class of a position below `m` is met once more in the last `W` positions before `m`. -/
theorem exists_last_mod_eq {W p m : ℕ} (hW : 0 < W) (hp : p < m) :
    ∃ x, p ≤ x ∧ x < m ∧ m ≤ x + W ∧ x % W = p % W := by
  have hdiv := Nat.div_add_mod (m - 1 - p) W
  have hmod := Nat.mod_lt (m - 1 - p) hW
  exact ⟨p + W * ((m - 1 - p) / W), by omega, by omega, by omega, Nat.add_mul_mod_self_left ..⟩

/-- Every cell is met by any `W` consecutive positions. -/
theorem exists_mod_eq {W s : ℕ} (base : ℕ) (hs : s < W) :
    ∃ p, base ≤ p ∧ p < base + W ∧ p % W = s := by
  obtain ⟨p, -, hlt, hle, hmod⟩ := exists_last_mod_eq (show 0 < W by omega)
    (show s < base + W by omega)
  exact ⟨p, by omega, hlt, hmod.trans (Nat.mod_eq_of_lt hs)⟩

/-- Two adjacent spans of positions make one. -/
theorem exists_span_append {a b c : ℕ} {P : ℕ → Prop} (hab : a ≤ b) (hbc : b ≤ c) :
    ((∃ p, a ≤ p ∧ p < b ∧ P p) ∨ ∃ p, b ≤ p ∧ p < c ∧ P p) ↔ ∃ p, a ≤ p ∧ p < c ∧ P p := by
  constructor
  · rintro (⟨p, hp, hlt, h⟩ | ⟨p, hp, hlt, h⟩)
    · exact ⟨p, hp, by omega, h⟩
    · exact ⟨p, by omega, hlt, h⟩
  · rintro ⟨p, hp, hlt, h⟩
    rcases Nat.lt_or_ge p b with hold | hnew
    · exact .inl ⟨p, hp, hold, h⟩
    · exact .inr ⟨p, hnew, hlt, h⟩

/-- Appending a block: its last `W` elements are stored and no other cell changes. -/
theorem Holds.append {W base : ℕ} {xs ys : List α} {cell cell' : ℕ → α}
    (hW : 0 < W) (h : Holds W base xs cell)
    (hnew : ∀ j (hj : j < ys.length), ys.length ≤ j + W →
      cell' ((base + xs.length + j) % W) = ys[j])
    (hkeep : ∀ c, c < W → (∀ j, j < ys.length → ys.length ≤ j + W → (base + xs.length + j) % W ≠ c) →
      cell' c = cell c) :
    Holds W base (xs ++ ys) cell' := by
  intro i hi hw
  rw [List.length_append] at hi hw
  by_cases hold : i < xs.length
  · rw [List.getElem_append_left hold, ← h i hold (by omega)]
    refine hkeep _ (Nat.mod_lt _ hW) fun j hj hjw => ?_
    exact (mod_ne_of_lt_add (by omega) (by omega)).symm
  · rw [List.getElem_append_right (by omega), ← hnew (i - xs.length) (by omega) (by omega)]
    congr 2
    omega

end SparkKit.Lib.RingWindow
