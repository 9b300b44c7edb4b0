import Mathlib.Data.Finset.Card
import Mathlib.Data.Finset.Basic
import Mathlib.Tactic.Ring

/-!
# Rotations

Candidates have turns in a linear order, and each round picks some of them. A round passes over
a candidate when it picks others that are not behind it and puts them behind it. Nobody else
comes forward, so the candidates behind the one passed over only grow in number.
-/
namespace SparkKit.Lib.Rotation

variable {α τ : Type*} [DecidableEq α] [LinearOrder τ]

/-- The candidates with a later turn than `g`. -/
def behind (candidates : Finset α) (turn : α → τ) (g : α) : Finset α :=
  candidates.filter fun x => turn g < turn x

/-- A round that takes `picks` from ahead of `g` and leaves them behind it. -/
structure PassesOver (candidates picks : Finset α) (turn turn' : α → τ) (g : α) : Prop where
  picked : picks ⊆ candidates
  ahead : ∀ x ∈ picks, turn x ≤ turn g
  kept : turn' g = turn g
  moved : ∀ x ∈ picks, turn g < turn' x
  stays : ∀ x ∈ candidates, turn g < turn x → turn g < turn' x

variable {candidates picks : Finset α} {g : α}

/-- The picks of a round that passes over `g` come behind it beside the ones already there. -/
theorem PassesOver.card_behind {turn turn' : α → τ} (h : PassesOver candidates picks turn turn' g) :
    (behind candidates turn g).card + picks.card ≤ (behind candidates turn' g).card := by
  have hdisjoint : Disjoint (behind candidates turn g) picks := by
    rw [Finset.disjoint_left]
    intro x hx hpick
    exact absurd (h.ahead x hpick) (not_le.mpr (Finset.mem_filter.mp hx).2)
  rw [← Finset.card_union_of_disjoint hdisjoint]
  apply Finset.card_le_card
  intro x hx
  rw [behind, Finset.mem_filter, h.kept]
  rcases Finset.mem_union.mp hx with hbehind | hpick
  · obtain ⟨hmem, hlater⟩ := Finset.mem_filter.mp hbehind
    exact ⟨hmem, h.stays x hmem hlater⟩
  · exact ⟨h.picked hpick, h.moved x hpick⟩

/-- After `rounds` rounds of `m` picks that pass over `g`, all their picks are behind it. -/
theorem card_behind_run {turn : ℕ → α → τ} {m rounds : ℕ}
    (h : ∀ i < rounds, ∃ picks, picks.card = m ∧
      PassesOver candidates picks (turn i) (turn (i + 1)) g) :
    rounds * m ≤ (behind candidates (turn rounds) g).card := by
  induction rounds with
  | zero =>
    rw [Nat.zero_mul]
    exact Nat.zero_le _
  | succ rounds ih =>
    have hbefore := ih fun i hi => h i (Nat.lt_succ_of_lt hi)
    obtain ⟨picks, hcard, hround⟩ := h rounds (Nat.lt_succ_self _)
    have hstep := hround.card_behind
    rw [hcard] at hstep
    calc (rounds + 1) * m = rounds * m + m := by ring
      _ ≤ (behind candidates (turn rounds) g).card + m := Nat.add_le_add_right hbefore m
      _ ≤ _ := hstep

/-- No candidate is passed over in more than `⌈n / m⌉ - 1` rounds in a row, when `n` candidates
share rounds of `m` picks. -/
theorem rounds_le {turn : ℕ → α → τ} {m rounds : ℕ} (hm : 0 < m) (hg : g ∈ candidates)
    (h : ∀ i < rounds, ∃ picks, picks.card = m ∧
      PassesOver candidates picks (turn i) (turn (i + 1)) g) :
    rounds ≤ (candidates.card + m - 1) / m - 1 := by
  have hrun := card_behind_run h
  have hothers : behind candidates (turn rounds) g ⊆ candidates.erase g := by
    intro x hx
    obtain ⟨hmem, hlater⟩ := Finset.mem_filter.mp hx
    refine Finset.mem_erase.mpr ⟨fun heq => ?_, hmem⟩
    rw [heq] at hlater
    exact lt_irrefl _ hlater
  have hless := Finset.card_le_card hothers
  have hcard := Finset.card_erase_add_one hg
  apply Nat.le_sub_one_of_lt
  rw [Nat.lt_iff_add_one_le, Nat.le_div_iff_mul_le hm]
  have hrounds : (rounds + 1) * m = rounds * m + m := by ring
  omega

end SparkKit.Lib.Rotation
