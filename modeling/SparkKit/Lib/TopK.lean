import Mathlib.Algebra.Ring.Nat
import Mathlib.Data.Multiset.Sort
import Mathlib.Data.List.Sort
import Mathlib.Algebra.BigOperators.Group.Multiset.Basic
import Mathlib.Algebra.Order.BigOperators.Group.Multiset

/-!
# The best `K` of a multiset

A selection is the best `K` of a multiset when what it leaves out scores no better than
anything it keeps. Selections compose over any partition, and their scores are the first
`K` of the sorted scores, however ties are broken.
-/
namespace SparkKit.Lib.TopK

open Multiset

variable {α β : Type*} [LinearOrder α]

/-- `t` is a best selection of at most `K` elements of `s` under the score `f`. -/
def IsTopK (K : ℕ) (f : β → α) (s t : Multiset β) : Prop :=
  ∃ rest, s = t + rest ∧ card t = min K (card s) ∧ ∀ x ∈ t, ∀ y ∈ rest, f y ≤ f x

theorem IsTopK.le {K : ℕ} {f : β → α} {s t : Multiset β} (h : IsTopK K f s t) : t ≤ s := by
  obtain ⟨rest, rfl, -, -⟩ := h
  exact Multiset.le_add_right t rest

theorem IsTopK.card_eq {K : ℕ} {f : β → α} {s t : Multiset β} (h : IsTopK K f s t) :
    card t = min K (card s) := by
  obtain ⟨rest, -, hcard, -⟩ := h
  exact hcard

/-- A multiset inside a sum that shares no element with one summand is inside the other. -/
theorem le_of_le_add {s t u : Multiset β} (h : s ≤ t + u) (hdis : ∀ x ∈ s, x ∉ u) : s ≤ t := by
  classical
  rw [Multiset.le_iff_count] at h ⊢
  intro x
  by_cases hx : x ∈ s
  · simpa [count_eq_zero_of_notMem (hdis x hx)] using h x
  · simp [count_eq_zero_of_notMem hx]

theorem mem_sum_map {ι : Type*} {parts : List ι} {t : ι → Multiset β} {y : β} :
    y ∈ (parts.map t).sum ↔ ∃ i ∈ parts, y ∈ t i := by
  induction parts with
  | nil => simp
  | cons i parts ih => simp [ih]

theorem sum_map_replicate {ι : Type*} (parts : List ι) (k : ι → ℕ) (p : β) :
    (parts.map fun i => replicate (k i) p).sum = replicate (parts.map k).sum p := by
  induction parts with
  | nil => rfl
  | cons i parts ih =>
    rw [List.map_cons, List.sum_cons, ih, List.map_cons, List.sum_cons, replicate_add]

theorem le_sum_map {ι : Type*} {parts : List ι} (t : ι → Multiset β) {i : ι} (hi : i ∈ parts) :
    t i ≤ (parts.map t).sum := by
  obtain ⟨before, after, rfl⟩ := List.append_of_mem hi
  rw [List.map_append, List.sum_append, List.map_cons, List.sum_cons]
  exact (Multiset.le_add_right _ _).trans (Multiset.le_add_left _ _)

/-- The best of the parts' bests is the best of the whole. -/
theorem IsTopK.merge {ι : Type*} (parts : List ι) {K : ℕ} {f : β → α} {s t : ι → Multiset β}
    (h : ∀ i ∈ parts, IsTopK K f (s i) (t i)) {best : Multiset β}
    (hbest : IsTopK K f (parts.map t).sum best) : IsTopK K f (parts.map s).sum best := by
  classical
  choose! rest hs hcard hdom using h
  obtain ⟨left, hleft, hbcard, hbdom⟩ := hbest
  have hsplit : (parts.map s).sum = (parts.map t).sum + (parts.map rest).sum := by
    rw [← List.sum_map_add]
    exact congrArg List.sum (List.map_congr_left hs)
  have hfull : ∀ i ∈ parts, ∀ y ∈ rest i, card (t i) = K := by
    intro i hi y hy
    have hpos : 0 < card (rest i) := Multiset.card_pos_iff_exists_mem.mpr ⟨y, hy⟩
    have hc := hcard i hi
    have hadd : card (s i) = card (t i) + card (rest i) :=
      (congrArg card (hs i hi)).trans (Multiset.card_add _ _)
    omega
  refine ⟨left + (parts.map rest).sum, by rw [hsplit, hleft, add_assoc], ?_, ?_⟩
  · by_cases hex : ∃ y, y ∈ (parts.map rest).sum
    · obtain ⟨y, hy⟩ := hex
      obtain ⟨i, hi, hy⟩ := mem_sum_map.mp hy
      have hle := Multiset.card_le_card (le_sum_map t hi)
      rw [hfull i hi y hy] at hle
      rw [hbcard, hsplit, Multiset.card_add]
      omega
    · have hzero : (parts.map rest).sum = 0 := Multiset.eq_zero_of_forall_notMem fun y hy => hex ⟨y, hy⟩
      rw [hbcard, hsplit, hzero, add_zero]
  · intro x hx y hy
    rcases Multiset.mem_add.mp hy with hy | hy
    · exact hbdom x hx y hy
    · obtain ⟨i, hi, hy⟩ := mem_sum_map.mp hy
      by_cases hout : ∃ z ∈ t i, z ∈ left
      · obtain ⟨z, hz, hzl⟩ := hout
        exact (hdom i hi z hz y hy).trans (hbdom x hx z hzl)
      · have hin : t i ≤ best := by
          refine le_of_le_add (u := left) (hleft ▸ le_sum_map t hi) fun z hz hzl => hout ⟨z, hz, hzl⟩
        have heq : t i = best := by
          refine Multiset.eq_of_le_of_card_le hin ?_
          rw [hfull i hi y hy, hbcard]
          omega
        exact hdom i hi x (heq ▸ hx) y hy

/-- The head of a list sorted by descending score is a best selection. -/
theorem isTopK_take (K : ℕ) (f : β → α) {l : List β} (h : l.Pairwise fun a b => f b ≤ f a) :
    IsTopK K f l (l.take K) := by
  refine ⟨l.drop K, ?_, by simp, ?_⟩
  · rw [Multiset.coe_add, List.take_append_drop]
  · intro x hx y hy
    rw [← List.take_append_drop K l, List.pairwise_append] at h
    exact h.2.2 x hx y hy

/-- A selection carries over along a map that keeps the order of the scores. -/
theorem IsTopK.map {γ α' : Type*} [LinearOrder α'] {K : ℕ} {f : β → α} {f' : γ → α'} (g : β → γ)
    {s t : Multiset β} (hg : ∀ x ∈ s, ∀ y ∈ s, f y ≤ f x → f' (g y) ≤ f' (g x))
    (h : IsTopK K f s t) : IsTopK K f' (s.map g) (t.map g) := by
  obtain ⟨rest, rfl, hcard, hdom⟩ := h
  refine ⟨rest.map g, Multiset.map_add .., by simpa using hcard, ?_⟩
  intro x hx y hy
  obtain ⟨a, ha, rfl⟩ := Multiset.mem_map.mp hx
  obtain ⟨b, hb, rfl⟩ := Multiset.mem_map.mp hy
  exact hg a (Multiset.mem_add.mpr (.inl ha)) b (Multiset.mem_add.mpr (.inr hb)) (hdom a ha b hb)

/-- A short selection takes everything, so padding it up to `K` keeps it a best selection. -/
theorem IsTopK.add_pads {K : ℕ} {f : β → α} {s t : Multiset β} (h : IsTopK K f s t) (p : β) :
    IsTopK K f (s + replicate (K - card t) p) (t + replicate (K - card t) p) := by
  obtain ⟨rest, rfl, hcard, hdom⟩ := h
  rw [Multiset.card_add] at hcard
  refine ⟨rest, by rw [add_right_comm], by simp only [Multiset.card_add, card_replicate]; omega, ?_⟩
  intro x hx y hy
  rcases Multiset.mem_add.mp hx with hx | hx
  · exact hdom x hx y hy
  · have hrest : 0 < card rest := Multiset.card_pos_iff_exists_mem.mpr ⟨y, hy⟩
    have hpads := (Multiset.mem_replicate.mp hx).1
    omega

/-- Pads that score below everything are taken only when the rest has run out. -/
theorem IsTopK.drop_pads {K m : ℕ} {f : β → α} {s t : Multiset β} {p : β}
    (h : IsTopK K f (s + replicate m p) t) (hp : ∀ x ∈ s, f p < f x) (hm : K ≤ card s + m) :
    ∃ t', IsTopK K f s t' ∧ t = t' + replicate (K - card s) p := by
  classical
  obtain ⟨rest, hs, hcard, hdom⟩ := h
  have hps : p ∉ s := fun hmem => lt_irrefl _ (hp p hmem)
  have hfilter : s = t.filter (· ≠ p) + rest.filter (· ≠ p) := by
    have hkeep : s.filter (· ≠ p) = s := by
      refine Multiset.filter_eq_self.mpr fun x hx he => hps ?_
      rwa [he] at hx
    have hdrop : (replicate m p).filter (· ≠ p) = 0 :=
      Multiset.filter_eq_nil.mpr fun x hx => by simp [Multiset.eq_of_mem_replicate hx]
    have hf := congrArg (Multiset.filter (· ≠ p)) hs
    rwa [Multiset.filter_add, Multiset.filter_add, hkeep, hdrop, add_zero] at hf
  have htsplit : t = t.filter (· ≠ p) + replicate (t.count p) p := by
    have hsum := Multiset.filter_add_not (· ≠ p) t
    simp only [ne_eq, not_not] at hsum ⊢
    rw [← Multiset.filter_eq' t p]
    exact hsum.symm
  have hscard : card s = card (t.filter (· ≠ p)) + card (rest.filter (· ≠ p)) :=
    (congrArg card hfilter).trans (Multiset.card_add _ _)
  have htcard : card t = card (t.filter (· ≠ p)) + t.count p := by
    conv_lhs => rw [htsplit]
    rw [Multiset.card_add, card_replicate]
  rw [Multiset.card_add, card_replicate] at hcard
  have hnone : 0 < t.count p → card (rest.filter (· ≠ p)) = 0 := by
    intro hcount
    refine Multiset.card_eq_zero.mpr (Multiset.eq_zero_of_forall_notMem fun y hy => ?_)
    have hys : y ∈ s := hfilter ▸ Multiset.mem_add.mpr (.inr hy)
    exact (hp y hys).not_ge
      (hdom p (Multiset.count_pos.mp hcount) y (Multiset.mem_filter.mp hy).1)
  have hcount : t.count p = K - card s := by
    rcases Nat.eq_zero_or_pos (t.count p) with hz | hpos
    · omega
    · have := hnone hpos
      omega
  refine ⟨t.filter (· ≠ p), ⟨rest.filter (· ≠ p), hfilter, ?_, ?_⟩, by rw [← hcount]; exact htsplit⟩
  · rcases Nat.eq_zero_or_pos (t.count p) with hz | hpos
    · omega
    · have := hnone hpos
      omega
  · intro x hx y hy
    exact hdom x (Multiset.mem_filter.mp hx).1 y (Multiset.mem_filter.mp hy).1

/-- The scores of a best selection are the first `K` of the scores in descending order. -/
theorem IsTopK.map_score {K : ℕ} {f : β → α} {s t : Multiset β} (h : IsTopK K f s t) :
    t.map f = ((s.map f).sort (· ≥ ·)).take K := by
  obtain ⟨rest, hs, hcard, hdom⟩ := h
  have hsorted : ((t.map f).sort (· ≥ ·) ++ (rest.map f).sort (· ≥ ·)).Pairwise (· ≥ ·) := by
    refine List.pairwise_append.mpr ⟨pairwise_sort _ _, pairwise_sort _ _, ?_⟩
    intro a ha b hb
    obtain ⟨x, hx, rfl⟩ := Multiset.mem_map.mp ((mem_sort _).mp ha)
    obtain ⟨y, hy, rfl⟩ := Multiset.mem_map.mp ((mem_sort _).mp hb)
    exact hdom x hx y hy
  have hperm : ((t.map f).sort (· ≥ ·) ++ (rest.map f).sort (· ≥ ·)).Perm
      ((s.map f).sort (· ≥ ·)) := by
    rw [← Multiset.coe_eq_coe, ← Multiset.coe_add, sort_eq, sort_eq, sort_eq, hs, Multiset.map_add]
  rw [← hperm.eq_of_pairwise' hsorted (pairwise_sort _ _)]
  have hlen : ((t.map f).sort (· ≥ ·)).length = card t := by simp
  have hlen' : ((rest.map f).sort (· ≥ ·)).length = card rest := by simp
  have hadd : card s = card t + card rest := by rw [hs, Multiset.card_add]
  rcases Nat.lt_or_ge (card s) K with hlt | hge
  · rw [List.take_of_length_le (by rw [List.length_append, hlen, hlen']; omega)]
    have hzero : rest = 0 := Multiset.card_eq_zero.mp (by omega)
    simp [hzero]
  · rw [List.take_append_of_le_length (by omega), List.take_of_length_le (by omega), sort_eq]

end SparkKit.Lib.TopK
