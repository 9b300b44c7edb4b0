import Mathlib.Algebra.BigOperators.Group.List.Basic
import Mathlib.Algebra.Order.BigOperators.Group.List
import Mathlib.Algebra.Ring.Int.Defs
import Mathlib.Data.Int.Order.Basic
import Mathlib.Tactic.Common

/-!
# Batches outstanding across epochs

An owner sends batches which are answered in the order sent. When its epoch advances, the
batches outstanding become stale. Two counters are enough to tell, at each answer, whether
the batch is stale: the total outstanding, and the stale share, which an advance sets to the
total and each answer of a stale batch drains.
-/
namespace SparkKit.Lib.Outstanding

/-- A batch sent and not answered yet: its size, and the epoch it was sent in. -/
structure Batch where
  size : ℤ
  epoch : ℕ

def total (batches : List Batch) : ℤ := (batches.map Batch.size).sum

/-- The share sent before the epoch. -/
def stale (epoch : ℕ) (batches : List Batch) : ℤ :=
  total (batches.filter fun batch => batch.epoch < epoch)

/-- The counters of an owner are those of its outstanding batches, oldest first. -/
structure Books (epoch : ℕ) (batches : List Batch) (inFlight staleShare : ℤ) : Prop where
  all : inFlight = total batches
  share : staleShare = stale epoch batches
  sorted : batches.Pairwise fun x y => x.epoch ≤ y.epoch
  bound : ∀ batch ∈ batches, batch.epoch ≤ epoch

theorem total_cons (batch : Batch) (batches : List Batch) :
    total (batch :: batches) = batch.size + total batches := by
  rw [total, List.map_cons, List.sum_cons, total]

theorem total_concat (batches : List Batch) (batch : Batch) :
    total (batches ++ [batch]) = total batches + batch.size := by
  rw [total, List.map_append, List.sum_append, List.map_singleton, List.sum_singleton, total]

theorem stale_nonneg {batches : List Batch} (hpos : ∀ batch ∈ batches, 0 < batch.size) (epoch : ℕ) :
    0 ≤ stale epoch batches := by
  apply List.sum_nonneg
  intro n hn
  obtain ⟨batch, hbatch, rfl⟩ := List.mem_map.mp hn
  exact le_of_lt (hpos batch (List.mem_of_mem_filter hbatch))

/-- When no batch is older than the epoch, nothing is stale. -/
theorem stale_of_current {batches : List Batch} {epoch : ℕ}
    (h : ∀ batch ∈ batches, epoch ≤ batch.epoch) : stale epoch batches = 0 := by
  have hnone : batches.filter (fun batch => batch.epoch < epoch) = [] := by
    rw [List.filter_eq_nil_iff]
    intro batch hbatch hold
    exact absurd (of_decide_eq_true hold) (Nat.not_lt.mpr (h batch hbatch))
  rw [stale, hnone]
  rfl

/-- When every batch is older than the epoch, all is stale. -/
theorem stale_of_older {batches : List Batch} {epoch : ℕ}
    (h : ∀ batch ∈ batches, batch.epoch < epoch) : stale epoch batches = total batches := by
  have hall : batches.filter (fun batch => batch.epoch < epoch) = batches :=
    List.filter_eq_self.mpr fun batch hbatch => decide_eq_true (h batch hbatch)
  rw [stale, hall]

theorem stale_cons_older {batch : Batch} {batches : List Batch} {epoch : ℕ}
    (h : batch.epoch < epoch) : stale epoch (batch :: batches) = batch.size + stale epoch batches := by
  have hold : decide (batch.epoch < epoch) = true := decide_eq_true h
  rw [stale, List.filter_cons, if_pos hold, total_cons, stale]

theorem books_nil (epoch : ℕ) : Books epoch [] 0 0 := ⟨rfl, rfl, .nil, nofun⟩

section
variable {epoch : ℕ} {batches : List Batch} {inFlight staleShare : ℤ}

/-- A batch sent in the current epoch is not stale. -/
theorem Books.send (h : Books epoch batches inFlight staleShare) (n : ℤ) :
    Books epoch (batches ++ [⟨n, epoch⟩]) (inFlight + n) staleShare := by
  refine ⟨?_, ?_, ?_, ?_⟩
  · rw [total_concat, h.all]
  · rw [h.share, stale, stale, List.filter_append]
    simp
  · rw [List.pairwise_append]
    refine ⟨h.sorted, List.pairwise_singleton _ _, fun x hx y hy => ?_⟩
    rw [List.mem_singleton.mp hy]
    exact h.bound x hx
  · intro batch hbatch
    rcases List.mem_append.mp hbatch with hbatch | hbatch
    · exact h.bound batch hbatch
    · rw [List.mem_singleton.mp hbatch]

/-- A later epoch makes everything outstanding stale. -/
theorem Books.advance (h : Books epoch batches inFlight staleShare) {later : ℕ}
    (hlater : epoch < later) : Books later batches inFlight inFlight := by
  have hold : ∀ batch ∈ batches, batch.epoch < later := fun batch hbatch =>
    (h.bound batch hbatch).trans_lt hlater
  refine ⟨h.all, ?_, h.sorted, fun batch hbatch => le_of_lt (hold batch hbatch)⟩
  rw [stale_of_older hold]
  exact h.all

/-- The oldest batch is stale, and then its size is part of the stale share, or nothing is. -/
theorem Books.oldest {batch : Batch} (h : Books epoch (batch :: batches) inFlight staleShare) :
    (batch.epoch < epoch ∧ staleShare = batch.size + stale epoch batches) ∨
      (batch.epoch = epoch ∧ staleShare = 0 ∧ stale epoch batches = 0) := by
  rcases Nat.lt_or_ge batch.epoch epoch with hold | hnew
  · left
    exact ⟨hold, by rw [h.share, stale_cons_older hold]⟩
  · right
    have hfirst := (List.pairwise_cons.mp h.sorted).1
    have hcurrent : ∀ x ∈ batch :: batches, epoch ≤ x.epoch := by
      intro x hx
      rcases List.mem_cons.mp hx with rfl | hx
      · exact hnew
      · exact hnew.trans (hfirst x hx)
    refine ⟨Nat.le_antisymm (h.bound batch List.mem_cons_self) hnew, ?_, ?_⟩
    · rw [h.share, stale_of_current hcurrent]
    · exact stale_of_current fun x hx => hcurrent x (List.mem_cons_of_mem batch hx)

/-- The stale share tells whether the oldest batch is stale, and covers it. -/
theorem Books.stale_iff {batch : Batch} (h : Books epoch (batch :: batches) inFlight staleShare)
    (hpos : ∀ x ∈ batch :: batches, 0 < x.size) :
    (0 < staleShare ↔ batch.epoch < epoch) ∧ (0 < staleShare → batch.size ≤ staleShare) := by
  have hsize := hpos batch List.mem_cons_self
  have hrest := stale_nonneg (fun x hx => hpos x (List.mem_cons_of_mem batch hx)) epoch
  rcases h.oldest with ⟨hold, hshare⟩ | ⟨hnew, hshare, -⟩
  · exact ⟨⟨fun _ => hold, fun _ => by omega⟩, fun _ => by omega⟩
  · exact ⟨⟨fun hs => by omega, fun hlt => by omega⟩, fun hs => by omega⟩

/-- An answer takes the oldest batch off the total, and off the stale share if there is one. -/
theorem Books.answer {batch : Batch} (h : Books epoch (batch :: batches) inFlight staleShare)
    (hpos : ∀ x ∈ batch :: batches, 0 < x.size) :
    Books epoch batches (inFlight - batch.size)
      (if staleShare > 0 then staleShare - batch.size else staleShare) := by
  refine ⟨?_, ?_, (List.pairwise_cons.mp h.sorted).2,
    fun x hx => h.bound x (List.mem_cons_of_mem batch hx)⟩
  · rw [h.all, total_cons]
    omega
  · obtain ⟨hiff, -⟩ := h.stale_iff hpos
    rcases h.oldest with ⟨hold, hshare⟩ | ⟨hnew, hshare, hrest⟩
    · rw [if_pos (hiff.mpr hold), hshare]
      omega
    · rw [if_neg (by omega), hshare, hrest]

end

end SparkKit.Lib.Outstanding
