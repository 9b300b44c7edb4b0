import Mathlib.Algebra.BigOperators.Group.List.Basic
import Mathlib.Algebra.Ring.Int.Defs
import Mathlib.Algebra.Ring.Nat
import Mathlib.Data.List.GetD
import Mathlib.Tactic.Common

/-!
# Lists of counters

Counters that are raised place by place, and what they count when every item of a list raises
by one the places it hits.
-/
namespace SparkKit.Lib.Counters

section
variable {α : Type*} [AddMonoid α]

/-- Every counter raised by an amount of its own. -/
def raise (xs : List α) (amount : ℕ → α) : List α := xs.mapIdx fun i x => x + amount i

@[simp] theorem length_raise (xs : List α) (amount : ℕ → α) :
    (raise xs amount).length = xs.length := List.length_mapIdx ..

theorem raise_congr {xs : List α} {amount amount' : ℕ → α}
    (h : ∀ i < xs.length, amount i = amount' i) : raise xs amount = raise xs amount' := by
  refine List.ext_getElem (by simp only [length_raise]) fun i hi hi' => ?_
  rw [length_raise] at hi
  simp only [raise, List.getElem_mapIdx, h i hi]

theorem raise_of_zero {xs : List α} {amount : ℕ → α} (h : ∀ i, amount i = 0) :
    raise xs amount = xs := by
  refine List.ext_getElem (length_raise ..) fun i hi hi' => ?_
  simp only [raise, List.getElem_mapIdx, h, add_zero]

theorem raise_zero (xs : List α) : raise xs (fun _ => 0) = xs := raise_of_zero fun _ => rfl

theorem raise_raise (xs : List α) (amount amount' : ℕ → α) :
    raise (raise xs amount) amount' = raise xs fun i => amount i + amount' i := by
  refine List.ext_getElem (by simp only [length_raise]) fun i hi hi' => ?_
  simp only [raise, List.getElem_mapIdx, add_assoc]

theorem modify_eq_raise (xs : List α) (i : ℕ) (x : α) :
    xs.modify i (· + x) = raise xs fun j => if i = j then x else 0 := by
  refine List.ext_getElem (by simp only [length_raise, List.length_modify]) fun j hj hj' => ?_
  simp only [raise, List.getElem_mapIdx, List.getElem_modify]
  split
  · rfl
  · rw [add_zero]

theorem ite_modify_eq_raise (p : Prop) [Decidable p] (xs : List α) (i : ℕ) (x : α) :
    (if p then xs.modify i (· + x) else xs) = raise xs fun j => if i = j ∧ p then x else 0 := by
  split
  · next hp =>
    rw [modify_eq_raise]
    exact raise_congr fun j _ => if_congr (and_iff_left hp).symm rfl rfl
  · next hp => exact (raise_of_zero fun j => if_neg fun h => hp h.2).symm

theorem getD_raise {xs : List α} {i : ℕ} (hi : i < xs.length) (amount : ℕ → α) :
    (raise xs amount).getD i 0 = xs.getD i 0 + amount i := by
  rw [List.getD_eq_getElem _ _ (by rwa [length_raise]), List.getD_eq_getElem _ _ hi]
  simp only [raise, List.getElem_mapIdx]

theorem raise_replicate (n : ℕ) (amount : ℕ → α) :
    raise (List.replicate n 0) amount = (List.range n).map amount := by
  refine List.ext_getElem (by simp only [length_raise, List.length_replicate, List.length_map,
    List.length_range]) fun i hi hi' => ?_
  simp only [raise, List.getElem_mapIdx, List.getElem_replicate, zero_add, List.getElem_map,
    List.getElem_range]

end

section
variable {ι : Type*}

/-- One more item raises the counters it hits by one. -/
theorem raise_countP_cons (hit : ι → ℕ → Prop) [∀ item i, Decidable (hit item i)] (item : ι)
    (items : List ι) (xs : List ℤ) :
    raise (raise xs fun i => if hit item i then 1 else 0)
        (fun i => (items.countP fun item => hit item i : ℕ)) =
      raise xs fun i => ((item :: items).countP fun item => hit item i : ℕ) := by
  rw [raise_raise]
  refine raise_congr fun i _ => ?_
  rw [List.countP_cons, Nat.cast_add, Int.add_comm]
  simp only [decide_eq_true_eq, Nat.cast_ite, Nat.cast_one, Nat.cast_zero]

theorem sum_levels (k n : ℕ) :
    ((List.range n).map fun i => if i < k then 1 else 0).sum = min k n := by
  induction n with
  | zero => exact (Nat.min_zero k).symm
  | succ n ih =>
    rw [List.sum_range_succ, ih]
    split <;> omega

/-- How many items are above each level, added over all levels, is the sum of the items. -/
theorem sum_countP_lt (f : ι → ℕ) {items : List ι} {n : ℕ} (h : ∀ item ∈ items, f item ≤ n) :
    ((List.range n).map fun i => items.countP fun item => i < f item).sum = (items.map f).sum := by
  induction items with
  | nil =>
    refine List.sum_eq_zero fun x hx => ?_
    obtain ⟨i, -, rfl⟩ := List.mem_map.mp hx
    rfl
  | cons item items ih =>
    have hitem := sum_levels (f item) n
    rw [Nat.min_eq_left (h item List.mem_cons_self)] at hitem
    rw [List.map_cons, List.sum_cons, ← hitem,
      ← ih fun item' hitem' => h item' (List.mem_cons_of_mem item hitem'), ← List.sum_map_add]
    refine congrArg List.sum (List.map_congr_left fun i _ => ?_)
    rw [List.countP_cons, Nat.add_comm]
    simp only [decide_eq_true_eq]

end

end SparkKit.Lib.Counters
