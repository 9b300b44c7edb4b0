import Mathlib.Algebra.Ring.Nat
import Mathlib.Data.List.Range
import Mathlib.Tactic.Common

/-!
# Rows laid end to end

A list of lengths cuts the numbers below their sum into segments. An index of the whole is
an index of one segment, and looking it up in the rows joined together looks it up there.
-/
namespace SparkKit.Lib.Segments

/-- Where segment `i` starts. -/
def start (lens : List ℕ) (i : ℕ) : ℕ := (lens.take i).sum

theorem start_succ {lens : List ℕ} {i : ℕ} (h : i < lens.length) :
    start lens (i + 1) = start lens i + lens[i] := by
  rw [start, start, List.take_add_one, List.getElem?_eq_getElem h, List.sum_append]
  simp

theorem start_cons_succ (len : ℕ) (lens : List ℕ) (i : ℕ) :
    start (len :: lens) (i + 1) = len + start lens i := by
  rw [start, List.take_succ_cons, List.sum_cons, start]

theorem start_le_sum (lens : List ℕ) (i : ℕ) : start lens i ≤ lens.sum := by
  have hsum := congrArg List.sum (List.take_append_drop i lens)
  rw [List.sum_append] at hsum
  rw [start]
  omega

theorem start_add_le (lens : List ℕ) {i j : ℕ} (h : i < lens.length) (hj : j ≤ lens[i]) :
    start lens i + j ≤ lens.sum := by
  have hnext := start_le_sum lens (i + 1)
  rw [start_succ h] at hnext
  omega

theorem start_mono (lens : List ℕ) {i i' : ℕ} (h : i ≤ i') : start lens i ≤ start lens i' := by
  have hle := start_le_sum (lens.take i') i
  rwa [start, List.take_take, Nat.min_eq_left h] at hle

/-- An index below the sum falls into a segment. -/
theorem exists_segment (lens : List ℕ) {t : ℕ} (h : t < lens.sum) :
    ∃ i, ∃ hi : i < lens.length, ∃ j < lens[i], t = start lens i + j := by
  induction lens generalizing t with
  | nil => simp at h
  | cons len lens ih =>
    by_cases hlt : t < len
    · exact ⟨0, by simp, t, hlt, by simp [start]⟩
    · obtain ⟨i, hi, j, hj, ht⟩ := @ih (t - len) (by rw [List.sum_cons] at h; omega)
      refine ⟨i + 1, by simpa using hi, j, hj, ?_⟩
      rw [start_cons_succ]
      omega

/-- It falls into one segment only. -/
theorem segment_unique {lens : List ℕ} {i i' j j' : ℕ} (hi : i < lens.length)
    (hi' : i' < lens.length) (hj : j < lens[i]) (hj' : j' < lens[i'])
    (h : start lens i + j = start lens i' + j') : i = i' ∧ j = j' := by
  have hle : ∀ {a b c d : ℕ} (ha : a < lens.length), c < lens[a] →
      start lens a + c = start lens b + d → b ≤ a := by
    intro a b c d ha hc he
    by_contra hlt
    have hnext := start_mono lens (Nat.succ_le_of_lt (Nat.lt_of_not_le hlt))
    rw [Nat.succ_eq_add_one, start_succ ha] at hnext
    omega
  have heq : i = i' := Nat.le_antisymm (hle hi' hj' h.symm) (hle hi hj h)
  subst heq
  exact ⟨rfl, by omega⟩

theorem getElem?_flatten_segment {α : Type*} {rows : List (List α)} {i j : ℕ} {row : List α}
    (hrow : rows[i]? = some row) (hj : j < row.length) :
    rows.flatten[start (rows.map List.length) i + j]? = row[j]? := by
  induction rows generalizing i with
  | nil => simp at hrow
  | cons first rows ih =>
    cases i with
    | zero =>
      obtain rfl : first = row := by simpa using hrow
      rw [List.flatten_cons, start, List.take_zero, List.sum_nil, Nat.zero_add,
        List.getElem?_append_left hj]
    | succ i =>
      rw [List.flatten_cons, List.map_cons, start_cons_succ, Nat.add_assoc,
        List.getElem?_append_right (by omega), Nat.add_sub_cancel_left]
      exact ih (by simpa using hrow)

/-! ## Segments of one value each -/

/-- `f i` repeated over segment `i`. -/
def repeatInterleave {α : Type*} (f : ℕ → α) (lens : List ℕ) : List α :=
  (lens.mapIdx fun i len => List.replicate len (f i)).flatten

theorem map_length_replicates {α : Type*} (f : ℕ → α) (lens : List ℕ) :
    (lens.mapIdx fun i len => List.replicate len (f i)).map List.length = lens := by
  refine List.ext_getElem? fun i => ?_
  rw [List.getElem?_map, List.getElem?_mapIdx]
  cases lens[i]? <;> simp

@[simp] theorem length_repeatInterleave {α : Type*} (f : ℕ → α) (lens : List ℕ) :
    (repeatInterleave f lens).length = lens.sum := by
  rw [repeatInterleave, List.length_flatten, map_length_replicates]

theorem getElem?_repeatInterleave {α : Type*} (f : ℕ → α) {lens : List ℕ} {i j : ℕ}
    (hi : i < lens.length) (hj : j < lens[i]) :
    (repeatInterleave f lens)[start lens i + j]? = some (f i) := by
  have hrow : (lens.mapIdx fun i len => List.replicate len (f i))[i]? =
      some (List.replicate lens[i] (f i)) := by
    rw [List.getElem?_mapIdx, List.getElem?_eq_getElem hi]
    rfl
  have hlookup := getElem?_flatten_segment hrow (by simpa using hj)
  rw [map_length_replicates] at hlookup
  rw [repeatInterleave, hlookup, List.getElem?_replicate, if_pos hj]

theorem start_uniform {lens : List ℕ} {len i : ℕ} (h : ∀ x ∈ lens, x = len)
    (hi : i ≤ lens.length) : start lens i = i * len := by
  obtain ⟨count, rfl⟩ : ∃ count, lens = List.replicate count len := ⟨_, List.eq_replicate_of_mem h⟩
  rw [start, List.take_replicate, Nat.min_eq_left (by simpa using hi)]
  simp

/-- The windows of width `q` tile the numbers below `m`. -/
theorem windows_tile (m q count : ℕ) :
    (List.range' 0 count q).flatMap (fun offset => List.range' offset (min q (m - offset))) =
      List.range' 0 (min (count * q) m) := by
  induction count with
  | zero => simp
  | succ count ih =>
    rw [List.range'_concat, List.flatMap_append, ih, Nat.succ_mul]
    simp only [List.flatMap_cons, List.flatMap_nil, List.append_nil, Nat.zero_add]
    rw [Nat.mul_comm q count]
    rcases Nat.le_total (count * q) m with hle | hge
    · rw [Nat.min_eq_left hle]
      have happend := List.range'_append_1 (s := 0) (m := count * q) (n := min q (m - count * q))
      rw [Nat.zero_add] at happend
      rw [happend]
      congr 1
      omega
    · have hnone : m - count * q = 0 := by omega
      rw [hnone, Nat.min_zero, List.range'_zero, List.append_nil]
      congr 1
      omega

end SparkKit.Lib.Segments
