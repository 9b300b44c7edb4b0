import SparkKit.Lib.Checked
import SparkKit.Lib.Minifloat
import Mathlib.Algebra.Order.BigOperators.Group.List
import Mathlib.Data.List.GetD
import Mathlib.Data.List.Sort
import Mathlib.Order.Bounds.Defs
import Mathlib.Algebra.Ring.Nat
import Mathlib.Algebra.BigOperators.Group.List.Basic

/-!
# The hot/cold split plan

`split_layer` orders the experts of a layer by routed hits and takes a prefix as the hot set:
at least `min_hot` long, long enough for the coverage target, and at most `max_hot`. The
quotient of hits is a Python float, so it is the exact quotient rounded to binary64.
-/
namespace SparkKit.Tailquant.Split

open SparkKit.Lib.Checked SparkKit.Lib.Minifloat

def float64 : Format where
  mantissaBits := 52
  binades := 2046
  unit := 1 / 2 ^ 1074
  unit_pos := one_div_pos.mpr (pow_pos two_pos 1074)

/-- `a / b` of two integers, correctly rounded. -/
def trueDiv (a b : ℕ) : ℚ := float64.value (float64.encode (a / b))

variable (counts : List ℕ) (target : ℚ) (minHot maxHot : ℕ)

/-- `counts[i]` -/
def hits (i : ℕ) : ℕ := counts.getD i 0

/-- The sort key `(-counts[i], i)` of `i` is not behind that of `j`. -/
def Ahead (i j : ℕ) : Prop := hits counts j < hits counts i ∨ (hits counts i = hits counts j ∧ i ≤ j)

instance : DecidableRel (Ahead counts) := fun _ _ => inferInstanceAs (Decidable (_ ∨ _))

def order : List ℕ := (List.range counts.length).insertionSort (Ahead counts)

/-- The loop that fills `hot` until the floor and the target are both met. -/
def grow (total : ℕ) : List ℕ → List ℕ → ℕ → List ℕ
  | [], hot, _ => hot
  | i :: rest, hot, cum =>
      let hot := hot ++ [i]
      let cum := cum + hits counts i
      if minHot ≤ hot.length ∧ target ≤ trueDiv cum total then hot else grow total rest hot cum

/-- The second loop, for a `hot` still below the floor. -/
def extend (minHot : ℕ) : List ℕ → List ℕ → List ℕ
  | [], hot => hot
  | i :: rest, hot =>
      let hot := hot ++ [i]
      if minHot ≤ hot.length then hot else extend minHot rest hot

/-- `hot` before it is cut and sorted. -/
def candidates : List ℕ :=
  let total := counts.sum
  if total = 0 then List.range minHot
  else
    let hot := grow counts target minHot total (order counts) [] 0
    if hot.length < minHot then extend minHot ((order counts).drop hot.length) hot else hot

def hotIds : List ℕ := ((candidates counts target minHot).take maxHot).insertionSort (· ≤ ·)

def coldIds (hot : List ℕ) : List ℕ := (List.range counts.length).filter fun i => i ∉ hot

/-- `split_layer`: the hot ids, the cold ids and the coverage; reading the count of a hot id
past the end of the histogram raises. -/
def splitLayer : Option (List ℕ × List ℕ × ℚ) := do
  let hot := hotIds counts target minHot maxHot
  let covered ← hot.mapM fun i => counts[i]?
  return (hot, coldIds counts hot, trueDiv covered.sum (max counts.sum 1))

/-! ## What the split should be -/

/-- The experts that were routed to, by descending frequency and then by id. -/
def routed : List ℕ := (order counts).filter fun i => 0 < hits counts i

/-- A list of experts reaches the coverage target, which is met by none when nothing was
routed. -/
def Covers (hot : List ℕ) : Prop :=
  counts.sum = 0 ∨ target ≤ trueDiv (hot.map (hits counts)).sum counts.sum

/-- The split of the module's docstring. The hot experts are compared as a set: the tool stores
their ids in ascending order, not by frequency (`splitLayer_ascending`). -/
structure IsSplit (hot cold : List ℕ) : Prop where
  partition : (hot ++ cold).Perm (List.range counts.length)
  coldRegardless : ∀ i ∈ hot, 0 < hits counts i
  ranked : ∀ i ∈ hot, ∀ j ∈ cold, Ahead counts i j
  shortest : ∃ reach, IsLeast {n | Covers counts target ((routed counts).take n)} reach ∧
    hot.Perm ((routed counts).take (min maxHot (max reach minHot)))

/-! ## The rounded quotient -/

section
variable {a a' b : ℕ}

theorem ulp_add (e : ℕ) : 2 ^ 52 * float64.ulp (1022 + e) = 2 ^ e := by
  have hunit : (2 : ℚ) ^ 52 * (1 / 2 ^ 1074 * 2 ^ 1022) = 1 := by
    rw [show (2 : ℚ) ^ 1074 = 2 ^ 52 * 2 ^ 1022 from pow_add 2 52 1022]
    field_simp
  calc 2 ^ 52 * float64.ulp (1022 + e) = 2 ^ 52 * (1 / 2 ^ 1074 * 2 ^ 1022) * 2 ^ e := by
        rw [Format.ulp, pow_add, ← mul_assoc, ← mul_assoc, mul_assoc (2 ^ 52 : ℚ)]
        rfl
    _ = 2 ^ e := by rw [hunit, one_mul]

theorem one_lt_top : (1 : ℚ) < float64.top := by
  have htop : float64.top = 2 ^ 1024 := ulp_add 1024
  rw [htop]
  exact one_lt_pow₀ one_lt_two (by decide)

theorem div_lt_top (h : a ≤ b) : (a / b : ℚ) < float64.top := by
  refine lt_of_le_of_lt (div_le_one_of_le₀ ?_ (Nat.cast_nonneg b)) one_lt_top
  exact_mod_cast h

theorem trueDiv_mono (h : a ≤ a') (h' : a' ≤ b) : trueDiv a b ≤ trueDiv a' b := by
  refine Format.value_encode_mono (by positivity) ?_ (div_lt_top h')
  exact div_le_div_of_nonneg_right (by exact_mod_cast h) (Nat.cast_nonneg b)

theorem trueDiv_zero (b : ℕ) : trueDiv 0 b = 0 := by
  rw [trueDiv, Nat.cast_zero, zero_div, Format.value_encode (le_refl 0) (lt_trans one_pos one_lt_top),
    zero_div, ← Nat.cast_zero, roundHalfEven_natCast, Nat.cast_zero, zero_mul]

theorem trueDiv_self (h : 0 < b) : trueDiv b b = 1 := by
  have hb : (b : ℚ) ≠ 0 := by exact_mod_cast h.ne'
  have hone : ((2 ^ 52 : ℕ) : ℚ) * float64.ulp 1022 = 1 := by
    rw [Nat.cast_pow, Nat.cast_ofNat]
    exact ulp_add 0
  have hexact := Format.value_encode_normal (f := float64) (e := 1022) (k := 2 ^ 52)
    (by norm_num [float64]) (by norm_num [float64]) (by norm_num [float64])
  rw [hone] at hexact
  rw [trueDiv, div_self hb, hexact]

end

/-! ## The order of the experts -/

section
variable {counts} {n : ℕ}

instance : Std.Total (Ahead counts) where
  total i j := by
    unfold Ahead
    omega

instance : IsTrans ℕ (Ahead counts) where
  trans i j k hij hjk := by
    unfold Ahead at *
    omega

theorem order_perm (counts : List ℕ) : (order counts).Perm (List.range counts.length) :=
  List.perm_insertionSort _ _

theorem order_pairwise (counts : List ℕ) : (order counts).Pairwise (Ahead counts) :=
  List.pairwise_insertionSort _ _

theorem length_order (counts : List ℕ) : (order counts).length = counts.length := by
  rw [(order_perm counts).length_eq, List.length_range]

theorem order_nodup (counts : List ℕ) : (order counts).Nodup :=
  (order_perm counts).nodup_iff.mpr List.nodup_range

theorem map_hits_range (counts : List ℕ) : (List.range counts.length).map (hits counts) = counts := by
  refine List.ext_getElem (by rw [List.length_map, List.length_range]) fun i hi hi' => ?_
  rw [List.getElem_map, List.getElem_range, hits, List.getD_eq_getElem _ _ hi']

theorem sum_hits_order (counts : List ℕ) : ((order counts).map (hits counts)).sum = counts.sum := by
  rw [((order_perm counts).map (hits counts)).sum_eq, map_hits_range]

/-- Where what passes the test comes first, the list is cut in two by it. -/
theorem filter_append_filter_not {α : Type*} {p : α → Bool} {xs : List α}
    (h : xs.Pairwise fun x y => p y = true → p x = true) :
    xs = xs.filter p ++ xs.filter fun x => !p x := by
  induction xs with
  | nil => rfl
  | cons x xs ih =>
    obtain ⟨hx, hxs⟩ := List.pairwise_cons.mp h
    cases hp : p x with
    | true =>
      rw [List.filter_cons_of_pos hp, List.filter_cons_of_neg (by rw [hp]; decide), List.cons_append,
        ← ih hxs]
    | false =>
      have hnone : xs.filter p = [] :=
        List.filter_eq_nil_iff.mpr fun y hy hpy => by rw [hx y hy hpy] at hp; cases hp
      have hall : (xs.filter fun x => !p x) = xs :=
        List.filter_eq_self.mpr fun y hy => by
          have hfalse := List.filter_eq_nil_iff.mp hnone y hy
          rw [Bool.not_eq_true] at hfalse
          rw [hfalse]
          rfl
      rw [List.filter_cons_of_neg (by rw [hp]; decide), hnone, List.nil_append,
        List.filter_cons_of_pos (by rw [hp]; rfl), hall]

/-- The order is the routed experts and then those that never were. -/
theorem order_eq (counts : List ℕ) : ∃ idle, order counts = routed counts ++ idle ∧
    ∀ i ∈ idle, hits counts i = 0 := by
  refine ⟨(order counts).filter fun i => !decide (0 < hits counts i), ?_, fun i hi => ?_⟩
  · refine filter_append_filter_not ((order_pairwise counts).imp fun {i j} hij hj => ?_)
    have hj := of_decide_eq_true hj
    unfold Ahead at hij
    exact decide_eq_true (by omega)
  · have hi := (List.mem_filter.mp hi).2
    rw [Bool.not_eq_true', decide_eq_false_iff_not] at hi
    omega

theorem mem_routed {i : ℕ} : i ∈ routed counts ↔ i < counts.length ∧ 0 < hits counts i := by
  rw [routed, List.mem_filter, (order_perm counts).mem_iff, List.mem_range, decide_eq_true_iff]

theorem length_routed_le (counts : List ℕ) : (routed counts).length ≤ counts.length := by
  rw [← length_order counts]
  exact List.length_filter_le _ _

theorem take_order (hn : n ≤ (routed counts).length) :
    (order counts).take n = (routed counts).take n := by
  obtain ⟨idle, horder, -⟩ := order_eq counts
  rw [horder, List.take_append_of_le_length hn]

/-- Experts without hits add nothing to a prefix. -/
theorem sum_take_order (counts : List ℕ) (n : ℕ) :
    (((order counts).take n).map (hits counts)).sum =
      (((routed counts).take n).map (hits counts)).sum := by
  obtain ⟨idle, horder, hidle⟩ := order_eq counts
  have hzero : ((idle.take (n - (routed counts).length)).map (hits counts)).sum = 0 := by
    refine List.sum_eq_zero fun x hx => ?_
    obtain ⟨i, hi, rfl⟩ := List.mem_map.mp hx
    exact hidle i (List.mem_of_mem_take hi)
  rw [horder, List.take_append, List.map_append, List.sum_append, hzero, Nat.add_zero]

theorem sum_take_le (counts : List ℕ) (n : ℕ) :
    (((order counts).take n).map (hits counts)).sum ≤ counts.sum := by
  rw [← sum_hits_order counts]
  exact List.Sublist.sum_le_sum ((List.take_sublist n _).map _) fun _ _ => Nat.zero_le _

theorem sum_take_mono {m : ℕ} (h : m ≤ n) : (((order counts).take m).map (hits counts)).sum ≤
    (((order counts).take n).map (hits counts)).sum :=
  List.Sublist.sum_le_sum ((List.take_sublist_take_left h).map _) fun _ _ => Nat.zero_le _

theorem sum_routed (counts : List ℕ) : ((routed counts).map (hits counts)).sum = counts.sum := by
  have h := sum_take_order counts (order counts).length
  rw [List.take_length, sum_hits_order] at h
  rw [h, List.take_of_length_le]
  exact List.length_filter_le _ _

end

/-! ## How far the loops go -/

section
variable {counts target minHot maxHot}

/-- Both conditions of the first loop, for the prefix of `n` experts. -/
def Stops (counts : List ℕ) (target : ℚ) (minHot n : ℕ) : Prop :=
  minHot ≤ n ∧ target ≤ trueDiv (((order counts).take n).map (hits counts)).sum counts.sum

theorem take_of_append_cons {α : Type*} {xs rest : List α} {x : α} {n : ℕ}
    (h : xs = xs.take n ++ x :: rest) :
    n < xs.length ∧ xs.take n ++ [x] = xs.take (n + 1) := by
  have hlt : n < xs.length := by
    have hlen := congrArg List.length h
    rw [List.length_append, List.length_take, List.length_cons] at hlen
    omega
  have hdrop : xs.drop n = x :: rest :=
    List.append_cancel_left ((List.take_append_drop n xs).trans h)
  rw [List.drop_eq_getElem_cons hlt] at hdrop
  exact ⟨hlt, by rw [← (List.cons.inj hdrop).1, List.take_append_getElem]⟩

/-- The loop takes experts in order and ends at the first prefix that stops it, or at the end. -/
theorem grow_eq (counts : List ℕ) (target : ℚ) (minHot n : ℕ) {rest : List ℕ}
    (hrest : order counts = (order counts).take n ++ rest) (hn : n ≤ counts.length) :
    ∃ k, n ≤ k ∧ k ≤ counts.length ∧
      grow counts target minHot counts.sum rest ((order counts).take n)
        (((order counts).take n).map (hits counts)).sum = (order counts).take k ∧
      (k = counts.length ∨ Stops counts target minHot k) ∧
      ∀ j, n < j → j < k → ¬ Stops counts target minHot j := by
  induction rest generalizing n with
  | nil =>
    have hlen : (order counts).length = ((order counts).take n).length := by
      conv_lhs => rw [hrest, List.append_nil]
    rw [List.length_take, length_order] at hlen
    exact ⟨n, le_refl n, hn, rfl, .inl (by omega), fun j hj hj' => by omega⟩
  | cons i rest ih =>
    obtain ⟨hlt, hsucc⟩ := take_of_append_cons hrest
    rw [length_order] at hlt
    have hcum : (((order counts).take n).map (hits counts)).sum + hits counts i =
        (((order counts).take (n + 1)).map (hits counts)).sum := by
      rw [← hsucc, List.map_append, List.sum_append, List.map_singleton, List.sum_singleton]
    have hlength : ((order counts).take (n + 1)).length = n + 1 := by
      rw [List.length_take, length_order]
      omega
    simp only [grow, hsucc, hcum, hlength]
    by_cases hstop : Stops counts target minHot (n + 1)
    · exact ⟨n + 1, by omega, hlt, if_pos hstop, .inr hstop, fun j hj hj' => by omega⟩
    · have hnext : order counts = (order counts).take (n + 1) ++ rest := by
        rw [← hsucc, List.append_assoc]
        exact hrest
      obtain ⟨k, hk, hkle, heq, hend, hfirst⟩ := ih (n + 1) hnext hlt
      refine ⟨k, by omega, hkle, (if_neg hstop).trans heq, hend, fun j hj hjk => ?_⟩
      rcases Nat.lt_or_ge (n + 1) j with hgt | hle
      · exact hfirst j hgt hjk
      · obtain rfl : j = n + 1 := by omega
        exact hstop

/-- The length of the shortest covering prefix. -/
theorem exists_reach (htotal : 0 < counts.sum) (hpos : 0 < target) (hone : target ≤ 1) :
    ∃ reach, IsLeast {n | Covers counts target ((routed counts).take n)} reach ∧ 0 < reach ∧
      reach ≤ (routed counts).length ∧
      ∀ n, target ≤ trueDiv (((order counts).take n).map (hits counts)).sum counts.sum ↔ reach ≤ n := by
  have hall : ∃ n, Covers counts target ((routed counts).take n) := by
    refine ⟨(routed counts).length, .inr ?_⟩
    rw [List.take_length, sum_routed, trueDiv_self htotal]
    exact hone
  classical
  have hcovers : ∀ n, Covers counts target ((routed counts).take n) ↔
      target ≤ trueDiv (((order counts).take n).map (hits counts)).sum counts.sum := by
    intro n
    rw [sum_take_order]
    exact or_iff_right htotal.ne'
  refine ⟨Nat.find hall, ⟨Nat.find_spec hall, fun n hn => Nat.find_min' hall hn⟩, ?_, ?_, fun n => ?_⟩
  · refine Nat.pos_of_ne_zero fun hzero => ?_
    have h := (hcovers _).mp (Nat.find_spec hall)
    rw [hzero, List.take_zero, List.map_nil, List.sum_nil, trueDiv_zero] at h
    exact absurd hpos (not_lt.mpr h)
  · refine Nat.find_min' hall (.inr ?_)
    rw [List.take_length, sum_routed, trueDiv_self htotal]
    exact hone
  · constructor
    · intro h
      exact Nat.find_min' hall ((hcovers n).mpr h)
    · intro h
      exact ((hcovers _).mp (Nat.find_spec hall)).trans
        (trueDiv_mono (sum_take_mono h) (sum_take_le counts n))

/-- With some hit in the histogram `hot` is a prefix of the order; the second loop never runs
on, for the first has then gone to the end. -/
theorem candidates_eq {reach : ℕ} (htotal : 0 < counts.sum) (hpos : 0 < reach)
    (hle : reach ≤ (routed counts).length)
    (hreach : ∀ n, target ≤ trueDiv (((order counts).take n).map (hits counts)).sum counts.sum ↔
      reach ≤ n) :
    candidates counts target minHot =
      (order counts).take (max reach (min minHot counts.length)) := by
  have hrouted : (routed counts).length ≤ counts.length := length_routed_le counts
  obtain ⟨k, -, hk, hgrow, hend, hfirst⟩ := grow_eq counts target minHot 0
    (List.nil_append (order counts)).symm (Nat.zero_le _)
  rw [List.take_zero, List.map_nil, List.sum_nil] at hgrow
  have hlength : ((order counts).take k).length = k := by
    rw [List.length_take, length_order]
    omega
  have hstops : ∀ n, Stops counts target minHot n ↔ minHot ≤ n ∧ reach ≤ n := by
    intro n
    rw [Stops, hreach]
  have hklen : k = max reach (min minHot counts.length) := by
    rcases hend with hend | hend
    · have hlast : ∀ j, 0 < j → j < k → ¬ (minHot ≤ j ∧ reach ≤ j) := fun j hj hjk h =>
        hfirst j hj hjk ((hstops j).mpr h)
      by_contra hne
      exact hlast (max reach minHot) (by omega) (by omega) (by omega)
    · have hstop := (hstops k).mp hend
      have hnot : ¬ max reach minHot < k := fun hlt =>
        hfirst _ (by omega) hlt ((hstops _).mpr (by omega))
      omega
  simp only [candidates]
  rw [if_neg htotal.ne', hgrow, hlength, ← hklen]
  split
  · next hlt =>
    have hfull : (order counts).drop k = [] := by
      rw [List.drop_eq_nil_iff, length_order]
      omega
    rw [hfull]
    rfl
  · rfl

end

/-! ## The split -/

section
variable {counts target minHot maxHot} {n : ℕ}

theorem hot_perm (counts : List ℕ) (target : ℚ) (minHot maxHot : ℕ) :
    (hotIds counts target minHot maxHot).Perm
      ((candidates counts target minHot).take maxHot) :=
  List.perm_insertionSort _ _

theorem mem_cold {j : ℕ} : j ∈ coldIds counts (hotIds counts target minHot maxHot) ↔
    j < counts.length ∧ j ∉ hotIds counts target minHot maxHot := by
  rw [coldIds, List.mem_filter, List.mem_range, decide_eq_true_iff]

/-- A hot list that is a prefix of the order splits the ids, the more frequent ones first. -/
theorem isPartition_of_take
    (h : (hotIds counts target minHot maxHot).Perm ((order counts).take n)) :
    (hotIds counts target minHot maxHot ++ coldIds counts (hotIds counts target minHot maxHot)).Perm
      (List.range counts.length) := by
  have hnodup : (hotIds counts target minHot maxHot).Nodup :=
    h.nodup_iff.mpr ((order_nodup counts).sublist (List.take_sublist n _))
  have hmem : ∀ i ∈ hotIds counts target minHot maxHot, i < counts.length := by
    intro i hi
    exact List.mem_range.mp ((order_perm counts).mem_iff.mp (List.mem_of_mem_take (h.mem_iff.mp hi)))
  have hcold : (coldIds counts (hotIds counts target minHot maxHot)).Nodup := List.nodup_range.filter _
  refine (List.perm_ext_iff_of_nodup ?_ List.nodup_range).mpr fun i => ?_
  · exact hnodup.append hcold fun i hi hi' => (mem_cold.mp hi').2 hi
  · rw [List.mem_append, mem_cold, List.mem_range]
    by_cases hi : i ∈ hotIds counts target minHot maxHot
    · exact ⟨fun _ => hmem i hi, fun _ => .inl hi⟩
    · exact ⟨fun h => (h.resolve_left hi).1, fun h => .inr ⟨h, hi⟩⟩

theorem ranked_of_take
    (h : (hotIds counts target minHot maxHot).Perm ((order counts).take n)) :
    ∀ i ∈ hotIds counts target minHot maxHot,
      ∀ j ∈ coldIds counts (hotIds counts target minHot maxHot), Ahead counts i j := by
  intro i hi j hj
  obtain ⟨hjlt, hjhot⟩ := mem_cold.mp hj
  have hsplit := order_pairwise counts
  rw [← List.take_append_drop n (order counts)] at hsplit
  refine (List.pairwise_append.mp hsplit).2.2 i (h.mem_iff.mp hi) j ?_
  have hjorder : j ∈ order counts := (order_perm counts).mem_iff.mpr (List.mem_range.mpr hjlt)
  rw [← List.take_append_drop n (order counts), List.mem_append] at hjorder
  exact hjorder.resolve_left fun hjtake => hjhot (h.mem_iff.mpr hjtake)

theorem length_routed (counts : List ℕ) : (routed counts).length = counts.countP (0 < ·) := by
  rw [routed, ← List.countP_eq_length_filter, (order_perm counts).countP_eq]
  conv_rhs => rw [← map_hits_range counts, List.countP_map]
  rfl

theorem hits_eq_zero (h : counts.sum = 0) (i : ℕ) : hits counts i = 0 := by
  rcases Nat.lt_or_ge i counts.length with hlt | hge
  · rw [hits, List.getD_eq_getElem _ _ hlt]
    exact List.sum_eq_zero_iff.mp h _ (List.getElem_mem hlt)
  · rw [hits, List.getD_eq_default _ _ hge]

/-- The prefix that becomes hot when something was routed. -/
theorem exists_hot_prefix (minHot maxHot : ℕ) (htotal : 0 < counts.sum) (hpos : 0 < target)
    (hone : target ≤ 1) :
    ∃ reach, IsLeast {n | Covers counts target ((routed counts).take n)} reach ∧
      reach ≤ (routed counts).length ∧
      (hotIds counts target minHot maxHot).Perm
        ((order counts).take (min maxHot (max reach (min minHot counts.length)))) := by
  obtain ⟨reach, hleast, hreach, hle, hiff⟩ := exists_reach htotal hpos hone
  refine ⟨reach, hleast, hle, ?_⟩
  rw [← List.take_take, ← candidates_eq htotal hreach hle hiff]
  exact hot_perm counts target minHot maxHot

/-- With fewer routed experts than the floor, and not all of them routed, an expert that never
was becomes hot. -/
theorem exists_idle_hot (hmin : minHot ≤ maxHot) (hpos : 0 < target) (hone : target ≤ 1)
    (hfew : counts.countP (0 < ·) < minHot)
    (hidle : counts.countP (0 < ·) = 0 ∨ counts.countP (0 < ·) < counts.length) :
    ∃ i ∈ hotIds counts target minHot maxHot, hits counts i = 0 := by
  rw [← length_routed] at hfew hidle
  rcases Nat.eq_zero_or_pos counts.sum with hzero | htotal
  · refine ⟨0, (hot_perm ..).mem_iff.mpr ?_, hits_eq_zero hzero 0⟩
    simp only [candidates]
    rw [if_pos hzero, List.take_range, List.mem_range]
    omega
  · obtain ⟨reach, -, -, hhot⟩ := exists_hot_prefix minHot maxHot htotal hpos hone
    have hR : 0 < (routed counts).length := by
      refine Nat.pos_of_ne_zero fun h => htotal.ne' ?_
      rw [← sum_routed, List.length_eq_zero_iff.mp h]
      rfl
    have hlt : (routed counts).length < (order counts).length := by
      rw [length_order]
      omega
    refine ⟨(order counts)[(routed counts).length], hhot.mem_iff.mpr ?_, ?_⟩
    · rw [List.mem_take_iff_getElem]
      rw [length_order] at hlt
      exact ⟨(routed counts).length, by rw [length_order]; omega, rfl⟩
    · obtain ⟨idle, horder, hzero⟩ := order_eq counts
      refine hzero _ ?_
      have hget : (order counts)[(routed counts).length]? = idle[0]? := by
        rw [horder, List.getElem?_append_right (le_refl _), Nat.sub_self]
      rw [List.getElem?_eq_getElem hlt] at hget
      exact List.mem_of_getElem? hget.symm

/-- With nothing routed and no floor, no expert is hot. -/
theorem isSplit_of_no_hits (maxHot : ℕ) (hzero : counts.sum = 0) :
    IsSplit counts target 0 maxHot (hotIds counts target 0 maxHot)
      (coldIds counts (hotIds counts target 0 maxHot)) := by
  have hrouted : routed counts = [] :=
    List.filter_eq_nil_iff.mpr fun i _ hi => by
      rw [hits_eq_zero hzero i] at hi
      exact absurd hi (by decide)
  have hhot : hotIds counts target 0 maxHot = [] := by
    have hperm := hot_perm counts target 0 maxHot
    have hnil : candidates counts target 0 = [] := by
      simp only [candidates]
      rw [if_pos hzero, List.range_zero]
    rw [hnil, List.take_nil] at hperm
    exact hperm.eq_nil
  have hnone : (hotIds counts target 0 maxHot).Perm ((order counts).take 0) := by
    rw [hhot, List.take_zero]
  refine ⟨isPartition_of_take hnone, ?_, ranked_of_take hnone, 0,
    ⟨.inl hzero, fun _ _ => Nat.zero_le _⟩, ?_⟩
  · rw [hhot]
    exact fun i hi => absurd hi List.not_mem_nil
  · rw [hhot, hrouted, List.take_nil]

theorem isSplit_of_enough (maxHot : ℕ) (hpos : 0 < target) (hone : target ≤ 1)
    (h : minHot ≤ counts.countP (0 < ·) ∨
      (0 < counts.countP (0 < ·) ∧ counts.countP (0 < ·) = counts.length)) :
    IsSplit counts target minHot maxHot (hotIds counts target minHot maxHot)
      (coldIds counts (hotIds counts target minHot maxHot)) := by
  rcases Nat.eq_zero_or_pos counts.sum with hzero | htotal
  · have hnone : counts.countP (0 < ·) = 0 :=
      List.countP_eq_zero.mpr fun x hx hpos => by
        rw [List.sum_eq_zero_iff.mp hzero x hx] at hpos
        exact absurd hpos (by decide)
    obtain rfl : minHot = 0 := by omega
    exact isSplit_of_no_hits maxHot hzero
  · rw [← length_routed] at h
    obtain ⟨reach, hleast, hle, hhot⟩ := exists_hot_prefix minHot maxHot htotal hpos hone
    have hwithin : min maxHot (max reach (min minHot counts.length)) ≤ (routed counts).length := by
      omega
    have hroutedLe : (routed counts).length ≤ counts.length := length_routed_le counts
    have hroute := hhot
    rw [take_order hwithin] at hroute
    refine ⟨isPartition_of_take hhot, fun i hi => ?_, ranked_of_take hhot, reach, hleast, ?_⟩
    · exact (mem_routed.mp (List.mem_of_mem_take (hroute.mem_iff.mp hi))).2
    · refine hroute.trans (List.Perm.of_eq ?_)
      rw [List.take_eq_take_iff]
      omega

/-- Where every hot id has a count the call returns. -/
theorem splitLayer_eq (h : ∀ i ∈ hotIds counts target minHot maxHot, i < counts.length) :
    splitLayer counts target minHot maxHot =
      some (hotIds counts target minHot maxHot, coldIds counts (hotIds counts target minHot maxHot),
        trueDiv ((hotIds counts target minHot maxHot).map (hits counts)).sum (max counts.sum 1)) := by
  have hmap : (hotIds counts target minHot maxHot).mapM (fun i => counts[i]?) =
      some ((hotIds counts target minHot maxHot).map (hits counts)) := by
    refine mapM_some fun i hi => ?_
    rw [hits, List.getD_eq_getElem _ _ (h i hi), List.getElem?_eq_getElem (h i hi)]
  simp only [splitLayer]
  rw [hmap]
  rfl

theorem splitLayer_lists {hot cold : List ℕ} {coverage : ℚ}
    (h : splitLayer counts target minHot maxHot = some (hot, cold, coverage)) :
    hot = hotIds counts target minHot maxHot ∧ cold = coldIds counts hot := by
  simp only [splitLayer, Option.bind_eq_bind, Option.bind_eq_some_iff] at h
  obtain ⟨covered, -, h⟩ := h
  cases h
  exact ⟨rfl, rfl⟩

/-- Both lists of a split are in ascending order of the ids. -/
theorem splitLayer_ascending {hot cold : List ℕ} {coverage : ℚ}
    (h : splitLayer counts target minHot maxHot = some (hot, cold, coverage)) :
    hot.Pairwise (· ≤ ·) ∧ cold.Pairwise (· < ·) := by
  obtain ⟨rfl, rfl⟩ := splitLayer_lists h
  constructor
  · exact List.pairwise_insertionSort (· ≤ ·) _
  · exact List.pairwise_lt_range.filter _

/-- The split is as described exactly when the floor can be met by routed experts or when every
expert was routed. -/
theorem splitLayer_isSplit_iff (hmin : minHot ≤ maxHot) (hpos : 0 < target) (hone : target ≤ 1) :
    (∃ hot cold coverage, splitLayer counts target minHot maxHot = some (hot, cold, coverage) ∧
        IsSplit counts target minHot maxHot hot cold) ↔
      minHot ≤ counts.countP (0 < ·) ∨
        (0 < counts.countP (0 < ·) ∧ counts.countP (0 < ·) = counts.length) := by
  constructor
  · intro h
    obtain ⟨hot, cold, coverage, hsplit, h⟩ := h
    by_contra hnot
    have hle : (routed counts).length ≤ counts.length := length_routed_le counts
    rw [← length_routed] at hnot
    have hfew : counts.countP (0 < ·) < minHot := by
      rw [← length_routed]
      omega
    have hidle : counts.countP (0 < ·) = 0 ∨ counts.countP (0 < ·) < counts.length := by
      rw [← length_routed]
      omega
    obtain ⟨i, hi, hzero⟩ := exists_idle_hot hmin hpos hone hfew hidle
    rw [← (splitLayer_lists hsplit).1] at hi
    exact absurd (h.coldRegardless i hi) (by omega)
  · intro h
    have hsplit := isSplit_of_enough maxHot hpos hone h
    refine ⟨_, _, _, splitLayer_eq fun i hi => ?_, hsplit⟩
    exact List.mem_range.mp (hsplit.partition.mem_iff.mp (List.mem_append_left _ hi))

theorem splitLayer_isSplit_iff_three_experts :
    ∃ hot cold coverage, splitLayer [3, 1, 2] (9 / 10) 2 3 = some (hot, cold, coverage) ∧
      IsSplit [3, 1, 2] (9 / 10) 2 3 hot cold :=
  (splitLayer_isSplit_iff (by decide) (by norm_num) (by norm_num)).mpr (.inl (by decide))

/-- All five hits are on one of three experts, and the floor is two. -/
theorem idle_expert_kept_hot :
    ¬ ∃ hot cold coverage, splitLayer [5, 0, 0] (9 / 10) 2 2 = some (hot, cold, coverage) ∧
      IsSplit [5, 0, 0] (9 / 10) 2 2 hot cold := by
  intro h
  obtain ⟨hot, cold, coverage, hsplit, h⟩ := h
  have hidle : ∃ i ∈ hotIds [5, 0, 0] (9 / 10) 2 2, hits [5, 0, 0] i = 0 :=
    exists_idle_hot (by decide) (by norm_num) (by norm_num) (by decide) (.inr (by decide))
  obtain ⟨i, hi, hzero⟩ := hidle
  rw [← (splitLayer_lists hsplit).1] at hi
  exact absurd (h.coldRegardless i hi) (by omega)

end

end SparkKit.Tailquant.Split
