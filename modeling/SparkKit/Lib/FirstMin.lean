import Mathlib.Order.Lattice
import Mathlib.Data.Nat.Notation

/-!
# The first minimum of a scan

A left-to-right scan that replaces its candidate only on a strict improvement ends at the
first position of the minimum. That position is unique, so any two ways to find it agree.
-/
namespace SparkKit.Lib.FirstMin

variable {V : Type*} [LinearOrder V] {f g : ℕ → V} {n m c d : ℕ}

/-- `c` is the first of the positions below `n` where `f` is smallest. -/
structure IsFirstMin (f : ℕ → V) (n c : ℕ) : Prop where
  lt : c < n
  le : ∀ j < n, f c ≤ f j
  first : ∀ j < c, f c < f j

theorem IsFirstMin.unique (hc : IsFirstMin f n c) (hd : IsFirstMin f n d) : c = d := by
  by_contra hne
  rcases Nat.lt_or_gt_of_ne hne with hlt | hlt
  · exact absurd (hd.first c hlt) (not_lt.mpr (hc.le d hd.lt))
  · exact absurd (hc.first d hlt) (not_lt.mpr (hd.le c hc.lt))

theorem IsFirstMin.congr (h : IsFirstMin f n c) (hfg : ∀ j < n, f j = g j) : IsFirstMin g n c where
  lt := h.lt
  le := fun j hj => by rw [← hfg c h.lt, ← hfg j hj]; exact h.le j hj
  first := fun j hj => by
    rw [← hfg c h.lt, ← hfg j (Nat.lt_trans hj h.lt)]
    exact h.first j hj

/-- One step of the scan: keep the best so far unless position `c` is strictly better. -/
def improve (best : Option (V × ℕ)) (e : V) (c : ℕ) : Option (V × ℕ) :=
  match best with
  | none => some (e, c)
  | some (bestE, bestC) => if e < bestE then some (e, c) else some (bestE, bestC)

/-- What a scan of the positions below `n` holds. -/
def Scanned (f : ℕ → V) (n : ℕ) : Option (V × ℕ) → Prop
  | none => n = 0
  | some (e, c) => IsFirstMin f n c ∧ e = f c

theorem Scanned.improve {best : Option (V × ℕ)} (h : Scanned f n best) :
    Scanned f (n + 1) (improve best (f n) n) := by
  match best, h with
  | none, h =>
    have hn : n = 0 := h
    subst hn
    refine ⟨⟨Nat.one_pos, fun j hj => ?_, fun j hj => absurd hj (Nat.not_lt_zero j)⟩, rfl⟩
    rw [Nat.lt_one_iff.mp hj]
  | some (e, c), ⟨hmin, he⟩ =>
    subst he
    show Scanned f (n + 1) (if f n < f c then some (f n, n) else some (f c, c))
    by_cases hlt : f n < f c
    · rw [if_pos hlt]
      refine ⟨⟨Nat.lt_succ_self n, fun j hj => ?_, fun j hj => ?_⟩, rfl⟩
      · rcases Nat.lt_succ_iff_lt_or_eq.mp hj with hj | hj
        · exact hlt.le.trans (hmin.le j hj)
        · rw [hj]
      · exact hlt.trans_le (hmin.le j hj)
    · rw [if_neg hlt]
      refine ⟨⟨Nat.lt_succ_of_lt hmin.lt, fun j hj => ?_, hmin.first⟩, rfl⟩
      rcases Nat.lt_succ_iff_lt_or_eq.mp hj with hj | hj
      · exact hmin.le j hj
      · rw [hj]
        exact not_lt.mp hlt

/-- The first position of the minimum over `0 .. n`, found by the scan. -/
def argmin (f : ℕ → V) (n : ℕ) : ℕ :=
  (((List.range n).foldl (fun best c => improve best (f c) c) none).map Prod.snd).getD 0

theorem scanned_foldl (f : ℕ → V) (n : ℕ) :
    Scanned f n ((List.range n).foldl (fun best c => improve best (f c) c) none) := by
  induction n with
  | zero => rfl
  | succ n ih =>
    rw [List.range_succ, List.foldl_append]
    exact ih.improve

theorem argmin_isFirstMin (f : ℕ → V) (hn : 0 < n) : IsFirstMin f n (argmin f n) := by
  have h := scanned_foldl f n
  unfold argmin
  match hbest : (List.range n).foldl (fun best c => improve best (f c) c) none, h with
  | none, h => exact absurd h (Nat.pos_iff_ne_zero.mp hn)
  | some (e, c), h => exact h.1

end SparkKit.Lib.FirstMin
