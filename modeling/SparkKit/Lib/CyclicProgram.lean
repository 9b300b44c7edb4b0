import Mathlib.Data.List.Nodup
import Mathlib.Data.Nat.Count
import Mathlib.Logic.Function.Basic
import Mathlib.Tactic.Common

/-!
# Programs run over and over

An agent runs through a fixed list of steps again and again. After `t` steps, how often it has
run one of them is the number of its whole rounds, or one more: it is enough to know where
the agent stands in the list.
-/
namespace SparkKit.Lib.CyclicProgram

variable {ι : Type*}

/-- The step to run after `t` steps. -/
def current (prog : List ι) (t : ℕ) : Option ι := prog[t % prog.length]?

/-- The rounds completed after `t` steps. -/
def rounds (prog : List ι) (t : ℕ) : ℕ := t / prog.length

theorem rounds_succ {prog : List ι} (t : ℕ) (hpos : 0 < prog.length) :
    (t % prog.length + 1 < prog.length ∧ rounds prog (t + 1) = rounds prog t ∧
        (t + 1) % prog.length = t % prog.length + 1) ∨
      (t % prog.length + 1 = prog.length ∧ rounds prog (t + 1) = rounds prog t + 1 ∧
        (t + 1) % prog.length = 0) := by
  have hlt := Nat.mod_lt t hpos
  have hsplit : t + 1 = prog.length * (t / prog.length) + (t % prog.length + 1) := by
    rw [← Nat.add_assoc, Nat.div_add_mod]
  rw [rounds, rounds]
  by_cases hlast : t % prog.length + 1 = prog.length
  · right
    rw [hlast, ← Nat.mul_succ] at hsplit
    refine ⟨hlast, ?_, ?_⟩
    · rw [hsplit, Nat.mul_div_cancel_left _ hpos]
    · rw [hsplit, Nat.mul_mod_right]
  · left
    have hroom : t % prog.length + 1 < prog.length := Nat.lt_of_le_of_ne hlt hlast
    refine ⟨hroom, ?_, ?_⟩
    · rw [hsplit, Nat.mul_add_div hpos, Nat.div_eq_of_lt hroom, Nat.add_zero]
    · rw [hsplit, Nat.mul_add_mod, Nat.mod_eq_of_lt hroom]

theorem current_isSome {prog : List ι} (t : ℕ) (hpos : 0 < prog.length) :
    ∃ i, current prog t = some i := by
  have hlt := Nat.mod_lt t hpos
  exact ⟨prog[t % prog.length], List.getElem?_eq_getElem hlt⟩

theorem mem_of_current {prog : List ι} {t : ℕ} {i : ι} (h : current prog t = some i) : i ∈ prog :=
  List.mem_of_getElem? h

section
variable [DecidableEq ι] {prog : List ι} {i i' : ι} {t : ℕ}

/-- How often the first `t` steps ran `i`. -/
def times (prog : List ι) (i : ι) (t : ℕ) : ℕ := Nat.count (fun j => current prog j = some i) t

@[simp] theorem times_zero (prog : List ι) (i : ι) : times prog i 0 = 0 := Nat.count_zero _

theorem times_succ (prog : List ι) (i : ι) (t : ℕ) :
    times prog i (t + 1) = times prog i t + if current prog t = some i then 1 else 0 :=
  Nat.count_succ ..

theorem times_succ_self (h : current prog t = some i) : times prog i (t + 1) = times prog i t + 1 := by
  rw [times_succ, if_pos h]

theorem times_succ_of_ne (h : current prog t = some i) (hne : i' ≠ i) :
    times prog i' (t + 1) = times prog i' t := by
  rw [times_succ, if_neg, Nat.add_zero]
  intro h'
  rw [h, Option.some.injEq] at h'
  exact hne h'.symm

/-- The rounds completed, and one more when the agent is past the step in this round. -/
theorem times_eq {k : ℕ} (hnodup : prog.Nodup) (hk : prog[k]? = some i) (t : ℕ) :
    times prog i t = rounds prog t + if k < t % prog.length then 1 else 0 := by
  have hlen := (List.getElem?_eq_some_iff.mp hk).1
  have hpos : 0 < prog.length := Nat.zero_lt_of_lt hlen
  induction t with
  | zero =>
    rw [times_zero, rounds, Nat.zero_div, Nat.zero_mod, if_neg (Nat.not_lt_zero k)]
  | succ t ih =>
    have hat : current prog t = some i ↔ t % prog.length = k := by
      rw [current, ← hk]
      exact ⟨fun h => (List.getElem?_inj (Nat.mod_lt t hpos) hnodup).mp h, fun h => by rw [h]⟩
    rw [times_succ, ih]
    simp only [hat]
    rcases rounds_succ t hpos with ⟨-, hrounds, hmod⟩ | ⟨hlast, hrounds, hmod⟩
    · rw [hrounds, hmod]
      split <;> split <;> split <;> omega
    · rw [hrounds, hmod]
      split <;> split <;> split <;> omega

/-- One step stands before another in the program. -/
def Before (prog : List ι) (i i' : ι) : Prop :=
  i ∈ prog ∧ i' ∈ prog ∧ prog.idxOf i < prog.idxOf i'

instance (prog : List ι) (i i' : ι) : Decidable (Before prog i i') :=
  inferInstanceAs (Decidable (_ ∧ _ ∧ _))

theorem Before.trans {i'' : ι} (h : Before prog i i') (h' : Before prog i' i'') :
    Before prog i i'' := ⟨h.1, h'.2.1, h.2.2.trans h'.2.2⟩

theorem times_eq_idxOf (hnodup : prog.Nodup) (hi : i ∈ prog) (t : ℕ) :
    times prog i t = rounds prog t + if prog.idxOf i < t % prog.length then 1 else 0 :=
  times_eq hnodup (List.getElem?_idxOf hi) t

theorem idxOf_of_current (hnodup : prog.Nodup) (h : current prog t = some i) :
    prog.idxOf i = t % prog.length := by
  have hi := mem_of_current h
  rw [current, ← List.getElem?_idxOf hi] at h
  exact ((List.getElem?_inj (Nat.mod_lt t (List.length_pos_of_mem hi)) hnodup).mp h).symm

/-- The step to run has run once in every round completed. -/
theorem times_of_current (hnodup : prog.Nodup) (h : current prog t = some i) :
    times prog i t = rounds prog t := by
  rw [times_eq_idxOf hnodup (mem_of_current h), idxOf_of_current hnodup h, if_neg (lt_irrefl _),
    Nat.add_zero]

/-- A step before the one to run has run in this round. -/
theorem Before.times_of_later (hbefore : Before prog i i') (hnodup : prog.Nodup)
    (h : current prog t = some i') : times prog i t = rounds prog t + 1 := by
  obtain ⟨hi, -, hlt⟩ := hbefore
  rw [idxOf_of_current hnodup h] at hlt
  rw [times_eq_idxOf hnodup hi, if_pos hlt]

/-- A step after the one to run has not. -/
theorem Before.times_of_earlier (hbefore : Before prog i i') (hnodup : prog.Nodup)
    (h : current prog t = some i) : times prog i' t = rounds prog t := by
  obtain ⟨-, hi', hlt⟩ := hbefore
  rw [idxOf_of_current hnodup h] at hlt
  rw [times_eq_idxOf hnodup hi', if_neg (Nat.not_lt.mpr (Nat.le_of_lt hlt)), Nat.add_zero]

/-- The step to run comes no later than one that has not run in its round, in the order of the
rounds and of stages that grow along the program. -/
theorem current_le {stage : ι → ℕ} {bound n : ℕ} (hnodup : prog.Nodup)
    (hsorted : prog.Pairwise fun i j => stage i ≤ stage j) (hbound : ∀ i, stage i < bound)
    (hcur : current prog t = some i) (hi' : i' ∈ prog) (hn : times prog i' t ≤ n) :
    rounds prog t ≤ n ∧ rounds prog t * bound + stage i ≤ n * bound + stage i' := by
  have hround : rounds prog t ≤ times prog i' t := by
    rw [times_eq_idxOf hnodup hi']
    exact Nat.le_add_right _ _
  have hle := hround.trans hn
  refine ⟨hle, ?_⟩
  rcases Nat.lt_or_eq_of_le hle with hlt | heq
  · have hmul := Nat.mul_le_mul_right bound (Nat.succ_le_of_lt hlt)
    have hstage := hbound i
    rw [Nat.succ_mul] at hmul
    omega
  · rw [← heq]
    apply Nat.add_le_add_left
    have hi := mem_of_current hcur
    have hidx : prog.idxOf i ≤ prog.idxOf i' := by
      rw [idxOf_of_current hnodup hcur]
      by_contra hgt
      rw [times_eq_idxOf hnodup hi', if_pos (Nat.lt_of_not_le hgt)] at hn
      omega
    rcases Nat.lt_or_eq_of_le hidx with hbefore | hsame
    · have hlater := List.idxOf_lt_length_of_mem hi'
      have hpair := List.pairwise_iff_getElem.mp hsorted _ _ (List.idxOf_lt_length_of_mem hi)
        hlater hbefore
      rwa [List.getElem_idxOf, List.getElem_idxOf] at hpair
    · rw [(List.idxOf_inj hi).mp hsame]

/-- One of several agents makes its step. -/
theorem times_update {κ : Type*} [DecidableEq κ] {pos : κ → ℕ} {a : κ}
    (hcur : current prog (pos a) = some i) (b : κ) (j : ι) :
    times prog j (Function.update pos a (pos a + 1) b) =
      times prog j (pos b) + if b = a ∧ j = i then 1 else 0 := by
  by_cases hb : b = a
  · subst hb
    rw [Function.update_self]
    by_cases hj : j = i
    · rw [hj, times_succ_self hcur, if_pos ⟨rfl, rfl⟩]
    · rw [times_succ_of_ne hcur hj, if_neg (fun hboth => hj hboth.2), Nat.add_zero]
  · rw [Function.update_of_ne hb, if_neg (fun hboth => hb hboth.1), Nat.add_zero]

end

end SparkKit.Lib.CyclicProgram
