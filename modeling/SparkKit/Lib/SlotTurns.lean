import Mathlib.Data.Nat.ModEq
import Mathlib.Logic.Function.Basic
import Mathlib.Order.Monotone.Basic
import Mathlib.Tactic.Common

/-!
# Slots used in turn

Turn `s = 1, 2, …` uses one of finitely many slots, in rotation. After `n` turns a slot holds
what the last of them to use it left there; that turn is known as long as fewer than a whole
rotation has passed since.
-/
namespace SparkKit.Lib.SlotTurns

variable {slots s n : ℕ}

def slotOf (slots s : ℕ) : ℕ := (s - 1) % slots

/-- The last of the first `n` turns that used the slot, zero when none did. -/
def latest (slots slot : ℕ) : ℕ → ℕ
  | 0 => 0
  | n + 1 => if slotOf slots (n + 1) = slot then n + 1 else latest slots slot n

theorem latest_succ_self (slots n : ℕ) :
    latest slots (slotOf slots (n + 1)) (n + 1) = n + 1 := if_pos rfl

theorem latest_succ_of_ne {slot : ℕ} (h : slot ≠ slotOf slots (n + 1)) :
    latest slots slot (n + 1) = latest slots slot n := if_neg h.symm

theorem latest_le (slots slot n : ℕ) : latest slots slot n ≤ n := by
  induction n with
  | zero => exact Nat.le_refl 0
  | succ n ih =>
    rw [latest]
    split
    · exact Nat.le_refl _
    · exact Nat.le_succ_of_le ih

theorem slotOf_latest {slot : ℕ} (h : latest slots slot n ≠ 0) :
    slotOf slots (latest slots slot n) = slot := by
  induction n with
  | zero => exact absurd rfl h
  | succ n ih =>
    rw [latest] at h ⊢
    split at h
    · next hslot => rw [if_pos hslot, hslot]
    · next hslot =>
      rw [if_neg hslot]
      exact ih h

theorem slotOf_add (hs : 1 ≤ s) : slotOf slots (s + slots) = slotOf slots s := by
  rw [slotOf, slotOf, Nat.sub_add_comm hs, Nat.add_mod_right]

theorem slotOf_sub (h : slots < s) : slotOf slots (s - slots) = slotOf slots s := by
  have hadd : slotOf slots (s - slots + slots) = slotOf slots (s - slots) :=
    slotOf_add (Nat.le_sub_of_add_le (by omega))
  rw [Nat.sub_add_cancel (Nat.le_of_lt h)] at hadd
  exact hadd.symm

/-- Two turns of one slot are a whole rotation apart. -/
theorem add_le_of_slotOf_eq {s' : ℕ} (hs : 1 ≤ s) (hlt : s < s')
    (h : slotOf slots s = slotOf slots s') : s + slots ≤ s' := by
  have hdvd : slots ∣ s' - 1 - (s - 1) := (Nat.modEq_iff_dvd' (by omega)).mp h
  have hle := Nat.le_of_dvd (by omega) hdvd
  omega

/-- Before the turn is taken, its slot is a rotation behind. -/
theorem latest_le_sub (hlt : n < s) : latest slots (slotOf slots s) n ≤ s - slots := by
  by_cases hzero : latest slots (slotOf slots s) n = 0
  · rw [hzero]
    exact Nat.zero_le _
  · have hslot := slotOf_latest hzero
    have hle := latest_le slots (slotOf slots s) n
    have hgap := add_le_of_slotOf_eq (by omega) (by omega : latest slots (slotOf slots s) n < s) hslot
    omega

/-- Between the turn and the next one of its slot, the slot holds what the turn left. -/
theorem latest_of_live (hs : 1 ≤ s) (hle : s ≤ n) (hlt : n < s + slots) :
    latest slots (slotOf slots s) n = s := by
  induction n, hle using Nat.le_induction with
  | base =>
    obtain ⟨m, rfl⟩ := Nat.exists_eq_add_of_le' hs
    exact latest_succ_self slots m
  | succ n hle ih =>
    rw [latest_succ_of_ne, ih (by omega)]
    intro heq
    have hgap := add_le_of_slotOf_eq hs (Nat.lt_succ_of_le hle) heq
    omega

/-- A turn that may be taken finds its slot exactly a rotation behind. -/
theorem latest_eq_sub (hlt : n < s) (hle : s ≤ n + slots) :
    latest slots (slotOf slots s) n = s - slots := by
  by_cases hfirst : s ≤ slots
  · have h : latest slots (slotOf slots s) n ≤ s - slots := latest_le_sub hlt
    omega
  · rw [← slotOf_sub (Nat.lt_of_not_le hfirst)]
    exact latest_of_live (by omega) (by omega) (by omega)

theorem latest_mono (slots slot : ℕ) : Monotone (latest slots slot) := by
  apply monotone_nat_of_le_succ
  intro n
  rw [latest]
  split
  · exact Nat.le_succ_of_le (latest_le slots slot n)
  · exact Nat.le_refl _

/-- The slot does not change from the last turn that used it on. -/
theorem latest_of_latest_le {m slot : ℕ} (hle : latest slots slot n ≤ m) (hm : m ≤ n) :
    latest slots slot m = latest slots slot n := by
  apply Nat.le_antisymm (latest_mono slots slot hm)
  by_cases hzero : latest slots slot n = 0
  · rw [hzero]
    exact Nat.zero_le _
  · have hself : latest slots slot (latest slots slot n) = latest slots slot n := by
      obtain ⟨k, hk⟩ := Nat.exists_eq_succ_of_ne_zero hzero
      have hslot := slotOf_latest hzero
      rw [hk] at hslot ⊢
      rw [← hslot, latest_succ_self]
    rw [← hself]
    exact latest_mono slots slot hle

/-! ## What the slots hold -/

section
variable {β : Type*} {code w : ℕ → β} {n' : ℕ}

/-- Every slot holds what the last turn that used it wrote. -/
def Holds (slots : ℕ) (code : ℕ → β) (n : ℕ) (w : ℕ → β) : Prop :=
  ∀ slot, w slot = code (latest slots slot n)

theorem holds_zero (slots : ℕ) (code : ℕ → β) : Holds slots code 0 fun _ => code 0 := fun _ => rfl

theorem Holds.write (h : Holds slots code n w) (hn : n' = n + 1) :
    Holds slots code n' (Function.update w (slotOf slots n') (code n')) := by
  subst hn
  intro slot
  by_cases hslot : slot = slotOf slots (n + 1)
  · rw [hslot, Function.update_self, latest_succ_self]
  · rw [Function.update_of_ne hslot, latest_succ_of_ne hslot]
    exact h slot

theorem Holds.read (h : Holds slots code n w) (hs : 1 ≤ s) (hle : s ≤ n) (hlt : n < s + slots) :
    w (slotOf slots s) = code s := by
  rw [h, latest_of_live hs hle hlt]

end

end SparkKit.Lib.SlotTurns
