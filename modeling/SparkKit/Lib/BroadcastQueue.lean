import Mathlib.Data.List.Basic
import Mathlib.Logic.Function.Basic
import Mathlib.Logic.Relation
import Mathlib.Order.Basic

/-!
# A bounded queue that every reader reads from its start

One writer appends; each reader has a cursor of its own and reads everything, in order. The
writer never gets more than the capacity ahead of the slowest reader.
-/
namespace SparkKit.Lib.BroadcastQueue

variable {α ρ : Type*}

/-- What was written, in order, and how much of it each reader has read. -/
structure Queue (α ρ : Type*) where
  written : List α
  read : ρ → ℕ

def empty : Queue α ρ := ⟨[], fun _ => 0⟩

inductive Step [DecidableEq ρ] (capacity : ℕ) : Queue α ρ → Queue α ρ → Prop where
  | stay (q : Queue α ρ) : Step capacity q q
  | write (q : Queue α ρ) (a : α) (hroom : ∀ r, q.written.length < q.read r + capacity) :
      Step capacity q ⟨q.written ++ [a], q.read⟩
  | read (q : Queue α ρ) (r : ρ) (hmore : q.read r < q.written.length) :
      Step capacity q ⟨q.written, Function.update q.read r (q.read r + 1)⟩

/-- No reader is ahead of the writer, and none is more than the capacity behind. -/
structure Bounded (capacity : ℕ) (q : Queue α ρ) : Prop where
  behind : ∀ r, q.read r ≤ q.written.length
  within : ∀ r, q.written.length ≤ q.read r + capacity

theorem bounded_empty (capacity : ℕ) : Bounded capacity (empty : Queue α ρ) :=
  ⟨fun _ => Nat.le_refl 0, fun _ => Nat.zero_le _⟩

theorem Step.bounded [DecidableEq ρ] {capacity : ℕ} {q q' : Queue α ρ} (h : Step capacity q q')
    (hq : Bounded capacity q) : Bounded capacity q' := by
  cases h with
  | stay => exact hq
  | write a hroom =>
    refine ⟨fun r => ?_, fun r => ?_⟩
    · have hr := hq.behind r
      simp only [List.length_append, List.length_singleton]
      omega
    · have hr := hroom r
      simp only [List.length_append, List.length_singleton]
      omega
  | read r hmore =>
    refine ⟨fun p => ?_, fun p => ?_⟩
    · by_cases hp : p = r
      · subst hp
        simp only [Function.update_self]
        exact Nat.succ_le_of_lt hmore
      · simpa [Function.update_of_ne hp] using hq.behind p
    · have hw := hq.within p
      by_cases hp : p = r
      · subst hp
        simp only [Function.update_self]
        omega
      · simpa [Function.update_of_ne hp] using hw

end SparkKit.Lib.BroadcastQueue
