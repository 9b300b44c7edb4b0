import Mathlib.Data.List.Basic
import Mathlib.Algebra.Order.Ring.Nat
import Mathlib.Tactic.Ring

/-!
# Numbers in a fixed number of bytes

Most significant byte first. Writing fails when the number does not fit; reading what was
written gives the number back.
-/
namespace SparkKit.Lib.BigEndian

/-- The last `size` base-256 digits of a number. -/
def digits : ℕ → ℕ → List UInt8
  | 0, _ => []
  | size + 1, value => digits size (value / 256) ++ [UInt8.ofNat value]

/-- The number in `size` bytes, when it fits. -/
def toBytes (size value : ℕ) : Option (List UInt8) :=
  if value < 256 ^ size then some (digits size value) else none

def fromBytes (bytes : List UInt8) : ℕ := bytes.foldl (fun acc b => acc * 256 + b.toNat) 0

@[simp] theorem length_digits (size value : ℕ) : (digits size value).length = size := by
  induction size generalizing value with
  | zero => rfl
  | succ size ih => rw [digits, List.length_append, ih, List.length_singleton]

theorem fromBytes_concat (bytes : List UInt8) (b : UInt8) :
    fromBytes (bytes ++ [b]) = fromBytes bytes * 256 + b.toNat := by
  rw [fromBytes, List.foldl_append, List.foldl_cons, List.foldl_nil, fromBytes]

theorem fromBytes_digits (size value : ℕ) : fromBytes (digits size value) = value % 256 ^ size := by
  induction size generalizing value with
  | zero => simp [digits, fromBytes, Nat.mod_one]
  | succ size ih =>
    have hbyte : (UInt8.ofNat value).toNat = value % 256 := UInt8.toNat_ofNat'
    rw [digits, fromBytes_concat, ih, hbyte, pow_succ', Nat.mod_mul]
    ring

theorem toBytes_eq_none_iff {size value : ℕ} : toBytes size value = none ↔ 256 ^ size ≤ value := by
  rw [toBytes, ← Nat.not_lt]
  by_cases hfit : value < 256 ^ size
  · rw [if_pos hfit]
    exact ⟨nofun, fun h => absurd hfit h⟩
  · rw [if_neg hfit]
    exact ⟨fun _ => hfit, fun _ => rfl⟩

theorem length_toBytes {size value : ℕ} {bytes : List UInt8} (h : toBytes size value = some bytes) :
    bytes.length = size := by
  obtain ⟨-, heq⟩ := Option.ite_none_right_eq_some.mp h
  rw [← Option.some.inj heq, length_digits]

theorem fromBytes_toBytes {size value : ℕ} {bytes : List UInt8}
    (h : toBytes size value = some bytes) : fromBytes bytes = value := by
  obtain ⟨hfit, heq⟩ := Option.ite_none_right_eq_some.mp h
  obtain rfl := Option.some.inj heq
  rw [fromBytes_digits, Nat.mod_eq_of_lt hfit]

end SparkKit.Lib.BigEndian
