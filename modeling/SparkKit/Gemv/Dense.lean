import SparkKit.Gemv.SplitK
import SparkKit.Gemv.FullK

/-!
# Both GEMV kernels compute the dense product

The two kernels cut the columns differently over splits, iterations, stripes and lanes. Each
cut uses every byte once, so in exact arithmetic both sums are the reference's.
-/
namespace SparkKit.Gemv.Dense

open SparkKit.Gemv.Weights SparkKit.Gemv.Lanes

/-- For up to four batch rows, 32 output rows at a time and whole column tiles, both kernels
finish with the reference's product and use each weight byte in exactly one place. -/
theorem kernels_compute_reference {R : Type} [CommRing R] {N M KQ G : ℕ}
    (hG : KQ * 2 * 4 = G * 128) (hN : 32 ∣ N) (hM : M ≤ 4)
    (wp : Fin N → Fin (KQ * 2) → BitVec 32) (scales : Fin N → Fin G → R)
    (x : Fin M → Fin (KQ * 2 * 4) → R) :
    (2048 ∣ KQ * 2 * 4 →
      SplitK.gemv wp scales x = some (reference hG wp scales x) ∧
      ∀ n < N, ∀ k < KQ * 2 * 4, ∃! u : SplitK.ByteUse,
        u.InGrid N (KQ * 2 * 4 / SplitK.ks) ∧ u.row = n ∧ u.column = k) ∧
    (1024 ∣ KQ * 2 * 4 → ∀ empty,
      FullK.gemv wp scales x empty = some (reference hG wp scales x) ∧
      ∀ n < N, ∀ k < KQ * 2 * 4, ∃! u : FullK.ByteUse,
        u.InGrid N KQ ∧ u.row = n ∧ u.column = k) := by
  refine ⟨fun hK => ⟨SplitK.gemv_eq wp scales x hG hN hM hK, fun n hn k hk => ?_⟩,
    fun hK empty => ⟨FullK.gemv_eq wp scales x hG hN hM hK empty, fun n hn k hk => ?_⟩⟩
  · exact SplitK.byteUse_unique hN hn (by rwa [Nat.div_mul_cancel hK])
  · exact FullK.byteUse_unique hN hK hn hk

theorem kernels_compute_reference_one_tile :
    SplitK.gemv (fun (_ : Fin 32) (_ : Fin (256 * 2)) => 0x01FF7F80#32) (fun _ (_ : Fin 16) => (1 : ℤ))
        (fun (_ : Fin 3) _ => 2) =
      some (reference rfl (fun (_ : Fin 32) (_ : Fin (256 * 2)) => 0x01FF7F80#32)
        (fun _ (_ : Fin 16) => (1 : ℤ)) (fun (_ : Fin 3) _ => 2)) :=
  ((kernels_compute_reference rfl (by decide) (by decide)
    (fun (_ : Fin 32) (_ : Fin (256 * 2)) => 0x01FF7F80#32) (fun _ (_ : Fin 16) => (1 : ℤ))
    (fun (_ : Fin 3) _ => 2)).1 (by decide)).1

end SparkKit.Gemv.Dense
