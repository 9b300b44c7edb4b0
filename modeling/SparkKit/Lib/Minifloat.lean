import Mathlib.Algebra.Order.Floor.Semiring
import Mathlib.Algebra.Order.Field.Rat
import Mathlib.Data.Rat.Floor
import Mathlib.Data.Nat.Find
import Mathlib.Tactic.Linarith
import Mathlib.Tactic.FieldSimp
import Mathlib.Tactic.Ring

/-!
# Small binary floating-point formats

Magnitudes of a format are numbered by their bit patterns: a mantissa field of `p` bits
below an exponent field whose zero is the subnormal range. A rational is rounded to the
nearest magnitude of its binade, ties to even; the numbering carries the overflow of a
mantissa into the next binade.
-/
namespace SparkKit.Lib.Minifloat

/-- The nearest natural number, ties to even. -/
def roundHalfEven (q : ℚ) : ℕ :=
  if 1 < 2 * (q - ⌊q⌋₊) ∨ (2 * (q - ⌊q⌋₊) = 1 ∧ ⌊q⌋₊ % 2 = 1) then ⌊q⌋₊ + 1 else ⌊q⌋₊

theorem abs_sub_roundHalfEven_le {q : ℚ} (hq : 0 ≤ q) : |q - roundHalfEven q| ≤ 1 / 2 := by
  have hlo : (⌊q⌋₊ : ℚ) ≤ q := Nat.floor_le hq
  have hhi : q < ⌊q⌋₊ + 1 := Nat.lt_floor_add_one q
  rw [roundHalfEven, abs_le]
  split
  · rename_i h
    push_cast
    rcases h with h | ⟨h, -⟩ <;> constructor <;> linarith
  · rename_i h
    have h2 : 2 * (q - ⌊q⌋₊) ≤ 1 := not_lt.mp fun hlt => h (Or.inl hlt)
    constructor <;> linarith

/-- Rounding does not cross a natural number. -/
theorem le_roundHalfEven {q : ℚ} {n : ℕ} (h : (n : ℚ) ≤ q) : n ≤ roundHalfEven q := by
  have hfloor : n ≤ ⌊q⌋₊ := Nat.le_floor h
  rw [roundHalfEven]
  split <;> omega

theorem roundHalfEven_le {q : ℚ} (hq : 0 ≤ q) {n : ℕ} (h : q ≤ n) : roundHalfEven q ≤ n := by
  have hround := abs_sub_roundHalfEven_le hq
  rw [abs_le] at hround
  have hlt : (roundHalfEven q : ℚ) < n + 1 := by linarith
  exact Nat.lt_succ_iff.mp (by exact_mod_cast hlt)

@[simp] theorem roundHalfEven_natCast (n : ℕ) : roundHalfEven n = n := by
  rw [roundHalfEven, Nat.floor_natCast, sub_self, mul_zero]
  exact if_neg (by norm_num)

theorem roundHalfEven_mono {q q' : ℚ} (h : q ≤ q') : roundHalfEven q ≤ roundHalfEven q' := by
  rcases (Nat.floor_mono h).lt_or_eq with hlt | heq
  · have hup : roundHalfEven q ≤ ⌊q⌋₊ + 1 := by
      rw [roundHalfEven]
      split <;> omega
    have hdown : ⌊q'⌋₊ ≤ roundHalfEven q' := by
      rw [roundHalfEven]
      split <;> omega
    omega
  · rw [roundHalfEven, roundHalfEven, heq]
    by_cases hq' : 1 < 2 * (q' - ⌊q'⌋₊) ∨ (2 * (q' - ⌊q'⌋₊) = 1 ∧ ⌊q'⌋₊ % 2 = 1)
    · rw [if_pos hq']
      split <;> omega
    · rw [if_neg hq', if_neg]
      -- what rounds up at `q` rounds up at the larger fraction of `q'`
      intro hq
      rcases hq with hq | ⟨hq, hodd⟩
      · exact hq' (.inl (by linarith))
      · rcases h.lt_or_eq with hlt | rfl
        · exact hq' (.inl (by linarith))
        · exact hq' (.inr ⟨hq, hodd⟩)

/-- A format by its mantissa bits, its number of exponent fields above the subnormal one,
and its least positive magnitude. -/
structure Format where
  mantissaBits : ℕ
  binades : ℕ
  unit : ℚ
  unit_pos : 0 < unit

namespace Format

variable (f : Format)

/-- The spacing of the magnitudes in a binade. -/
def ulp (e : ℕ) : ℚ := f.unit * 2 ^ e

/-- The binade a magnitude is rounded in; the subnormals share the spacing of the first. -/
def binade (q : ℚ) : ℕ :=
  Nat.findGreatest (fun e => 2 ^ f.mantissaBits * f.ulp e ≤ q) (f.binades - 1)

/-- The bit pattern of a magnitude, without an upper limit. -/
def encode (q : ℚ) : ℕ :=
  f.binade q * 2 ^ f.mantissaBits + roundHalfEven (q / f.ulp (f.binade q))

/-- The magnitude of a bit pattern. -/
def value (code : ℕ) : ℚ :=
  if code / 2 ^ f.mantissaBits = 0 then code * f.unit
  else (2 ^ f.mantissaBits + code % 2 ^ f.mantissaBits : ℕ) *
    f.ulp (code / 2 ^ f.mantissaBits - 1)

/-- The first magnitude past the last binade. -/
def top : ℚ := 2 ^ f.mantissaBits * f.ulp f.binades

variable {f}

theorem ulp_pos (e : ℕ) : 0 < f.ulp e := mul_pos f.unit_pos (by positivity)

theorem ulp_succ (e : ℕ) : f.ulp (e + 1) = 2 * f.ulp e := by
  rw [ulp, ulp, pow_succ]
  ring

theorem ulp_mono {e e' : ℕ} (h : e ≤ e') : f.ulp e ≤ f.ulp e' :=
  mul_le_mul_of_nonneg_left (pow_le_pow_right₀ (by norm_num) h) f.unit_pos.le

/-- The first normal magnitudes of the binades. -/
theorem first_mono {e e' : ℕ} (h : e ≤ e') :
    2 ^ f.mantissaBits * f.ulp e ≤ 2 ^ f.mantissaBits * f.ulp e' :=
  mul_le_mul_of_nonneg_left (ulp_mono h) (by positivity)

@[simp] theorem value_zero : f.value 0 = 0 := by simp [value]

theorem value_pos {code : ℕ} (h : 0 < code) : 0 < f.value code := by
  rw [value]
  split
  · exact mul_pos (by exact_mod_cast h) f.unit_pos
  · have hmantissa : 0 < 2 ^ f.mantissaBits + code % 2 ^ f.mantissaBits := by positivity
    exact mul_pos (by exact_mod_cast hmantissa) (ulp_pos _)

/-- A mantissa of one binade, or the first mantissa of the next, in the numbering. -/
theorem value_add {e k : ℕ} (hnormal : e = 0 ∨ 2 ^ f.mantissaBits ≤ k)
    (hk : k ≤ 2 * 2 ^ f.mantissaBits) : f.value (e * 2 ^ f.mantissaBits + k) = k * f.ulp e := by
  generalize hp : 2 ^ f.mantissaBits = p at *
  have hpos : 0 < p := by
    rw [← hp]
    positivity
  rw [value, hp]
  by_cases hsub : k < p
  · obtain rfl : e = 0 := by omega
    rw [Nat.zero_mul, Nat.zero_add, if_pos (Nat.div_eq_of_lt hsub)]
    simp [ulp]
  · obtain ⟨r, rfl⟩ := Nat.exists_eq_add_of_le (Nat.not_lt.mp hsub)
    have hcode : e * p + (p + r) = p * (e + 1) + r := by ring
    rw [hcode, Nat.mul_add_div hpos, Nat.mul_add_mod]
    rcases Nat.lt_or_ge r p with hr | hr
    · rw [Nat.div_eq_of_lt hr, Nat.mod_eq_of_lt hr, if_neg (by omega)]
      simp
    · obtain rfl : r = p := by omega
      rw [Nat.div_self hpos, Nat.mod_self, if_neg (by omega)]
      have hindex : e + 1 + 1 - 1 = e + 1 := by omega
      rw [hindex, ulp_succ]
      push_cast
      ring

theorem binade_lower {q : ℚ} (h : f.binade q ≠ 0) :
    2 ^ f.mantissaBits * f.ulp (f.binade q) ≤ q :=
  Nat.findGreatest_of_ne_zero rfl h

theorem lt_binade_upper {q : ℚ} (h : q < f.top) :
    q < 2 * (2 ^ f.mantissaBits * f.ulp (f.binade q)) := by
  have hsucc : 2 * (2 ^ f.mantissaBits * f.ulp (f.binade q)) =
      2 ^ f.mantissaBits * f.ulp (f.binade q + 1) := by
    rw [ulp_succ]
    ring
  rw [hsucc]
  by_cases hlast : f.binade q + 1 ≤ f.binades - 1
  · exact not_le.mp (Nat.findGreatest_is_greatest (Nat.lt_succ_self _) hlast)
  · have hle : f.binades ≤ f.binade q + 1 := by omega
    calc q < 2 ^ f.mantissaBits * f.ulp f.binades := h
      _ ≤ 2 ^ f.mantissaBits * f.ulp (f.binade q + 1) := first_mono hle

/-- The mantissa a magnitude is rounded to lies in its binade. -/
theorem mantissa_bounds {q : ℚ} (hq : 0 ≤ q) (h : q < f.top) :
    (f.binade q = 0 ∨ 2 ^ f.mantissaBits ≤ roundHalfEven (q / f.ulp (f.binade q))) ∧
      roundHalfEven (q / f.ulp (f.binade q)) ≤ 2 * 2 ^ f.mantissaBits := by
  have hulp := f.ulp_pos (f.binade q)
  constructor
  · by_cases hzero : f.binade q = 0
    · exact Or.inl hzero
    · refine Or.inr (le_roundHalfEven ?_)
      rw [le_div_iff₀ hulp]
      push_cast
      exact binade_lower hzero
  · refine roundHalfEven_le (div_nonneg hq hulp.le) ?_
    rw [div_le_iff₀ hulp]
    have hupper := lt_binade_upper h
    push_cast
    linarith

theorem value_encode {q : ℚ} (hq : 0 ≤ q) (h : q < f.top) :
    f.value (f.encode q) =
      roundHalfEven (q / f.ulp (f.binade q)) * f.ulp (f.binade q) := by
  obtain ⟨hnormal, hk⟩ := mantissa_bounds hq h
  exact value_add hnormal hk

theorem abs_sub_value_encode_le {q : ℚ} (hq : 0 ≤ q) (h : q < f.top) :
    |q - f.value (f.encode q)| ≤ f.ulp (f.binade q) / 2 := by
  have hulp := f.ulp_pos (f.binade q)
  have hround := abs_sub_roundHalfEven_le (div_nonneg hq hulp.le)
  rw [value_encode hq h]
  have hscale : q - roundHalfEven (q / f.ulp (f.binade q)) * f.ulp (f.binade q) =
      (q / f.ulp (f.binade q) - roundHalfEven (q / f.ulp (f.binade q))) *
        f.ulp (f.binade q) := by
    field_simp
  rw [hscale, abs_mul, abs_of_pos hulp]
  linarith [mul_le_mul_of_nonneg_right hround hulp.le]

/-- A magnitude rounded to a normal one is off by at most half a unit of its last place. -/
theorem abs_sub_le_of_normal {q : ℚ} (hq : 0 ≤ q) (h : q < f.top)
    (hnormal : 2 ^ f.mantissaBits ≤ f.encode q) :
    2 * 2 ^ f.mantissaBits * |q - f.value (f.encode q)| ≤ f.value (f.encode q) := by
  have herror := abs_sub_value_encode_le hq h
  obtain ⟨hbinade, -⟩ := mantissa_bounds hq h
  have hk : 2 ^ f.mantissaBits ≤ roundHalfEven (q / f.ulp (f.binade q)) := by
    rcases hbinade with hzero | hk
    · simpa [encode, hzero] using hnormal
    · exact hk
  have hvalue : 2 ^ f.mantissaBits * f.ulp (f.binade q) ≤ f.value (f.encode q) := by
    rw [value_encode hq h]
    exact mul_le_mul_of_nonneg_right (by exact_mod_cast hk) (ulp_pos _).le
  calc 2 * 2 ^ f.mantissaBits * |q - f.value (f.encode q)|
      ≤ 2 * 2 ^ f.mantissaBits * (f.ulp (f.binade q) / 2) :=
        mul_le_mul_of_nonneg_left herror (by positivity)
    _ = 2 ^ f.mantissaBits * f.ulp (f.binade q) := by ring
    _ ≤ f.value (f.encode q) := hvalue

theorem binade_mono {q q' : ℚ} (h : q ≤ q') : f.binade q ≤ f.binade q' :=
  Nat.findGreatest_mono (fun _ he => le_trans he h) (Nat.le_refl _)

/-- Rounding keeps the order of magnitudes. -/
theorem value_encode_mono {q q' : ℚ} (hq : 0 ≤ q) (h : q ≤ q') (htop : q' < f.top) :
    f.value (f.encode q) ≤ f.value (f.encode q') := by
  have hq' := hq.trans h
  have hulp := f.ulp_pos (f.binade q)
  have hulp' := f.ulp_pos (f.binade q')
  rw [value_encode hq (h.trans_lt htop), value_encode hq' htop]
  rcases (binade_mono (f := f) h).lt_or_eq with hlt | heq
  · -- the last mantissa of a binade is the first of the next
    have hupper := (mantissa_bounds hq (h.trans_lt htop)).2
    have hlower : 2 ^ f.mantissaBits ≤ roundHalfEven (q' / f.ulp (f.binade q')) :=
      (mantissa_bounds hq' htop).1.resolve_left (by omega)
    have hnext : 2 * f.ulp (f.binade q) ≤ f.ulp (f.binade q') := by
      rw [← ulp_succ]
      exact ulp_mono hlt
    calc (roundHalfEven (q / f.ulp (f.binade q)) : ℚ) * f.ulp (f.binade q)
        ≤ (2 * 2 ^ f.mantissaBits : ℕ) * f.ulp (f.binade q) :=
          mul_le_mul_of_nonneg_right (by exact_mod_cast hupper) hulp.le
      _ = 2 ^ f.mantissaBits * (2 * f.ulp (f.binade q)) := by push_cast; ring
      _ ≤ 2 ^ f.mantissaBits * f.ulp (f.binade q') :=
          mul_le_mul_of_nonneg_left hnext (by positivity)
      _ ≤ roundHalfEven (q' / f.ulp (f.binade q')) * f.ulp (f.binade q') :=
          mul_le_mul_of_nonneg_right (by exact_mod_cast hlower) hulp'.le
  · rw [heq]
    have hround := roundHalfEven_mono (div_le_div_of_nonneg_right h hulp'.le)
    exact mul_le_mul_of_nonneg_right (by exact_mod_cast hround) hulp'.le

theorem binade_eq {q : ℚ} {e : ℕ} (he : e ≤ f.binades - 1) (hlo : 2 ^ f.mantissaBits * f.ulp e ≤ q)
    (hhi : q < 2 ^ f.mantissaBits * f.ulp (e + 1)) : f.binade q = e := by
  refine Nat.findGreatest_eq_iff.mpr ⟨he, fun _ => hlo, fun j hj _ hle => ?_⟩
  exact absurd ((first_mono hj).trans hle) (not_le.mpr hhi)

/-- A normal magnitude of the format is not changed. -/
theorem value_encode_normal {e k : ℕ} (he : e ≤ f.binades - 1) (hlo : 2 ^ f.mantissaBits ≤ k)
    (hhi : k < 2 * 2 ^ f.mantissaBits) : f.value (f.encode (k * f.ulp e)) = k * f.ulp e := by
  have hulp := f.ulp_pos e
  have hbinade : f.binade (k * f.ulp e) = e := by
    refine binade_eq he (mul_le_mul_of_nonneg_right (by exact_mod_cast hlo) hulp.le) ?_
    rw [ulp_succ, ← mul_assoc, mul_comm _ (2 : ℚ)]
    exact mul_lt_mul_of_pos_right (by exact_mod_cast hhi) hulp
  rw [encode, hbinade, mul_div_cancel_right₀ _ hulp.ne', roundHalfEven_natCast]
  exact value_add (.inr hlo) hhi.le

/-- From the top on the numbering leaves the format. -/
theorem le_encode_of_top_le {q : ℚ} (hbinades : 0 < f.binades) (h : f.top ≤ q) :
    (f.binades + 1) * 2 ^ f.mantissaBits ≤ f.encode q := by
  have hlast : f.binade q = f.binades - 1 :=
    Nat.findGreatest_eq ((first_mono (by omega)).trans h)
  have hk : 2 * 2 ^ f.mantissaBits ≤ roundHalfEven (q / f.ulp (f.binade q)) := by
    refine le_roundHalfEven ?_
    rw [le_div_iff₀ (ulp_pos _), hlast]
    have htop : f.top = 2 * 2 ^ f.mantissaBits * f.ulp (f.binades - 1) := by
      have hb' : f.binades = f.binades - 1 + 1 := by omega
      rw [top, hb', ulp_succ, Nat.add_sub_cancel]
      ring
    push_cast
    rw [← htop]
    exact h
  rw [encode, hlast] at *
  have hsplit : f.binades + 1 = f.binades - 1 + 2 := by omega
  rw [hsplit, Nat.add_mul]
  omega

end Format

end SparkKit.Lib.Minifloat
