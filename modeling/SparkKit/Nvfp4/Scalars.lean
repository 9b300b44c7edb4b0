import SparkKit.Lib.Minifloat

/-!
# The scalar operations of the record writers

The reference writer and the fused kernel are written against the same float32 and byte
conversions. Both are modelled over one record of operations, with the few laws their
agreement rests on; exact rational arithmetic is an instance of it.
-/
namespace SparkKit.Nvfp4.Scalars

open SparkKit.Lib.Minifloat

/-- Operations on the element type `X` of the inputs and on float32. -/
structure ScalarOps (X F : Type) where
  toFloat32 : X → F
  /-- a literal of the source, rounded to float32 -/
  lit : ℚ → F
  abs : F → F
  neg : F → F
  maximum : F → F → F
  minimum : F → F → F
  mul : F → F → F
  /-- `tensor / tensor`, and `libdevice.div_rn` -/
  div : F → F → F
  lt : F → F → Bool
  toE4m3 : F → UInt8
  ofE4m3 : UInt8 → F
  /-- the little-endian bytes of a float32 -/
  float32Bytes : F → ℕ → UInt8
  /-- the little-endian bytes of the value rounded to bfloat16 -/
  bfloat16Bytes : F → ℕ → UInt8
  maximum_comm : ∀ x y, maximum x y = maximum y x
  maximum_assoc : ∀ x y z, maximum (maximum x y) z = maximum x (maximum y z)
  maximum_self : ∀ x, maximum x x = x
  one_mul : ∀ x, mul (lit 1) x = x
  /-- literals keep their order in comparisons -/
  lit_lt : ∀ {a b : ℚ} {x : F}, a ≤ b → lt (lit b) x → lt (lit a) x

namespace ScalarOps

variable {X F : Type} (ops : ScalarOps X F)

/-- `tensor / python_scalar`: multiplication by the float32 reciprocal. -/
def divScalar (x s : F) : F := ops.mul x (ops.div (ops.lit 1) s)

/-- `clamp_(-bound, bound)` -/
def clamp (bound : ℚ) (x : F) : F :=
  ops.minimum (ops.maximum x (ops.lit (-bound))) (ops.lit bound)

/-- `amax` over a nonempty row. -/
def reduceMax : List F → F
  | [] => ops.lit 0
  | x :: xs => xs.foldl ops.maximum x

/-- `torch.where(x > 0, x, 1e-8)` -/
def orTiny (x : F) : F := if ops.lt (ops.lit 0) x then x else ops.lit (1 / 10 ^ 8)

variable {ops}

theorem reduceMax_concat {xs : List F} (h : xs ≠ []) (x : F) :
    ops.reduceMax (xs ++ [x]) = ops.maximum (ops.reduceMax xs) x := by
  cases xs with
  | nil => exact absurd rfl h
  | cons y ys => simp [reduceMax]

/-- A reduction over pairs may reduce the halves first. -/
theorem reduceMax_pairs (a b : ℕ → F) (n : ℕ) :
    ops.reduceMax ((List.range (n + 1)).flatMap fun i => [a i, b i]) =
      ops.maximum (ops.reduceMax ((List.range (n + 1)).map a))
        (ops.reduceMax ((List.range (n + 1)).map b)) := by
  induction n with
  | zero => rfl
  | succ n ih =>
    have hpairs : (List.range (n + 1)).flatMap (fun i => [a i, b i]) ≠ [] := by
      simp [List.range_succ]
    have hrow : ∀ f : ℕ → F, (List.range (n + 1)).map f ≠ [] := by simp
    have hlast : (List.range (n + 1 + 1)).flatMap (fun i => [a i, b i]) =
        (List.range (n + 1)).flatMap (fun i => [a i, b i]) ++ [a (n + 1)] ++ [b (n + 1)] := by
      rw [List.range_succ (n := n + 1)]
      simp
    rw [hlast, reduceMax_concat (by simp), reduceMax_concat hpairs, ih,
      List.range_succ (n := n + 1), List.map_append, List.map_append, List.map_singleton,
      List.map_singleton, reduceMax_concat (hrow a), reduceMax_concat (hrow b)]
    generalize ops.reduceMax ((List.range (n + 1)).map a) = A
    generalize ops.reduceMax ((List.range (n + 1)).map b) = B
    calc ops.maximum (ops.maximum (ops.maximum A B) (a (n + 1))) (b (n + 1))
        = ops.maximum (ops.maximum A (ops.maximum B (a (n + 1)))) (b (n + 1)) := by
          rw [ops.maximum_assoc A]
      _ = ops.maximum (ops.maximum A (ops.maximum (a (n + 1)) B)) (b (n + 1)) := by
          rw [ops.maximum_comm B]
      _ = ops.maximum (ops.maximum A (a (n + 1))) (ops.maximum B (b (n + 1))) := by
          simp only [ops.maximum_assoc]

theorem reduceMax_replicate (x : F) (n : ℕ) : ops.reduceMax (List.replicate (n + 1) x) = x := by
  induction n with
  | zero => rfl
  | succ n ih =>
    rw [List.replicate_succ', reduceMax_concat (by simp), ih, ops.maximum_self]

end ScalarOps

/-! ## E2M1 -/

def e2m1Grid : List ℚ := [0, 1 / 2, 1, 3 / 2, 2, 3, 4, 6]

/-- `(_E2M1_GRID[1:] + _E2M1_GRID[:-1]) / 2` -/
def e2m1Mid : List ℚ := List.zipWith (fun a b => (a + b) / 2) e2m1Grid.tail e2m1Grid.dropLast

variable {X F : Type}

/-- `_e2m1_encode`: the bucket of the magnitude among the midpoints, and the sign bit. -/
def e2m1Encode (ops : ScalarOps X F) (x : F) : UInt8 :=
  let mag := ops.abs x
  let idx := min (e2m1Mid.takeWhile fun m => ops.lt (ops.lit m) mag).length 7
  let negative : UInt8 := if ops.lt x (ops.lit 0) then 1 else 0
  let sign := negative <<< 3
  if idx = 0 then 0 else UInt8.ofNat idx ||| sign

/-- `_e2m1_code` of the kernel: the comparisons summed up. -/
def e2m1Code (ops : ScalarOps X F) (q : F) : UInt8 :=
  let a := ops.abs q
  let gt (m : ℚ) : ℕ := if ops.lt (ops.lit m) a then 1 else 0
  let idx := gt (1 / 4) + gt (3 / 4) + gt (5 / 4) + gt (7 / 4) + gt (5 / 2) + gt (7 / 2) + gt 5
  let sign := (if ops.lt q (ops.lit 0) then 1 else 0) * 8
  UInt8.ofNat (if idx = 0 then 0 else idx + sign)

/-- `_e2m1_decode` -/
def e2m1Decode (ops : ScalarOps X F) (code : UInt8) : F :=
  let mag := ops.lit (e2m1Grid.getD (code &&& 0x7).toNat 0)
  if code &&& 0x8 ≠ 0 then ops.neg mag else mag

theorem e2m1Mid_eq : e2m1Mid = [1 / 4, 3 / 4, 5 / 4, 7 / 4, 5 / 2, 7 / 2, 5] := by
  norm_num [e2m1Mid, e2m1Grid]

/-- Of an ascending list, the elements satisfying a property that passes to smaller ones
are a prefix. -/
theorem length_takeWhile_eq_countP {p : ℚ → Bool} (hp : ∀ {a b}, a ≤ b → p b → p a) {l : List ℚ}
    (hl : l.Pairwise (· ≤ ·)) : (l.takeWhile p).length = l.countP p := by
  induction l with
  | nil => rfl
  | cons a l ih =>
    rw [List.pairwise_cons] at hl
    cases ha : p a
    · have hnone : l.countP p = 0 := by
        refine List.countP_eq_zero.mpr fun b hb hpb => ?_
        rw [hp (hl.1 b hb) hpb] at ha
        cases ha
      simp [ha, hnone]
    · simp [ha, ih hl.2]

theorem ofNat_or_sign : ∀ idx < 8, ∀ sign < 2,
    UInt8.ofNat idx ||| UInt8.ofNat sign <<< 3 = UInt8.ofNat (idx + sign * 8) := by
  decide

/-- The two roundings to the grid agree on shared comparisons. -/
theorem e2m1Code_eq_encode (ops : ScalarOps X F) (x : F) : e2m1Code ops x = e2m1Encode ops x := by
  have hsorted : e2m1Mid.Pairwise (· ≤ ·) := by
    rw [e2m1Mid_eq]
    norm_num
  have hcount := length_takeWhile_eq_countP
    (p := fun m => ops.lt (ops.lit m) (ops.abs x)) (fun hab => ops.lit_lt hab) hsorted
  have hsum : (e2m1Mid.countP fun m => ops.lt (ops.lit m) (ops.abs x)) =
      (if ops.lt (ops.lit (1 / 4)) (ops.abs x) then 1 else 0) +
      (if ops.lt (ops.lit (3 / 4)) (ops.abs x) then 1 else 0) +
      (if ops.lt (ops.lit (5 / 4)) (ops.abs x) then 1 else 0) +
      (if ops.lt (ops.lit (7 / 4)) (ops.abs x) then 1 else 0) +
      (if ops.lt (ops.lit (5 / 2)) (ops.abs x) then 1 else 0) +
      (if ops.lt (ops.lit (7 / 2)) (ops.abs x) then 1 else 0) +
      (if ops.lt (ops.lit 5) (ops.abs x) then 1 else 0) := by
    rw [e2m1Mid_eq]
    simp only [List.countP_cons, List.countP_nil]
    omega
  have hle : (e2m1Mid.countP fun m => ops.lt (ops.lit m) (ops.abs x)) ≤ 7 := by
    have hlen : e2m1Mid.length = 7 := rfl
    rw [← hlen]
    exact List.countP_le_length
  rw [e2m1Code, e2m1Encode]
  simp only [← hsum, hcount, Nat.min_eq_left hle]
  have hlt := Nat.lt_succ_of_le hle
  by_cases hzero : (e2m1Mid.countP fun m => ops.lt (ops.lit m) (ops.abs x)) = 0
  · rw [if_pos hzero, if_pos hzero]
    rfl
  · rw [if_neg hzero, if_neg hzero]
    cases ops.lt x (ops.lit 0)
    · exact (ofNat_or_sign _ hlt 0 (by decide)).symm
    · exact (ofNat_or_sign _ hlt 1 (by decide)).symm

theorem e2m1Encode_lt (ops : ScalarOps X F) (x : F) : e2m1Encode ops x < 16 := by
  have hcodes : ∀ idx < 8, ∀ sign < 2, UInt8.ofNat idx ||| UInt8.ofNat sign <<< 3 < 16 := by
    decide
  have hlt : min (e2m1Mid.takeWhile fun m => ops.lt (ops.lit m) (ops.abs x)).length 7 < 8 := by
    omega
  rw [e2m1Encode]
  split
  · decide
  · cases ops.lt x (ops.lit 0)
    · exact hcodes _ hlt 0 (by decide)
    · exact hcodes _ hlt 1 (by decide)

/-! ## Exact rational arithmetic -/

/-- Three mantissa bits, fifteen exponent fields, subnormals from `2 ^ -9` on. The top bit
pattern, which would be 480, is the format's NaN. -/
def e4m3 : Format where
  mantissaBits := 3
  binades := 15
  unit := 1 / 512
  unit_pos := by norm_num

/-- Round to nearest even; what rounds past 448 becomes NaN. -/
def toE4m3 (x : ℚ) : UInt8 :=
  UInt8.ofNat ((if x < 0 then 128 else 0) + min (e4m3.encode |x|) 127)

def ofE4m3 (b : UInt8) : ℚ :=
  if 128 ≤ b.toNat then -e4m3.value (b.toNat % 128) else e4m3.value (b.toNat % 128)

/-- The operations without rounding, except to the byte formats. -/
def exactOps (float32Bytes bfloat16Bytes : ℚ → ℕ → UInt8) : ScalarOps ℚ ℚ where
  toFloat32 x := x
  lit q := q
  abs x := |x|
  neg x := -x
  maximum x y := max x y
  minimum x y := min x y
  mul x y := x * y
  div x y := x / y
  lt x y := decide (x < y)
  toE4m3 := toE4m3
  ofE4m3 := ofE4m3
  float32Bytes := float32Bytes
  bfloat16Bytes := bfloat16Bytes
  maximum_comm := max_comm
  maximum_assoc := max_assoc
  maximum_self := max_self
  one_mul := one_mul
  lit_lt := fun hab hbx =>
    decide_eq_true (lt_of_le_of_lt hab (of_decide_eq_true hbx))

end SparkKit.Nvfp4.Scalars
