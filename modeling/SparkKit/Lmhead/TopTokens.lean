import SparkKit.Dcp.Candidates
import SparkKit.Lib.Checked
import SparkKit.Lmhead.Rescore
import Mathlib.Order.BoundedOrder.Basic

/-!
# The argmax without the gathered row

`get_top_tokens` takes every rank's own best logit and gathers only these, with their ids as
float32 numbers. The token it picks is the argmax of the row `_get_logits` would have gathered.
-/
namespace SparkKit.Lmhead.TopTokens

open SparkKit.Lib.Checked
open SparkKit.Dcp.Candidates (toFloat32 toFloat32_of_lt)
open SparkKit.Lmhead.Rescore

variable {α : Type} [LinearOrder α] {v : VocabShards}

section
variable [OrderBot α]

/-- The local logits with the padding columns, the last ones, at `-inf`. -/
def maskPadding (v : VocabShards) (rank : Fin v.tp) (row : Fin v.columns → α) : Fin v.columns → α :=
  fun col => if v.columns - (v.columns - v.numLocal rank) ≤ (col : ℕ) then ⊥ else row col

/-- A rank's `local_max_vals` and `global_indices` in one row. -/
def localTop (v : VocabShards) (rank : Fin v.tp) (row : Fin v.columns → α) : Option (α × ℕ) :=
  (argmax (maskPadding v rank row)).map fun col => (maskPadding v rank row col, v.startIndex rank + col)

/-- The token the gathered pairs of a row elect. -/
def elect (tops : Fin v.tp → Option (α × ℕ)) : Option ℤ := do
  let pairs ← collect tops
  let best ← argmax fun rank => (pairs rank).1
  return toFloat32 (pairs best).2

def nonPositiveScaleMessage : String :=
  "The local argmax reduction optimization is not supported for " ++
  "non-positive logit scaling factors."

/-- `get_top_tokens` of one row, from the ranks' logits after `_apply_head`; `adjust` is what soft
cap and scale do to a logit. -/
def getTopTokens (scale : ℚ) (adjust : α → α) (parts : Fin v.tp → Fin v.columns → α) :
    Except String (Option ℤ) :=
  if scale ≤ 0 ∧ scale ≠ 1 then .error nonPositiveScaleMessage
  else
    let tops := fun rank => localTop v rank fun col => adjust (parts rank col)
    if h : v.tp = 1 then .ok ((tops ⟨0, by omega⟩).map fun top => (top.2 : ℤ))
    else .ok (elect tops)

end

/-! ## The elected token -/

theorem argmax_isSome {n : ℕ} (hn : 0 < n) (row : Fin n → α) : ∃ t, argmax row = some t := by
  refine Option.isSome_iff_exists.mp (Option.isSome_iff_ne_none.mpr fun hnone => ?_)
  have hempty := List.argmax_eq_none.mp hnone
  rw [← List.length_eq_zero_iff, List.length_finRange] at hempty
  omega

section
variable [OrderBot α] {parts : Fin v.tp → Fin v.columns → α} {rank : Fin v.tp} {col : Fin v.columns}

theorem maskPadding_own (hcol : (col : ℕ) < v.numLocal rank) :
    maskPadding v rank (parts rank) col = parts rank col := by
  have hle := v.numLocal_le rank
  exact if_neg (by omega)

theorem maskPadding_pad (hcol : v.numLocal rank ≤ (col : ℕ)) :
    maskPadding v rank (parts rank) col = ⊥ := by
  have hle := v.numLocal_le rank
  exact if_pos (by omega)

/-- The row of all ranks, as `_get_logits` gathers it. -/
def wholeRow (parts : Fin v.tp → Fin v.columns → α) : Fin v.orgVocabSize → α :=
  gathered (fun rank (_ : Fin 1) => parts rank) 0

/-- What masking leaves of a column, next to the largest logit `t` of the row: less, or the same
and no earlier. -/
theorem maskPadding_le {t : Fin v.orgVocabSize} (ht : argmax (wholeRow parts) = some t)
    (rank : Fin v.tp) (col : Fin v.columns) :
    maskPadding v rank (parts rank) col < wholeRow parts t ∨
      (maskPadding v rank (parts rank) col = wholeRow parts t ∧
        (t : ℕ) ≤ rank * v.columns + col) := by
  have hmax := argmax_eq_some_iff.mp ht
  have hsucc := Nat.add_one_mul (rank : ℕ) v.columns
  rcases Nat.lt_or_ge col (v.numLocal rank) with hown | hpad
  · rw [maskPadding_own hown]
    have hbound := v.startIndex_add_lt hown
    rw [v.startIndex_eq hown] at hbound
    have hvalue : wholeRow parts ⟨rank * v.columns + col, hbound⟩ = parts rank col :=
      gathered_eq _ rfl
    rw [← hvalue]
    exact (hmax _).imp_right fun h => ⟨h.1, h.2⟩
  · rw [maskPadding_pad hpad]
    rcases (bot_le : ⊥ ≤ wholeRow parts t).lt_or_eq with hlt | heq
    · exact .inl hlt
    · -- a rank with padding is the last one with tokens
      refine .inr ⟨heq, ?_⟩
      by_contra hgt
      have hlocal := v.lt_numLocal col.isLt ((Nat.not_le.mp hgt).trans t.isLt)
      omega

/-- The rank of the largest logit has it as its own top. -/
theorem argmax_own {t : Fin v.orgVocabSize} (ht : argmax (wholeRow parts) = some t)
    (hplace : (t : ℕ) = rank * v.columns + col) :
    argmax (maskPadding v rank (parts rank)) = some col ∧
      maskPadding v rank (parts rank) col = wholeRow parts t := by
  have hvalue : wholeRow parts t = parts rank col := gathered_eq _ hplace
  have hown : maskPadding v rank (parts rank) col = wholeRow parts t := by
    rw [hvalue]
    exact maskPadding_own (v.lt_numLocal col.isLt (hplace ▸ t.isLt))
  refine ⟨argmax_eq_some_iff.mpr fun j => ?_, hown⟩
  rw [hown]
  refine (maskPadding_le ht rank j).imp_right fun h => ⟨h.1, ?_⟩
  have hle := h.2
  rw [Fin.le_def]
  omega

theorem globalIndex_eq {t : Fin v.orgVocabSize} (hplace : (t : ℕ) = rank * v.columns + col) :
    v.startIndex rank + col = t := by
  rw [v.startIndex_eq (v.lt_numLocal col.isLt (hplace ▸ t.isLt)), hplace]

/-- The election finds the argmax of the whole row, as long as the ids are exact in float32. -/
theorem elect_eq {t : Fin v.orgVocabSize} (hfloat : v.orgVocabSize ≤ 2 ^ 24)
    (ht : argmax (wholeRow parts) = some t) :
    elect (fun rank => localTop v rank (parts rank)) = some ((t : ℕ) : ℤ) := by
  obtain ⟨rank, col, hplace⟩ := exists_column t
  have hcolumns : 0 < v.columns := Nat.zero_lt_of_lt col.isLt
  choose top htop using fun r => argmax_isSome hcolumns (maskPadding v r (parts r))
  obtain ⟨hown, hvalue⟩ := argmax_own ht hplace
  have hcol : top rank = col := Option.some.inj ((htop rank).symm.trans hown)
  have hpairs : collect (fun r => localTop v r (parts r)) =
      some fun r => (maskPadding v r (parts r) (top r), v.startIndex r + top r) :=
    collect_some fun r => by rw [localTop, htop r]; rfl
  have hbest : argmax (fun r => maskPadding v r (parts r) (top r)) = some rank := by
    refine argmax_eq_some_iff.mpr fun r => ?_
    rw [hcol, hvalue]
    refine (maskPadding_le ht r (top r)).imp_right fun h => ⟨h.1, ?_⟩
    have hle := h.2
    have hlt := (top r).isLt
    rw [Fin.le_def]
    by_contra hgt
    have hblock := Nat.mul_le_mul_right v.columns (Nat.not_le.mp hgt)
    rw [Nat.succ_mul] at hblock
    omega
  have hid : v.startIndex rank + top rank = (t : ℕ) := by
    rw [hcol, globalIndex_eq hplace]
  simp only [elect, hpairs, Option.bind_eq_bind, Option.bind_some, hbest, hid]
  have hsmall := t.isLt
  rw [toFloat32_of_lt (by omega)]
  rfl

/-- The reduction over the ranks and the argmax of the gathered, adjusted row give one token. -/
theorem getTopTokens_eq {scale : ℚ} (hscale : 0 < scale) {adjust : α → α}
    (hfloat : v.orgVocabSize ≤ 2 ^ 24) {t : Fin v.orgVocabSize}
    (ht : argmax (fun t => adjust (wholeRow parts t)) = some t) :
    getTopTokens scale adjust parts = .ok (some ((t : ℕ) : ℤ)) := by
  have hrow : argmax (wholeRow fun rank col => adjust (parts rank col)) = some t := ht
  simp only [getTopTokens]
  rw [if_neg fun h => absurd hscale (not_lt.mpr h.1)]
  split
  · next hsingle =>
    obtain ⟨rank, col, hplace⟩ := exists_column t
    have hrank : ∀ hpos : 0 < v.tp, (⟨0, hpos⟩ : Fin v.tp) = rank := fun hpos => Fin.ext (by
      have hlt := rank.isLt
      show 0 = (rank : ℕ)
      omega)
    rw [hrank, localTop, (argmax_own hrow hplace).1]
    exact congrArg (fun n : ℕ => Except.ok (some (n : ℤ))) (globalIndex_eq hplace)
  · exact congrArg Except.ok (elect_eq hfloat hrow)

/-- After the rescore it is the exactly best token wherever that wins the gathered row. -/
theorem getTopTokens_rescored {H W : Type} {topk : ∀ {n : ℕ}, (Fin n → α) → ℕ → List (Fin n)}
    {dot : W → H → α} {topm : ℤ} {wFull : Fin v.orgVocabSize → W} {R : ℕ} {flat : Fin R → H}
    {quantised : Fin v.tp → Fin R → Fin v.columns → α} {i : Fin R} {best : Fin v.orgVocabSize}
    (hsel : TopkSelects topk) (hfloat : v.orgVocabSize ≤ 2 ^ 24)
    (hfree : NoneOutranks topk dot v topm wFull flat quantised)
    (hbest : argmax (exactRow dot v wFull flat i) = some best)
    (hcand : IsCandidate topk v topm quantised i best) :
    getTopTokens 1 id (fun rank => rescored topk dot v topm wFull flat quantised rank i) =
      .ok (some ((best : ℕ) : ℤ)) := by
  refine getTopTokens_eq one_pos hfloat ?_
  exact (argmax_getLogits_iff hsel hbest hcand).mpr (hfree i best hbest hcand)

end

end SparkKit.Lmhead.TopTokens
