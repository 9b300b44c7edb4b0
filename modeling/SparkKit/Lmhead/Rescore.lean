import SparkKit.Lib.PyRange
import SparkKit.Lib.RowMajor
import SparkKit.Lib.Scatter
import Mathlib.Data.List.FinRange
import Mathlib.Data.List.MinMax
import Mathlib.Data.List.Sort

/-!
# The LM-head rescore

Every rank overwrites the top-M of its quantised logits by exact values, in chunks of 256
rows, and the logits of all ranks are gathered and cut to the vocabulary. `topk` and the exact
dot product are parameters.
-/
namespace SparkKit.Lmhead.Rescore

open SparkKit.Lib.PyRange SparkKit.Lib.RowMajor SparkKit.Lib.Scatter

/-- A vocabulary split over `tp` ranks with as many columns each, and `shard_indices`: a rank's rows
are its columns that are no padding, so its last ones may have none. -/
structure VocabShards where
  tp : ℕ
  columns : ℕ
  orgVocabSize : ℕ
  /-- `org_vocab_start_index` -/
  startIndex : ℕ → ℕ
  /-- `org_vocab_end_index` -/
  endIndex : ℕ → ℕ
  covers : orgVocabSize ≤ tp * columns
  owns_iff : ∀ rank c, c < endIndex rank - startIndex rank ↔
    c < columns ∧ rank * columns + c < orgVocabSize
  starts : ∀ rank, startIndex rank < endIndex rank → startIndex rank = rank * columns

namespace VocabShards
variable (v : VocabShards)

/-- The rows of a rank's sidecar. -/
def numLocal (rank : ℕ) : ℕ := v.endIndex rank - v.startIndex rank

theorem numLocal_le (rank : ℕ) : v.numLocal rank ≤ v.columns := by
  by_contra hlong
  exact lt_irrefl v.columns ((v.owns_iff rank v.columns).mp (not_le.mp hlong)).1

/-- A rank without sidecar rows has only padding; otherwise its first column is its first row. -/
theorem startIndex_eq {rank c : ℕ} (h : c < v.numLocal rank) :
    v.startIndex rank = rank * v.columns :=
  v.starts rank (Nat.lt_of_sub_pos (Nat.zero_lt_of_lt h))

theorem startIndex_add_lt {rank c : ℕ} (h : c < v.numLocal rank) :
    v.startIndex rank + c < v.orgVocabSize := by
  rw [v.startIndex_eq h]
  exact ((v.owns_iff rank c).mp h).2

theorem lt_numLocal {rank c : ℕ} (hc : c < v.columns) (h : rank * v.columns + c < v.orgVocabSize) :
    c < v.numLocal rank :=
  (v.owns_iff rank c).mpr ⟨hc, h⟩

/-- The shards that both ends of a rank's columns give, cut at the vocabulary. -/
def ofColumns (tp columns orgVocabSize : ℕ) (covers : orgVocabSize ≤ tp * columns) :
    VocabShards where
  tp := tp
  columns := columns
  orgVocabSize := orgVocabSize
  startIndex := fun rank => min (rank * columns) orgVocabSize
  endIndex := fun rank => min ((rank + 1) * columns) orgVocabSize
  covers := covers
  owns_iff := fun rank c => by
    have hsucc := Nat.add_one_mul rank columns
    omega
  starts := fun rank hlt => by
    have hsucc := Nat.add_one_mul rank columns
    omega

end VocabShards

/-- `_LMHEAD_V2_CHUNK` -/
def chunk : ℕ := 256

variable {α H W : Type}

section
variable (topk : ∀ {n : ℕ}, (Fin n → α) → ℕ → List (Fin n)) (dot : W → H → α)
variable {n columns R : ℕ} (hn : n ≤ columns) (topm : ℤ) (w : Fin n → W)

/-- `lgc[:, :n_local].topk(m, dim=-1).indices` of one row. -/
def cand (lgc : Fin columns → α) : List (Fin n) :=
  topk (fun c => lgc (c.castLE hn)) (min topm n).toNat

def rescoreRow (h : H) (lgc : Fin columns → α) : Fin columns → α :=
  scatter ((cand topk hn topm lgc).map fun c => (c.castLE hn, dot (w c) h)) lgc

/-- `_lmhead_v2_rescore`; the slices of a turn are views, so it writes the rows in place. -/
def lmheadV2Rescore (flat : Fin R → H) (logits : Fin R → Fin columns → α) :
    Fin R → Fin columns → α :=
  if topm ≤ 0 then logits
  else (pyRange 0 R chunk).foldl (fun lg s i =>
    if s ≤ (i : ℕ) ∧ (i : ℕ) < s + chunk then rescoreRow topk dot hn topm w (flat i) (lg i)
    else lg i) logits

end

section
variable (topk : ∀ {n : ℕ}, (Fin n → α) → ℕ → List (Fin n)) (dot : W → H → α)
variable (v : VocabShards) (topm : ℤ) (wFull : Fin v.orgVocabSize → W) {R : ℕ}

/-- `w_full[org_vocab_start_index : org_vocab_end_index]` -/
def sidecarRows (rank : ℕ) : Fin (v.numLocal rank) → W :=
  fun c => wFull ⟨v.startIndex rank + c, v.startIndex_add_lt c.isLt⟩

/-- The logits of a rank after `_apply_head`. -/
def rescored (flat : Fin R → H) (quantised : Fin v.tp → Fin R → Fin v.columns → α)
    (rank : Fin v.tp) : Fin R → Fin v.columns → α :=
  lmheadV2Rescore topk dot (v.numLocal_le rank) topm (sidecarRows v wFull rank) flat
    (quantised rank)

/-- The parts of all ranks side by side, cut to the vocabulary. With one rank there is one
part. -/
def gathered {v : VocabShards} (parts : Fin v.tp → Fin R → Fin v.columns → α) :
    Fin R → Fin v.orgVocabSize → α :=
  fun i t => flatten (fun rank => parts rank i) (t.castLE v.covers)

/-- `_get_logits` -/
def getLogits (flat : Fin R → H) (quantised : Fin v.tp → Fin R → Fin v.columns → α) :
    Fin R → Fin v.orgVocabSize → α :=
  gathered (rescored topk dot v topm wFull flat quantised)

end

/-! ## Rows and columns -/

section
variable {topk : ∀ {n : ℕ}, (Fin n → α) → ℕ → List (Fin n)} {dot : W → H → α}
variable {n columns : ℕ} {hn : n ≤ columns} {topm : ℤ} {w : Fin n → W}

theorem rescoreRow_cand {h : H} {lgc : Fin columns → α} {c : Fin n}
    (hc : c ∈ cand topk hn topm lgc) :
    rescoreRow topk dot hn topm w h lgc (c.castLE hn) = dot (w c) h := by
  have hwrite : (c.castLE hn, dot (w c) h) ∈
      (cand topk hn topm lgc).map fun c => (c.castLE hn, dot (w c) h) :=
    List.mem_map.mpr ⟨c, hc, rfl⟩
  refine scatter_of_unique hwrite (fun u hu => ?_) lgc
  obtain ⟨c', -, heq⟩ := List.mem_map.mp hu
  obtain ⟨hcol, rfl⟩ := Prod.mk.inj heq
  rw [Fin.castLE_injective hn hcol]

theorem rescoreRow_other {h : H} {lgc : Fin columns → α} {col : Fin columns}
    (hcol : ∀ c ∈ cand topk hn topm lgc, c.castLE hn ≠ col) :
    rescoreRow topk dot hn topm w h lgc col = lgc col := by
  refine scatter_of_notMem (fun u hu => ?_) lgc
  obtain ⟨c, hc, heq⟩ := List.mem_map.mp hu
  exact hcol c hc (Prod.mk.inj heq).1

end

section
variable {v : VocabShards} {R : ℕ} {i : Fin R} {t : Fin v.orgVocabSize}

/-- A token's place in the parts of the ranks. -/
theorem exists_column (t : Fin v.orgVocabSize) :
    ∃ (rank : Fin v.tp) (col : Fin v.columns), (t : ℕ) = rank * v.columns + col := by
  obtain ⟨rank, col, h⟩ := exists_row (t.castLE v.covers)
  refine ⟨rank, col, ?_⟩
  have hval := congrArg Fin.val h
  rw [finProdFinEquiv_apply_val] at hval
  rw [Nat.mul_comm, Nat.add_comm]
  exact hval

theorem gathered_eq (parts : Fin v.tp → Fin R → Fin v.columns → α) {rank : Fin v.tp}
    {col : Fin v.columns} (h : (t : ℕ) = rank * v.columns + col) :
    gathered parts i t = parts rank i col := by
  have hplace : t.castLE v.covers = finProdFinEquiv (rank, col) := by
    refine Fin.ext ?_
    have hcomm : v.columns * (rank : ℕ) = rank * v.columns := Nat.mul_comm ..
    show (t : ℕ) = col + v.columns * rank
    omega
  rw [gathered, hplace, flatten_apply]

/-- The column of a candidate of a rank. -/
theorem token_of_cand {rank : Fin v.tp} (c : Fin (v.numLocal rank))
    (h : v.startIndex rank + c = t) :
    (t : ℕ) = rank * v.columns + c.castLE (v.numLocal_le rank) := by
  rw [← h, v.startIndex_eq c.isLt]
  rfl

end

variable [LinearOrder α]

/-- The first index of the largest entry. -/
def argmax {n : ℕ} (row : Fin n → α) : Option (Fin n) := (List.finRange n).argmax row

/-! ## What the rescore should do -/

/-- The indices are those of `m` largest values. -/
structure TopM {n : ℕ} (values : Fin n → α) (m : ℕ) (chosen : List (Fin n)) : Prop where
  distinct : chosen.Nodup
  length : chosen.length = m
  best : ∀ i ∈ chosen, ∀ j, j ∉ chosen → values j ≤ values i

/-- `torch.topk` returns the indices of `k` largest entries when there are that many. -/
def TopkSelects (topk : ∀ {n : ℕ}, (Fin n → α) → ℕ → List (Fin n)) : Prop :=
  ∀ {n : ℕ} (values : Fin n → α) (k : ℕ), k ≤ n → TopM values k (topk values k)

section
variable (topk : ∀ {n : ℕ}, (Fin n → α) → ℕ → List (Fin n)) (dot : W → H → α)
variable (v : VocabShards) (topm : ℤ) (wFull : Fin v.orgVocabSize → W) {R : ℕ}
variable (flat : Fin R → H) (quantised : Fin v.tp → Fin R → Fin v.columns → α)

/-- The candidates of a rank in row `i`. -/
def rankCand (i : Fin R) (rank : Fin v.tp) : List (Fin (v.numLocal rank)) :=
  cand topk (v.numLocal_le rank) topm (quantised rank i)

/-- A token is among the candidates of its rank. -/
def IsCandidate (i : Fin R) (t : Fin v.orgVocabSize) : Prop :=
  ∃ rank, ∃ c ∈ rankCand topk v topm quantised i rank, v.startIndex rank + c = t

/-- The exact logits of row `i`. -/
def exactRow (i : Fin R) (t : Fin v.orgVocabSize) : α := dot (wFull t) (flat i)

structure KeepsGreedy : Prop where
  topM : ∀ i (rank : Fin v.tp),
    TopM (fun c : Fin (v.numLocal rank) => quantised rank i (c.castLE (v.numLocal_le rank)))
      (min topm (v.numLocal rank)).toNat (rankCand topk v topm quantised i rank)
  replaced : ∀ i (rank : Fin v.tp), ∀ c ∈ rankCand topk v topm quantised i rank,
    rescored topk dot v topm wFull flat quantised rank i (c.castLE (v.numLocal_le rank)) =
      dot (sidecarRows v wFull rank c) (flat i)
  unchanged : ∀ i (rank : Fin v.tp) col,
    (∀ c ∈ rankCand topk v topm quantised i rank, c.castLE (v.numLocal_le rank) ≠ col) →
    rescored topk dot v topm wFull flat quantised rank i col = quantised rank i col
  once : ∀ i < R, (pyRange 0 R chunk).countP (fun s => s ≤ i ∧ i < s + chunk) = 1
  greedy : ∀ i best, argmax (exactRow dot v wFull flat i) = some best →
    IsCandidate topk v topm quantised i best →
    argmax (getLogits topk dot v topm wFull flat quantised i) = some best

/-- Where the exactly best token is a candidate, its exact value is above the quantised value of
every token that is none, or equal to it and of the smaller id. -/
def NoneOutranks : Prop :=
  ∀ i best, argmax (exactRow dot v wFull flat i) = some best →
    IsCandidate topk v topm quantised i best →
    ∀ t, ¬ IsCandidate topk v topm quantised i t →
      gathered quantised i t < exactRow dot v wFull flat i best ∨
        (gathered quantised i t = exactRow dot v wFull flat i best ∧ best < t)

end

/-! ## One rescored row -/

section
variable {topk : ∀ {n : ℕ}, (Fin n → α) → ℕ → List (Fin n)} {dot : W → H → α}
variable {n columns R : ℕ} {hn : n ≤ columns} {topm : ℤ} {w : Fin n → W}

theorem cand_topM (hsel : TopkSelects topk) (lgc : Fin columns → α) :
    TopM (fun c => lgc (c.castLE hn)) (min topm n).toNat (cand topk hn topm lgc) :=
  hsel _ _ (by omega)

/-- Every row is in the slice of one turn, so the loop rescores it once. -/
theorem lmheadV2Rescore_row (hsel : TopkSelects topk) (flat : Fin R → H)
    (logits : Fin R → Fin columns → α) (i : Fin R) :
    lmheadV2Rescore topk dot hn topm w flat logits i =
      rescoreRow topk dot hn topm w (flat i) (logits i) := by
  rw [lmheadV2Rescore]
  split
  · next hoff =>
    have hnone : cand topk hn topm (logits i) = [] := by
      rw [← List.length_eq_zero_iff, (cand_topM hsel _).length]
      omega
    rw [rescoreRow, hnone]
    rfl
  · refine (foldl_rewrites (fun s (i : Fin R) => s ≤ (i : ℕ) ∧ (i : ℕ) < s + chunk)
      (fun i => rescoreRow topk dot hn topm w (flat i)) _ logits i).trans ?_
    rw [countP_windows (by decide) i.isLt, Function.iterate_one]

theorem argmax_eq_some_iff {row : Fin n → α} {t : Fin n} :
    argmax row = some t ↔ ∀ j, row j < row t ∨ (row j = row t ∧ t ≤ j) := by
  rw [argmax, List.argmax_eq_some_iff]
  simp only [List.mem_finRange, List.idxOf_finRange, true_and, forall_const]
  constructor
  · intro h j
    rcases (h.1 j).lt_or_eq with hlt | heq
    · exact .inl hlt
    · exact .inr ⟨heq, h.2 j heq.ge⟩
  · intro h
    refine ⟨fun j => (h j).elim le_of_lt fun h => h.1.le, fun j hle => ?_⟩
    exact (h j).elim (fun hlt => absurd hle (not_le.mpr hlt)) fun h => h.2

end

/-! ## The gathered row -/

section
variable {topk : ∀ {n : ℕ}, (Fin n → α) → ℕ → List (Fin n)} {dot : W → H → α}
variable {v : VocabShards} {topm : ℤ} {wFull : Fin v.orgVocabSize → W} {R : ℕ}
variable {flat : Fin R → H} {quantised : Fin v.tp → Fin R → Fin v.columns → α}
variable {i : Fin R} {t : Fin v.orgVocabSize}

theorem getLogits_cand (hsel : TopkSelects topk) (h : IsCandidate topk v topm quantised i t) :
    getLogits topk dot v topm wFull flat quantised i t = exactRow dot v wFull flat i t := by
  obtain ⟨rank, c, hc, ht⟩ := h
  rw [getLogits, gathered_eq _ (token_of_cand c ht), rescored, lmheadV2Rescore_row hsel,
    rescoreRow_cand hc, sidecarRows, exactRow]
  exact congrArg (fun t => dot (wFull t) (flat i)) (Fin.ext ht)

theorem getLogits_other (hsel : TopkSelects topk) (h : ¬ IsCandidate topk v topm quantised i t) :
    getLogits topk dot v topm wFull flat quantised i t = gathered quantised i t := by
  obtain ⟨rank, col, ht⟩ := exists_column t
  rw [getLogits, gathered_eq _ ht, gathered_eq _ ht, rescored, lmheadV2Rescore_row hsel]
  refine rescoreRow_other fun c hc hcol => h ⟨rank, c, hc, ?_⟩
  rw [ht, ← hcol, v.startIndex_eq c.isLt]
  rfl

/-- An exactly best token that is a candidate wins unless a token left quantised outranks it. -/
theorem argmax_getLogits_iff (hsel : TopkSelects topk) {best : Fin v.orgVocabSize}
    (hbest : argmax (exactRow dot v wFull flat i) = some best)
    (hcand : IsCandidate topk v topm quantised i best) :
    argmax (getLogits topk dot v topm wFull flat quantised i) = some best ↔
      ∀ t, ¬ IsCandidate topk v topm quantised i t →
        gathered quantised i t < exactRow dot v wFull flat i best ∨
          (gathered quantised i t = exactRow dot v wFull flat i best ∧ best < t) := by
  rw [argmax_eq_some_iff, getLogits_cand hsel hcand]
  constructor
  · intro hmax t ht
    have hle := hmax t
    rw [getLogits_other hsel ht] at hle
    refine hle.imp_right fun heq => ⟨heq.1, lt_of_le_of_ne heq.2 fun hsame => ht ?_⟩
    exact hsame ▸ hcand
  · intro h t
    by_cases ht : IsCandidate topk v topm quantised i t
    · rw [getLogits_cand hsel ht]
      exact argmax_eq_some_iff.mp hbest t
    · rw [getLogits_other hsel ht]
      exact (h t ht).imp_right fun heq => ⟨heq.1, heq.2.le⟩

/-- The rescore keeps the greedy token exactly where no token left quantised outranks it. -/
theorem keepsGreedy_iff (hsel : TopkSelects topk) :
    KeepsGreedy topk dot v topm wFull flat quantised ↔
      NoneOutranks topk dot v topm wFull flat quantised := by
  constructor
  · intro h i best hbest hcand
    exact (argmax_getLogits_iff hsel hbest hcand).mp (h.greedy i best hbest hcand)
  · intro h
    refine ⟨fun i rank => cand_topM hsel _, fun i rank c hc => ?_, fun i rank col hcol => ?_,
      fun i hi => countP_windows (by decide) hi, fun i best hbest hcand => ?_⟩
    · rw [rescored, lmheadV2Rescore_row hsel]
      exact rescoreRow_cand hc
    · rw [rescored, lmheadV2Rescore_row hsel]
      exact rescoreRow_other hcol
    · exact (argmax_getLogits_iff hsel hbest hcand).mpr (h i best hbest hcand)

end

/-- A `topk` that sorts. -/
def sortTopk {n : ℕ} (values : Fin n → ℤ) (k : ℕ) : List (Fin n) :=
  ((List.finRange n).insertionSort fun i j => values j ≤ values i).take k

theorem sortTopk_selects : TopkSelects (α := ℤ) sortTopk := by
  intro n values k hk
  have hperm := List.perm_insertionSort (fun i j => values j ≤ values i) (List.finRange n)
  have hsorted := List.pairwise_insertionSort (fun i j => values j ≤ values i) (List.finRange n)
  refine ⟨?_, ?_, ?_⟩
  · exact (hperm.nodup_iff.mpr (List.nodup_finRange n)).sublist (List.take_sublist k _)
  · simp only [sortTopk]
    rw [List.length_take, hperm.length_eq, List.length_finRange]
    omega
  · intro i hi j hj
    simp only [sortTopk] at hi hj
    have hmem := hperm.mem_iff.mpr (List.mem_finRange j)
    rw [← List.take_append_drop k ((List.finRange n).insertionSort _)] at hsorted hmem
    exact (List.pairwise_append.mp hsorted).2.2 i hi j ((List.mem_append.mp hmem).resolve_left hj)

/-- One rank with two tokens and no padding. -/
def twoTokens : VocabShards := .ofColumns 1 2 2 (Nat.le_refl 2)

/-- The exact logits are the weights times the hidden value. -/
def mulDot (w h : ℤ) : ℤ := w * h

theorem keepsGreedy_iff_two_tokens :
    KeepsGreedy sortTopk mulDot twoTokens 1 ![5, 4] (fun _ : Fin 1 => 1) (fun _ _ => ![6, 3]) := by
  refine (keepsGreedy_iff sortTopk_selects).mpr fun i best hbest _ t ht => .inl ?_
  have hfirst : argmax (exactRow mulDot twoTokens ![5, 4] (fun _ : Fin 1 => 1) i) =
      some ⟨0, by decide⟩ := by
    rw [Subsingleton.elim i 0]
    decide
  rw [hfirst] at hbest
  obtain rfl := Option.some.inj hbest
  have hlt : (t : ℕ) < 2 := t.isLt
  rcases Nat.lt_or_ge t 1 with hzero | hone
  · refine absurd ⟨⟨0, by decide⟩, ⟨0, by decide⟩, ?_, ?_⟩ ht
    · rw [Subsingleton.elim i 0]
      decide
    · exact (Nat.lt_one_iff.mp hzero).symm
  · have hval : (t : ℕ) = 1 := by omega
    have ht : t = ⟨1, by decide⟩ := Fin.ext hval
    rw [ht, Subsingleton.elim i 0]
    decide

/-- The quantised logits of two tokens are both too large, and only the first is corrected. -/
theorem quantised_outranks :
    ¬ KeepsGreedy sortTopk mulDot twoTokens 1 ![5, 4] (fun _ : Fin 1 => 1) (fun _ _ => ![8, 7]) := by
  intro h
  have hcand : IsCandidate sortTopk twoTokens 1 (fun _ (_ : Fin 1) => ![8, 7]) 0 ⟨0, by decide⟩ :=
    ⟨⟨0, by decide⟩, ⟨0, by decide⟩, by decide, rfl⟩
  exact absurd (h.greedy 0 ⟨0, by decide⟩ (by decide) hcand) (by decide)

end SparkKit.Lmhead.Rescore
