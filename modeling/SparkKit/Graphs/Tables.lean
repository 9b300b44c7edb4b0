import SparkKit.Lib.Outcome
import SparkKit.Graphs.Manager
import Mathlib.Data.List.Induction

/-!
# What the dispatch tables hold

Facts about the loops that fill the tables: every list entry is a bucket of the table it
was built from, an exact token count finds its own bucket, merging keeps the order of a
search, and in a bucket of the base table the uniform decode shapes come first.
-/
namespace SparkKit.Graphs.Tables

open SparkKit.Lib.Outcome
open SparkKit.Graphs.DepthLadder SparkKit.Graphs.Manager

/-! ## Merging -/

theorem find?_mergeDescs (p : Desc → Bool) (adaptive base : List Desc) :
    (mergeDescs adaptive base).find? p = (adaptive ++ base).find? p := by
  induction base generalizing adaptive with
  | nil => rw [mergeDescs, List.foldl_nil, List.append_nil]
  | cons d base ih =>
    show (mergeDescs (if d ∈ adaptive then adaptive else adaptive ++ [d]) base).find? p = _
    rw [ih]
    by_cases hd : d ∈ adaptive
    · rw [if_pos hd, List.find?_append, List.find?_append]
      cases hp : p d with
      | true =>
        obtain ⟨e, he⟩ := Option.isSome_iff_exists.mp (List.find?_isSome.mpr ⟨d, hd, hp⟩)
        rw [he]
        rfl
      | false => rw [List.find?_cons_of_neg (by simp [hp])]
    · rw [if_neg hd, List.append_assoc, List.singleton_append]

/-! ## Ranges -/

theorem mem_bucket {table : List Desc} {numTokens lora : ℕ} {d : Desc} :
    d ∈ bucket table numTokens lora ↔
      d ∈ table ∧ d.numTokens = numTokens ∧ d.numActiveLoras = lora := by
  simp [bucket]

section
variable (cfg : ManagerConfig) (table : List Desc)

/-- Later ranges leave earlier token counts alone. -/
theorem rangeFold_below {sizes : List ℕ} (acc : Candidates × ℕ) (hle : ∀ t ∈ sizes, acc.2 ≤ t)
    (hsorted : sizes.Pairwise (· < ·)) {i : ℕ} (hi : i < acc.2) (lora : ℕ) :
    (sizes.foldl (rangeStep cfg table) acc).1 i lora = acc.1 i lora := by
  induction sizes generalizing acc with
  | nil => rfl
  | cons t sizes ih =>
    rw [List.pairwise_cons] at hsorted
    have ht := hle t List.mem_cons_self
    rw [List.foldl_cons, ih (rangeStep cfg table acc t) (fun u hu => hsorted.1 u hu) hsorted.2
      (show i < t + 1 by omega)]
    exact if_neg (by omega)

/-- A token count finds the bucket of the least size that can hold it. -/
theorem rangeFold_least {sizes : List ℕ} (acc : Candidates × ℕ) (hle : ∀ t ∈ sizes, acc.2 ≤ t)
    (hsorted : sizes.Pairwise (· < ·)) {i t lora : ℕ} (hi : acc.2 ≤ i) (ht : t ∈ sizes) (hit : i ≤ t)
    (hleast : ∀ u ∈ sizes, i ≤ u → t ≤ u) (hlora : lora ∈ cfg.loraCaptureCases)
    (hne : bucket table t lora ≠ []) :
    (sizes.foldl (rangeStep cfg table) acc).1 i lora = some (bucket table t lora) := by
  induction sizes generalizing acc with
  | nil => cases ht
  | cons u sizes ih =>
    have hu := hle u List.mem_cons_self
    rw [List.pairwise_cons] at hsorted
    rw [List.foldl_cons]
    rcases List.mem_cons.mp ht with rfl | ht
    · rw [rangeFold_below cfg table (rangeStep cfg table acc t) (fun v hv => hsorted.1 v hv)
        hsorted.2 (show i < t + 1 by omega)]
      exact if_pos ⟨hi, hit, hlora, hne⟩
    · have hbelow : u < i := by
        by_contra hge
        have hut := hsorted.1 t ht
        have htu := hleast u List.mem_cons_self (by omega)
        omega
      exact ih (rangeStep cfg table acc u) (fun v hv => hsorted.1 v hv) hsorted.2 hbelow ht
        fun v hv => hleast v (List.mem_cons_of_mem _ hv)

/-- Above all sizes there are no candidates. -/
theorem rangeFold_above {sizes : List ℕ} (acc : Candidates × ℕ) {i : ℕ} (h : ∀ t ∈ sizes, t < i)
    (lora : ℕ) : (sizes.foldl (rangeStep cfg table) acc).1 i lora = acc.1 i lora := by
  induction sizes generalizing acc with
  | nil => rfl
  | cons u sizes ih =>
    rw [List.foldl_cons, ih (rangeStep cfg table acc u) fun t ht => h t (List.mem_cons_of_mem _ ht)]
    have hu := h u List.mem_cons_self
    exact if_neg (by omega)

theorem sortedSet_pairwise (xs : List ℕ) : (sortedSet xs).Pairwise (· < ·) := by
  have hsorted := List.pairwise_insertionSort (· ≤ ·) xs.dedup
  have hnodup : (sortedSet xs).Nodup :=
    (List.perm_insertionSort (· ≤ ·) xs.dedup).nodup_iff.mpr (List.nodup_dedup xs)
  exact (hsorted.and hnodup).imp fun h => by omega

theorem buildCandidateRanges_least {i lora : ℕ} {d : Desc} (hd : d ∈ table) (hi : i ≤ d.numTokens)
    (hleast : ∀ e ∈ table, i ≤ e.numTokens → d.numTokens ≤ e.numTokens)
    (hlora : lora ∈ cfg.loraCaptureCases) (hne : bucket table d.numTokens lora ≠ []) :
    buildCandidateRanges cfg table i lora = some (bucket table d.numTokens lora) := by
  refine rangeFold_least cfg table _ (fun _ _ => Nat.zero_le _) (sortedSet_pairwise _)
    (Nat.zero_le i) (mem_sortedSet.mpr (List.mem_map_of_mem hd)) hi (fun u hu hiu => ?_) hlora hne
  obtain ⟨e, he, rfl⟩ := List.mem_map.mp (mem_sortedSet.mp hu)
  exact hleast e he hiu

/-- A token count of the table finds its own bucket. -/
theorem buildCandidateRanges_exact {d : Desc} (hd : d ∈ table)
    (hlora : d.numActiveLoras ∈ cfg.loraCaptureCases) :
    buildCandidateRanges cfg table d.numTokens d.numActiveLoras =
      some (bucket table d.numTokens d.numActiveLoras) :=
  buildCandidateRanges_least cfg table hd (Nat.le_refl _) (fun _ _ h => h) hlora
    (List.ne_nil_of_mem (mem_bucket.mpr ⟨hd, rfl, rfl⟩))

theorem buildCandidateRanges_above {i : ℕ} (h : ∀ d ∈ table, d.numTokens < i) (lora : ℕ) :
    buildCandidateRanges cfg table i lora = none := by
  refine rangeFold_above cfg table _ (fun t ht => ?_) lora
  obtain ⟨d, hd, rfl⟩ := List.mem_map.mp (mem_sortedSet.mp ht)
  exact h d hd

/-- Every candidate list is a bucket. -/
theorem buildCandidateRanges_some {i lora : ℕ} {descs : List Desc}
    (h : buildCandidateRanges cfg table i lora = some descs) :
    ∃ t, descs = bucket table t lora := by
  suffices hgen : ∀ (sizes : List ℕ) (acc : Candidates × ℕ),
      (∀ ds, acc.1 i lora = some ds → ∃ t, ds = bucket table t lora) →
      ∀ ds, (sizes.foldl (rangeStep cfg table) acc).1 i lora = some ds →
        ∃ t, ds = bucket table t lora from
    hgen _ _ (fun _ hds => by cases hds) descs h
  intro sizes
  induction sizes with
  | nil => exact fun acc hacc => hacc
  | cons t sizes ih =>
    intro acc hacc
    rw [List.foldl_cons]
    refine ih _ fun ds hds => ?_
    simp only [rangeStep] at hds
    split at hds
    · exact ⟨t, (Option.some.inj hds).symm⟩
    · exact hacc ds hds

end

/-! ## The base table -/

/-- A mixed shape has no uniform shape of its own bucket after it. -/
def NoDecodeAfter (a b : Desc) : Prop :=
  a.uniformTokenCount = none → a.numTokens = b.numTokens → a.numActiveLoras = b.numActiveLoras →
    b.uniformTokenCount = none

/-- The decode shape of a capture case is listed, unless it is too large. -/
def Listed (cfg : ManagerConfig) (b : Built) (case : ℕ × ℕ) (queryLen : ℕ) : Prop :=
  tooLarge cfg case.1 queryLen = false →
    decodeDesc cfg case.1 case.2 queryLen ∈ b.byMode cfg.mode.decodeMode

/-- The decode routine is on, so decode shapes are captured. -/
def CapturesDecode (cfg : ManagerConfig) : Prop :=
  cfg.mode.separateRoutine = true ∧ cfg.mode.decodeMode ≠ .none

instance (cfg : ManagerConfig) : Decidable (CapturesDecode cfg) :=
  inferInstanceAs (Decidable (_ ∧ _))

/-- What the base loop keeps, after the capture cases `done`. -/
structure BaseInv (cfg : ManagerConfig) (decodeQueryLens : List ℕ) (done : List (ℕ × ℕ))
    (b : Built) : Prop where
  filed : ∀ mode, ∀ d ∈ b.byMode mode, d.cgMode = mode ∧ d ∈ b.table
  listed : ∀ d ∈ b.table, d ∈ b.byMode d.cgMode
  decode : ∀ d ∈ b.table, d.uniformTokenCount ≠ none → d.cgMode = cfg.mode.decodeMode
  lora : ∀ d ∈ b.table, d.numActiveLoras ∈ cfg.loraCaptureCases
  mixed : ∀ d ∈ b.table, d.uniformTokenCount = none → (d.numTokens, d.numActiveLoras) ∈ done
  cases : CapturesDecode cfg → ∀ case ∈ done, ∀ q ∈ decodeQueryLens, Listed cfg b case q
  ordered : b.table.Pairwise NoDecodeAfter

theorem mem_push_byMode {b : Built} {mode mode' : GraphMode} {desc d : Desc} :
    d ∈ (b.push mode desc).byMode mode' ↔ d ∈ b.byMode mode' ∨ (mode' = mode ∧ d = desc) := by
  simp only [Built.push]
  by_cases hm : mode' = mode
  · subst hm
    simp
  · simp [hm]

theorem mem_push_table {b : Built} {mode : GraphMode} {desc d : Desc} :
    d ∈ (b.push mode desc).table ↔ d ∈ b.table ∨ d = desc := by
  simp [Built.push]

theorem le_roundUp {x multiple : ℕ} (h : 0 < multiple) : x ≤ roundUp x multiple := by
  unfold roundUp
  have hdiv := Nat.div_add_mod (x + multiple - 1) multiple
  have hmod := Nat.mod_lt (x + multiple - 1) h
  rw [Nat.mul_comm]
  omega

section
variable {cfg : ManagerConfig} {decodeQueryLens : List ℕ} {done : List (ℕ × ℕ)} {b : Built}

/-- Pushing one descriptor keeps the invariant when it fits behind the bucket's others. -/
theorem BaseInv.push (h : BaseInv cfg decodeQueryLens done b) {mode : GraphMode} {desc : Desc}
    {done' : List (ℕ × ℕ)} (hmode : desc.cgMode = mode) (hdone : ∀ case ∈ done, case ∈ done')
    (hdecode : desc.uniformTokenCount ≠ none → mode = cfg.mode.decodeMode)
    (hlora : desc.numActiveLoras ∈ cfg.loraCaptureCases)
    (hmixed : desc.uniformTokenCount = none → (desc.numTokens, desc.numActiveLoras) ∈ done')
    (hcases : CapturesDecode cfg → ∀ case ∈ done', ∀ q ∈ decodeQueryLens,
      Listed cfg (b.push mode desc) case q)
    (hordered : ∀ d ∈ b.table, NoDecodeAfter d desc) :
    BaseInv cfg decodeQueryLens done' (b.push mode desc) where
  filed := fun m d hd => by
    rcases mem_push_byMode.mp hd with hd | ⟨rfl, rfl⟩
    · exact ⟨(h.filed m d hd).1, mem_push_table.mpr (.inl (h.filed m d hd).2)⟩
    · exact ⟨hmode, mem_push_table.mpr (.inr rfl)⟩
  listed := fun d hd => by
    rcases mem_push_table.mp hd with hd | rfl
    · exact mem_push_byMode.mpr (.inl (h.listed d hd))
    · exact mem_push_byMode.mpr (.inr ⟨hmode, rfl⟩)
  decode := fun d hd hne => by
    rcases mem_push_table.mp hd with hd | rfl
    · exact h.decode d hd hne
    · exact hmode.trans (hdecode hne)
  lora := fun d hd => by
    rcases mem_push_table.mp hd with hd | rfl
    · exact h.lora d hd
    · exact hlora
  mixed := fun d hd hnone => by
    rcases mem_push_table.mp hd with hd | rfl
    · exact hdone _ (h.mixed d hd hnone)
    · exact hmixed hnone
  cases := hcases
  ordered := by
    refine List.pairwise_append.mpr ⟨h.ordered, List.pairwise_singleton _ _, fun d hd e he => ?_⟩
    rw [List.mem_singleton.mp he]
    exact hordered d hd

theorem Listed.push {case : ℕ × ℕ} {q : ℕ} (h : Listed cfg b case q) (mode : GraphMode)
    (desc : Desc) : Listed cfg (b.push mode desc) case q := fun hsize =>
  mem_push_byMode.mpr (.inl (h hsize))

/-- One decode shape keeps the invariant: a bucket that already has its mixed shape has
had all its capture cases, so the decode shape is there already. -/
theorem addDecode_inv (h : BaseInv cfg decodeQueryLens done b) {size lora : ℕ}
    (hsize : ∀ case ∈ done, case.1 ≤ size) (hlora : lora ∈ cfg.loraCaptureCases)
    (hon : CapturesDecode cfg) {q : ℕ} (hq : q ∈ decodeQueryLens) (hpos : 0 < q) :
    BaseInv cfg decodeQueryLens done (addDecode cfg size lora b q) ∧
      Listed cfg (addDecode cfg size lora b q) (size, lora) q ∧
      ∀ case q', Listed cfg b case q' → Listed cfg (addDecode cfg size lora b q) case q' := by
  unfold addDecode
  by_cases hlarge : tooLarge cfg size q = true
  · rw [if_pos hlarge]
    exact ⟨h, fun hfit => absurd (hlarge.symm.trans hfit) (by decide), fun _ _ => id⟩
  rw [if_neg hlarge]
  by_cases hthere : decodeDesc cfg size lora q ∈ b.byMode cfg.mode.decodeMode
  · rw [if_pos hthere]
    exact ⟨h, fun _ => hthere, fun _ _ => id⟩
  rw [if_neg hthere]
  refine ⟨?_, fun _ => mem_push_byMode.mpr (.inr ⟨rfl, rfl⟩), fun _ _ hl => hl.push _ _⟩
  refine h.push rfl (fun _ => id) (fun _ => rfl) hlora (fun hnone => by cases hnone)
    (fun hon case hcase q' hq' => (h.cases hon case hcase q' hq').push _ _) ?_
  intro d hd hnone htokens hsame
  have hdone := h.mixed d hd hnone
  rw [htokens, hsame] at hdone
  have hle : roundUp size q ≤ size := hsize _ hdone
  have heq : roundUp size q = size := Nat.le_antisymm hle (le_roundUp hpos)
  have hcase : (size, lora) ∈ done := by
    rw [← heq]
    exact hdone
  exact absurd (h.cases hon _ hcase q hq (by simpa using hlarge)) hthere

/-- One capture case keeps the invariant. -/
theorem baseStep_inv (h : BaseInv cfg decodeQueryLens done b) {case : ℕ × ℕ}
    (hsize : ∀ c ∈ done, c.1 ≤ case.1) (hlora : case.2 ∈ cfg.loraCaptureCases)
    (hpos : ∀ q ∈ decodeQueryLens, 0 < q) :
    BaseInv cfg decodeQueryLens (done ++ [case]) (baseStep cfg decodeQueryLens b case) := by
  have hdecodes : ∀ (qs : List ℕ), (∀ q ∈ qs, q ∈ decodeQueryLens) → CapturesDecode cfg →
      BaseInv cfg decodeQueryLens done (qs.foldl (addDecode cfg case.1 case.2) b) ∧
        ∀ q ∈ qs, Listed cfg (qs.foldl (addDecode cfg case.1 case.2) b) case q := by
    intro qs hqs hon
    induction qs using List.reverseRecOn with
    | nil => exact ⟨h, fun q hq => by cases hq⟩
    | append_singleton qs q ih =>
      obtain ⟨hinv, hlisted⟩ := ih fun x hx => hqs x (List.mem_append_left _ hx)
      have hq := hqs q (List.mem_append_right _ List.mem_cons_self)
      obtain ⟨hinv', hnew, hkeep⟩ := addDecode_inv hinv hsize hlora hon hq (hpos q hq)
      rw [List.foldl_append, List.foldl_cons, List.foldl_nil]
      refine ⟨hinv', fun x hx => ?_⟩
      rcases List.mem_append.mp hx with hx | hx
      · exact hkeep _ _ (hlisted x hx)
      · rw [List.mem_singleton.mp hx]
        exact hnew
  have hmid : ∃ mid, mid = (if cfg.mode.separateRoutine = true ∧ cfg.mode.decodeMode ≠ .none then
        decodeQueryLens.foldl (addDecode cfg case.1 case.2) b else b) ∧
      BaseInv cfg decodeQueryLens done mid ∧
      (CapturesDecode cfg → ∀ q ∈ decodeQueryLens, Listed cfg mid case q) := by
    by_cases hon : CapturesDecode cfg
    · obtain ⟨hinv, hlisted⟩ := hdecodes decodeQueryLens (fun _ => id) hon
      exact ⟨_, (if_pos hon).symm, hinv, fun _ => hlisted⟩
    · exact ⟨_, (if_neg hon).symm, h, fun hon' => absurd hon' hon⟩
  obtain ⟨mid, hmid, hinv, hlisted⟩ := hmid
  rw [baseStep, ← hmid]
  have hcases : CapturesDecode cfg → ∀ c ∈ done ++ [case], ∀ q ∈ decodeQueryLens,
      Listed cfg mid c q := by
    intro hon c hc q hq
    rcases List.mem_append.mp hc with hc | hc
    · exact hinv.cases hon c hc q hq
    · rw [List.mem_singleton.mp hc]
      exact hlisted hon q hq
  unfold addMixed
  split
  · exact { hinv with
      mixed := fun d hd hnone => List.mem_append_left _ (hinv.mixed d hd hnone)
      cases := hcases }
  · exact hinv.push rfl (fun c hc => List.mem_append_left _ hc) (fun hne => absurd rfl hne) hlora
      (fun _ => List.mem_append_right _ List.mem_cons_self)
      (fun hon c hc q hq => (hcases hon c hc q hq).push _ _) (fun _ _ _ _ _ => rfl)

end

/-- The base loop ends with its invariant over all capture cases. -/
theorem baseDescs_inv (cfg : ManagerConfig) (hpos : ∀ q ∈ baseDecodeQueryLens cfg, 0 < q) :
    BaseInv cfg (baseDecodeQueryLens cfg) (captureCases cfg) (baseDescs cfg) := by
  have hsorted : (captureCases cfg).Pairwise fun a b => a.1 ≤ b.1 := by
    refine List.pairwise_flatMap.mpr ⟨fun size _ => ?_, ?_⟩
    · refine List.pairwise_map.mpr (List.pairwise_of_forall fun _ _ => Nat.le_refl _)
    · refine (List.pairwise_insertionSort (· ≤ ·) cfg.captureSizes).imp fun hle x hx y hy => ?_
      obtain ⟨_, -, rfl⟩ := List.mem_map.mp hx
      obtain ⟨_, -, rfl⟩ := List.mem_map.mp hy
      exact hle
  suffices hgen : ∀ done rest, captureCases cfg = done ++ rest → ∀ b,
      BaseInv cfg (baseDecodeQueryLens cfg) done b →
      BaseInv cfg (baseDecodeQueryLens cfg) (done ++ rest)
        (rest.foldl (baseStep cfg (baseDecodeQueryLens cfg)) b) by
    refine hgen [] _ rfl _ ⟨?_, ?_, ?_, ?_, ?_, ?_, List.Pairwise.nil⟩
    · exact fun _ _ hd => by cases hd
    · exact fun _ hd => by cases hd
    · exact fun _ hd => by cases hd
    · exact fun _ hd => by cases hd
    · exact fun _ hd => by cases hd
    · exact fun _ _ hc => by cases hc
  intro done rest hsplit b hinv
  induction rest generalizing done b with
  | nil => simpa using hinv
  | cons case rest ih =>
    rw [hsplit, List.pairwise_append] at hsorted
    have hcase : case ∈ captureCases cfg := by
      rw [hsplit]
      exact List.mem_append_right _ List.mem_cons_self
    have hlora : case.2 ∈ cfg.loraCaptureCases := (List.mem_product.mp hcase).2
    have hstep := baseStep_inv hinv (fun c hc => hsorted.2.2 c hc case List.mem_cons_self) hlora hpos
    have hrest := ih (done ++ [case]) (by rw [hsplit, List.append_assoc]; rfl) _ hstep
    rwa [List.append_assoc] at hrest

end SparkKit.Graphs.Tables
