import SparkKit.Graphs.Coverage

/-!
# When a rung's batch gets its own graph

A shape of the ladder that the base path has captured already is not added to the adaptive
table. A batch of that shape still searches the adaptive table first, so a larger shape of the
same width may serve it.
-/
namespace SparkKit.Graphs.ExactDispatch

open SparkKit.Lib.Outcome
open SparkKit.Graphs.DepthLadder SparkKit.Graphs.Manager SparkKit.Graphs.Tables
open SparkKit.Graphs.Coverage

/-- The base path captures the shape of `n` requests with `q` tokens each. -/
def BaseShape (cfg : ManagerConfig) (q n : ℕ) : Prop :=
  q ∈ baseDecodeQueryLens cfg ∧
    ∃ size ∈ cfg.captureSizes, tooLarge cfg size q = false ∧ roundUp size q = q * n

/-- The shapes the ladder adds to the base ones. -/
def AddedShape (cfg : ManagerConfig) (lens : List ℕ) (q n : ℕ) : Prop :=
  (q ∈ lens ∧ 1 ≤ n ∧ n ≤ min cfg.maxNumReqs 32) ∧ ¬ BaseShape cfg q n

/-- The least added token count from `q * n` on is one of a larger batch of the same width. -/
def Overtaken (cfg : ManagerConfig) (lens : List ℕ) (q n : ℕ) : Prop :=
  ∃ larger, n < larger ∧ AddedShape cfg lens q larger ∧
    ∀ q' n', AddedShape cfg lens q' n' → q * n ≤ q' * n' → q * larger ≤ q' * n'

/-- When the shape is served by its own graph: with a separate decode routine unless it is a base
shape that is overtaken, otherwise only where the mixed graph of that size fits it by chance. -/
def OwnGraph (cfg : ManagerConfig) (lens : List ℕ) (q n : ℕ) : Prop :=
  if cfg.mode.separateRoutine = true then ¬ (BaseShape cfg q n ∧ Overtaken cfg lens q n)
  else cfg.mode.mixedMode = .full ∧ q * n ∈ cfg.captureSizes ∧ n = cfg.maxNumReqs

/-- The descriptor is a captured FULL graph of exactly this batch. -/
structure ServesExactly (m : CudaGraphManager) (q n : ℕ) (d : Desc) : Prop where
  full : d.cgMode = .full
  captured : d ∈ m.graphs
  numTokens : d.numTokens = q * n
  numReqs : d.numReqs = some n

theorem lens_gt_one {cfg : ManagerConfig} (hcfg : Adapts cfg) {lens : List ℕ}
    (h : adaptiveSpecDecodeQueryLens cfg = .ok lens) : ∀ q ∈ lens, 1 < q := by
  obtain ⟨hs, -, ladder, hladder, rfl⟩ := adaptiveLens_ok hcfg h
  intro q hq
  obtain ⟨depth, hdepth, rfl⟩ := List.mem_map.mp hq
  have hrung := (ladder_bounds hladder).2 depth hdepth
  unfold queryLen
  omega

theorem lens_pos {cfg : ManagerConfig} (hcfg : Adapts cfg) {lens : List ℕ}
    (h : adaptiveSpecDecodeQueryLens cfg = .ok lens) : ∀ q ∈ lens, 0 < q := fun q hq =>
  Nat.zero_lt_of_lt (lens_gt_one hcfg h q hq)

/-! ## Where the base descriptors come from -/

/-- The descriptor of a mixed batch of some capture case. -/
def IsMixed (cfg : ManagerConfig) (d : Desc) : Prop :=
  cfg.mode.mixedMode ≠ .none ∧ ∃ case ∈ captureCases cfg, d = mixedDesc cfg case.1 case.2

/-- The decode descriptor of some capture case and query length. -/
def IsDecode (cfg : ManagerConfig) (d : Desc) : Prop :=
  CapturesDecode cfg ∧ ∃ case ∈ captureCases cfg, ∃ q ∈ baseDecodeQueryLens cfg,
    tooLarge cfg case.1 q = false ∧ d = decodeDesc cfg case.1 case.2 q

section
variable {cfg : ManagerConfig} {q n lora : ℕ}

theorem baseStep_origin {b : Built} {case : ℕ × ℕ} (hcase : case ∈ captureCases cfg)
    (hb : ∀ d ∈ b.table, IsMixed cfg d ∨ IsDecode cfg d) :
    ∀ d ∈ (baseStep cfg (baseDecodeQueryLens cfg) b case).table, IsMixed cfg d ∨ IsDecode cfg d := by
  have hmid : ∀ d ∈ (if cfg.mode.separateRoutine = true ∧ cfg.mode.decodeMode ≠ .none then
      (baseDecodeQueryLens cfg).foldl (addDecode cfg case.1 case.2) b else b).table,
      IsMixed cfg d ∨ IsDecode cfg d := by
    split
    · next hon =>
      refine List.foldlRecOn (motive := fun b : Built => ∀ d ∈ b.table, IsMixed cfg d ∨ IsDecode cfg d)
        _ _ hb fun b hb q hq => ?_
      unfold addDecode
      split
      · exact hb
      · next hfits =>
        split
        · exact hb
        · intro d hd
          rcases mem_push_table.mp hd with hd | rfl
          · exact hb d hd
          · exact .inr ⟨hon, case, hcase, q, hq, by simpa using hfits, rfl⟩
    · exact hb
  rw [baseStep]
  unfold addMixed
  split
  · exact hmid
  · next hmixed =>
    intro d hd
    rcases mem_push_table.mp hd with hd | rfl
    · exact hmid d hd
    · exact .inl ⟨hmixed, case, hcase, rfl⟩

theorem baseDescs_origin (cfg : ManagerConfig) :
    ∀ d ∈ (baseDescs cfg).table, IsMixed cfg d ∨ IsDecode cfg d :=
  List.foldlRecOn (motive := fun b : Built => ∀ d ∈ b.table, IsMixed cfg d ∨ IsDecode cfg d)
    _ _ (fun _ hd => absurd hd List.not_mem_nil) fun _ hb _ hcase => baseStep_origin hcase hb

theorem addDecode_keeps (size lora : ℕ) (b : Built) (q : ℕ) :
    b.table ⊆ (addDecode cfg size lora b q).table := by
  intro d hd
  unfold addDecode
  split
  · exact hd
  · split
    · exact hd
    · exact mem_push_table.mpr (.inl hd)

theorem baseStep_keeps (lens : List ℕ) (b : Built) (case : ℕ × ℕ) :
    b.table ⊆ (baseStep cfg lens b case).table ∧
      (cfg.mode.mixedMode ≠ .none →
        mixedDesc cfg case.1 case.2 ∈ (baseStep cfg lens b case).table) := by
  have hmid : b.table ⊆ (if cfg.mode.separateRoutine = true ∧ cfg.mode.decodeMode ≠ .none then
      lens.foldl (addDecode cfg case.1 case.2) b else b).table := by
    split
    · exact List.foldlRecOn (motive := fun mid : Built => b.table ⊆ mid.table) _ _
        (List.Subset.refl _) fun mid hmid q _ =>
          List.Subset.trans hmid (addDecode_keeps _ _ mid q)
    · exact List.Subset.refl _
  rw [baseStep]
  unfold addMixed
  split
  · next hoff => exact ⟨hmid, fun hon => absurd hoff hon⟩
  · exact ⟨fun d hd => mem_push_table.mpr (.inl (hmid hd)), fun _ => mem_push_table.mpr (.inr rfl)⟩

/-- Every capture case has its mixed descriptor. -/
theorem mixedDesc_mem (hmixed : cfg.mode.mixedMode ≠ .none) {case : ℕ × ℕ}
    (hcase : case ∈ captureCases cfg) : mixedDesc cfg case.1 case.2 ∈ (baseDescs cfg).table := by
  suffices hgen : ∀ (cases : List (ℕ × ℕ)) (b : Built),
      b.table ⊆ (cases.foldl (baseStep cfg (baseDecodeQueryLens cfg)) b).table ∧
      ∀ case ∈ cases, mixedDesc cfg case.1 case.2 ∈
        (cases.foldl (baseStep cfg (baseDecodeQueryLens cfg)) b).table from
    (hgen _ _).2 case hcase
  intro cases
  induction cases with
  | nil => exact fun b => ⟨List.Subset.refl _, fun _ hc => absurd hc List.not_mem_nil⟩
  | cons first rest ih =>
    intro b
    rw [List.foldl_cons]
    obtain ⟨hkeep, hnew⟩ := baseStep_keeps (baseDecodeQueryLens cfg) b first
    obtain ⟨hrest, hmem⟩ := ih (baseStep cfg (baseDecodeQueryLens cfg) b first)
    refine ⟨List.Subset.trans hkeep hrest, fun c hc => ?_⟩
    rcases List.mem_cons.mp hc with rfl | hc
    · exact hrest (hnew hmixed)
    · exact hmem c hc

theorem mem_captureCases {size lora : ℕ} :
    (size, lora) ∈ captureCases cfg ↔ size ∈ cfg.captureSizes ∧ lora ∈ cfg.loraCaptureCases := by
  rw [captureCases]
  exact List.mem_product.trans (and_congr_left' (List.mem_insertionSort _))

theorem decodeDesc_eq_exactDesc {size : ℕ} (hq : 0 < q) (h : roundUp size q = q * n) :
    decodeDesc cfg size lora q = exactDesc cfg q n lora := by
  rw [decodeDesc, exactDesc, h, Nat.mul_div_cancel_left n hq]

/-- The exact descriptor of a shape is in the base table when the base path captures it. -/
theorem exactDesc_mem_table (hcfg : Adaptive cfg) {lens : List ℕ} {added : List Desc}
    {m : CudaGraphManager} (h : Initialised cfg lens added m) (hon : CapturesDecode cfg)
    (hq : 0 < q) (hlora : lora ∈ cfg.loraCaptureCases) :
    exactDesc cfg q n lora ∈ (baseDescs cfg).table ↔ BaseShape cfg q n := by
  have hbase := baseInv hcfg.adapts h.lens_ok
  constructor
  · intro hmem
    rcases baseDescs_origin cfg _ hmem with ⟨-, case, -, heq⟩ | ⟨-, case, hcase, q', hq', hfits, heq⟩
    · exact absurd (congrArg Desc.uniformTokenCount heq) (Option.some_ne_none q)
    · obtain rfl : q = q' := Option.some.inj (congrArg Desc.uniformTokenCount heq)
      exact ⟨hq', case.1, (mem_captureCases.mp hcase).1, hfits,
        (congrArg Desc.numTokens heq).symm⟩
  · intro hshape
    obtain ⟨hlen, size, hsize, hfits, hround⟩ := hshape
    have hlisted := hbase.cases hon (size, lora) (mem_captureCases.mpr ⟨hsize, hlora⟩) q hlen hfits
    rw [decodeDesc_eq_exactDesc hq hround] at hlisted
    exact (hbase.filed _ _ hlisted).2

/-- What was added is new to the decode table. -/
theorem adaptiveDescs_fresh {lens : List ℕ} {base : Built} {d : Desc}
    (hd : d ∈ adaptiveDescs cfg lens base) :
    d.key ∉ (base.byMode cfg.mode.decodeMode).map Desc.key := by
  unfold adaptiveDescs at hd
  split at hd
  case isFalse => exact absurd hd List.not_mem_nil
  have hfold := List.foldlRecOn (motive := fun acc : List (ℕ × Option ℕ × Option ℕ × ℕ) × List Desc =>
    (base.byMode cfg.mode.decodeMode).map Desc.key ⊆ acc.1 ∧
      ∀ e ∈ acc.2, e.key ∉ (base.byMode cfg.mode.decodeMode).map Desc.key)
    (adaptiveShapes cfg lens) (adaptiveStep cfg)
    (b := ((base.byMode cfg.mode.decodeMode).map Desc.key, []))
    ⟨List.Subset.refl _, fun _ he => absurd he List.not_mem_nil⟩ ?_
  · exact hfold.2 d hd
  intro acc hacc shape _
  obtain ⟨hseen, hfresh⟩ := hacc
  simp only [adaptiveStep]
  split
  · exact ⟨hseen, hfresh⟩
  split
  · exact ⟨hseen, hfresh⟩
  next hnew =>
  refine ⟨fun k hk => List.mem_cons_of_mem _ (hseen hk), fun e he => ?_⟩
  rcases List.mem_append.mp he with he | he
  · exact hfresh e he
  · rw [List.mem_singleton.mp he]
    exact fun hkey => hnew (hseen hkey)

/-- The added descriptors are those of the added shapes. -/
theorem exactDesc_mem_added (hcfg : Adaptive cfg) {lens : List ℕ} {added : List Desc}
    {m : CudaGraphManager} (h : Initialised cfg lens added m) (hon : CapturesDecode cfg)
    (hlora : lora ∈ cfg.loraCaptureCases) :
    exactDesc cfg q n lora ∈ added ↔ AddedShape cfg lens q n := by
  have hbase := baseInv hcfg.adapts h.lens_ok
  have hlens := lens_pos hcfg.adapts h.lens_ok
  constructor
  · intro hadded
    rw [h.added_eq] at hadded
    obtain ⟨shape, hshape, heq⟩ := adaptiveDescs_exact hadded
    obtain ⟨q', n', lora'⟩ := shape
    obtain rfl : q = q' := Option.some.inj (congrArg Desc.uniformTokenCount heq)
    obtain rfl : n = n' := Option.some.inj (congrArg Desc.numReqs heq)
    obtain ⟨hq, hn, -⟩ := mem_adaptiveShapes.mp hshape
    refine ⟨⟨hq, hn⟩, fun hshape => adaptiveDescs_fresh hadded ?_⟩
    have htable := (exactDesc_mem_table hcfg h hon (hlens q hq) hlora).mpr hshape
    exact List.mem_map_of_mem (hbase.listed _ htable)
  · intro hshape
    have hmem : (q, n, lora) ∈ adaptiveShapes cfg lens :=
      mem_adaptiveShapes.mpr ⟨hshape.1.1, hshape.1.2, hlora⟩
    refine (exact_captured hcfg h hmem).2.resolve_left fun htable => hshape.2 ?_
    exact (exactDesc_mem_table hcfg h hon (hlens q hshape.1.1) hlora).mp htable

theorem shape_of_added (hcfg : Adaptive cfg) {lens : List ℕ} {added : List Desc}
    {m : CudaGraphManager} (h : Initialised cfg lens added m) (hon : CapturesDecode cfg) {d : Desc}
    (hd : d ∈ added) : ∃ q n lora, d = exactDesc cfg q n lora ∧ AddedShape cfg lens q n := by
  have hexact := hd
  rw [h.added_eq] at hexact
  obtain ⟨shape, hshape, rfl⟩ := adaptiveDescs_exact hexact
  obtain ⟨q, n, lora⟩ := shape
  have hlora : lora ∈ cfg.loraCaptureCases := (mem_adaptiveShapes.mp hshape).2.2
  exact ⟨q, n, lora, rfl, (exactDesc_mem_added hcfg h hon hlora).mp hd⟩

end

/-! ## The search with a separate decode routine -/

theorem isCompatible_iff {d : Desc} {q n numTokens lora : ℕ} :
    isCompatible d n numTokens (some q) lora = true ↔
      (d.uniformTokenCount = none ∨ d.uniformTokenCount = some q) ∧
        (∀ reqs, d.numReqs = some reqs → n ≤ reqs) ∧ numTokens ≤ d.numTokens ∧
        d.numActiveLoras = lora := by
  cases hreqs : d.numReqs with
  | none => simp [isCompatible, hreqs, and_assoc]
  | some reqs => simp [isCompatible, hreqs, and_assoc]

theorem find?_unique {p : Desc → Bool} {descs : List Desc} {d : Desc} (hd : d ∈ descs)
    (hp : p d = true) (hunique : ∀ e ∈ descs, p e = true → e = d) : descs.find? p = some d := by
  obtain ⟨e, he⟩ := Option.isSome_iff_exists.mp (List.find?_isSome.mpr ⟨d, hd, hp⟩)
  rw [he, hunique e (List.mem_of_find?_eq_some he) (List.find?_some he)]

theorem exactDesc_compatible {cfg : ManagerConfig} {q n larger lora : ℕ} (h : n ≤ larger) :
    isCompatible (exactDesc cfg q larger lora) n (q * n) (some q) lora = true := by
  refine isCompatible_iff.mpr ⟨.inr rfl, fun reqs hreqs => ?_, Nat.mul_le_mul_left q h, rfl⟩
  rw [← Option.some.inj hreqs]
  exact h

section
variable {cfg : ManagerConfig} {lens : List ℕ} {added : List Desc} {m : CudaGraphManager}
variable {q n lora : ℕ}

theorem capturesDecode (hcfg : Adaptive cfg) (h : Initialised cfg lens added m)
    (hshape : (q, n, lora) ∈ adaptiveShapes cfg lens) : CapturesDecode cfg := by
  refine ⟨hcfg.separate, ?_⟩
  rw [(exact_captured hcfg h hshape).1]
  decide

/-- An added descriptor that the search accepts is a shape of the same width. -/
theorem bucket_added (hcfg : Adaptive cfg) (h : Initialised cfg lens added m)
    (hshape : (q, n, lora) ∈ adaptiveShapes cfg lens) {t : ℕ} {d : Desc}
    (hd : d ∈ bucket added t lora) (hp : isCompatible d n (q * n) (some q) lora = true) :
    ∃ larger, d = exactDesc cfg q larger lora ∧ AddedShape cfg lens q larger ∧ n ≤ larger ∧
      q * larger = t := by
  obtain ⟨hadded, htokens, hlora⟩ := mem_bucket.mp hd
  obtain ⟨huniform, hreqs, -, -⟩ := isCompatible_iff.mp hp
  obtain ⟨q', larger, lora', rfl, hshape'⟩ :=
    shape_of_added hcfg h (capturesDecode hcfg h hshape) hadded
  obtain rfl : lora' = lora := hlora
  obtain rfl : q' = q := Option.some.inj (huniform.resolve_left (Option.some_ne_none q'))
  exact ⟨larger, rfl, hshape', hreqs larger rfl, htokens⟩

/-- The adaptive part of the search when the least added size is the one of a shape of the same
width: that shape serves the batch. -/
theorem adaptive_hit (hcfg : Adaptive cfg) (h : Initialised cfg lens added m)
    (hshape : (q, n, lora) ∈ adaptiveShapes cfg lens) {larger : ℕ} (hle : n ≤ larger)
    (hadded : AddedShape cfg lens q larger)
    (hleast : ∀ q' n', AddedShape cfg lens q' n' → q * n ≤ q' * n' → q * larger ≤ q' * n') :
    ((buildCandidateRanges cfg added (q * n) lora).getD []).find?
        (fun d => isCompatible d n (q * n) (some q) lora) = some (exactDesc cfg q larger lora) := by
  obtain ⟨hq, -, hlora⟩ := mem_adaptiveShapes.mp hshape
  have hon := capturesDecode hcfg h hshape
  have hmem := (exactDesc_mem_added hcfg h hon hlora).mpr hadded
  have hbucket : exactDesc cfg q larger lora ∈ bucket added (q * larger) lora :=
    mem_bucket.mpr ⟨hmem, rfl, rfl⟩
  have hrange := buildCandidateRanges_least cfg added hmem (Nat.mul_le_mul_left q hle)
    (fun e he hge => ?_) hlora (List.ne_nil_of_mem hbucket)
  · rw [hrange]
    refine find?_unique hbucket (exactDesc_compatible hle) fun d hd hp => ?_
    obtain ⟨other, rfl, -, -, htokens⟩ := bucket_added hcfg h hshape hd hp
    rw [Nat.eq_of_mul_eq_mul_left (lens_pos hcfg.adapts h.lens_ok q hq) htokens]
  · obtain ⟨q', n', lora', rfl, hother⟩ := shape_of_added hcfg h hon he
    exact hleast q' n' hother hge

/-- Nothing of the adaptive part accepts a base shape that is not overtaken. -/
theorem adaptive_pass (hcfg : Adaptive cfg) (h : Initialised cfg lens added m)
    (hshape : (q, n, lora) ∈ adaptiveShapes cfg lens) (hbase : BaseShape cfg q n)
    (hfree : ¬ Overtaken cfg lens q n) :
    ((buildCandidateRanges cfg added (q * n) lora).getD []).find?
        (fun d => isCompatible d n (q * n) (some q) lora) = none := by
  have hon := capturesDecode hcfg h hshape
  have hlora : lora ∈ cfg.loraCaptureCases := (mem_adaptiveShapes.mp hshape).2.2
  by_cases hsome : ∃ t, q * n ≤ t ∧ ∃ d ∈ added, d.numTokens = t
  · obtain ⟨hge, d, hd, htokens⟩ := Nat.find_spec hsome
    have hleast : ∀ e ∈ added, q * n ≤ e.numTokens → d.numTokens ≤ e.numTokens := fun e he hge => by
      rw [htokens]
      exact Nat.find_min' hsome ⟨hge, e, he, rfl⟩
    -- the least size has a descriptor for every LoRA case
    have hne : bucket added d.numTokens lora ≠ [] := by
      obtain ⟨q', n', lora', rfl, hother⟩ := shape_of_added hcfg h hon hd
      have hmem := (exactDesc_mem_added hcfg h hon hlora).mpr hother
      exact List.ne_nil_of_mem (mem_bucket.mpr ⟨hmem, rfl, rfl⟩)
    rw [buildCandidateRanges_least cfg added hd (htokens ▸ hge) hleast hlora hne]
    refine List.find?_eq_none.mpr fun e he hp => hfree ?_
    obtain ⟨larger, -, hadded, hle, hsize⟩ := bucket_added hcfg h hshape he hp
    have hlt : n < larger := lt_of_le_of_ne hle fun hsame => hadded.2 (hsame ▸ hbase)
    refine ⟨larger, hlt, hadded, fun q' n' hother hge' => ?_⟩
    rw [hsize]
    exact hleast _ ((exactDesc_mem_added hcfg h hon hlora).mpr hother) hge'
  · rw [buildCandidateRanges_above cfg added (fun d hd => ?_) lora]
    · rfl
    · by_contra hge
      exact hsome ⟨d.numTokens, Nat.not_lt.mp hge, d, hd, rfl⟩

/-- The base part serves a base shape by its own descriptor. -/
theorem base_hit (hcfg : Adaptive cfg) (h : Initialised cfg lens added m)
    (hshape : (q, n, lora) ∈ adaptiveShapes cfg lens) (hbase : BaseShape cfg q n) :
    ((buildCandidateRanges cfg (baseDescs cfg).table (q * n) lora).getD []).find?
        (fun d => isCompatible d n (q * n) (some q) lora) = some (exactDesc cfg q n lora) := by
  have hon := capturesDecode hcfg h hshape
  obtain ⟨hq, -, hlora⟩ := mem_adaptiveShapes.mp hshape
  have hpos := lens_pos hcfg.adapts h.lens_ok q hq
  have hinv := baseInv hcfg.adapts h.lens_ok
  have htable := (exactDesc_mem_table hcfg h hon hpos hlora).mpr hbase
  have hbucket := buildCandidateRanges_exact cfg (baseDescs cfg).table htable hlora
  change buildCandidateRanges cfg (baseDescs cfg).table (q * n) lora = _ at hbucket
  rw [hbucket]
  have hmem := mem_bucket.mpr ⟨htable, rfl, rfl⟩
  have hp : (fun d => isCompatible d n (q * n) (some q) lora) (exactDesc cfg q n lora) = true :=
    exactDesc_compatible (Nat.le_refl n)
  have hsome : ((bucket (baseDescs cfg).table (q * n) lora).find?
      fun d => isCompatible d n (q * n) (some q) lora).isSome :=
    List.find?_isSome.mpr ⟨_, hmem, hp⟩
  obtain ⟨d, hd⟩ := Option.isSome_iff_exists.mp hsome
  have huniform := find?_bucket_uniform hinv.ordered hmem hp (Option.some_ne_none _) hd
  refine hd.trans (congrArg some ?_)
  -- a uniform descriptor of this width and size is the exact one
  obtain ⟨hdtable, htokens, hdlora⟩ := mem_bucket.mp (List.mem_of_find?_eq_some hd)
  have hcompatible : isCompatible d n (q * n) (some q) lora = true := List.find?_some
    (p := fun d => isCompatible d n (q * n) (some q) lora) hd
  have hwidth := (isCompatible_iff.mp hcompatible).1.resolve_left huniform
  rcases baseDescs_origin cfg d hdtable with ⟨-, case, -, rfl⟩ | ⟨-, case, -, q', -, -, rfl⟩
  · exact absurd rfl huniform
  · obtain rfl : q' = q := Option.some.inj hwidth
    obtain rfl : case.2 = lora := hdlora
    exact decodeDesc_eq_exactDesc hpos htokens

end

/-! ## The search without one -/

section
variable {cfg : ManagerConfig} {lens : List ℕ} {added : List Desc} {m : CudaGraphManager}
variable {q n lora : ℕ}

/-- Without a decode routine of its own nothing is added to the base table. -/
theorem candidates_mixed (h : Prepared cfg lens added m)
    (hseparate : cfg.mode.separateRoutine = false) :
    m.candidates = buildCandidateRanges cfg (baseDescs cfg).table := by
  have hnone : added = [] := by
    rw [h.added_eq, adaptiveDescs, if_neg fun hon => by rw [hseparate] at hon; exact nomatch hon.2.1]
  rw [h.candidates, hnone]
  rfl

theorem isMixed_of_mem (hseparate : cfg.mode.separateRoutine = false) {d : Desc}
    (hd : d ∈ (baseDescs cfg).table) : IsMixed cfg d := by
  refine (baseDescs_origin cfg d hd).resolve_right fun hdecode => ?_
  rw [IsDecode, CapturesDecode, hseparate] at hdecode
  exact nomatch hdecode.1.1

/-- A mixed graph of the size of the batch serves it when it has room for the requests. -/
theorem mixed_hit (hmixed : cfg.mode.mixedMode = .full) (hseparate : cfg.mode.separateRoutine = false)
    (hsize : q * n ∈ cfg.captureSizes) (hlora : lora ∈ cfg.loraCaptureCases) (hq : 0 < q)
    (hn : n ≤ cfg.maxNumReqs) :
    ((buildCandidateRanges cfg (baseDescs cfg).table (q * n) lora).getD []).find?
        (fun d => isCompatible d n (q * n) (some q) lora) = some (mixedDesc cfg (q * n) lora) := by
  have hon : cfg.mode.mixedMode ≠ .none := by
    rw [hmixed]
    decide
  have htable := mixedDesc_mem hon (mem_captureCases.mpr ⟨hsize, hlora⟩)
  have hbucket := buildCandidateRanges_exact cfg (baseDescs cfg).table htable hlora
  change buildCandidateRanges cfg (baseDescs cfg).table (q * n) lora = _ at hbucket
  rw [hbucket]
  refine find?_unique (mem_bucket.mpr ⟨htable, rfl, rfl⟩) (isCompatible_iff.mpr ?_) fun d hd _ => ?_
  · refine ⟨.inl rfl, fun reqs hreqs => ?_, Nat.le_refl _, rfl⟩
    rw [mixedDesc, if_pos hmixed] at hreqs
    have hle : n ≤ q * n := Nat.le_mul_of_pos_left n hq
    have hreqs := Option.some.inj hreqs
    omega
  · obtain ⟨hd, htokens, hdlora⟩ := mem_bucket.mp hd
    obtain ⟨-, case, -, rfl⟩ := isMixed_of_mem hseparate hd
    have hsize : case.1 = q * n := htokens
    have hcase : case.2 = lora := hdlora
    rw [hsize, hcase]

end

/-! ## Dispatch -/

section
variable {cfg : ManagerConfig} {lens : List ℕ} {added : List Desc} {m m' : CudaGraphManager}
variable {q n loras : ℕ}

/-- A uniform batch of `n` requests with `q` tokens each is searched for in its candidates. -/
theorem dispatch_eq_find (hcapture : capture m = .ok m') (hn : 1 ≤ n) (hq : 0 < q) {d : Desc}
    (hfind : ((m.candidates (q * n) (resolveEffectiveLoras cfg loras)).getD []).find?
      (fun d => isCompatible d n (q * n) (some q) (resolveEffectiveLoras cfg loras)) = some d) :
    dispatch cfg m' n (q * n) (getUniformTokenCount n (q * n) q) loras = d := by
  obtain ⟨hcandidates, hcaptured⟩ := capture_candidates hcapture
  unfold dispatch
  rw [getUniformTokenCount_uniform hn, if_pos ⟨hcaptured, Nat.mul_pos hq hn⟩, hcandidates, hfind]
  rfl

theorem dispatch_full_find (hcapture : capture m = .ok m') (hn : 1 ≤ n)
    (hfull : (dispatch cfg m' n (q * n) (getUniformTokenCount n (q * n) q) loras).cgMode = .full) :
    ((m.candidates (q * n) (resolveEffectiveLoras cfg loras)).getD []).find?
      (fun d => isCompatible d n (q * n) (some q) (resolveEffectiveLoras cfg loras)) =
        some (dispatch cfg m' n (q * n) (getUniformTokenCount n (q * n) q) loras) := by
  obtain ⟨hcandidates, hcaptured⟩ := capture_candidates hcapture
  unfold dispatch at hfull ⊢
  rw [getUniformTokenCount_uniform hn, hcandidates] at hfull ⊢
  split at hfull
  case isFalse => cases hfull
  next hgo =>
  rw [if_pos hgo]
  cases hfind : ((m.candidates (q * n) (resolveEffectiveLoras cfg loras)).getD []).find?
      (fun d => isCompatible d n (q * n) (some q) (resolveEffectiveLoras cfg loras)) with
  | none =>
    simp only [hfind] at hfull
    cases hfull
  | some d => rfl

/-- The separate routine serves a shape exactly unless it is overtaken. -/
theorem servesExactly_separate (hcfg : Adaptive cfg) (h : Initialised cfg lens added m)
    (hcapture : capture m = .ok m')
    (hshape : (q, n, resolveEffectiveLoras cfg loras) ∈ adaptiveShapes cfg lens) :
    ServesExactly m' q n (dispatch cfg m' n (q * n) (getUniformTokenCount n (q * n) q) loras) ↔
      ¬ (BaseShape cfg q n ∧ Overtaken cfg lens q n) := by
  obtain ⟨hq, ⟨hn, hreqs⟩, hlora⟩ := mem_adaptiveShapes.mp hshape
  have hpos := lens_pos hcfg.adapts h.lens_ok q hq
  obtain ⟨t, hsearch, -⟩ := candidates_find? h
    (fun d => isCompatible d n (q * n) (some q) (resolveEffectiveLoras cfg loras)) (q * n)
    (resolveEffectiveLoras cfg loras)
  rw [List.find?_append] at hsearch
  constructor
  · intro hserves hshape'
    obtain ⟨-, larger, hlt, hadded, hleast⟩ := hshape'
    rw [adaptive_hit hcfg h hshape hlt.le hadded hleast, Option.some_or] at hsearch
    have hdispatch := dispatch_eq_find hcapture hn hpos hsearch
    have htokens := hserves.numTokens
    rw [hdispatch] at htokens
    exact absurd (Nat.eq_of_mul_eq_mul_left hpos htokens) hlt.ne'
  · intro hfree
    have hexact : ((m.candidates (q * n) (resolveEffectiveLoras cfg loras)).getD []).find?
        (fun d => isCompatible d n (q * n) (some q) (resolveEffectiveLoras cfg loras)) =
          some (exactDesc cfg q n (resolveEffectiveLoras cfg loras)) := by
      rw [hsearch]
      by_cases hbase : BaseShape cfg q n
      · rw [adaptive_pass hcfg h hshape hbase fun hover => hfree ⟨hbase, hover⟩, Option.none_or,
          base_hit hcfg h hshape hbase]
      · rw [adaptive_hit hcfg h hshape (Nat.le_refl n) ⟨⟨hq, hn, hreqs⟩, hbase⟩
          (fun _ _ _ hge => hge), Option.some_or]
    rw [dispatch_eq_find hcapture hn hpos hexact]
    obtain ⟨hfull, hwhere⟩ := exact_captured hcfg h hshape
    refine ⟨hfull, mem_graphs_of_capture hcapture ((h.captures .full _).mpr ?_) hfull, rfl, rfl⟩
    rcases hwhere with hwhere | hwhere
    · refine mem_withAdaptive.mpr (.inl ?_)
      have hinv := baseInv hcfg.adapts h.lens_ok
      have hlisted := hinv.listed _ hwhere
      rwa [show (exactDesc cfg q n (resolveEffectiveLoras cfg loras)).cgMode = .full from hfull]
        at hlisted
    · exact mem_withAdaptive.mpr (.inr ⟨hfull.symm, hwhere⟩)

/-- A mixed graph that serves exactly has the size of the batch and all its request slots in
use. -/
theorem mixed_of_servesExactly (hseparate : cfg.mode.separateRoutine = false) (hlt : n < q * n)
    {d : Desc} (hd : d ∈ (baseDescs cfg).table) (hserves : ServesExactly m' q n d) :
    cfg.mode.mixedMode = .full ∧ q * n ∈ cfg.captureSizes ∧ n = cfg.maxNumReqs := by
  obtain ⟨-, case, hcase, rfl⟩ := isMixed_of_mem hseparate hd
  have hfull : cfg.mode.mixedMode = .full := hserves.full
  have hsize : case.1 = q * n := hserves.numTokens
  have hcount := hserves.numReqs
  rw [mixedDesc, if_pos hfull, hsize] at hcount
  have hcount := Option.some.inj hcount
  exact ⟨hfull, hsize ▸ (mem_captureCases.mp hcase).1, by omega⟩

theorem mixed_servesExactly (hcfg : Adapts cfg) (h : Prepared cfg lens added m)
    (hcapture : capture m = .ok m') (hfull : cfg.mode.mixedMode = .full) {lora : ℕ}
    (hsize : q * n ∈ cfg.captureSizes) (hlora : lora ∈ cfg.loraCaptureCases)
    (hslots : min (q * n) cfg.maxNumReqs = n) :
    ServesExactly m' q n (mixedDesc cfg (q * n) lora) := by
  have hon : cfg.mode.mixedMode ≠ .none := by
    rw [hfull]
    decide
  have hmem := mixedDesc_mem hon (mem_captureCases.mpr ⟨hsize, hlora⟩)
  have hmode : (mixedDesc cfg (q * n) lora).cgMode = .full := hfull
  have hlisted := (baseInv hcfg h.lens_ok).listed _ hmem
  rw [hmode] at hlisted
  have hcaptured := (h.captures .full _).mpr (mem_withAdaptive.mpr (.inl hlisted))
  refine ⟨hmode, mem_graphs_of_capture hcapture hcaptured hmode, rfl, ?_⟩
  rw [mixedDesc, if_pos hfull]
  exact congrArg some hslots

/-- Without one a mixed graph has to fit by chance. -/
theorem servesExactly_mixed (hcfg : Adapts cfg) (h : Prepared cfg lens added m)
    (hseparate : cfg.mode.separateRoutine = false) (hcapture : capture m = .ok m')
    (hshape : (q, n, resolveEffectiveLoras cfg loras) ∈ adaptiveShapes cfg lens) :
    ServesExactly m' q n (dispatch cfg m' n (q * n) (getUniformTokenCount n (q * n) q) loras) ↔
      cfg.mode.mixedMode = .full ∧ q * n ∈ cfg.captureSizes ∧ n = cfg.maxNumReqs := by
  obtain ⟨hq, ⟨hn, hreqs⟩, hlora⟩ := mem_adaptiveShapes.mp hshape
  have hlt : n < q * n := by
    have hle := Nat.mul_le_mul_right n (lens_gt_one hcfg h.lens_ok q hq)
    omega
  have hpos := lens_pos hcfg h.lens_ok q hq
  have hcandidates := candidates_mixed h hseparate
  constructor
  · intro hserves
    have hfind := dispatch_full_find hcapture hn hserves.full
    rw [hcandidates] at hfind
    have hmem := List.mem_of_find?_eq_some hfind
    refine mixed_of_servesExactly hseparate hlt ?_ hserves
    cases hrange : buildCandidateRanges cfg (baseDescs cfg).table (q * n)
        (resolveEffectiveLoras cfg loras) with
    | none =>
      rw [hrange] at hmem
      exact absurd hmem List.not_mem_nil
    | some descs =>
      obtain ⟨t, rfl⟩ := buildCandidateRanges_some cfg _ hrange
      rw [hrange] at hmem
      exact (mem_bucket.mp hmem).1
  · intro hfits
    obtain ⟨hfull, hsize, hslots⟩ := hfits
    have hfind := mixed_hit hfull hseparate hsize hlora hpos hslots.le
    rw [← hcandidates] at hfind
    rw [dispatch_eq_find hcapture hn hpos hfind]
    exact mixed_servesExactly hcfg h hcapture hfull hsize hlora (by omega)

end

/-- After a successful initialisation and capture the uniform batch of a rung's width gets the
captured graph of exactly its shape under the condition `OwnGraph` and only then. -/
theorem dispatch_exact_iff {cfg : ManagerConfig} (hcfg : Adapts cfg) {m m' : CudaGraphManager}
    (hinit : initCandidates cfg = .ok m) (hcapture : capture m = .ok m') {ladder : List ℕ}
    (hladder : parseAdaptiveSpecDepthLadder cfg.numSpeculativeTokens cfg.depths = .ok ladder)
    {depth n loras : ℕ} (hrung : depth ∈ ladder) (hn : 1 ≤ n) (hreqs : n ≤ min cfg.maxNumReqs 32)
    (hloras : loras ∈ cfg.loraCaptureCases ∨
      (0 < loras ∧ ∃ case ∈ cfg.loraCaptureCases, 0 < case)) :
    ServesExactly m' (queryLen cfg depth) n (dispatchUniform cfg m' depth n loras) ↔
      OwnGraph cfg (ladder.map (queryLen cfg)) (queryLen cfg depth) n := by
  obtain ⟨lens, added, h⟩ := initCandidates_prepared hcfg hinit
  obtain ⟨-, -, ladder', hladder', rfl⟩ := adaptiveLens_ok hcfg h.lens_ok
  obtain rfl : ladder = ladder' := by
    rw [hladder] at hladder'
    exact Except.ok.inj hladder'
  have hshape : (queryLen cfg depth, n, resolveEffectiveLoras cfg loras) ∈
      adaptiveShapes cfg (ladder.map (queryLen cfg)) :=
    mem_adaptiveShapes.mpr ⟨List.mem_map_of_mem hrung, ⟨hn, hreqs⟩, resolveEffectiveLoras_mem hloras⟩
  rw [OwnGraph]
  split
  · next hseparate =>
    have hadaptive : Adaptive cfg := ⟨hcfg.window, hcfg.verifies, hseparate⟩
    exact servesExactly_separate hadaptive (h.initialised hadaptive) hcapture hshape
  · next hseparate =>
    exact servesExactly_mixed hcfg h (Bool.eq_false_of_not_eq_true hseparate) hcapture hshape

theorem dispatch_exact_small :
    ∃ m m', initCandidates smallConfig = .ok m ∧ capture m = .ok m' ∧
      ServesExactly m' 2 3 (dispatchUniform smallConfig m' 1 3 1) := by
  have hok : (initCandidates smallConfig >>= capture).isOk = true := by decide +kernel
  cases hboth : initCandidates smallConfig >>= capture with
  | error e =>
    rw [hboth] at hok
    cases hok
  | ok m' =>
    obtain ⟨m, hinit, hcapture⟩ := bind_ok hboth
    have hown : OwnGraph smallConfig ([1, 2].map (queryLen smallConfig)) (queryLen smallConfig 1) 3 :=
      fun hshape => absurd hshape.1.1 (by decide)
    have hserves : ServesExactly m' (queryLen smallConfig 1) 3 (dispatchUniform smallConfig m' 1 3 1) :=
      (dispatch_exact_iff ⟨rfl, by decide⟩ hinit hcapture (show _ = Except.ok [1, 2] by decide +kernel)
        (by decide) (by decide) (by decide) (.inr ⟨by decide, 2, by decide, by decide⟩)).mpr hown
    exact ⟨m, m', hinit, hcapture, hserves⟩

/-- Three requests and one depth; the sizes are those of one request and of three. -/
def gapConfig : ManagerConfig where
  maxNumReqs := 3
  decodeQueryLen := 3
  numSpeculativeTokens := 2
  speculative := some ⟨none, some 8⟩
  depths := [some 2]
  captureSizes := [3, 9]
  maxCaptureSize := 9
  loraCaptureCases := [0]
  mode := fullAndPiecewise

/-- The tokens of the graph a uniform batch gets, where initialisation and capture finish. -/
def servedTokens (cfg : ManagerConfig) (depth n loras : ℕ) : Option ℕ :=
  (initCandidates cfg >>= capture).toOption.map fun m =>
    (dispatchUniform cfg m depth n loras).numTokens

/-- One request of three tokens gets the graph of two. -/
theorem single_request_padded :
    Adapts gapConfig ∧
      parseAdaptiveSpecDepthLadder gapConfig.numSpeculativeTokens gapConfig.depths = .ok [2] ∧
      ∃ m m', initCandidates gapConfig = .ok m ∧ capture m = .ok m' ∧
        ¬ ServesExactly m' (queryLen gapConfig 2) 1 (dispatchUniform gapConfig m' 2 1 0) := by
  refine ⟨⟨rfl, by decide⟩, by decide +kernel, ?_⟩
  have htokens : servedTokens gapConfig 2 1 0 = some 6 := by decide +kernel
  rw [servedTokens] at htokens
  cases hboth : initCandidates gapConfig >>= capture with
  | error e =>
    rw [hboth] at htokens
    cases htokens
  | ok m' =>
    rw [hboth] at htokens
    obtain ⟨m, hinit, hcapture⟩ := bind_ok hboth
    refine ⟨m, m', hinit, hcapture, fun hserves => ?_⟩
    have hsix : (dispatchUniform gapConfig m' 2 1 0).numTokens = 6 := Option.some.inj htokens
    rw [hserves.numTokens] at hsix
    exact absurd hsix (by decide)

end SparkKit.Graphs.ExactDispatch
