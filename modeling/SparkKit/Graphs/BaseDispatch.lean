import SparkKit.Graphs.Coverage

/-!
# Adaptation leaves the base dispatch alone

The adaptive descriptors stand in front of the base ones, and each of them serves uniform
batches of one rung only. A batch that is not uniform in a rung's width passes them by and
finds what it finds without adaptation.
-/
namespace SparkKit.Graphs.BaseDispatch

open SparkKit.Lib.Outcome
open SparkKit.Graphs.DepthLadder SparkKit.Graphs.Manager SparkKit.Graphs.Tables
open SparkKit.Graphs.Coverage (queryLen adaptiveDescs_exact capture_candidates)

/-- The same run with acceptance-length adaptation disabled. -/
def withoutAdaptation (cfg : ManagerConfig) : ManagerConfig :=
  { cfg with speculative := cfg.speculative.map fun sc => { sc with adaptiveWindow := none } }

section
variable {cfg : ManagerConfig} {m m' base : CudaGraphManager}

theorem baseDescs_withoutAdaptation (cfg : ManagerConfig) :
    baseDescs (withoutAdaptation cfg) = baseDescs cfg := by
  have hlens : baseDecodeQueryLens (withoutAdaptation cfg) = baseDecodeQueryLens cfg := by
    cases cfg with
    | mk _ _ _ speculative _ _ _ _ _ => cases speculative <;> rfl
  rw [baseDescs, hlens]
  rfl

theorem adaptiveSpecDecodeQueryLens_withoutAdaptation (cfg : ManagerConfig) :
    adaptiveSpecDecodeQueryLens (withoutAdaptation cfg) = .ok [] := by
  have huses : usesAcceptanceLengthAdaptation (withoutAdaptation cfg) = false := by
    cases cfg with
    | mk _ _ _ speculative _ _ _ _ _ => cases speculative <;> rfl
  rw [adaptiveSpecDecodeQueryLens, if_pos (Or.inr huses)]

theorem adaptiveDescs_nil (cfg : ManagerConfig) (b : Built) : adaptiveDescs cfg [] b = [] := by
  rw [adaptiveDescs, if_neg fun h => h.1 rfl]

/-- The query lengths are the ladder's, when there are any. -/
theorem adaptiveLens_ladder {lens : List ℕ} (h : adaptiveSpecDecodeQueryLens cfg = .ok lens)
    (hne : lens ≠ []) :
    ∃ ladder, parseAdaptiveSpecDepthLadder cfg.numSpeculativeTokens cfg.depths = .ok ladder ∧
      lens = ladder.map (queryLen cfg) := by
  rw [adaptiveSpecDecodeQueryLens] at h
  split at h
  case isTrue => exact absurd (Except.ok.inj h).symm hne
  split at h
  case isTrue => cases h
  split at h
  case isTrue => cases h
  obtain ⟨ladder, hladder, h⟩ := bind_ok h
  simp only at h
  split at h
  case isTrue => cases h
  exact ⟨ladder, hladder, (Except.ok.inj h).symm⟩

/-! ## Two managers side by side -/

/-- The descriptors `capture` keeps a graph of. -/
def graphDescs (m : CudaGraphManager) : List Desc :=
  (m.captureDescs .piecewise ++ m.captureDescs .full).filter fun d => d.cgMode ≠ .piecewise

/-- The manager `m` only adds descriptors of the query lengths `lens` to `base`. -/
structure Layered (lens : List ℕ) (m base : CudaGraphManager) : Prop where
  search : ∀ p : Desc → Bool,
    (∀ d, (∃ q ∈ lens, d.uniformTokenCount = some q) → p d = false) → ∀ numTokens lora,
      ((m.candidates numTokens lora).getD []).find? p =
        ((base.candidates numTokens lora).getD []).find? p
  captures : ∀ mode d, (base.captureDescs mode).count d ≤ (m.captureDescs mode).count d
  fresh : m.graphs = [] ∧ base.graphs = []

theorem Layered.refl {lens : List ℕ} (h : m.graphs = []) : Layered lens m m :=
  ⟨fun _ _ _ _ => rfl, fun _ _ => Nat.le_refl _, h, h⟩

/-- Capturing succeeds exactly when no graph would be captured twice. -/
theorem foldlM_captureDesc (descs : List Desc) {graphs : List Desc} (hgraphs : graphs.Nodup) :
    (∃ graphs', descs.foldlM captureDesc graphs = .ok graphs') ↔
      (graphs ++ descs.filter fun d => d.cgMode ≠ .piecewise).Nodup := by
  induction descs generalizing graphs with
  | nil => exact ⟨fun _ => by simpa using hgraphs, fun _ => ⟨graphs, rfl⟩⟩
  | cons d descs ih =>
    rw [List.foldlM_cons]
    by_cases hpiecewise : d.cgMode = .piecewise
    · have hskip : captureDesc graphs d = .ok graphs := if_pos hpiecewise
      have hfilter : (d :: descs).filter (fun d => d.cgMode ≠ .piecewise) =
          descs.filter fun d => d.cgMode ≠ .piecewise := by simp [hpiecewise]
      rw [hskip, hfilter, ← ih hgraphs]
      rfl
    have hfilter : (d :: descs).filter (fun d => d.cgMode ≠ .piecewise) =
        d :: descs.filter fun d => d.cgMode ≠ .piecewise := by simp [hpiecewise]
    rw [hfilter]
    by_cases hmem : d ∈ graphs
    · have hraise : captureDesc graphs d = .error "Graph already captured" := by
        rw [captureDesc, if_neg hpiecewise, if_pos hmem]
      rw [hraise]
      refine ⟨fun ⟨_, h⟩ => (nomatch h), fun h => ?_⟩
      exact absurd rfl ((List.nodup_append.mp h).2.2 d hmem d List.mem_cons_self)
    · have hadd : captureDesc graphs d = .ok (graphs ++ [d]) := by
        rw [captureDesc, if_neg hpiecewise, if_neg hmem]
      have hnodup : (graphs ++ [d]).Nodup := by
        refine List.nodup_append.mpr ⟨hgraphs, List.nodup_singleton d, fun a ha b hb => ?_⟩
        rintro rfl
        exact hmem (List.mem_singleton.mp hb ▸ ha)
      have hrest := ih hnodup
      rw [List.append_assoc, List.singleton_append] at hrest
      rw [hadd, ← hrest]
      rfl

theorem capture_ok_iff (hfresh : m.graphs = []) :
    (∃ m', capture m = .ok m') ↔ (graphDescs m).Nodup := by
  have hfold := foldlM_captureDesc (m.captureDescs .piecewise ++ m.captureDescs .full) List.nodup_nil
  rw [List.nil_append] at hfold
  rw [graphDescs, ← hfold]
  constructor
  · rintro ⟨m', h⟩
    obtain ⟨graphs, hgraphs, -⟩ := bind_ok h
    exact ⟨graphs, hfresh ▸ hgraphs⟩
  · rintro ⟨graphs, hgraphs⟩
    exact ⟨{ m with graphs := graphs, graphsCaptured := true }, by rw [capture, hfresh, hgraphs]; rfl⟩

theorem Layered.capture {lens : List ℕ} (h : Layered lens m base) (hcapture : capture m = .ok m') :
    ∃ base', capture base = .ok base' := by
  have hnodup := (capture_ok_iff h.fresh.1).mp ⟨m', hcapture⟩
  refine (capture_ok_iff h.fresh.2).mpr (List.nodup_iff_count_le_one.mpr fun d => ?_)
  have hcount := List.nodup_iff_count_le_one.mp hnodup d
  by_cases hpiecewise : d.cgMode = .piecewise
  · rw [List.count_eq_zero_of_not_mem]
    · exact Nat.zero_le 1
    · intro hd
      have hkept := (List.mem_filter.mp hd).2
      simp [hpiecewise] at hkept
  · have hkept : ∀ descs : List Desc,
        (descs.filter fun e => e.cgMode ≠ .piecewise).count d = descs.count d := fun descs =>
      List.count_filter (p := fun e : Desc => e.cgMode ≠ .piecewise) (decide_eq_true hpiecewise)
    rw [graphDescs, hkept, List.count_append] at hcount ⊢
    have hpw := h.captures .piecewise d
    have hfull := h.captures .full d
    omega

/-- After both have captured, a batch no adaptive descriptor can serve dispatches the same. -/
theorem Layered.dispatch {lens : List ℕ} (h : Layered lens m base) {base' : CudaGraphManager}
    (hm : Manager.capture m = .ok m') (hbase : Manager.capture base = .ok base')
    (numReqs numTokens : ℕ) {uniformTokenCount : Option ℕ}
    (hwidth : ∀ q ∈ lens, uniformTokenCount ≠ some q) (numActiveLoras : ℕ) :
    Manager.dispatch cfg m' numReqs numTokens uniformTokenCount numActiveLoras =
      Manager.dispatch cfg base' numReqs numTokens uniformTokenCount numActiveLoras := by
  obtain ⟨hcandidates, hcaptured⟩ := capture_candidates hm
  obtain ⟨hcandidates', hcaptured'⟩ := capture_candidates hbase
  have hsearch := h.search (fun desc => isCompatible desc numReqs numTokens uniformTokenCount
    (resolveEffectiveLoras cfg numActiveLoras)) ?_ numTokens (resolveEffectiveLoras cfg numActiveLoras)
  · simp only [Manager.dispatch, hcandidates, hcaptured, hcandidates', hcaptured', hsearch]
  · rintro d ⟨q, hq, hd⟩
    have hother : some q ≠ uniformTokenCount := (hwidth q hq).symm
    simp [isCompatible, hd, hother]

/-! ## The manager without adaptation -/

/-- Every candidate list of the added descriptors serves rungs only. -/
theorem adaptive_incompatible (cfg : ManagerConfig) {lens : List ℕ} {p : Desc → Bool}
    (hp : ∀ d, (∃ q ∈ lens, d.uniformTokenCount = some q) → p d = false) (numTokens lora : ℕ) :
    ((buildCandidateRanges cfg (adaptiveDescs cfg lens (baseDescs cfg)) numTokens lora).getD []).find? p =
      none := by
  refine List.find?_eq_none.mpr fun d hd => ?_
  cases hranges : buildCandidateRanges cfg (adaptiveDescs cfg lens (baseDescs cfg)) numTokens lora with
  | none =>
    rw [hranges] at hd
    exact absurd hd List.not_mem_nil
  | some descs =>
    obtain ⟨t, rfl⟩ := buildCandidateRanges_some cfg _ hranges
    rw [hranges] at hd
    obtain ⟨shape, hshape, rfl⟩ := adaptiveDescs_exact (mem_bucket.mp hd).1
    have hlen : shape.1 ∈ lens := (List.mem_product.mp hshape).1
    rw [hp _ ⟨shape.1, hlen, rfl⟩]
    exact Bool.false_ne_true

theorem mergeCandidates_find? (cfg : ManagerConfig) {lens : List ℕ} {p : Desc → Bool}
    (hp : ∀ d, (∃ q ∈ lens, d.uniformTokenCount = some q) → p d = false) (base : Candidates)
    (numTokens lora : ℕ) :
    ((mergeCandidates base (buildCandidateRanges cfg (adaptiveDescs cfg lens (baseDescs cfg)))
        numTokens lora).getD []).find? p = ((base numTokens lora).getD []).find? p := by
  have hnone := adaptive_incompatible cfg hp numTokens lora
  rw [mergeCandidates]
  cases hranges : buildCandidateRanges cfg (adaptiveDescs cfg lens (baseDescs cfg)) numTokens lora with
  | none => rfl
  | some descs =>
    rw [hranges] at hnone
    rw [Option.getD_some, find?_mergeDescs, List.find?_append]
    rw [Option.getD_some] at hnone
    rw [hnone, Option.none_or]

theorem count_withAdaptive (b : Built) (added : List Desc) (mode : GraphMode) (d : Desc) :
    (b.byMode mode).count d ≤ (withAdaptive cfg b added mode).count d := by
  rw [withAdaptive]
  by_cases hmode : mode = cfg.mode.decodeMode
  · subst hmode
    rw [Function.update_self, List.count_append]
    exact Nat.le_add_right _ _
  · rw [Function.update_of_ne hmode]

theorem withAdaptive_nil (b : Built) (mode : GraphMode) :
    withAdaptive cfg b [] mode = b.byMode mode := by
  rw [withAdaptive]
  by_cases hmode : mode = cfg.mode.decodeMode
  · subst hmode
    rw [Function.update_self, List.append_nil]
  · rw [Function.update_of_ne hmode]

theorem assertAdaptiveSpecGraphsPossible_withoutAdaptation (cfg : ManagerConfig)
    (captureSizes : List ℕ) :
    assertAdaptiveSpecGraphsPossible (withoutAdaptation cfg) captureSizes = .ok () := by
  rw [assertAdaptiveSpecGraphsPossible, adaptiveSpecDecodeQueryLens_withoutAdaptation]
  rfl

/-- Without adaptation only the base tables are merged and captured. -/
theorem initCandidates_withoutAdaptation (hearly : ¬(cfg.mode.isOn = false ∨ cfg.captureSizes = [])) :
    initCandidates (withoutAdaptation cfg) =
      if (baseDescs cfg).table = [] ∧ ([] : List Desc) = [] then .ok emptyManager
      else .ok {
        candidates := mergeCandidates (buildCandidateRanges cfg (baseDescs cfg).table)
          (buildCandidateRanges cfg [])
        captureDescs := fun mode => (withAdaptive cfg (baseDescs cfg) [] mode).insertionSort
          fun a b => b.numTokens ≤ a.numTokens
        graphs := [], graphsCaptured := false } := by
  have hearly' : ¬((withoutAdaptation cfg).mode.isOn = false ∨
    (withoutAdaptation cfg).captureSizes = []) := hearly
  rw [initCandidates, if_neg hearly', adaptiveSpecDecodeQueryLens_withoutAdaptation,
    baseDescs_withoutAdaptation]
  change (if (baseDescs cfg).table = [] ∧ adaptiveDescs (withoutAdaptation cfg) [] (baseDescs cfg) = []
    then _ else _) = _
  rw [adaptiveDescs_nil, assertAdaptiveSpecGraphsPossible_withoutAdaptation]
  split
  · rfl
  · rw [assertAdaptiveSpecGraphCoverage, adaptiveSpecDecodeQueryLens_withoutAdaptation]
    rfl

/-- Initialisation without adaptation succeeds too, and the adaptive manager is layered
over its result. -/
theorem initCandidates_layered {m : CudaGraphManager} (h : initCandidates cfg = .ok m) :
    ∃ lens base, adaptiveSpecDecodeQueryLens cfg = .ok lens ∧
      initCandidates (withoutAdaptation cfg) = .ok base ∧ Layered lens m base := by
  by_cases hearly : cfg.mode.isOn = false ∨ cfg.captureSizes = []
  · -- no graphs at all: both managers are empty
    rw [initCandidates, if_pos hearly] at h
    obtain ⟨_, hassert, hm⟩ := bind_ok h
    obtain ⟨lens, hlens, -⟩ := bind_ok hassert
    obtain rfl := Except.ok.inj hm
    refine ⟨lens, emptyManager, hlens, ?_, Layered.refl rfl⟩
    have hearly' : (withoutAdaptation cfg).mode.isOn = false ∨
      (withoutAdaptation cfg).captureSizes = [] := hearly
    rw [initCandidates, if_pos hearly', assertAdaptiveSpecGraphsPossible_withoutAdaptation]
    rfl
  rw [initCandidates, if_neg hearly] at h
  obtain ⟨lens, hlens, h⟩ := bind_ok h
  simp only at h
  have hbase := initCandidates_withoutAdaptation hearly
  split at h
  · -- nothing to capture in either run
    rename_i hnothing
    obtain ⟨_, -, hm⟩ := bind_ok h
    obtain rfl := Except.ok.inj hm
    rw [if_pos ⟨hnothing.1, rfl⟩] at hbase
    exact ⟨lens, emptyManager, hlens, hbase, Layered.refl rfl⟩
  obtain ⟨_, -, hm⟩ := bind_ok h
  obtain rfl := Except.ok.inj hm
  have hsearch : ∀ p : Desc → Bool,
      (∀ d, (∃ q ∈ lens, d.uniformTokenCount = some q) → p d = false) → ∀ numTokens lora, _ :=
    fun p hp => mergeCandidates_find? cfg hp (buildCandidateRanges cfg (baseDescs cfg).table)
  by_cases htable : (baseDescs cfg).table = []
  · -- only adaptive descriptors: without them there is nothing to capture
    rw [if_pos ⟨htable, rfl⟩] at hbase
    refine ⟨lens, emptyManager, hlens, hbase, fun p hp numTokens lora => ?_, fun _ _ => ?_, rfl, rfl⟩
    · rw [hsearch p hp numTokens lora, htable]
      rfl
    · exact Nat.zero_le _
  · rw [if_neg fun hnothing => htable hnothing.1] at hbase
    refine ⟨lens, _, hlens, hbase, fun p hp numTokens lora => ?_, fun mode d => ?_, rfl, rfl⟩
    · rw [hsearch p hp numTokens lora]
      rfl
    · have hperm : ∀ descs : List Desc, (descs.insertionSort fun a b : Desc =>
          b.numTokens ≤ a.numTokens).count d = descs.count d := fun descs =>
        (List.perm_insertionSort _ descs).count_eq d
      simp only [hperm, withAdaptive_nil]
      exact count_withAdaptive _ _ mode d

/-- Whatever adaptive configuration initialises and captures, the same run without
adaptation does too, and every batch whose uniform token count is not a rung's width gets
the same descriptor from both. -/
theorem dispatch_withoutAdaptation {m m' : CudaGraphManager} (hinit : initCandidates cfg = .ok m)
    (hcapture : capture m = .ok m') :
    ∃ base base', initCandidates (withoutAdaptation cfg) = .ok base ∧ capture base = .ok base' ∧
      ∀ numReqs numTokens uniformTokenCount numActiveLoras,
        (∀ ladder, parseAdaptiveSpecDepthLadder cfg.numSpeculativeTokens cfg.depths = .ok ladder →
          ∀ depth ∈ ladder, uniformTokenCount ≠ some (queryLen cfg depth)) →
        dispatch cfg m' numReqs numTokens uniformTokenCount numActiveLoras =
          dispatch (withoutAdaptation cfg) base' numReqs numTokens uniformTokenCount numActiveLoras := by
  obtain ⟨lens, base, hlens, hbase, hlayered⟩ := initCandidates_layered hinit
  obtain ⟨base', hcapture'⟩ := hlayered.capture hcapture
  refine ⟨base, base', hbase, hcapture', ?_⟩
  intro numReqs numTokens uniformTokenCount numActiveLoras hwidth
  refine hlayered.dispatch hcapture hcapture' numReqs numTokens (fun q hq => ?_) numActiveLoras
  obtain ⟨ladder, hladder, rfl⟩ := adaptiveLens_ladder hlens (List.ne_nil_of_mem hq)
  obtain ⟨depth, hdepth, rfl⟩ := List.mem_map.mp hq
  exact hwidth ladder hladder depth hdepth

end

/-- A mixed batch of five tokens under the small adaptive configuration. -/
theorem dispatch_withoutAdaptation_small :
    ∃ m m' base', initCandidates Coverage.smallConfig = .ok m ∧ capture m = .ok m' ∧
      (initCandidates (withoutAdaptation Coverage.smallConfig) >>= capture) = .ok base' ∧
      dispatch Coverage.smallConfig m' 2 5 none 1 =
        dispatch (withoutAdaptation Coverage.smallConfig) base' 2 5 none 1 := by
  have hok : (initCandidates Coverage.smallConfig >>= capture).isOk = true := by decide +kernel
  cases hboth : initCandidates Coverage.smallConfig >>= capture with
  | error e =>
    rw [hboth] at hok
    cases hok
  | ok m' =>
    obtain ⟨m, hinit, hcapture⟩ := bind_ok hboth
    obtain ⟨base, base', hbase, hcapture', hsame⟩ := dispatch_withoutAdaptation hinit hcapture
    refine ⟨m, m', base', hinit, hcapture, ?_, hsame 2 5 none 1 fun _ _ _ _ => nofun⟩
    rw [hbase]
    exact hcapture'

end SparkKit.Graphs.BaseDispatch
