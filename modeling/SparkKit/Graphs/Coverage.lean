import SparkKit.Graphs.Tables

/-!
# Coverage of the adaptive shapes

Once initialisation has passed, every rung of the ladder has a FULL descriptor for every
enumerated request count, and `dispatch` returns a captured FULL descriptor for it.
-/
namespace SparkKit.Graphs.Coverage

open SparkKit.Lib.Outcome
open SparkKit.Graphs.DepthLadder SparkKit.Graphs.Manager SparkKit.Graphs.Tables

/-- The manager owns an adaptive verification shape with its own decode routine. -/
structure Adaptive (cfg : ManagerConfig) : Prop where
  window : usesAcceptanceLengthAdaptation cfg = true
  verifies : 1 < cfg.decodeQueryLen
  separate : cfg.mode.separateRoutine = true

/-- The manager owns an adaptive verification shape. -/
structure Adapts (cfg : ManagerConfig) : Prop where
  window : usesAcceptanceLengthAdaptation cfg = true
  verifies : 1 < cfg.decodeQueryLen

theorem Adaptive.adapts {cfg : ManagerConfig} (h : Adaptive cfg) : Adapts cfg := ⟨h.window, h.verifies⟩

/-- Tokens of a request's batch row at a depth, `depth + num_new_sampled_tokens_per_step`. -/
def queryLen (cfg : ManagerConfig) (depth : ℕ) : ℕ :=
  depth + (cfg.decodeQueryLen - cfg.numSpeculativeTokens)

section
variable {cfg : ManagerConfig}

/-! ## What initialisation leaves -/

theorem adaptiveLens_ok (hcfg : Adapts cfg) {lens : List ℕ}
    (h : adaptiveSpecDecodeQueryLens cfg = .ok lens) :
    cfg.numSpeculativeTokens < cfg.decodeQueryLen ∧ lens ≠ [] ∧
      ∃ ladder, parseAdaptiveSpecDepthLadder cfg.numSpeculativeTokens cfg.depths = .ok ladder ∧
        lens = ladder.map (queryLen cfg) := by
  have hwindow := hcfg.window
  have hverifies := hcfg.verifies
  unfold adaptiveSpecDecodeQueryLens at h
  rw [if_neg (by simp [hwindow]; omega)] at h
  split at h
  case isTrue => cases h
  split at h
  case isTrue => cases h
  rename_i hlen
  obtain ⟨ladder, hladder, h⟩ := bind_ok h
  simp only at h
  split at h
  case isTrue => cases h
  rename_i hne
  cases h
  exact ⟨by omega, hne, ladder, hladder, rfl⟩

/-- The early returns raise when the manager owns an adaptive shape. -/
theorem assertPossible_ne_ok (hcfg : Adapts cfg) (captureSizes : List ℕ) :
    assertAdaptiveSpecGraphsPossible cfg captureSizes ≠ .ok () := by
  intro h
  obtain ⟨lens, hlens, h⟩ := bind_ok h
  rw [if_neg (adaptiveLens_ok hcfg hlens).2.1] at h
  cases h

/-- The coverage assertion passes only when no shape is missing. -/
theorem assertCoverage_ok (hcfg : Adaptive cfg) {captureDescs : GraphMode → List Desc}
    {lens : List ℕ} (hlens : adaptiveSpecDecodeQueryLens cfg = .ok lens)
    (h : assertAdaptiveSpecGraphCoverage cfg captureDescs = .ok ()) :
    missingShapes cfg lens captureDescs = [] := by
  obtain ⟨lens', hlens', h⟩ := bind_ok h
  obtain rfl : lens = lens' := by
    rw [hlens] at hlens'
    exact Except.ok.inj hlens'
  rw [if_neg (adaptiveLens_ok hcfg.adapts hlens).2.1] at h
  split at h
  case isTrue => cases h
  rw [if_neg (by simp [hcfg.separate])] at h
  split at h
  case isTrue => cases h
  rename_i hmissing
  exact not_not.mp hmissing

/-- A finished initialisation, in terms of the base table and the added descriptors. -/
structure Initialised (cfg : ManagerConfig) (lens : List ℕ) (added : List Desc)
    (m : CudaGraphManager) : Prop where
  lens_ok : adaptiveSpecDecodeQueryLens cfg = .ok lens
  added_eq : added = adaptiveDescs cfg lens (baseDescs cfg)
  candidates : m.candidates = mergeCandidates (buildCandidateRanges cfg (baseDescs cfg).table)
    (buildCandidateRanges cfg added)
  captures : ∀ mode d, d ∈ m.captureDescs mode ↔ d ∈ withAdaptive cfg (baseDescs cfg) added mode
  fresh : m.graphs = []
  covered : missingShapes cfg lens m.captureDescs = []

/-- A finished initialisation, whether decode has a routine of its own or not. -/
structure Prepared (cfg : ManagerConfig) (lens : List ℕ) (added : List Desc)
    (m : CudaGraphManager) : Prop where
  lens_ok : adaptiveSpecDecodeQueryLens cfg = .ok lens
  added_eq : added = adaptiveDescs cfg lens (baseDescs cfg)
  candidates : m.candidates = mergeCandidates (buildCandidateRanges cfg (baseDescs cfg).table)
    (buildCandidateRanges cfg added)
  captures : ∀ mode d, d ∈ m.captureDescs mode ↔ d ∈ withAdaptive cfg (baseDescs cfg) added mode
  fresh : m.graphs = []
  asserted : assertAdaptiveSpecGraphCoverage cfg m.captureDescs = .ok ()

theorem initCandidates_prepared (hcfg : Adapts cfg) {m : CudaGraphManager}
    (h : initCandidates cfg = .ok m) : ∃ lens added, Prepared cfg lens added m := by
  unfold initCandidates at h
  split at h
  case isTrue =>
    obtain ⟨_, hpossible, _⟩ := bind_ok h
    exact absurd hpossible (assertPossible_ne_ok hcfg _)
  obtain ⟨lens, hlens, h⟩ := bind_ok h
  simp only at h
  split at h
  case isTrue =>
    obtain ⟨_, hpossible, _⟩ := bind_ok h
    exact absurd hpossible (assertPossible_ne_ok hcfg _)
  obtain ⟨_, hcovered, h⟩ := bind_ok h
  cases h
  exact ⟨lens, adaptiveDescs cfg lens (baseDescs cfg), {
    lens_ok := hlens
    added_eq := rfl
    candidates := rfl
    captures := fun mode d => List.mem_insertionSort _
    fresh := rfl
    asserted := hcovered }⟩

theorem Prepared.initialised {lens : List ℕ} {added : List Desc} {m : CudaGraphManager}
    (hcfg : Adaptive cfg) (h : Prepared cfg lens added m) : Initialised cfg lens added m where
  lens_ok := h.lens_ok
  added_eq := h.added_eq
  candidates := h.candidates
  captures := h.captures
  fresh := h.fresh
  covered := assertCoverage_ok hcfg h.lens_ok h.asserted

theorem initCandidates_ok (hcfg : Adaptive cfg) {m : CudaGraphManager}
    (h : initCandidates cfg = .ok m) : ∃ lens added, Initialised cfg lens added m := by
  obtain ⟨lens, added, hprepared⟩ := initCandidates_prepared hcfg.adapts h
  exact ⟨lens, added, hprepared.initialised hcfg⟩

/-! ## The added descriptors -/

/-- Only exact shapes are added. -/
theorem adaptiveDescs_exact {lens : List ℕ} {base : Built} {d : Desc}
    (hd : d ∈ adaptiveDescs cfg lens base) :
    ∃ shape ∈ adaptiveShapes cfg lens, d = exactDesc cfg shape.1 shape.2.1 shape.2.2 := by
  unfold adaptiveDescs at hd
  split at hd
  case isFalse => cases hd
  suffices hgen : ∀ (shapes : List (ℕ × ℕ × ℕ))
      (acc : List (ℕ × Option ℕ × Option ℕ × ℕ) × List Desc), (∀ shape ∈ shapes, shape ∈ adaptiveShapes cfg lens) →
      (∀ e ∈ acc.2, ∃ shape ∈ adaptiveShapes cfg lens,
        e = exactDesc cfg shape.1 shape.2.1 shape.2.2) →
      ∀ e ∈ (shapes.foldl (adaptiveStep cfg) acc).2, ∃ shape ∈ adaptiveShapes cfg lens,
        e = exactDesc cfg shape.1 shape.2.1 shape.2.2 from
    hgen _ _ (fun _ hs => hs) (fun _ he => by cases he) d hd
  intro shapes
  induction shapes with
  | nil => exact fun acc _ hacc => hacc
  | cons shape shapes ih =>
    intro acc hshapes hacc
    rw [List.foldl_cons]
    refine ih _ (fun s hs => hshapes s (List.mem_cons_of_mem _ hs)) fun e he => ?_
    simp only [adaptiveStep] at he
    split at he
    · exact hacc e he
    split at he
    · exact hacc e he
    rcases List.mem_append.mp he with he | he
    · exact hacc e he
    · exact ⟨shape, hshapes _ List.mem_cons_self, List.mem_singleton.mp he⟩

theorem mem_adaptiveShapes {lens : List ℕ} {q n lora : ℕ} :
    (q, n, lora) ∈ adaptiveShapes cfg lens ↔
      q ∈ lens ∧ (1 ≤ n ∧ n ≤ min cfg.maxNumReqs 32) ∧ lora ∈ cfg.loraCaptureCases := by
  simp only [adaptiveShapes, capturedReqs, List.mem_product, List.mem_range'_1, Nat.lt_one_add_iff]

theorem mem_withAdaptive {base : Built} {added : List Desc} {mode : GraphMode} {d : Desc} :
    d ∈ withAdaptive cfg base added mode ↔
      d ∈ base.byMode mode ∨ (mode = cfg.mode.decodeMode ∧ d ∈ added) := by
  unfold withAdaptive
  by_cases hm : mode = cfg.mode.decodeMode
  · subst hm
    simp
  · simp [hm]

theorem exactDesc_of_key {d : Desc} {q n lora : ℕ} (hmode : d.cgMode = cfg.mode.decodeMode)
    (hkey : d.key = (exactDesc cfg q n lora).key) : d = exactDesc cfg q n lora := by
  cases d
  simp only [Desc.key, exactDesc, Prod.mk.injEq] at hkey hmode ⊢
  simp [hmode, hkey]

theorem baseDecodeQueryLens_pos (hs : cfg.numSpeculativeTokens < cfg.decodeQueryLen) :
    ∀ q ∈ baseDecodeQueryLens cfg, 0 < q := by
  intro q hq
  unfold baseDecodeQueryLens at hq
  split at hq
  · obtain ⟨x, -, rfl⟩ := List.mem_map.mp hq
    omega
  · rw [List.mem_singleton.mp hq]
    omega

/-- The base table of a manager that adapts. -/
theorem baseInv (hcfg : Adapts cfg) {lens : List ℕ} (h : adaptiveSpecDecodeQueryLens cfg = .ok lens) :
    BaseInv cfg (baseDecodeQueryLens cfg) (captureCases cfg) (baseDescs cfg) :=
  baseDescs_inv cfg (baseDecodeQueryLens_pos (adaptiveLens_ok hcfg h).1)

end

/-! ## Capture -/

/-- The descriptors visited so far are graphs, the piecewise ones apart. -/
def Captured (done graphs : List Desc) : Prop :=
  ∀ e ∈ done, e.cgMode ≠ .piecewise → e ∈ graphs

/-- `capture` leaves every descriptor that is not piecewise among the graphs. -/
theorem mem_graphs_of_capture {m m' : CudaGraphManager} (h : capture m = .ok m') {d : Desc}
    (hd : d ∈ m.captureDescs .full) (hmode : d.cgMode = .full) : d ∈ m'.graphs := by
  obtain ⟨graphs, hfold, h⟩ := bind_ok h
  cases h
  have hkept : Captured (m.captureDescs .piecewise ++ m.captureDescs .full) graphs := by
    refine foldlM_ok (fun _ he => by cases he) ?_ hfold
    intro done x gs gs' _ hgs hx e he hpw
    unfold captureDesc at hx
    split at hx
    case isTrue hpiecewise =>
      cases hx
      rcases List.mem_append.mp he with he | he
      · exact hgs e he hpw
      · rw [List.mem_singleton.mp he] at hpw
        exact absurd hpiecewise hpw
    split at hx
    case isTrue => cases hx
    cases hx
    rcases List.mem_append.mp he with he | he
    · exact List.mem_append_left _ (hgs e he hpw)
    · exact List.mem_append_right _ he
  exact hkept d (List.mem_append_right _ hd) (by rw [hmode]; decide)

theorem capture_candidates {m m' : CudaGraphManager} (h : capture m = .ok m') :
    m'.candidates = m.candidates ∧ m'.graphsCaptured = true := by
  obtain ⟨graphs, -, h⟩ := bind_ok h
  cases h
  exact ⟨rfl, rfl⟩

/-! ## The search -/

section
variable {cfg : ManagerConfig} {lens : List ℕ} {added : List Desc} {m : CudaGraphManager}

/-- A shape that was enumerated is a FULL descriptor of one of the two tables. -/
theorem exact_captured (hcfg : Adaptive cfg) (h : Initialised cfg lens added m) {q n lora : ℕ}
    (hshape : (q, n, lora) ∈ adaptiveShapes cfg lens) :
    cfg.mode.decodeMode = .full ∧
      (exactDesc cfg q n lora ∈ (baseDescs cfg).table ∨ exactDesc cfg q n lora ∈ added) := by
  have hbase := baseInv hcfg.adapts h.lens_ok
  have hkey : (exactDesc cfg q n lora).key ∈ (m.captureDescs .full).map Desc.key := by
    by_contra hmissing
    have hmem : (q, n, lora) ∈ missingShapes cfg lens m.captureDescs :=
      List.mem_filter.mpr ⟨hshape, decide_eq_true hmissing⟩
    rw [h.covered] at hmem
    cases hmem
  obtain ⟨d, hd, hdkey⟩ := List.mem_map.mp hkey
  rcases mem_withAdaptive.mp ((h.captures .full d).mp hd) with hd | ⟨hmode, hd⟩
  · obtain ⟨hfull, htable⟩ := hbase.filed .full d hd
    have huniform : d.uniformTokenCount = some q := congrArg (fun k => k.2.2.1) hdkey
    have hdecode := hbase.decode d htable (by rw [huniform]; exact Option.some_ne_none _)
    rw [exactDesc_of_key hdecode hdkey] at htable
    exact ⟨hdecode.symm.trans hfull, .inl htable⟩
  · refine ⟨hmode.symm, .inr ?_⟩
    rw [h.added_eq] at hd ⊢
    obtain ⟨shape, -, rfl⟩ := adaptiveDescs_exact hd
    rwa [← exactDesc_of_key rfl hdkey]

/-- In a bucket of the base table a search that a uniform shape satisfies stops at a
uniform shape. -/
theorem find?_bucket_uniform {table : List Desc} (hordered : table.Pairwise NoDecodeAfter)
    {p : Desc → Bool} {d e : Desc} {numTokens lora : ℕ} (hd : d ∈ bucket table numTokens lora)
    (hp : p d = true) (huniform : d.uniformTokenCount ≠ none)
    (he : (bucket table numTokens lora).find? p = some e) : e.uniformTokenCount ≠ none := by
  intro hnone
  obtain ⟨-, before, after, heq, hbefore⟩ := List.find?_eq_some_iff_append.mp he
  have hsub : (bucket table numTokens lora).Pairwise NoDecodeAfter :=
    hordered.sublist List.filter_sublist
  have hemem : e ∈ bucket table numTokens lora := by
    rw [heq]
    exact List.mem_append_right _ List.mem_cons_self
  obtain ⟨-, hdtokens, hdlora⟩ := mem_bucket.mp hd
  obtain ⟨-, hetokens, helora⟩ := mem_bucket.mp hemem
  rw [heq] at hd hsub
  rcases List.mem_append.mp hd with hd | hd
  · have hfalse := hbefore d hd
    rw [hp] at hfalse
    cases hfalse
  rcases List.mem_cons.mp hd with rfl | hd
  · exact huniform hnone
  · have hafter := (List.pairwise_cons.mp (List.pairwise_append.mp hsub).2.1).1 d hd
    exact huniform (hafter hnone (hetokens.trans hdtokens.symm) (helora.trans hdlora.symm))

/-- The candidates of a count are added descriptors in front of a base bucket. -/
theorem candidates_find? (h : Initialised cfg lens added m) (p : Desc → Bool) (numTokens lora : ℕ) :
    ∃ t, ((m.candidates numTokens lora).getD []).find? p =
      (((buildCandidateRanges cfg added numTokens lora).getD []) ++
        ((buildCandidateRanges cfg (baseDescs cfg).table numTokens lora).getD [])).find? p ∧
      (buildCandidateRanges cfg added numTokens lora).getD [] ⊆ bucket added t lora := by
  rw [h.candidates]
  simp only [mergeCandidates]
  cases hadaptive : buildCandidateRanges cfg added numTokens lora with
  | none => exact ⟨0, rfl, List.nil_subset _⟩
  | some descs =>
    obtain ⟨t, rfl⟩ := buildCandidateRanges_some cfg added hadaptive
    exact ⟨t, find?_mergeDescs p _ _, fun _ hx => hx⟩

/-- A search that the exact shape satisfies returns a captured FULL descriptor. -/
theorem find?_full (hcfg : Adaptive cfg) (h : Initialised cfg lens added m) {q n lora : ℕ}
    (hshape : (q, n, lora) ∈ adaptiveShapes cfg lens) {p : Desc → Bool}
    (hp : p (exactDesc cfg q n lora) = true) :
    ∃ d, ((m.candidates (q * n) lora).getD []).find? p = some d ∧ d.cgMode = .full ∧
      d ∈ m.captureDescs .full := by
  have hbase := baseInv hcfg.adapts h.lens_ok
  have hlora : lora ∈ cfg.loraCaptureCases := (mem_adaptiveShapes.mp hshape).2.2
  obtain ⟨hfull, hexact⟩ := exact_captured hcfg h hshape
  obtain ⟨t, hfind, hsub⟩ := candidates_find? h p (q * n) lora
  rw [hfind, List.find?_append]
  have hadded : ∀ d ∈ added, d.cgMode = .full ∧ d ∈ m.captureDescs .full := by
    intro d hd
    refine ⟨?_, (h.captures .full d).mpr (mem_withAdaptive.mpr (.inr ⟨hfull.symm, hd⟩))⟩
    rw [h.added_eq] at hd
    obtain ⟨shape, -, rfl⟩ := adaptiveDescs_exact hd
    exact hfull
  cases hfront : ((buildCandidateRanges cfg added (q * n) lora).getD []).find? p with
  | some d =>
    have hd := (mem_bucket.mp (hsub (List.mem_of_find?_eq_some hfront))).1
    exact ⟨d, rfl, hadded d hd⟩
  | none =>
    have htable : exactDesc cfg q n lora ∈ (baseDescs cfg).table := by
      rcases hexact with hexact | hexact
      · exact hexact
      · have hbucket := buildCandidateRanges_exact cfg added hexact hlora
        change buildCandidateRanges cfg added (q * n) lora = _ at hbucket
        rw [hbucket] at hfront
        have hnot := List.find?_eq_none.mp hfront _ (mem_bucket.mpr ⟨hexact, rfl, rfl⟩)
        exact absurd hp hnot
    have hbucket := buildCandidateRanges_exact cfg (baseDescs cfg).table htable hlora
    change buildCandidateRanges cfg (baseDescs cfg).table (q * n) lora = _ at hbucket
    rw [hbucket]
    have hmem := mem_bucket.mpr ⟨htable, rfl, rfl⟩
    obtain ⟨d, hd⟩ := Option.isSome_iff_exists.mp (List.find?_isSome.mpr ⟨_, hmem, hp⟩)
    have huniform := find?_bucket_uniform hbase.ordered hmem hp (Option.some_ne_none _) hd
    have hdtable := (mem_bucket.mp (List.mem_of_find?_eq_some hd)).1
    have hdfull : d.cgMode = .full := (hbase.decode d hdtable huniform).trans hfull
    refine ⟨d, hd, hdfull, (h.captures .full d).mpr (mem_withAdaptive.mpr (.inl ?_))⟩
    rw [← hdfull]
    exact hbase.listed d hdtable

/-! ## Dispatch -/

/-- Any count of LoRAs is served by a captured case. -/
theorem resolveEffectiveLoras_mem {loras : ℕ}
    (h : loras ∈ cfg.loraCaptureCases ∨ (0 < loras ∧ ∃ case ∈ cfg.loraCaptureCases, 0 < case)) :
    resolveEffectiveLoras cfg loras ∈ cfg.loraCaptureCases := by
  have hpositive : ∀ case ∈ sortedSet (cfg.loraCaptureCases.filter (0 < ·)),
      case ∈ cfg.loraCaptureCases := fun case hcase =>
    List.mem_of_mem_filter (mem_sortedSet.mp hcase)
  by_cases hzero : loras = 0
  · subst hzero
    rcases h with h | ⟨h, -⟩
    · exact h
    · omega
  obtain ⟨case, hcase, hpos⟩ : ∃ case ∈ cfg.loraCaptureCases, 0 < case := by
    rcases h with h | ⟨-, h⟩
    · exact ⟨loras, h, by omega⟩
    · exact h
  have hcaptured : case ∈ sortedSet (cfg.loraCaptureCases.filter (0 < ·)) :=
    mem_sortedSet.mpr (List.mem_filter.mpr ⟨hcase, by simpa using hpos⟩)
  simp only [resolveEffectiveLoras, if_neg hzero]
  cases hfind : (sortedSet (cfg.loraCaptureCases.filter (0 < ·))).find? fun c => loras ≤ c with
  | some c => exact hpositive c (List.mem_of_find?_eq_some hfind)
  | none =>
    cases hlast : (sortedSet (cfg.loraCaptureCases.filter (0 < ·))).getLast? with
    | none =>
      rw [List.getLast?_eq_none_iff.mp hlast] at hcaptured
      cases hcaptured
    | some c => exact hpositive c (List.mem_of_getLast? hlast)

theorem getUniformTokenCount_uniform {n q : ℕ} (hn : 1 ≤ n) :
    getUniformTokenCount n (q * n) q = some q :=
  if_pos ⟨(Nat.mul_div_cancel _ hn).symm, rfl⟩

/-- The batch of `n` requests with `depth + s` tokens each. -/
def dispatchUniform (cfg : ManagerConfig) (m : CudaGraphManager) (depth n loras : ℕ) : Desc :=
  dispatch cfg m n (queryLen cfg depth * n)
    (getUniformTokenCount n (queryLen cfg depth * n) (queryLen cfg depth)) loras

/-- The descriptor is a captured FULL graph that can hold the uniform batch. -/
def HoldsUniform (cfg : ManagerConfig) (m : CudaGraphManager) (depth n loras : ℕ) (d : Desc) :
    Prop :=
  d.cgMode = .full ∧ d ∈ m.graphs ∧
    isCompatible d n (queryLen cfg depth * n) (some (queryLen cfg depth))
      (resolveEffectiveLoras cfg loras) = true

/-- An enumerated shape dispatches to a captured FULL graph. -/
theorem dispatchUniform_full (hcfg : Adaptive cfg) (h : Initialised cfg lens added m)
    (hs : cfg.numSpeculativeTokens < cfg.decodeQueryLen) {m' : CudaGraphManager}
    (hcapture : capture m = .ok m') {depth n loras : ℕ}
    (hshape : (queryLen cfg depth, n, resolveEffectiveLoras cfg loras) ∈ adaptiveShapes cfg lens) :
    HoldsUniform cfg m' depth n loras (dispatchUniform cfg m' depth n loras) := by
  have hn : 1 ≤ n := (mem_adaptiveShapes.mp hshape).2.1.1
  have hpos : queryLen cfg depth * n > 0 := Nat.mul_pos (by unfold queryLen; omega) hn
  have hself : isCompatible (exactDesc cfg (queryLen cfg depth) n (resolveEffectiveLoras cfg loras))
      n (queryLen cfg depth * n) (some (queryLen cfg depth))
      (resolveEffectiveLoras cfg loras) = true := by
    simp [isCompatible, exactDesc]
  obtain ⟨d, hfind, hfull, hcaptured⟩ := find?_full hcfg h hshape
    (p := fun desc => isCompatible desc n (queryLen cfg depth * n) (some (queryLen cfg depth))
      (resolveEffectiveLoras cfg loras)) hself
  obtain ⟨hcandidates, hgraphs⟩ := capture_candidates hcapture
  have hdispatch : dispatchUniform cfg m' depth n loras = d := by
    unfold dispatchUniform dispatch
    rw [getUniformTokenCount_uniform hn, if_pos ⟨hgraphs, hpos⟩, hcandidates, hfind]
    rfl
  have hholds := List.find?_some hfind
  rw [hdispatch]
  exact ⟨hfull, mem_graphs_of_capture hcapture hcaptured hfull, hholds⟩

end

/-- After a successful initialisation and capture, every selected depth that is a rung of
the ladder dispatches to a captured FULL graph, for every enumerated request count and LoRA
count. -/
theorem dispatch_uniform_full {cfg : ManagerConfig} (hcfg : Adaptive cfg)
    {m m' : CudaGraphManager} (hinit : initCandidates cfg = .ok m) (hcapture : capture m = .ok m')
    {ladder : List ℕ}
    (hladder : parseAdaptiveSpecDepthLadder cfg.numSpeculativeTokens cfg.depths = .ok ladder)
    {controllerDepth n loras depth : ℕ} {dynamicSdLookup : Option (ℕ → ℕ)}
    (hdepth : numSpecTokensToSchedule (some controllerDepth) cfg.numSpeculativeTokens
      dynamicSdLookup n = depth)
    (hrung : depth ∈ ladder) (hn : 1 ≤ n) (hreqs : n ≤ min cfg.maxNumReqs 32)
    (hloras : loras ∈ cfg.loraCaptureCases ∨
      (0 < loras ∧ ∃ case ∈ cfg.loraCaptureCases, 0 < case)) :
    HoldsUniform cfg m' depth n loras (dispatchUniform cfg m' depth n loras) := by
  subst hdepth
  obtain ⟨lens, added, h⟩ := initCandidates_ok hcfg hinit
  obtain ⟨hs, -, ladder', hladder', rfl⟩ := adaptiveLens_ok hcfg.adapts h.lens_ok
  obtain rfl : ladder = ladder' := by
    rw [hladder] at hladder'
    exact Except.ok.inj hladder'
  have hlen : queryLen cfg (numSpecTokensToSchedule (some controllerDepth)
      cfg.numSpeculativeTokens dynamicSdLookup n) ∈ ladder.map (queryLen cfg) :=
    List.mem_map_of_mem hrung
  exact dispatchUniform_full hcfg h hs hcapture
    (mem_adaptiveShapes.mpr ⟨hlen, ⟨hn, hreqs⟩, resolveEffectiveLoras_mem hloras⟩)

/-! ## Where coverage ends -/

def fullAndPiecewise : CudagraphMode where
  name := "FULL_AND_PIECEWISE"
  isOn := true
  decodeMode := .full
  mixedMode := .piecewise
  separateRoutine := true
  hasFullCudagraphs := true

/-- Three requests, depths one and two, and a LoRA case. -/
def smallConfig : ManagerConfig where
  maxNumReqs := 3
  decodeQueryLen := 3
  numSpeculativeTokens := 2
  speculative := some ⟨none, some 8⟩
  depths := [some 1, some 2]
  captureSizes := [3, 9]
  maxCaptureSize := 9
  loraCaptureCases := [0, 2]
  mode := fullAndPiecewise

theorem dispatch_uniform_full_small :
    ∃ m m', initCandidates smallConfig = .ok m ∧ capture m = .ok m' ∧
      HoldsUniform smallConfig m' 1 3 1 (dispatchUniform smallConfig m' 1 3 1) := by
  have hok : (initCandidates smallConfig >>= capture).isOk = true := by decide +kernel
  cases hboth : initCandidates smallConfig >>= capture with
  | error e =>
    rw [hboth] at hok
    cases hok
  | ok m' =>
    obtain ⟨m, hinit, hcapture⟩ := bind_ok hboth
    exact ⟨m, m', hinit, hcapture, dispatch_uniform_full ⟨rfl, by decide, rfl⟩ hinit hcapture
      (show _ = Except.ok [1, 2] by decide +kernel)
      (show numSpecTokensToSchedule (some 1) 2 none 3 = 1 from rfl)
      (by decide) (by decide) (by decide) (.inr ⟨by decide, 2, by decide, by decide⟩)⟩

/-- One request more than the enumeration holds. -/
def manyReqsConfig : ManagerConfig where
  maxNumReqs := 33
  decodeQueryLen := 2
  numSpeculativeTokens := 1
  speculative := some ⟨none, some 8⟩
  depths := [some 1]
  captureSizes := [64]
  maxCaptureSize := 64
  loraCaptureCases := [0]
  mode := fullAndPiecewise

/-- A batch-size schedule that takes three requests to a depth off the ladder. -/
def scheduledConfig : ManagerConfig where
  maxNumReqs := 3
  decodeQueryLen := 3
  numSpeculativeTokens := 2
  speculative := some ⟨some [(1, 2, 2), (3, 3, 1)], some 8⟩
  depths := [some 2]
  captureSizes := [3, 9]
  maxCaptureSize := 9
  loraCaptureCases := [0]
  mode := fullAndPiecewise

/-- The mode a uniform batch runs in, where initialisation and capture finish. -/
def servedMode (cfg : ManagerConfig) (depth n loras : ℕ) : Option GraphMode :=
  (initCandidates cfg >>= capture).toOption.map fun m => (dispatchUniform cfg m depth n loras).cgMode

/-- The last request count of the first configuration runs eagerly, a scheduled depth of the
second one runs piecewise. -/
theorem dispatch_uniform_not_full :
    (Adaptive manyReqsConfig ∧ parseAdaptiveSpecDepthLadder 1 manyReqsConfig.depths = .ok [1] ∧
      servedMode manyReqsConfig 1 33 0 = some .none) ∧
    (Adaptive scheduledConfig ∧ parseAdaptiveSpecDepthLadder 2 scheduledConfig.depths = .ok [2] ∧
      numSpecTokensToSchedule (some 2) 2 (some fun n => if n ≤ 2 then 2 else 1) 3 = 1 ∧
      servedMode scheduledConfig 1 3 0 = some .piecewise) := by
  refine ⟨⟨⟨rfl, by decide, rfl⟩, ?_, ?_⟩, ⟨rfl, by decide, rfl⟩, ?_, rfl, ?_⟩
  all_goals decide +kernel

end SparkKit.Graphs.Coverage
