import SparkKit.Lib.Counters
import SparkKit.Lib.History
import SparkKit.Depth.Controller
import SparkKit.Depth.LadderText

/-!
# The depth is always a rung

Whatever a controller is shown, and however its quotients are rounded, its depth stays on
the ladder it was built with, and that ladder is the parsed one.
-/
namespace SparkKit.Depth.Invariant

open SparkKit.Lib.Counters SparkKit.Lib.History
open SparkKit.Graphs.DepthLadder
open SparkKit.Graphs.Tables (sortedSet_pairwise)
open SparkKit.Depth.Controller SparkKit.Depth.LadderText

variable {fl : ℚ → ℚ} {c c' : LengthController}

/-! ## The constructor's ladder -/

theorem pairwise_getLast {ladder : List ℕ} (hsorted : ladder.Pairwise (· < ·)) {last : ℕ}
    (hlast : ladder.getLast? = some last) : ∀ depth ∈ ladder, depth ≤ last := by
  intro depth hdepth
  obtain ⟨init, rfl⟩ := List.getLast?_eq_some_iff.mp hlast
  rcases List.mem_append.mp hdepth with hinit | hone
  · exact Nat.le_of_lt ((List.pairwise_append.mp hsorted).2.2 depth hinit last (by simp))
  · exact Nat.le_of_eq (by simpa using hone)

/-- Appending the maximum when it is not already the last rung. -/
theorem isLadder_close {maxNumSpecTokens : ℕ} (hmax : 1 ≤ maxNumSpecTokens) {ladder : List ℕ}
    (hbounds : ∀ depth ∈ ladder, 1 ≤ depth ∧ depth ≤ maxNumSpecTokens)
    (hsorted : ladder.Pairwise (· < ·)) :
    IsLadder maxNumSpecTokens
      (if ladder.getLast? = some maxNumSpecTokens then ladder else ladder ++ [maxNumSpecTokens]) := by
  split
  case isTrue hlast => exact ⟨List.mem_of_getLast? hlast, hbounds, hsorted⟩
  case isFalse hlast =>
    have hbelow : ∀ depth ∈ ladder, depth < maxNumSpecTokens := by
      intro depth hdepth
      refine Nat.lt_of_le_of_ne (hbounds depth hdepth).2 ?_
      rintro rfl
      obtain ⟨last, hsome⟩ := Option.isSome_iff_exists.mp
        (List.getLast?_isSome.mpr (List.ne_nil_of_mem hdepth))
      have hle := pairwise_getLast hsorted hsome _ hdepth
      have hmem := (hbounds last (List.mem_of_getLast? hsome)).2
      exact hlast (hsome.trans (congrArg some (by omega)))
    refine ⟨by simp, ?_, ?_⟩
    · intro depth hdepth
      rcases List.mem_append.mp hdepth with h | h
      · exact hbounds depth h
      · obtain rfl : depth = maxNumSpecTokens := by simpa using h
        omega
    · refine List.pairwise_append.mpr ⟨hsorted, List.pairwise_singleton _ _, ?_⟩
      intro depth hdepth last hlast
      obtain rfl : last = maxNumSpecTokens := by simpa using hlast
      exact hbelow depth hdepth

theorem controllerLadder_isLadder {maxNumSpecTokens : ℕ} (hmax : 1 ≤ maxNumSpecTokens)
    (depthLadder : List ℤ) : IsLadder maxNumSpecTokens (controllerLadder maxNumSpecTokens depthLadder) := by
  rw [controllerLadder]
  refine isLadder_close hmax ?_ ?_
  · intro depth hdepth
    split at hdepth
    · have hrange := List.mem_range'_1.mp hdepth
      omega
    · obtain ⟨d, hd, rfl⟩ := List.mem_map.mp (mem_sortedSet.mp hdepth)
      have hrange := (List.mem_filter.mp hd).2
      simp only [decide_eq_true_eq] at hrange
      omega
  · split
    · exact List.pairwise_lt_range'
    · exact sortedSet_pairwise _

/-- The constructor leaves a parsed ladder as it is. -/
theorem controllerLadder_parsed {maxNumSpecTokens : ℕ} {ladder : List ℕ}
    (h : IsLadder maxNumSpecTokens ladder) :
    controllerLadder maxNumSpecTokens (ladder.map fun depth : ℕ => (depth : ℤ)) = ladder := by
  have hne := List.ne_nil_of_mem h.max_mem
  have hread : sortedSet (((ladder.map fun depth : ℕ => (depth : ℤ)).filter fun depth : ℤ =>
      1 ≤ depth ∧ depth ≤ maxNumSpecTokens).map Int.toNat) = ladder := by
    refine sortedSet_eq h.sorted fun x => ?_
    simp only [List.mem_map, List.mem_filter, decide_eq_true_eq]
    constructor
    · rintro ⟨_, ⟨⟨depth, hdepth, rfl⟩, -⟩, rfl⟩
      exact hdepth
    · intro hx
      have hbound := h.bounds x hx
      exact ⟨x, ⟨⟨x, hx, rfl⟩, by omega⟩, rfl⟩
  have hlast : ladder.getLast? = some maxNumSpecTokens := by
    obtain ⟨last, hsome⟩ := Option.isSome_iff_exists.mp (List.getLast?_isSome.mpr hne)
    have hle := pairwise_getLast h.sorted hsome _ h.max_mem
    have hbound := (h.bounds last (List.mem_of_getLast? hsome)).2
    exact hsome.trans (congrArg some (by omega))
  rw [controllerLadder, hread]
  simp only [hne, if_false, hlast, if_true]

/-! ## One call -/

/-- The configuration and the depth, which accumulating a batch leaves alone. -/
structure SameDepth (c c' : LengthController) : Prop where
  max : c'.maxNumSpecTokens = c.maxNumSpecTokens
  window : c'.observationWindow = c.observationWindow
  ladder : c'.depthLadder = c.depthLadder
  depth : c'.numSpecTokens = c.numSpecTokens

theorem SameDepth.refl (c : LengthController) : SameDepth c c := ⟨rfl, rfl, rfl, rfl⟩

theorem SameDepth.trans {c'' : LengthController} (h : SameDepth c c') (h' : SameDepth c' c'') :
    SameDepth c c'' :=
  ⟨h'.max.trans h.max, h'.window.trans h.window, h'.ladder.trans h.ladder, h'.depth.trans h.depth⟩

theorem addPositions_same (pairs : List (ℤ × ℤ)) (c : LengthController) (i : ℕ) :
    SameDepth c (c.addPositions i pairs).1 := by
  induction pairs generalizing c i with
  | nil => exact SameDepth.refl c
  | cons pair pairs ih =>
    obtain ⟨eligible, accepted⟩ := pair
    rw [LengthController.addPositions]
    split
    · exact SameDepth.refl c
    · have hadded : SameDepth c { c with
          positionEligible := c.positionEligible.modify i (· + eligible)
          positionAccepted := c.positionAccepted.modify i (· + accepted) } := ⟨rfl, rfl, rfl, rfl⟩
      exact hadded.trans (ih _ _)

/-- Valid position counts are added index by index. -/
theorem addPositions_eq {pairs : List (ℤ × ℤ)} (hvalid : ∀ p ∈ pairs, 0 ≤ p.2 ∧ p.2 ≤ p.1)
    (c : LengthController) (i : ℕ) :
    c.addPositions i pairs =
      ({ c with
          positionEligible := raise c.positionEligible fun pos =>
            if i ≤ pos then (pairs.map Prod.fst).getD (pos - i) 0 else 0
          positionAccepted := raise c.positionAccepted fun pos =>
            if i ≤ pos then (pairs.map Prod.snd).getD (pos - i) 0 else 0 }, .ok ()) := by
  have hcons : ∀ (xs counts : List ℤ) (i : ℕ) (count : ℤ),
      raise (xs.modify i (· + count)) (fun pos => if i + 1 ≤ pos then counts.getD (pos - (i + 1)) 0
        else 0) = raise xs fun pos => if i ≤ pos then (count :: counts).getD (pos - i) 0 else 0 := by
    intro xs counts i count
    rw [modify_eq_raise, raise_raise]
    refine raise_congr fun pos _ => ?_
    rcases Nat.lt_trichotomy i pos with hlt | rfl | hgt
    · have hindex : pos - i = (pos - (i + 1)) + 1 := by omega
      rw [if_neg (by omega), if_pos (by omega), if_pos (by omega), hindex, List.getD_cons_succ,
        zero_add]
    · rw [if_pos rfl, if_neg (by omega), if_pos (le_refl _), Nat.sub_self, List.getD_cons_zero,
        add_zero]
    · rw [if_neg (by omega), if_neg (by omega), if_neg (by omega), add_zero]
  induction pairs generalizing c i with
  | nil => simp only [LengthController.addPositions, List.map_nil, List.getD_nil, ite_self, raise_zero]
  | cons pair pairs ih =>
    obtain ⟨eligible, accepted⟩ := pair
    have hpair := hvalid (eligible, accepted) List.mem_cons_self
    rw [LengthController.addPositions, if_neg (by omega),
      ih (fun p hp => hvalid p (List.mem_cons_of_mem _ hp))]
    simp only [hcons, List.map_cons]

theorem observePositions_same (c : LengthController) (batch : Batch) :
    SameDepth c (c.observePositions batch).1 := by
  rw [LengthController.observePositions]
  split
  · exact SameDepth.refl c
  · split
    · exact SameDepth.refl c
    · split
      · exact SameDepth.refl c
      · exact addPositions_same _ c 0
  · exact SameDepth.refl c

/-- A controller on its ladder. -/
structure OnLadder (c : LengthController) : Prop where
  ladder : IsLadder c.maxNumSpecTokens c.depthLadder
  rung : c.numSpecTokens ∈ c.depthLadder

theorem SameDepth.onLadder (h : SameDepth c c') (hc : OnLadder c) : OnLadder c' :=
  ⟨by rw [h.max, h.ladder]; exact hc.ladder, by rw [h.depth, h.ladder]; exact hc.rung⟩

theorem productionPolicy_mem (hc : OnLadder c)
    (hladder : c.depthLadder = [2, 4] ∨ c.depthLadder = [2, 4, 5]) :
    (c.productionPolicy fl).target ∈ c.depthLadder := by
  have hrung := hc.rung
  have htwo : 2 ∈ c.depthLadder := by rcases hladder with h | h <;> rw [h] <;> decide
  have hfour : 4 ∈ c.depthLadder := by rcases hladder with h | h <;> rw [h] <;> decide
  simp only [LengthController.productionPolicy]
  generalize (if c.meanNumDraftTokens fl ≠ 0 then
    fl (c.meanNumAcceptedTokens fl / c.meanNumDraftTokens fl) else 0) = headRatio
  by_cases h2 : c.numSpecTokens = 2
  · rw [if_pos h2]
    split
    · exact hfour
    · exact htwo
  rw [if_neg h2]
  by_cases h4 : c.numSpecTokens = 4
  · rw [if_pos h4]
    split
    · rename_i hprobe
      rw [hprobe.1]
      decide
    · split
      · exact hfour
      · exact htwo
  · rw [if_neg h4]
    -- neither two nor four: the depth is five, a rung of the longer ladder only
    have hfive : 5 ∈ c.depthLadder := by
      rcases hladder with h | h
      · rw [h] at hrung
        simp only [List.mem_cons, List.not_mem_nil, or_false] at hrung
        omega
      · rw [h]
        decide
    split
    · exact hfive
    · split
      · exact hfour
      · exact htwo

theorem baseline_mem (hc : OnLadder c) : c.baseline ∈ c.depthLadder := by
  rw [LengthController.baseline]
  cases hladder : c.depthLadder with
  | nil => exact absurd (hladder ▸ hc.rung) List.not_mem_nil
  | cons depth rest => exact List.mem_cons_self

theorem formulaPolicy_mem (hc : OnLadder c) : (c.formulaPolicy fl).target ∈ c.depthLadder := by
  simp only [LengthController.formulaPolicy]
  cases hmax : (c.depthLadder.filter fun depth : ℕ => (depth : ℤ) ≤ c.formulaTarget fl).max? with
  | none => exact baseline_mem hc
  | some depth => exact List.mem_of_mem_filter (List.max?_mem hmax)

theorem decide_mem (fl : ℚ → ℚ) (hc : OnLadder c) : (c.decide fl).target ∈ c.depthLadder := by
  rw [LengthController.decide]
  split
  · rename_i hladder
    exact productionPolicy_mem hc hladder
  · exact formulaPolicy_mem hc

/-- What a call does to the ladder and the depth: it keeps the configuration, and moves only
to a rung. -/
structure Moves (c c' : LengthController) : Prop where
  max : c'.maxNumSpecTokens = c.maxNumSpecTokens
  ladder : c'.depthLadder = c.depthLadder
  onLadder : OnLadder c → OnLadder c'

theorem SameDepth.moves (h : SameDepth c c') : Moves c c' := ⟨h.max, h.ladder, h.onLadder⟩

theorem settle_moves (fl : ℚ → ℚ) (c : LengthController) : Moves c (c.settle fl).1 := by
  rw [LengthController.settle]
  split
  · exact (SameDepth.refl c).moves
  · refine ⟨rfl, rfl, fun hc => ⟨hc.ladder, ?_⟩⟩
    have hrung := decide_mem fl hc
    exact hrung

theorem observeBatch_moves (fl : ℚ → ℚ) (c : LengthController) (batch : Batch) :
    Moves c (c.observeBatch fl batch).1 := by
  have hadded : SameDepth c (c.addCounts batch) := ⟨rfl, rfl, rfl, rfl⟩
  have hcounted := hadded.trans (observePositions_same _ batch)
  rw [LengthController.observeBatch]
  split
  · exact (SameDepth.refl c).moves
  split
  · exact (SameDepth.refl c).moves
  split
  · split
    · exact (SameDepth.refl c).moves
    · exact (SameDepth.refl c).moves
  split
  · rename_i counted message heq
    rw [heq] at hcounted
    exact hcounted.moves
  · rename_i counted heq
    rw [heq] at hcounted
    have hsettle := settle_moves fl counted
    exact ⟨hsettle.max.trans hcounted.max, hsettle.ladder.trans hcounted.ladder,
      fun hc => hsettle.onLadder (hcounted.onLadder hc)⟩

/-! ## Runs -/

/-- The controller after a list of `observe_batch` calls, failed ones included. -/
def observeAll (fl : ℚ → ℚ) (c : LengthController) (batches : List Batch) : LengthController :=
  runFrom (fun c batch => (c.observeBatch fl batch).1) c batches

theorem observeAll_moves (fl : ℚ → ℚ) (c : LengthController) (batches : List Batch) :
    Moves c (observeAll fl c batches) := by
  rw [observeAll]
  induction batches using List.reverseRecOn with
  | nil => exact (SameDepth.refl c).moves
  | append_singleton batches batch ih =>
    rw [runFrom_concat]
    have hstep := observeBatch_moves fl
      (runFrom (fun c batch => (c.observeBatch fl batch).1) c batches) batch
    exact ⟨hstep.max.trans ih.max, hstep.ladder.trans ih.ladder,
      fun hc => hstep.onLadder (ih.onLadder hc)⟩

theorem initController_ok {maxNumSpecTokens observationWindow : ℤ} {depthLadder : List ℤ}
    (h : initController maxNumSpecTokens observationWindow depthLadder = .ok c) :
    1 ≤ maxNumSpecTokens ∧ 1 ≤ observationWindow ∧
      c.maxNumSpecTokens = maxNumSpecTokens.toNat ∧
      c.observationWindow = observationWindow.toNat ∧
      c.depthLadder = controllerLadder maxNumSpecTokens.toNat depthLadder ∧
      c.numSpecTokens = c.baseline := by
  rw [initController] at h
  split at h
  · cases h
  split at h
  · cases h
  obtain rfl := Except.ok.inj h
  exact ⟨by omega, by omega, rfl, rfl, rfl, rfl⟩

/-- A new controller has counted nothing. -/
theorem initController_reset {maxNumSpecTokens observationWindow : ℤ} {depthLadder : List ℤ}
    (h : initController maxNumSpecTokens observationWindow depthLadder = .ok c) :
    c = c.resetWindow := by
  rw [initController] at h
  split at h
  · cases h
  split at h
  · cases h
  cases h
  rfl

theorem initController_onLadder {maxNumSpecTokens observationWindow : ℤ} {depthLadder : List ℤ}
    (h : initController maxNumSpecTokens observationWindow depthLadder = .ok c) : OnLadder c := by
  obtain ⟨hmax, -, hc, -, hladder, hdepth⟩ := initController_ok h
  have hpositive : 1 ≤ maxNumSpecTokens.toNat := by omega
  have hok := controllerLadder_isLadder hpositive depthLadder
  rw [← hladder, ← hc] at hok
  refine ⟨hok, ?_⟩
  rw [hdepth, LengthController.baseline]
  cases hrungs : c.depthLadder with
  | nil => exact absurd (hrungs ▸ hok.max_mem) List.not_mem_nil
  | cons depth rest => exact List.mem_cons_self

/-- Over every run of every accepted configuration the depth is a rung of a sorted ladder
that ends at the maximum; the ladder is the parsed one when it was built from one, and
parsing what a parsed ladder is written as gives it back. -/
theorem depth_is_rung (fl : ℚ → ℚ) {maxNumSpecTokens observationWindow : ℤ}
    {depthLadder : List ℤ} {c : LengthController}
    (hinit : initController maxNumSpecTokens observationWindow depthLadder = .ok c)
    (batches : List Batch) :
    (observeAll fl c batches).numSpecTokens ∈ (observeAll fl c batches).depthLadder ∧
      IsLadder maxNumSpecTokens.toNat (observeAll fl c batches).depthLadder ∧
      ∀ raw ladder, parseAdaptiveSpecDepthLadder maxNumSpecTokens.toNat (readTokens raw) = .ok ladder →
        (depthLadder = ladder.map (fun depth : ℕ => (depth : ℤ)) →
          (observeAll fl c batches).depthLadder = ladder) ∧
        IsLadder maxNumSpecTokens.toNat ladder ∧
        parseAdaptiveSpecDepthLadder maxNumSpecTokens.toNat (readTokens (renderLadder ladder)) =
          .ok ladder := by
  have hmoves := observeAll_moves fl c batches
  have hon := hmoves.onLadder (initController_onLadder hinit)
  obtain ⟨-, -, hmax, -, hladder, -⟩ := initController_ok hinit
  refine ⟨hon.rung, ?_, fun raw ladder hparse => ?_⟩
  · have hok := hon.ladder
    rwa [hmoves.max, hmax] at hok
  · have hparsed := parse_isLadder hparse
    refine ⟨?_, hparsed, parse_renderLadder hparsed⟩
    rintro rfl
    rw [hmoves.ladder, hladder, controllerLadder_parsed hparsed]

/-- The deployed ladder, spelled out of order, and its controller after two batches whose drafts
were all accepted. -/
theorem depth_is_rung_deployed :
    ∃ c batches, parseAdaptiveSpecDepthLadder 5 (readTokens "4, 2") = .ok [2, 4, 5] ∧
      initController 5 1 [2, 4, 5] = .ok c ∧ batches.length = 2 ∧
      (observeAll id c batches).numSpecTokens ∈ (observeAll id c batches).depthLadder ∧
      IsLadder 5 (observeAll id c batches).depthLadder ∧
      (observeAll id c batches).depthLadder = [2, 4, 5] ∧
      parseAdaptiveSpecDepthLadder 5 (readTokens (renderLadder [2, 4, 5])) = .ok [2, 4, 5] := by
  have hparse : parseAdaptiveSpecDepthLadder 5 (readTokens "4, 2") = .ok [2, 4, 5] := by
    decide +kernel
  have hinit : initController 5 1 [2, 4, 5] = .ok _ := rfl
  obtain ⟨hrung, hladder, hparsed⟩ :=
    depth_is_rung id hinit [⟨1, 2, 2, none, none⟩, ⟨1, 4, 4, none, none⟩]
  obtain ⟨hbuilt, -, hback⟩ := hparsed "4, 2" [2, 4, 5] hparse
  exact ⟨_, _, hparse, hinit, rfl, hrung, hladder, hbuilt rfl, hback⟩

end SparkKit.Depth.Invariant
