import Mathlib.Data.List.GetD
import Mathlib.Tactic.FieldSimp
import Mathlib.Tactic.Linarith
import SparkKit.Depth.Invariant

/-!
# Climbing the ladder

When every drafted token is accepted, the tuned ladders probe their next rung, and every
other ladder moves to at most one depth more: it reaches a rung only from the depth just
below.
-/
namespace SparkKit.Depth.Climb

open SparkKit.Lib.Counters SparkKit.Lib.History
open SparkKit.Graphs.DepthLadder
open SparkKit.Depth.Controller SparkKit.Depth.LadderText SparkKit.Depth.Invariant

variable {fl : ℚ → ℚ} {c : LengthController}

/-- The position counts `update_from_output` supplies when `depth` tokens were drafted and
accepted by each of `drafts` requests. -/
def fullPositions (maxNumSpecTokens depth drafts : ℕ) : List ℤ :=
  (List.range maxNumSpecTokens).map fun pos => if pos < depth then (drafts : ℤ) else 0

/-- A batch of `drafts` requests that accepts everything drafted at the current depth. -/
def fullBatch (c : LengthController) (drafts : ℕ) : Batch :=
  { numDrafts := drafts
    numDraftTokens := drafts * c.numSpecTokens
    numAcceptedTokens := drafts * c.numSpecTokens
    positionEligible := some (fullPositions c.maxNumSpecTokens c.numSpecTokens drafts)
    positionAccepted := some (fullPositions c.maxNumSpecTokens c.numSpecTokens drafts) }

def acceptAll (fl : ℚ → ℚ) (c : LengthController) (drafts : List ℕ) : LengthController :=
  runFrom (fun c n => (c.observeBatch fl (fullBatch c n)).1) c drafts

/-- The controller at a rung, with an empty window. -/
def atRung (c : LengthController) (depth : ℕ) : LengthController :=
  { c with numSpecTokens := depth }.resetWindow

/-! ## A window of accepted drafts -/

/-- Everything the window holds was drafted at the current depth and accepted. -/
structure AllAccepted (c : LengthController) : Prop where
  drafted : c.numDraftTokens = c.numDrafts * c.numSpecTokens
  accepted : c.numAcceptedTokens = c.numDrafts * c.numSpecTokens
  length : c.positionAccepted.length = c.maxNumSpecTokens
  positions : ∀ pos < c.maxNumSpecTokens,
    c.positionAccepted.getD pos 0 = if pos < c.numSpecTokens then c.numDrafts else 0

theorem resetWindow_allAccepted (c : LengthController) : AllAccepted c.resetWindow := by
  refine ⟨by simp [LengthController.resetWindow], by simp [LengthController.resetWindow],
    by simp [LengthController.resetWindow], fun pos hpos => ?_⟩
  change (List.replicate c.maxNumSpecTokens (0 : ℤ)).getD pos 0 = if pos < _ then 0 else 0
  rw [ite_self]
  exact List.getD_replicate _ hpos

theorem addPositions_valid {pairs : List (ℤ × ℤ)}
    (hvalid : ∀ p ∈ pairs, 0 ≤ p.2 ∧ p.2 ≤ p.1) (c : LengthController) (i : ℕ) :
    ∃ eligible accepted, c.addPositions i pairs =
        ({ c with positionEligible := eligible, positionAccepted := accepted }, .ok ()) ∧
      accepted.length = c.positionAccepted.length ∧
      ∀ pos < c.positionAccepted.length, accepted.getD pos 0 =
        c.positionAccepted.getD pos 0 + if i ≤ pos then (pairs.getD (pos - i) (0, 0)).2 else 0 := by
  refine ⟨_, _, addPositions_eq hvalid c i, length_raise .., fun pos hpos => ?_⟩
  rw [getD_raise hpos]
  congr 2
  exact List.getD_map pairs (d := (0, 0)) Prod.snd

/-- A full batch is accumulated without error, and leaves a window of accepted drafts. -/
theorem observePositions_full (hc : AllAccepted c) (drafts : ℕ) :
    ∃ counted, (c.addCounts (fullBatch c drafts)).observePositions (fullBatch c drafts) =
        (counted, .ok ()) ∧ AllAccepted counted ∧ SameDepth c counted ∧
      counted.numDrafts = c.numDrafts + drafts ∧
      counted.numObservationSteps = c.numObservationSteps + 1 := by
  have hlength : (fullPositions c.maxNumSpecTokens c.numSpecTokens drafts).length =
      c.maxNumSpecTokens := by simp [fullPositions]
  have hzip : (fullPositions c.maxNumSpecTokens c.numSpecTokens drafts).zip
      (fullPositions c.maxNumSpecTokens c.numSpecTokens drafts) =
        (fullPositions c.maxNumSpecTokens c.numSpecTokens drafts).map fun n => (n, n) := by
    rw [List.zip, List.zipWith_self]
  have hvalid : ∀ p ∈ (fullPositions c.maxNumSpecTokens c.numSpecTokens drafts).zip
      (fullPositions c.maxNumSpecTokens c.numSpecTokens drafts), 0 ≤ p.2 ∧ p.2 ≤ p.1 := by
    intro p hp
    rw [hzip] at hp
    obtain ⟨n, hn, rfl⟩ := List.mem_map.mp hp
    obtain ⟨pos, -, rfl⟩ := List.mem_map.mp hn
    refine ⟨?_, le_refl _⟩
    split <;> simp
  obtain ⟨eligible, accepted, hrun, hkept, hpositions⟩ :=
    addPositions_valid hvalid (c.addCounts (fullBatch c drafts)) 0
  refine ⟨{ c.addCounts (fullBatch c drafts) with
    positionEligible := eligible, positionAccepted := accepted }, ?_, ⟨?_, ?_, ?_, ?_⟩,
    ⟨rfl, rfl, rfl, rfl⟩, rfl, rfl⟩
  · rw [← hrun, LengthController.observePositions]
    change (if _ then _ else if (fullPositions c.maxNumSpecTokens c.numSpecTokens drafts).length >
      c.maxNumSpecTokens then _ else _) = _
    rw [if_neg (not_not.mpr rfl), if_neg (by omega)]
  · change c.numDraftTokens + drafts * c.numSpecTokens = (c.numDrafts + drafts) * c.numSpecTokens
    rw [hc.drafted]
    ring
  · change c.numAcceptedTokens + drafts * c.numSpecTokens = (c.numDrafts + drafts) * c.numSpecTokens
    rw [hc.accepted]
    ring
  · exact hkept.trans hc.length
  · intro pos hpos
    change pos < c.maxNumSpecTokens at hpos
    have hadded := hpositions pos (by
      change pos < c.positionAccepted.length
      rw [hc.length]
      exact hpos)
    change accepted.getD pos 0 = if pos < c.numSpecTokens then c.numDrafts + drafts else 0
    change accepted.getD pos 0 = c.positionAccepted.getD pos 0 + _ at hadded
    rw [hadded, hc.positions pos hpos, if_pos (Nat.zero_le _), Nat.sub_zero, hzip,
      List.getD_eq_getElem _ _ (by simpa [hlength] using hpos)]
    simp only [List.getElem_map, fullPositions, List.getElem_range]
    split <;> simp

/-! ## The next rung -/

/-- The depth after a window of accepted drafts. -/
def climbTo (ladder : List ℕ) (depth : ℕ) : ℕ :=
  if ladder = [2, 4] ∨ ladder = [2, 4, 5] then
    if depth = 2 then 4 else if depth = 4 ∧ ladder = [2, 4, 5] then 5 else depth
  else if depth + 1 ∈ ladder then depth + 1 else depth

/-- Rounding that leaves the numbers of an all-accepted window alone: its means are depths,
and the formula adds three halves to them. -/
structure ExactOn (fl : ℚ → ℚ) (maxNumSpecTokens : ℕ) : Prop where
  mono : Monotone fl
  depth : ∀ depth : ℕ, depth ≤ maxNumSpecTokens → fl depth = depth
  target : ∀ depth : ℕ, depth ≤ maxNumSpecTokens → fl (depth + 3 / 2) = depth + 3 / 2

variable {maxNumSpecTokens : ℕ}

theorem means_full (hfl : ExactOn fl c.maxNumSpecTokens) (hc : AllAccepted c) (hon : OnLadder c)
    (hdrafts : 0 < c.numDrafts) :
    c.meanNumAcceptedTokens fl = c.numSpecTokens ∧ c.meanNumDraftTokens fl = c.numSpecTokens := by
  have hne : (c.numDrafts : ℚ) ≠ 0 := by exact_mod_cast hdrafts.ne'
  have hmean : ((c.numDrafts * c.numSpecTokens : ℤ) : ℚ) / c.numDrafts = c.numSpecTokens := by
    push_cast
    field_simp
  have hexact := hfl.depth c.numSpecTokens (hon.ladder.bounds _ hon.rung).2
  constructor
  · rw [LengthController.meanNumAcceptedTokens, hc.accepted, hmean, hexact]
  · rw [LengthController.meanNumDraftTokens, hc.drafted, hmean, hexact]

theorem productionPolicy_full (hfl : ExactOn fl c.maxNumSpecTokens) (hc : AllAccepted c)
    (hon : OnLadder c) (hdrafts : 0 < c.numDrafts)
    (hladder : c.depthLadder = [2, 4] ∨ c.depthLadder = [2, 4, 5]) :
    (c.productionPolicy fl).target = climbTo c.depthLadder c.numSpecTokens := by
  have hne : (c.numDrafts : ℚ) ≠ 0 := by exact_mod_cast hdrafts.ne'
  obtain ⟨hacc, hdraft⟩ := means_full hfl hc hon hdrafts
  have hrung := hon.rung
  have hfour : 4 ≤ c.maxNumSpecTokens :=
    (hon.ladder.bounds 4 (by rcases hladder with h | h <;> rw [h] <;> decide)).2
  simp only [climbTo, if_pos hladder]
  by_cases h2 : c.numSpecTokens = 2
  · have hhead : fl ((c.numSpecTokens : ℚ) / c.numSpecTokens) ≥ fl (85 / 100) := by
      refine hfl.mono ?_
      rw [h2]
      norm_num
    have hdraft0 : c.meanNumDraftTokens fl ≠ 0 := by
      rw [hdraft, h2]
      norm_num
    simp only [LengthController.productionPolicy, if_pos h2, if_pos hdraft0]
    rw [hacc, hdraft, if_pos hhead]
  -- above the baseline the two tail positions earned two tokens per draft
  have hfour' : 4 ≤ c.numSpecTokens := by
    rcases hladder with h | h <;> rw [h] at hrung <;>
      simp only [List.mem_cons, List.not_mem_nil, or_false] at hrung <;> omega
  have htail : c.tailGain23 fl = fl 2 := by
    have hlen : c.positionAccepted.length ≥ 4 := hc.length ▸ hfour
    rw [LengthController.tailGain23, if_pos ⟨hdrafts.ne', hlen⟩, hc.positions 2 (by omega),
      hc.positions 3 (by omega), if_pos (by omega), if_pos (by omega)]
    congr 1
    push_cast
    field_simp
    norm_num
  by_cases h4 : c.numSpecTokens = 4
  · simp only [LengthController.productionPolicy, if_neg h2, if_pos h4, htail]
    by_cases h5 : c.depthLadder = [2, 4, 5]
    · rw [if_pos ⟨h5, hfl.mono (by norm_num)⟩, if_pos ⟨h4, h5⟩]
    · rw [if_neg fun h => h5 h.1, if_pos (hfl.mono (by norm_num)), if_neg fun h => h5 h.2, h4]
  · have h5 : c.numSpecTokens = 5 := by
      rcases hladder with h | h <;> rw [h] at hrung <;>
        simp only [List.mem_cons, List.not_mem_nil, or_false] at hrung <;> omega
    have hmax : 5 ≤ c.maxNumSpecTokens := h5 ▸ (hon.ladder.bounds _ hon.rung).2
    have hgain : c.position4Gain fl = fl 1 := by
      have hlen : c.positionAccepted.length ≥ 5 := hc.length ▸ hmax
      rw [LengthController.position4Gain, if_pos ⟨hdrafts.ne', hlen⟩, hc.positions 4 (by omega),
        if_pos (by omega), div_self hne]
    simp only [LengthController.productionPolicy, if_neg h2, if_neg h4, hgain]
    rw [if_pos (hfl.mono (by norm_num)), if_neg fun h => h4 h.1, h5]

theorem formulaPolicy_full (hfl : ExactOn fl c.maxNumSpecTokens) (hc : AllAccepted c)
    (hon : OnLadder c) (hdrafts : 0 < c.numDrafts)
    (hladder : ¬ (c.depthLadder = [2, 4] ∨ c.depthLadder = [2, 4, 5])) :
    (c.formulaPolicy fl).target = climbTo c.depthLadder c.numSpecTokens := by
  have hbound := hon.ladder.bounds _ hon.rung
  have htarget : c.formulaTarget fl = min (c.maxNumSpecTokens : ℤ) (c.numSpecTokens + 1) := by
    have hfloor : ⌊(c.numSpecTokens : ℚ) + 3 / 2⌋ = (c.numSpecTokens : ℤ) + 1 := by
      rw [Int.floor_eq_iff]
      push_cast
      constructor <;> linarith
    rw [LengthController.formulaTarget, (means_full hfl hc hon hdrafts).1,
      hfl.target _ hbound.2, hfloor]
    omega
  have hmax : (c.depthLadder.filter fun depth : ℕ => (depth : ℤ) ≤ c.formulaTarget fl).max? =
      some (climbTo c.depthLadder c.numSpecTokens) := by
    rw [List.max?_eq_some_iff, htarget]
    simp only [climbTo, if_neg hladder, List.mem_filter, decide_eq_true_eq]
    split
    · rename_i hnext
      have hle := (hon.ladder.bounds _ hnext).2
      exact ⟨⟨hnext, by omega⟩, fun depth hdepth => by omega⟩
    · rename_i hgap
      refine ⟨⟨hon.rung, by omega⟩, fun depth hdepth => ?_⟩
      by_contra hlt
      have hnext : depth = c.numSpecTokens + 1 := by omega
      exact hgap (hnext ▸ hdepth.1)
  simp only [LengthController.formulaPolicy, hmax, Option.getD_some]

theorem decide_full (hfl : ExactOn fl c.maxNumSpecTokens) (hc : AllAccepted c) (hon : OnLadder c)
    (hdrafts : 0 < c.numDrafts) :
    (c.decide fl).target = climbTo c.depthLadder c.numSpecTokens := by
  rw [LengthController.decide]
  split
  · rename_i hladder
    exact productionPolicy_full hfl hc hon hdrafts hladder
  · rename_i hladder
    exact formulaPolicy_full hfl hc hon hdrafts hladder

/-! ## One batch -/

/-- A controller part of the way through a window of accepted drafts. -/
structure Climbing (c : LengthController) : Prop where
  accepted : AllAccepted c
  onLadder : OnLadder c
  drafts : 0 ≤ c.numDrafts
  configured : 1 ≤ c.observationWindow
  unsettled : c.numObservationSteps < c.effectiveObservationWindow

theorem resetWindow_unsettled (hconfigured : 1 ≤ c.observationWindow) :
    c.resetWindow.numObservationSteps < c.resetWindow.effectiveObservationWindow := by
  change 0 < if _ then c.observationWindow else max 1 (c.observationWindow / 2)
  split
  · exact hconfigured
  · exact lt_of_lt_of_le Nat.one_pos (le_max_left _ _)

theorem atRung_climbing (hon : OnLadder c) (hconfigured : 1 ≤ c.observationWindow) {depth : ℕ}
    (hdepth : depth ∈ c.depthLadder) : Climbing (atRung c depth) :=
  ⟨resetWindow_allAccepted _, ⟨hon.ladder, hdepth⟩, le_refl _, hconfigured,
    resetWindow_unsettled hconfigured⟩

/-- What a full batch does: it waits for the window, or settles on the next rung. -/
structure Climbs (c c' : LengthController) : Prop where
  max : c'.maxNumSpecTokens = c.maxNumSpecTokens
  window : c'.observationWindow = c.observationWindow
  ladder : c'.depthLadder = c.depthLadder
  climbing : Climbing c'
  depth : c'.numSpecTokens = c.numSpecTokens ∧
      c'.numObservationSteps = c.numObservationSteps + 1 ∨
    c'.numSpecTokens = climbTo c.depthLadder c.numSpecTokens ∧ c'.numObservationSteps = 0

theorem observeBatch_full (hfl : ExactOn fl c.maxNumSpecTokens) (hc : Climbing c) {drafts : ℕ}
    (hdrafts : 0 < drafts) : Climbs c (c.observeBatch fl (fullBatch c drafts)).1 := by
  have hstart := hc.drafts
  obtain ⟨counted, hrun, hall, hsame, hcount, hsteps⟩ := observePositions_full hc.accepted drafts
  have hon : OnLadder counted := hsame.onLadder hc.onLadder
  have hpositive : 0 < counted.numDrafts := by omega
  have hobserve : (c.observeBatch fl (fullBatch c drafts)).1 = (counted.settle fl).1 := by
    have htokens : (0 : ℤ) ≤ drafts * c.numSpecTokens := by positivity
    rw [LengthController.observeBatch, if_neg, if_neg, if_neg, hrun]
    · change (drafts : ℤ) ≠ 0
      omega
    · exact lt_irrefl _
    · change ¬ ((drafts : ℤ) < 0 ∨ (drafts : ℤ) * c.numSpecTokens < 0 ∨
        (drafts : ℤ) * c.numSpecTokens < 0)
      omega
  rw [hobserve, LengthController.settle]
  split
  · rename_i hwait
    exact ⟨hsame.max, hsame.window, hsame.ladder,
      ⟨hall, hon, hpositive.le, hsame.window ▸ hc.configured, hwait⟩, Or.inl ⟨hsame.depth, hsteps⟩⟩
  · have htarget := decide_full (hsame.max ▸ hfl) hall hon hpositive
    rw [hsame.ladder, hsame.depth] at htarget
    have hrung := decide_mem fl hon
    exact ⟨hsame.max, hsame.window, hsame.ladder,
      ⟨resetWindow_allAccepted _, ⟨hon.ladder, hrung⟩, le_refl _, hsame.window ▸ hc.configured,
        resetWindow_unsettled (hsame.window ▸ hc.configured)⟩, Or.inr ⟨htarget, rfl⟩⟩

/-! ## Reaching the top -/

/-- The ladders the policy climbs from `depth`: the tuned ones, and those without a gap
from `depth` to the maximum. -/
def Climbable (maxNumSpecTokens : ℕ) (ladder : List ℕ) (depth : ℕ) : Prop :=
  ladder = [2, 4] ∨ ladder = [2, 4, 5] ∨
    ∀ d, depth ≤ d → d ≤ maxNumSpecTokens → d ∈ ladder

theorem climbTo_lt {ladder : List ℕ} {depth : ℕ} (hladder : IsLadder maxNumSpecTokens ladder)
    (hdepth : depth ∈ ladder) (hbelow : depth < maxNumSpecTokens)
    (hclimb : Climbable maxNumSpecTokens ladder depth) : depth < climbTo ladder depth := by
  have hmax := hladder.max_mem
  rw [climbTo]
  rcases hclimb with rfl | rfl | hfull
  · simp only [List.mem_cons, List.not_mem_nil, or_false] at hdepth hmax
    rw [if_pos (Or.inl rfl), if_pos (by omega)]
    omega
  · simp only [List.mem_cons, List.not_mem_nil, or_false] at hdepth hmax
    rw [if_pos (Or.inr rfl)]
    rcases hdepth with rfl | rfl | rfl
    · decide
    · decide
    · omega
  · have hnext := hfull (depth + 1) (by omega) (by omega)
    split
    · rename_i hproduction
      rcases hproduction with rfl | rfl
      · simp only [List.mem_cons, List.not_mem_nil, or_false] at hdepth hnext
        omega
      · simp only [List.mem_cons, List.not_mem_nil, or_false] at hdepth hnext hmax
        obtain rfl : depth = 4 := by omega
        decide
    · omega

theorem climbTo_climbable {ladder : List ℕ} {depth : ℕ}
    (hle : depth ≤ climbTo ladder depth) (hclimb : Climbable maxNumSpecTokens ladder depth) :
    Climbable maxNumSpecTokens ladder (climbTo ladder depth) := by
  rcases hclimb with h | h | hfull
  · exact Or.inl h
  · exact Or.inr (Or.inl h)
  · exact Or.inr (Or.inr fun d hd hmax => hfull d (hle.trans hd) hmax)

/-- How many more full batches may be needed: one window per depth still to climb. -/
def batchesLeft (c : LengthController) : ℕ :=
  (c.maxNumSpecTokens - c.numSpecTokens) * c.observationWindow +
    (c.observationWindow - c.numObservationSteps)

theorem effectiveObservationWindow_le (hconfigured : 1 ≤ c.observationWindow) :
    c.effectiveObservationWindow ≤ c.observationWindow := by
  rw [LengthController.effectiveObservationWindow]
  split <;> omega

theorem climbs_batchesLeft {c' : LengthController} (hstep : Climbs c c') (hc : Climbing c)
    (hbelow : c.numSpecTokens < c.maxNumSpecTokens)
    (hclimb : Climbable c.maxNumSpecTokens c.depthLadder c.numSpecTokens) :
    batchesLeft c' < batchesLeft c := by
  have hopen := hc.unsettled
  have hwindow := effectiveObservationWindow_le hc.configured
  rw [batchesLeft, batchesLeft, hstep.max, hstep.window]
  rcases hstep.depth with ⟨hdepth, hsteps⟩ | ⟨hdepth, hsteps⟩
  · rw [hdepth, hsteps]
    omega
  · have hlt := climbTo_lt hc.onLadder.ladder hc.onLadder.rung hbelow hclimb
    have hle := (hstep.climbing.onLadder.ladder.bounds _ hstep.climbing.onLadder.rung).2
    rw [hdepth, hstep.max] at hle
    rw [hdepth, hsteps]
    -- one depth up pays for the window that starts again
    have hpay : (c.maxNumSpecTokens - climbTo c.depthLadder c.numSpecTokens) * c.observationWindow +
        c.observationWindow ≤ (c.maxNumSpecTokens - c.numSpecTokens) * c.observationWindow := by
      rw [← Nat.succ_mul]
      exact Nat.mul_le_mul_right _ (by omega)
    omega

theorem climbTo_top {ladder : List ℕ} (hladder : IsLadder maxNumSpecTokens ladder) :
    climbTo ladder maxNumSpecTokens = maxNumSpecTokens := by
  have hmax := hladder.max_mem
  have hbounds := hladder.bounds
  rw [climbTo]
  split
  · rename_i hproduction
    rcases hproduction with rfl | rfl
    · have hle := (hbounds 4 (by decide)).2
      simp only [List.mem_cons, List.not_mem_nil, or_false] at hmax
      rw [if_neg (by omega), if_neg fun h => absurd h.2 (by decide)]
    · have hle := (hbounds 5 (by decide)).2
      rw [if_neg (by omega), if_neg (by omega)]
  · have hout : maxNumSpecTokens + 1 ∉ ladder := by
      intro h
      have hle := (hbounds _ h).2
      omega
    rw [if_neg hout]

theorem climbs_top {c' : LengthController} (hstep : Climbs c c') (hc : Climbing c)
    (htop : c.numSpecTokens = c.maxNumSpecTokens) : c'.numSpecTokens = c'.maxNumSpecTokens := by
  rw [hstep.max]
  rcases hstep.depth with ⟨hdepth, -⟩ | ⟨hdepth, -⟩
  · rw [hdepth, htop]
  · rw [hdepth, htop, climbTo_top hc.onLadder.ladder]

theorem climbs_climbable {c' : LengthController} (hstep : Climbs c c') (hc : Climbing c)
    (hclimb : Climbable c.maxNumSpecTokens c.depthLadder c.numSpecTokens) :
    Climbable c'.maxNumSpecTokens c'.depthLadder c'.numSpecTokens := by
  rw [hstep.max, hstep.ladder]
  rcases hstep.depth with ⟨hdepth, -⟩ | ⟨hdepth, -⟩
  · rwa [hdepth]
  · rw [hdepth]
    refine climbTo_climbable ?_ hclimb
    rcases Nat.lt_or_eq_of_le (hc.onLadder.ladder.bounds _ hc.onLadder.rung).2 with hlt | htop
    · exact (climbTo_lt hc.onLadder.ladder hc.onLadder.rung hlt hclimb).le
    · rw [htop, climbTo_top hc.onLadder.ladder]

theorem acceptAll_top (hfl : ExactOn fl c.maxNumSpecTokens) (hc : Climbing c)
    (hclimb : Climbable c.maxNumSpecTokens c.depthLadder c.numSpecTokens) (drafts : List ℕ)
    (hdrafts : ∀ n ∈ drafts, 0 < n)
    (hlong : c.numSpecTokens = c.maxNumSpecTokens ∨ batchesLeft c ≤ drafts.length) :
    (acceptAll fl c drafts).numSpecTokens = c.maxNumSpecTokens := by
  induction drafts generalizing c with
  | nil =>
    rcases hlong with htop | hleft
    · exact htop
    · have hopen := hc.unsettled
      have hwindow := effectiveObservationWindow_le hc.configured
      simp only [batchesLeft, List.length_nil] at hleft
      omega
  | cons n drafts ih =>
    have hstep := observeBatch_full hfl hc (hdrafts n List.mem_cons_self)
    have hrest := ih (hstep.max ▸ hfl) hstep.climbing (climbs_climbable hstep hc hclimb)
      (fun m hm => hdrafts m (List.mem_cons_of_mem _ hm)) ?_
    · rw [acceptAll, runFrom, List.foldl_cons]
      rw [hstep.max] at hrest
      exact hrest
    · by_cases htop : c.numSpecTokens = c.maxNumSpecTokens
      · exact Or.inl (climbs_top hstep hc htop)
      · have hbelow := (hc.onLadder.ladder.bounds _ hc.onLadder.rung).2
        have hleft := climbs_batchesLeft hstep hc (by omega) hclimb
        rw [List.length_cons] at hlong
        right
        omega

/-! ## Staying below a gap -/

theorem climbTo_gap {ladder : List ℕ} {depth gap : ℕ} (hgap : gap ∉ ladder) (hbelow : depth < gap)
    (h24 : ladder ≠ [2, 4]) (h245 : ladder ≠ [2, 4, 5]) : climbTo ladder depth < gap := by
  rw [climbTo, if_neg (by simp [h24, h245])]
  split
  · rename_i hnext
    have hne : depth + 1 ≠ gap := fun h => hgap (h ▸ hnext)
    omega
  · exact hbelow

theorem acceptAll_gap (hfl : ExactOn fl c.maxNumSpecTokens) (hc : Climbing c) {gap : ℕ}
    (hgap : gap ∉ c.depthLadder) (hbelow : c.numSpecTokens < gap)
    (h24 : c.depthLadder ≠ [2, 4]) (h245 : c.depthLadder ≠ [2, 4, 5]) (drafts : List ℕ)
    (hdrafts : ∀ n ∈ drafts, 0 < n) : (acceptAll fl c drafts).numSpecTokens < gap := by
  induction drafts generalizing c with
  | nil => exact hbelow
  | cons n drafts ih =>
    have hstep := observeBatch_full hfl hc (hdrafts n List.mem_cons_self)
    rw [acceptAll, runFrom, List.foldl_cons]
    refine ih (hstep.max ▸ hfl) hstep.climbing (hstep.ladder ▸ hgap) ?_ (hstep.ladder ▸ h24)
      (hstep.ladder ▸ h245) (fun m hm => hdrafts m (List.mem_cons_of_mem _ hm))
    rcases hstep.depth with ⟨hdepth, -⟩ | ⟨hdepth, -⟩
    · rw [hdepth]
      exact hbelow
    · rw [hdepth]
      exact climbTo_gap hgap hbelow h24 h245

/-! ## Which rungs reach the top -/

/-- From a rung of an accepted ladder, all-accepted batches take the depth to the largest
rung exactly when the ladder is a tuned one or has no gap from that rung up. -/
theorem reaches_top_iff {fl : ℚ → ℚ} {numSpecTokens : ℕ} {observationWindow : ℤ}
    {raw : LadderTokens} {ladder : List ℕ} {c : LengthController}
    (hparse : parseAdaptiveSpecDepthLadder numSpecTokens raw = .ok ladder)
    (hinit : initController numSpecTokens observationWindow
      (ladder.map fun depth : ℕ => (depth : ℤ)) = .ok c)
    (hfl : ExactOn fl numSpecTokens) {depth : ℕ} (hdepth : depth ∈ ladder) :
    (∃ n, ∀ drafts : List ℕ, (∀ m ∈ drafts, 0 < m) → n ≤ drafts.length →
        (acceptAll fl (atRung c depth) drafts).numSpecTokens = numSpecTokens) ↔
      Climbable numSpecTokens ladder depth := by
  have hladder := parse_isLadder hparse
  obtain ⟨-, hwindow, hmax, hobservation, hrungs, -⟩ := initController_ok hinit
  rw [Int.toNat_natCast] at hmax hrungs
  rw [controllerLadder_parsed hladder] at hrungs
  have hclimbing : Climbing (atRung c depth) :=
    atRung_climbing (initController_onLadder hinit) (by omega) (hrungs ▸ hdepth)
  have hexact : ExactOn fl (atRung c depth).maxNumSpecTokens := hmax ▸ hfl
  constructor
  · rintro ⟨n, hreach⟩
    by_contra hnot
    simp only [Climbable, not_or, not_forall] at hnot
    obtain ⟨h24, h245, gap, hge, hle, hgap⟩ := hnot
    have hbelow : depth < gap := Nat.lt_of_le_of_ne hge fun h => hgap (h ▸ hdepth)
    have hpositive : ∀ m ∈ List.replicate n 1, 0 < m := fun m hm => by
      rw [List.eq_of_mem_replicate hm]
      exact Nat.one_pos
    have hstuck := acceptAll_gap hexact hclimbing (hrungs ▸ hgap : gap ∉ (atRung c depth).depthLadder) hbelow
      (hrungs ▸ h24) (hrungs ▸ h245) (List.replicate n 1) hpositive
    have htop := hreach (List.replicate n 1) hpositive (by simp)
    omega
  · intro hclimb
    refine ⟨batchesLeft (atRung c depth), fun drafts hdrafts hlong => ?_⟩
    have hclimb' : Climbable (atRung c depth).maxNumSpecTokens (atRung c depth).depthLadder depth := by
      change Climbable c.maxNumSpecTokens c.depthLadder depth
      rwa [hmax, hrungs]
    have htop := acceptAll_top hexact hclimbing hclimb' drafts hdrafts (Or.inr hlong)
    exact htop.trans hmax

theorem exactOn_id (maxNumSpecTokens : ℕ) : ExactOn id maxNumSpecTokens :=
  ⟨monotone_id, fun _ _ => rfl, fun _ _ => rfl⟩

theorem reaches_top_deployed :
    ∃ c, initController 5 1 [2, 4, 5] = .ok c ∧
      ∃ n, ∀ drafts : List ℕ, (∀ m ∈ drafts, 0 < m) → n ≤ drafts.length →
        (acceptAll id (atRung c 2) drafts).numSpecTokens = 5 :=
  ⟨_, rfl, (reaches_top_iff (show parseAdaptiveSpecDepthLadder 5 defaultTokens = .ok [2, 4, 5] from rfl)
    (show initController 5 1 [2, 4, 5] = .ok _ from rfl) (exactOn_id 5)
    (show 2 ∈ [2, 4, 5] by decide)).mpr (Or.inr (Or.inl rfl))⟩

/-- The ladder `2,5`: with every draft accepted, the depth two never becomes five. -/
theorem depth_two_stuck :
    ∃ c, parseAdaptiveSpecDepthLadder 5 [some 2, some 5] = .ok [2, 5] ∧
      initController 5 1 [2, 5] = .ok c ∧
      ∀ n, (acceptAll id (atRung c 2) (List.replicate n 1)).numSpecTokens ≠ 5 := by
  refine ⟨_, rfl, rfl, fun n htop => ?_⟩
  have hinit : initController 5 1 [2, 5] = .ok _ := rfl
  have hclimbing := atRung_climbing (initController_onLadder hinit) (by decide)
    (show 2 ∈ [2, 5] by decide)
  have hstuck := acceptAll_gap (exactOn_id 5) hclimbing (show 3 ∉ [2, 5] by decide) (by decide)
    (by decide) (by decide) (List.replicate n 1)
    (fun m hm => by rw [List.eq_of_mem_replicate hm]; exact Nat.one_pos)
  have htop' := htop ▸ hstuck
  omega

end SparkKit.Depth.Climb
