import Mathlib.Data.Rat.Floor
import SparkKit.Graphs.DepthLadder

/-!
# The acceptance-length controller

`AcceptanceLengthController` watches how many drafted tokens are accepted and now and then
moves the speculative depth to another rung of its ladder. Its quotients are floats: every
quotient, and the one sum that is rounded before it is floored, goes through `fl`.
-/
namespace SparkKit.Depth.Controller

open SparkKit.Graphs.DepthLadder

/-- `AcceptanceLengthUpdate` -/
structure Update where
  previousNumSpecTokens : ℕ
  numSpecTokens : ℕ
  meanNumAcceptedTokens : ℚ
  meanNumDraftTokens : ℚ
  rawTargetNumSpecTokens : ℕ
  acceptanceRatchet : Bool
  decisionReason : String
  positionConditionalAcceptance : List ℚ
  observationWindow : ℕ
  tailGain23 : ℚ
  position4Gain : ℚ

/-- `AcceptanceLengthController` -/
structure LengthController where
  maxNumSpecTokens : ℕ
  observationWindow : ℕ
  depthLadder : List ℕ
  numSpecTokens : ℕ
  numObservationSteps : ℕ
  numDrafts : ℤ
  numDraftTokens : ℤ
  numAcceptedTokens : ℤ
  positionEligible : List ℤ
  positionAccepted : List ℤ

/-- The arguments of one `observe_batch` call. -/
structure Batch where
  numDrafts : ℤ
  numDraftTokens : ℤ
  numAcceptedTokens : ℤ
  positionEligible : Option (List ℤ)
  positionAccepted : Option (List ℤ)

/-! ## Construction -/

/-- The constructor's own reading of its ladder argument. -/
def controllerLadder (maxNumSpecTokens : ℕ) (depthLadder : List ℤ) : List ℕ :=
  let ladder := sortedSet
    ((depthLadder.filter fun depth : ℤ => 1 ≤ depth ∧ depth ≤ maxNumSpecTokens).map Int.toNat)
  let ladder := if ladder = [] then List.range' 1 maxNumSpecTokens else ladder
  if ladder.getLast? = some maxNumSpecTokens then ladder else ladder ++ [maxNumSpecTokens]

def LengthController.resetWindow (c : LengthController) : LengthController :=
  { c with
    numObservationSteps := 0, numDrafts := 0, numDraftTokens := 0, numAcceptedTokens := 0
    positionEligible := List.replicate c.maxNumSpecTokens 0
    positionAccepted := List.replicate c.maxNumSpecTokens 0 }

/-- `depth_ladder_0`, the baseline depth. -/
def LengthController.baseline (c : LengthController) : ℕ := c.depthLadder.headD 0

/-- `__init__`; no ladder argument and an empty one are the same. -/
def initController (maxNumSpecTokens observationWindow : ℤ) (depthLadder : List ℤ) :
    Except String LengthController :=
  if maxNumSpecTokens ≤ 0 then .error "max_num_spec_tokens must be greater than zero."
  else if observationWindow ≤ 0 then .error "observation_window must be greater than zero."
  else
    let ladder := controllerLadder maxNumSpecTokens.toNat depthLadder
    .ok (LengthController.resetWindow
      { maxNumSpecTokens := maxNumSpecTokens.toNat
        observationWindow := observationWindow.toNat
        depthLadder := ladder
        numSpecTokens := ladder.headD 0
        numObservationSteps := 0, numDrafts := 0, numDraftTokens := 0, numAcceptedTokens := 0
        positionEligible := [], positionAccepted := [] })

/-! ## Accumulating a batch -/

def LengthController.addCounts (c : LengthController) (batch : Batch) : LengthController :=
  { c with
    numObservationSteps := c.numObservationSteps + 1
    numDrafts := c.numDrafts + batch.numDrafts
    numDraftTokens := c.numDraftTokens + batch.numDraftTokens
    numAcceptedTokens := c.numAcceptedTokens + batch.numAcceptedTokens }

/-- The loop over the position counts from index `i` on. What it added before an invalid
pair stays added. -/
def LengthController.addPositions (c : LengthController) :
    ℕ → List (ℤ × ℤ) → LengthController × Except String Unit
  | _, [] => (c, .ok ())
  | i, (eligible, accepted) :: rest =>
      if eligible < 0 ∨ accepted < 0 ∨ accepted > eligible then
        (c, .error "Invalid per-position acceptance counts.")
      else
        addPositions
          { c with
            positionEligible := c.positionEligible.modify i (· + eligible)
            positionAccepted := c.positionAccepted.modify i (· + accepted) }
          (i + 1) rest

def LengthController.observePositions (c : LengthController) (batch : Batch) :
    LengthController × Except String Unit :=
  match batch.positionEligible, batch.positionAccepted with
  | none, none => (c, .ok ())
  | some eligible, some accepted =>
      if eligible.length ≠ accepted.length then
        (c, .error "Position eligibility and acceptance lengths must match.")
      else if eligible.length > c.maxNumSpecTokens then
        (c, .error "Position vectors exceed max_num_spec_tokens.")
      else c.addPositions 0 (eligible.zip accepted)
  | _, _ => (c, .error "Position eligibility and acceptance must be provided together.")

/-! ## Deciding the depth -/

section Decide

variable (fl : ℚ → ℚ) (c : LengthController)

def LengthController.effectiveObservationWindow : ℕ :=
  if c.numSpecTokens = c.baseline then c.observationWindow else max 1 (c.observationWindow / 2)

def LengthController.meanNumAcceptedTokens : ℚ := fl (c.numAcceptedTokens / c.numDrafts)

def LengthController.meanNumDraftTokens : ℚ := fl (c.numDraftTokens / c.numDrafts)

def LengthController.positionRates : List ℚ :=
  (c.positionEligible.zip c.positionAccepted).map fun (eligible, accepted) =>
    if eligible ≠ 0 then fl (accepted / eligible) else 0

def LengthController.tailGain23 : ℚ :=
  if c.numDrafts ≠ 0 ∧ c.positionAccepted.length ≥ 4 then
    fl (((c.positionAccepted.getD 2 0 + c.positionAccepted.getD 3 0 : ℤ) : ℚ) / c.numDrafts)
  else 0

def LengthController.position4Gain : ℚ :=
  if c.numDrafts ≠ 0 ∧ c.positionAccepted.length ≥ 5 then
    fl ((c.positionAccepted.getD 4 0 : ℤ) / c.numDrafts)
  else 0

structure Decision where
  target : ℕ
  reason : String
  ratchet : Bool

/-- The production policy, for the ladders it was tuned on. -/
def LengthController.productionPolicy : Decision :=
  let headRatio :=
    if c.meanNumDraftTokens fl ≠ 0 then fl (c.meanNumAcceptedTokens fl / c.meanNumDraftTokens fl)
    else 0
  if c.numSpecTokens = 2 then
    if headRatio ≥ fl (85 / 100) then ⟨4, "probe_k4", true⟩ else ⟨2, "k2_baseline", false⟩
  else if c.numSpecTokens = 4 then
    if c.depthLadder = [2, 4, 5] ∧ c.tailGain23 fl ≥ fl (70 / 100) then ⟨5, "probe_k5", true⟩
    else if c.tailGain23 fl ≥ fl (35 / 100) then ⟨4, "k4_hold", false⟩
    else ⟨2, "k4_tail_reject", false⟩
  else
    if c.position4Gain fl ≥ fl (15 / 100) then ⟨5, "k5_hold", false⟩
    else if c.tailGain23 fl ≥ fl (35 / 100) then ⟨4, "k5_p4_reject", false⟩
    else ⟨2, "k5_tail_reject", false⟩

/-- `formula_target_num_spec_tokens` -/
def LengthController.formulaTarget : ℤ :=
  min c.maxNumSpecTokens (max 1 ⌊fl (c.meanNumAcceptedTokens fl + 3 / 2)⌋)

/-- The largest rung not above the formula's target. -/
def LengthController.formulaPolicy : Decision :=
  let reached := c.depthLadder.filter fun depth : ℕ => (depth : ℤ) ≤ c.formulaTarget fl
  ⟨reached.max?.getD c.baseline, "formula", false⟩

def LengthController.decide : Decision :=
  if c.depthLadder = [2, 4] ∨ c.depthLadder = [2, 4, 5] then c.productionPolicy fl
  else c.formulaPolicy fl

/-- The end of `observe_batch`, once the batch is accumulated. -/
def LengthController.settle : LengthController × Option Update :=
  if c.numObservationSteps < c.effectiveObservationWindow then (c, none)
  else
    let decision := c.decide fl
    ({ c with numSpecTokens := decision.target }.resetWindow,
      some
        { previousNumSpecTokens := c.numSpecTokens
          numSpecTokens := decision.target
          meanNumAcceptedTokens := c.meanNumAcceptedTokens fl
          meanNumDraftTokens := c.meanNumDraftTokens fl
          rawTargetNumSpecTokens := decision.target
          acceptanceRatchet := decision.ratchet
          decisionReason := decision.reason
          positionConditionalAcceptance := c.positionRates fl
          observationWindow := c.effectiveObservationWindow
          tailGain23 := c.tailGain23 fl
          position4Gain := c.position4Gain fl })

/-- `observe_batch`: the controller afterwards, also when the call raises. -/
def LengthController.observeBatch (batch : Batch) :
    LengthController × Except String (Option Update) :=
  if batch.numDrafts < 0 ∨ batch.numDraftTokens < 0 ∨ batch.numAcceptedTokens < 0 then
    (c, .error "Speculative decoding counts must be non-negative.")
  else if batch.numAcceptedTokens > batch.numDraftTokens then
    (c, .error "num_accepted_tokens must not exceed num_draft_tokens.")
  else if batch.numDrafts = 0 then
    if batch.numDraftTokens ≠ 0 ∨ batch.numAcceptedTokens ≠ 0 then
      (c, .error "Token counts require at least one draft.")
    else (c, .ok none)
  else
    match (c.addCounts batch).observePositions batch with
    | (counted, .error message) => (counted, .error message)
    | (counted, .ok ()) =>
        let (settled, update) := counted.settle fl
        (settled, .ok update)

end Decide

end SparkKit.Depth.Controller
