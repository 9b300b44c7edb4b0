import Mathlib.Data.List.Sort
import Mathlib.Data.List.Dedup
import Mathlib.Data.Int.Order.Basic

/-!
# The adaptive depth ladder

One parser turns `VLLM_ADAPTIVE_SPEC_DEPTHS` into the depths both the scheduler and the
graph manager use. Its input here is the list of non-blank tokens between the commas,
each with the integer it reads as, if it reads as one.
-/
namespace SparkKit.Graphs.DepthLadder

abbrev LadderTokens := List (Option ℤ)

/-- `ADAPTIVE_SPEC_DEPTHS_DEFAULT` -/
def defaultTokens : LadderTokens := [some 2, some 4, some 5]

/-- `sorted({...})` -/
def sortedSet {α : Type*} [LinearOrder α] (xs : List α) : List α := xs.dedup.insertionSort (· ≤ ·)

/-- `_parse`: nothing when some token is not an integer. -/
def parseDepths (toks : LadderTokens) : Option (List ℤ) := (toks.mapM id).map sortedSet

def parseAdaptiveSpecDepthLadder (maxNumSpecTokens : ℕ) (raw : LadderTokens) :
    Except String (List ℕ) :=
  if maxNumSpecTokens = 0 then .error "max_num_spec_tokens must be greater than zero."
  else
    let depths := ((parseDepths raw).orElse fun _ => parseDepths defaultTokens).getD []
    let valid := depths.filter fun depth : ℤ => 1 ≤ depth ∧ depth ≤ maxNumSpecTokens
    .ok (sortedSet (maxNumSpecTokens :: valid.map Int.toNat))

/-- `schedule` (depth selection): the controller's rung, never above what the batch-size
schedule allows for the number of scheduled requests. -/
def numSpecTokensToSchedule (controller : Option ℕ) (numSpecTokens : ℕ)
    (dynamicSdLookup : Option (ℕ → ℕ)) (numScheduled : ℕ) : ℕ :=
  let selected := controller.getD numSpecTokens
  match dynamicSdLookup with
  | some lookup => if numScheduled > 0 then min selected (lookup numScheduled) else selected
  | none => selected

theorem mem_sortedSet {α : Type*} [LinearOrder α] {xs : List α} {x : α} :
    x ∈ sortedSet xs ↔ x ∈ xs := by
  rw [sortedSet, List.mem_insertionSort, List.mem_dedup]

/-- Every rung of a parsed ladder lies between one and the maximum, which is a rung. -/
theorem ladder_bounds {maxNumSpecTokens : ℕ} {raw : LadderTokens} {ladder : List ℕ}
    (h : parseAdaptiveSpecDepthLadder maxNumSpecTokens raw = .ok ladder) :
    maxNumSpecTokens ∈ ladder ∧ ∀ depth ∈ ladder, 1 ≤ depth ∧ depth ≤ maxNumSpecTokens := by
  unfold parseAdaptiveSpecDepthLadder at h
  split at h
  case isTrue => cases h
  rename_i hmax
  obtain rfl := Except.ok.inj h
  refine ⟨mem_sortedSet.mpr List.mem_cons_self, fun depth hdepth => ?_⟩
  rcases List.mem_cons.mp (mem_sortedSet.mp hdepth) with rfl | hvalid
  · omega
  · obtain ⟨d, hd, rfl⟩ := List.mem_map.mp hvalid
    have hrange := (List.mem_filter.mp hd).2
    simp only [decide_eq_true_eq] at hrange
    omega

end SparkKit.Graphs.DepthLadder
