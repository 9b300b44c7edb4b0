import Mathlib.Data.List.GetD
import SparkKit.Depth.Invariant

/-!
# Calls that raise

`observe_batch` checks a batch's totals before it counts anything, but the position counts
only after the totals are added, and pair by pair. A call that raises there, or at a quotient
too large for a float, leaves the controller changed.
-/
namespace SparkKit.Depth.Atomicity

open SparkKit.Lib.Counters SparkKit.Depth.Controller SparkKit.Depth.Invariant

/-! ## Quotients that raise -/

/-- What `a / b` of two integers raises. From `2 ^ 1024 - 2 ^ 970` on a quotient is rounded
past the largest float. -/
def quotientError (quotient : ℤ × ℤ) : Option String :=
  if quotient.2 = 0 then some "division by zero"
  else if 2 ^ 1024 - 2 ^ 970 ≤ |(quotient.1 / quotient.2 : ℚ)| then
    some "integer division result too large for a float"
  else none

/-- The quotients of counts at the end of a window, in order. -/
def quotients (c : LengthController) : List (ℤ × ℤ) :=
  [(c.numAcceptedTokens, c.numDrafts), (c.numDraftTokens, c.numDrafts)] ++
    (((c.positionEligible.zip c.positionAccepted).filter fun pair => pair.1 ≠ 0).map Prod.swap ++
      ((if c.numDrafts ≠ 0 ∧ c.positionAccepted.length ≥ 4 then
          [(c.positionAccepted.getD 2 0 + c.positionAccepted.getD 3 0, c.numDrafts)]
        else []) ++
        if c.numDrafts ≠ 0 ∧ c.positionAccepted.length ≥ 5 then
          [(c.positionAccepted.getD 4 0, c.numDrafts)]
        else []))

section
variable (fl : ℚ → ℚ) (c : LengthController) (batch : Batch)

/-- The end of `observe_batch`, with what its quotients raise. -/
def settleOrRaise : LengthController × Except String (Option Update) :=
  if c.numObservationSteps < c.effectiveObservationWindow then (c, .ok none)
  else
    match (quotients c).findSome? quotientError with
    | some message => (c, .error message)
    | none =>
        let (settled, update) := c.settle fl
        (settled, .ok update)

/-- `observe_batch`, with what its quotients raise. -/
def observeBatchOrRaise : LengthController × Except String (Option Update) :=
  if batch.numDrafts < 0 ∨ batch.numDraftTokens < 0 ∨ batch.numAcceptedTokens < 0 then
    (c, .error "Speculative decoding counts must be non-negative.")
  else if batch.numAcceptedTokens > batch.numDraftTokens then
    (c, .error "num_accepted_tokens must not exceed num_draft_tokens.")
  else if batch.numDrafts = 0 then
    if batch.numDraftTokens ≠ 0 ∨ batch.numAcceptedTokens ≠ 0 then
      (c, .error "Token counts require at least one draft.")
    else (c, .ok none)
  else
    match (c.addCounts batch).observePositions batch with
    | (counted, .error message) => (counted, .error message)
    | (counted, .ok ()) => settleOrRaise fl counted

/-- A call that raises changes nothing. -/
def AtomicOnError : Prop :=
  ∀ message, (observeBatchOrRaise fl c batch).2 = .error message →
    (observeBatchOrRaise fl c batch).1 = c

end

/-! ## When nothing raises behind the first count -/

/-- The batch has drafts, and its totals pass their checks. -/
structure Counted (batch : Batch) : Prop where
  drafts : 0 < batch.numDrafts
  accepted : 0 ≤ batch.numAcceptedTokens
  within : batch.numAcceptedTokens ≤ batch.numDraftTokens

/-- No position counts, or as many accepted as eligible ones, not too many, and every pair in
order. -/
def PositionsValid (c : LengthController) (batch : Batch) : Prop :=
  match batch.positionEligible, batch.positionAccepted with
  | none, none => True
  | some eligible, some accepted =>
      eligible.length = accepted.length ∧ eligible.length ≤ c.maxNumSpecTokens ∧
        ∀ pair ∈ eligible.zip accepted, 0 ≤ pair.2 ∧ pair.2 ≤ pair.1
  | _, _ => False

/-- The controller with the whole batch counted. -/
def accumulated (c : LengthController) (batch : Batch) : LengthController :=
  { c.addCounts batch with
    positionEligible := raise c.positionEligible ((batch.positionEligible.getD []).getD · 0)
    positionAccepted := raise c.positionAccepted ((batch.positionAccepted.getD []).getD · 0) }

/-- Where the window ends, every quotient is a float. -/
def Quotable (c : LengthController) : Prop :=
  c.effectiveObservationWindow ≤ c.numObservationSteps →
    ∀ quotient ∈ quotients c, quotientError quotient = none

section
variable {fl : ℚ → ℚ} {c : LengthController} {batch : Batch}

theorem observePositions_valid (h : PositionsValid c batch) :
    (c.addCounts batch).observePositions batch = (accumulated c batch, .ok ()) := by
  simp only [LengthController.observePositions, accumulated]
  rw [PositionsValid] at h
  split at h
  · next heligible haccepted =>
    simp only [heligible, haccepted, Option.getD_none, List.getD_nil, raise_zero]
    rfl
  · next eligible accepted heligible haccepted =>
    obtain ⟨hlength, hmax, hpairs⟩ := h
    have hfits : ¬ eligible.length > (c.addCounts batch).maxNumSpecTokens := not_lt.mpr hmax
    simp only [heligible, haccepted, Option.getD_some]
    rw [if_neg (not_not.mpr hlength), if_neg hfits, addPositions_eq hpairs,
      List.map_fst_zip hlength.le, List.map_snd_zip hlength.ge]
    rfl
  · exact h.elim

/-- An invalid pair ends the loop, whatever it added before. -/
theorem addPositions_invalid {pairs : List (ℤ × ℤ)}
    (h : ¬ ∀ p ∈ pairs, 0 ≤ p.2 ∧ p.2 ≤ p.1) (c : LengthController) (i : ℕ) :
    ∃ counted message, c.addPositions i pairs = (counted, .error message) ∧
      counted.numObservationSteps = c.numObservationSteps := by
  induction pairs generalizing c i with
  | nil => exact absurd (fun p hp => absurd hp List.not_mem_nil) h
  | cons pair pairs ih =>
    obtain ⟨eligible, accepted⟩ := pair
    rw [LengthController.addPositions]
    split
    · exact ⟨c, _, rfl, rfl⟩
    · next hpair =>
      refine ih (fun hrest => h fun p hp => ?_) _ _
      rcases List.mem_cons.mp hp with rfl | hp
      · dsimp only
        omega
      · exact hrest p hp

theorem observePositions_invalid (h : ¬ PositionsValid c batch) :
    ∃ counted message, (c.addCounts batch).observePositions batch = (counted, .error message) ∧
      counted.numObservationSteps = c.numObservationSteps + 1 := by
  rw [LengthController.observePositions]
  split
  · next heligible haccepted =>
    exact absurd (by rw [PositionsValid, heligible, haccepted]; trivial) h
  · next eligible accepted heligible haccepted =>
    rw [PositionsValid, heligible, haccepted] at h
    split
    · exact ⟨_, _, rfl, rfl⟩
    · next hlength =>
      split
      · exact ⟨_, _, rfl, rfl⟩
      · next hmax =>
        exact addPositions_invalid
          (fun hpairs => h ⟨not_not.mp hlength, not_lt.mp hmax, hpairs⟩) _ _
  · exact ⟨_, _, rfl, rfl⟩

theorem settleOrRaise_ok (h : Quotable c) :
    settleOrRaise fl c = ((c.settle fl).1, .ok (c.settle fl).2) := by
  rw [settleOrRaise]
  split
  · next hopen => rw [LengthController.settle, if_pos hopen]
  · next hclosed =>
    have hnone : (quotients c).findSome? quotientError = none :=
      List.findSome?_eq_none_iff.mpr (h (not_lt.mp hclosed))
    rw [hnone]

theorem settleOrRaise_error (fl : ℚ → ℚ) (h : ¬ Quotable c) :
    ∃ message, settleOrRaise fl c = (c, .error message) := by
  rw [Quotable, Classical.not_imp] at h
  obtain ⟨hclosed, hquotients⟩ := h
  rw [settleOrRaise, if_neg (not_lt.mpr hclosed)]
  cases hfind : (quotients c).findSome? quotientError with
  | none => exact absurd (List.findSome?_eq_none_iff.mp hfind) hquotients
  | some message => exact ⟨message, rfl⟩

/-- A call whose totals fail their checks, or without drafts, leaves the controller alone. -/
theorem observeBatchOrRaise_uncounted (h : ¬ Counted batch) :
    (observeBatchOrRaise fl c batch).1 = c := by
  rw [observeBatchOrRaise]
  split
  · rfl
  split
  · rfl
  split
  · split
    · rfl
    · rfl
  · next hnonneg hwithin hdrafts => exact absurd ⟨by omega, by omega, by omega⟩ h

theorem observeBatchOrRaise_counted (h : Counted batch) :
    observeBatchOrRaise fl c batch =
      match (c.addCounts batch).observePositions batch with
      | (counted, .error message) => (counted, .error message)
      | (counted, .ok ()) => settleOrRaise fl counted := by
  have hdrafts := h.drafts
  have haccepted := h.accepted
  have hwithin := h.within
  rw [observeBatchOrRaise, if_neg (by omega), if_neg (by omega), if_neg (by omega)]

/-- Without a raise the whole batch is counted. -/
theorem observeBatchOrRaise_ok (h : Counted batch) (hpositions : PositionsValid c batch)
    (hquotable : Quotable (accumulated c batch)) :
    observeBatchOrRaise fl c batch =
      (((accumulated c batch).settle fl).1, .ok ((accumulated c batch).settle fl).2) := by
  rw [observeBatchOrRaise_counted h, observePositions_valid hpositions]
  exact settleOrRaise_ok hquotable

/-- Where no quotient raises, the call is that of the controller. -/
theorem observeBatchOrRaise_eq
    (h : Counted batch → PositionsValid c batch → Quotable (accumulated c batch)) :
    observeBatchOrRaise fl c batch = c.observeBatch fl batch := by
  rw [observeBatchOrRaise, LengthController.observeBatch]
  split
  · rfl
  split
  · rfl
  split
  · rfl
  next hnonneg hwithin hdrafts =>
    by_cases hvalid : PositionsValid c batch
    · rw [observePositions_valid hvalid]
      exact settleOrRaise_ok (h ⟨by omega, by omega, by omega⟩ hvalid)
    · obtain ⟨counted, message, hrun, -⟩ := observePositions_invalid hvalid
      rw [hrun]

/-- A call is atomic exactly when nothing can raise behind its first count. -/
theorem observeBatch_atomic_iff (fl : ℚ → ℚ) (c : LengthController) (batch : Batch) :
    AtomicOnError fl c batch ↔
      (Counted batch → PositionsValid c batch ∧ Quotable (accumulated c batch)) := by
  constructor
  · intro hatomic hcounted
    rw [AtomicOnError, observeBatchOrRaise_counted hcounted] at hatomic
    have hvalid : PositionsValid c batch := by
      by_contra hinvalid
      obtain ⟨counted, message, hrun, hsteps⟩ := observePositions_invalid hinvalid
      rw [hrun] at hatomic
      rw [← hatomic message rfl] at hsteps
      exact absurd hsteps (by dsimp only; omega)
    refine ⟨hvalid, ?_⟩
    by_contra hquotient
    obtain ⟨message, hsettle⟩ := settleOrRaise_error fl hquotient
    rw [observePositions_valid hvalid] at hatomic
    simp only [hsettle] at hatomic
    have hsteps := congrArg LengthController.numObservationSteps (hatomic message rfl)
    exact absurd hsteps (Nat.succ_ne_self _)
  · intro h message herror
    by_cases hcounted : Counted batch
    · obtain ⟨hvalid, hquotable⟩ := h hcounted
      rw [observeBatchOrRaise_ok hcounted hvalid hquotable] at herror
      cases herror
    · exact observeBatchOrRaise_uncounted hcounted

end

/-- The second pair is out of order; the totals and the first pair stay counted. -/
theorem invalid_pair_counted :
    ∃ c, initController 5 1 [2, 4, 5] = .ok c ∧
      ¬ AtomicOnError id c ⟨1, 2, 2, some [1, 1], some [1, 2]⟩ := by
  refine ⟨_, rfl, fun h => ?_⟩
  have hkept := h "Invalid per-position acceptance counts." rfl
  exact absurd (congrArg LengthController.numDrafts hkept) (by decide)

/-! ## The position lists -/

/-- One counter of each kind for every position, so the loop over a batch's counts stays within
the lists. -/
structure FullLength (c : LengthController) : Prop where
  eligible : c.positionEligible.length = c.maxNumSpecTokens
  accepted : c.positionAccepted.length = c.maxNumSpecTokens

section
variable {c : LengthController}

theorem resetWindow_fullLength (c : LengthController) : FullLength c.resetWindow :=
  ⟨List.length_replicate, List.length_replicate⟩

theorem initController_fullLength {maxNumSpecTokens observationWindow : ℤ} {depthLadder : List ℤ}
    (h : initController maxNumSpecTokens observationWindow depthLadder = .ok c) : FullLength c := by
  rw [initController_reset h]
  exact resetWindow_fullLength c

theorem FullLength.addPositions (h : FullLength c) (pairs : List (ℤ × ℤ)) (i : ℕ) :
    FullLength (c.addPositions i pairs).1 := by
  induction pairs generalizing c i with
  | nil => exact h
  | cons pair pairs ih =>
    obtain ⟨eligible, accepted⟩ := pair
    rw [LengthController.addPositions]
    split
    · exact h
    · exact ih ⟨(List.length_modify ..).trans h.eligible, (List.length_modify ..).trans h.accepted⟩ _

theorem FullLength.observePositions (h : FullLength c) (batch : Batch) :
    FullLength (c.observePositions batch).1 := by
  rw [LengthController.observePositions]
  split
  · exact h
  · split
    · exact h
    split
    · exact h
    · exact h.addPositions ..
  · exact h

theorem FullLength.settles (h : FullLength c) (fl : ℚ → ℚ) : FullLength (settleOrRaise fl c).1 := by
  rw [settleOrRaise]
  split
  · exact h
  · next hclosed =>
    split
    · exact h
    · rw [LengthController.settle, if_neg hclosed]
      exact resetWindow_fullLength _

/-- A call keeps the lists in length, also when it raises. -/
theorem FullLength.observes (h : FullLength c) (fl : ℚ → ℚ) (batch : Batch) :
    FullLength (observeBatchOrRaise fl c batch).1 := by
  by_cases hcounted : Counted batch
  · rw [observeBatchOrRaise_counted hcounted]
    have hadded : FullLength (c.addCounts batch) := ⟨h.eligible, h.accepted⟩
    have hpositions := hadded.observePositions batch
    split
    · next hrun =>
      rw [hrun] at hpositions
      exact hpositions
    · next hrun =>
      rw [hrun] at hpositions
      exact hpositions.settles fl
  · rw [observeBatchOrRaise_uncounted hcounted]
    exact h

end

/-! ## Counts in order -/

/-- Totals and position counts as verified samples add up to. -/
structure Ordered (numPositions : ℕ) (numDrafts numDraftTokens numAcceptedTokens : ℤ)
    (eligible accepted : List ℤ) : Prop where
  drafts : 0 ≤ numDrafts
  nonneg : 0 ≤ numAcceptedTokens
  within : numAcceptedTokens ≤ numDraftTokens
  drafted : numDraftTokens ≤ numDrafts * numPositions
  eligible_length : eligible.length = numPositions
  accepted_length : accepted.length = numPositions
  positions : ∀ pos, 0 ≤ accepted.getD pos 0 ∧ accepted.getD pos 0 ≤ eligible.getD pos 0 ∧
    accepted.getD pos 0 ≤ numDrafts

theorem Ordered.zero (n : ℕ) :
    Ordered n 0 0 0 (List.replicate n 0) (List.replicate n 0) := by
  have hzero : ∀ pos, (List.replicate n (0 : ℤ)).getD pos 0 = 0 := by
    intro pos
    rcases Nat.lt_or_ge pos n with hlt | hge
    · exact List.getD_replicate _ hlt
    · exact List.getD_eq_default _ _ (by rwa [List.length_replicate])
  refine ⟨le_refl 0, le_refl 0, le_refl 0, (zero_mul _).ge, List.length_replicate,
    List.length_replicate, fun pos => ?_⟩
  rw [hzero]
  exact ⟨le_refl 0, le_refl 0, le_refl 0⟩

section
variable {n : ℕ} {numDrafts numDraftTokens numAcceptedTokens : ℤ} {eligible accepted : List ℤ}

theorem Ordered.add {numDrafts' numDraftTokens' numAcceptedTokens' : ℤ}
    {eligible' accepted' : List ℤ}
    (h : Ordered n numDrafts numDraftTokens numAcceptedTokens eligible accepted)
    (h' : Ordered n numDrafts' numDraftTokens' numAcceptedTokens' eligible' accepted') :
    Ordered n (numDrafts + numDrafts') (numDraftTokens + numDraftTokens')
      (numAcceptedTokens + numAcceptedTokens') (raise eligible (eligible'.getD · 0))
      (raise accepted (accepted'.getD · 0)) := by
  refine ⟨add_nonneg h.drafts h'.drafts, add_nonneg h.nonneg h'.nonneg,
    add_le_add h.within h'.within, ?_, (length_raise ..).trans h.eligible_length,
    (length_raise ..).trans h.accepted_length, fun pos => ?_⟩
  · rw [add_mul]
    exact add_le_add h.drafted h'.drafted
  · rcases Nat.lt_or_ge pos n with hlt | hge
    · rw [getD_raise (h.accepted_length ▸ hlt), getD_raise (h.eligible_length ▸ hlt)]
      have hpos := h.positions pos
      have hpos' := h'.positions pos
      omega
    · rw [List.getD_eq_default _ _ (by rwa [length_raise, h.accepted_length]),
        List.getD_eq_default _ _ (by rwa [length_raise, h.eligible_length])]
      have hdrafts := h.drafts
      have hdrafts' := h'.drafts
      omega

/-- A pair of position counts is in order. -/
theorem Ordered.of_mem_zip
    (h : Ordered n numDrafts numDraftTokens numAcceptedTokens eligible accepted) {pair : ℤ × ℤ}
    (hpair : pair ∈ eligible.zip accepted) : 0 ≤ pair.2 ∧ pair.2 ≤ pair.1 := by
  obtain ⟨pos, hpos, rfl⟩ := List.mem_iff_getElem.mp hpair
  rw [List.length_zip, lt_min_iff] at hpos
  have hcounts := h.positions pos
  rw [List.getD_eq_getElem _ _ hpos.1, List.getD_eq_getElem _ _ hpos.2] at hcounts
  rw [List.getElem_zip]
  exact ⟨hcounts.1, hcounts.2.1⟩

/-- A quotient that is at most the length of a list is a float. -/
theorem quotientError_none {a b : ℤ} (hb : 0 < b) (ha : 0 ≤ a) (hab : a ≤ b * n)
    (hn : n < 2 ^ 63) : quotientError (a, b) = none := by
  have hb' : (0 : ℚ) < b := by exact_mod_cast hb
  have ha' : (0 : ℚ) ≤ a := by exact_mod_cast ha
  have hle : (a / b : ℚ) ≤ n := by
    rw [div_le_iff₀ hb', mul_comm]
    exact_mod_cast hab
  have hlt : (n : ℚ) < 2 ^ 63 := by exact_mod_cast hn
  have hfloat : (2 : ℚ) ^ 63 ≤ 2 ^ 1024 - 2 ^ 970 := by
    have hsmall : (2 : ℚ) ^ 63 ≤ 2 ^ 970 := pow_le_pow_right₀ one_le_two (by decide)
    have hlarge : (2 : ℚ) ^ 971 ≤ 2 ^ 1024 := pow_le_pow_right₀ one_le_two (by decide)
    rw [pow_succ, mul_two] at hlarge
    exact le_sub_iff_add_le.mpr ((add_le_add_left hsmall _).trans hlarge)
  rw [quotientError, if_neg hb.ne', if_neg]
  rw [abs_of_nonneg (div_nonneg ha' hb'.le)]
  exact not_le.mpr (hle.trans_lt (hlt.trans_le hfloat))

end

/-- A controller whose counters are in order. -/
def Sound (c : LengthController) : Prop :=
  Ordered c.maxNumSpecTokens c.numDrafts c.numDraftTokens c.numAcceptedTokens c.positionEligible
    c.positionAccepted

theorem resetWindow_sound (c : LengthController) : Sound c.resetWindow := Ordered.zero _

theorem settle_sound {fl : ℚ → ℚ} {c : LengthController} (h : Sound c) :
    Sound (c.settle fl).1 := by
  rw [LengthController.settle]
  split
  · exact h
  · exact resetWindow_sound _

/-- No quotient of counters in order raises. -/
theorem Sound.quotable {c : LengthController} (h : Sound c) (hdrafts : 0 < c.numDrafts)
    (hmax : c.maxNumSpecTokens < 2 ^ 63) : Quotable c := by
  intro _ quotient hquotient
  have hone : 1 < 2 ^ 63 := by decide
  have htwo : 2 < 2 ^ 63 := by decide
  rcases List.mem_append.mp hquotient with hmeans | hquotient
  · rcases List.mem_pair.mp hmeans with rfl | rfl
    · exact quotientError_none hdrafts h.nonneg (h.within.trans h.drafted) hmax
    · exact quotientError_none hdrafts (h.nonneg.trans h.within) h.drafted hmax
  rcases List.mem_append.mp hquotient with hrates | hgains
  · obtain ⟨⟨eligible, accepted⟩, hpair, rfl⟩ := List.mem_map.mp hrates
    obtain ⟨hzip, hne⟩ := List.mem_filter.mp hpair
    have hne : eligible ≠ 0 := of_decide_eq_true hne
    obtain ⟨hnonneg, hle⟩ : 0 ≤ accepted ∧ accepted ≤ eligible := h.of_mem_zip hzip
    exact quotientError_none (n := 1) (by omega) hnonneg (by omega) hone
  rcases List.mem_append.mp hgains with htail | hlast
  · split at htail
    · cases List.mem_singleton.mp htail
      have hsecond := h.positions 2
      have hthird := h.positions 3
      exact quotientError_none (n := 2) hdrafts (by omega) (by omega) htwo
    · cases htail
  · split at hlast
    · cases List.mem_singleton.mp hlast
      have hfourth := h.positions 4
      exact quotientError_none (n := 1) hdrafts hfourth.1 (by omega) hone
    · cases hlast

/-- The batch passes every check. -/
structure PassesChecks (c : LengthController) (batch : Batch) : Prop where
  nonneg : 0 ≤ batch.numDrafts ∧ 0 ≤ batch.numDraftTokens ∧ 0 ≤ batch.numAcceptedTokens
  within : batch.numAcceptedTokens ≤ batch.numDraftTokens
  drafted : batch.numDrafts = 0 → batch.numDraftTokens = 0 ∧ batch.numAcceptedTokens = 0
  positions : PositionsValid c batch

/-- A batch in order, with counts for every position. -/
structure OrderedBatch (numPositions : ℕ) (batch : Batch) : Prop where
  eligible : batch.positionEligible.isSome
  accepted : batch.positionAccepted.isSome
  ordered : Ordered numPositions batch.numDrafts batch.numDraftTokens batch.numAcceptedTokens
    (batch.positionEligible.getD []) (batch.positionAccepted.getD [])

section
variable {c : LengthController} {batch : Batch}

theorem OrderedBatch.positionsValid (h : OrderedBatch c.maxNumSpecTokens batch) :
    PositionsValid c batch := by
  obtain ⟨eligible, heligible⟩ := Option.isSome_iff_exists.mp h.eligible
  obtain ⟨accepted, haccepted⟩ := Option.isSome_iff_exists.mp h.accepted
  have hordered := h.ordered
  rw [heligible, haccepted, Option.getD_some, Option.getD_some] at hordered
  rw [PositionsValid, heligible, haccepted]
  refine ⟨hordered.eligible_length.trans hordered.accepted_length.symm,
    hordered.eligible_length.le, fun pair hpair => hordered.of_mem_zip hpair⟩

theorem OrderedBatch.undrafted {n : ℕ} (h : OrderedBatch n batch) (hdrafts : batch.numDrafts = 0) :
    batch.numDraftTokens = 0 ∧ batch.numAcceptedTokens = 0 := by
  have hdrafted := h.ordered.drafted
  have hwithin := h.ordered.within
  have hnonneg := h.ordered.nonneg
  rw [hdrafts, zero_mul] at hdrafted
  omega

theorem OrderedBatch.passesChecks (h : OrderedBatch c.maxNumSpecTokens batch) :
    PassesChecks c batch :=
  ⟨⟨h.ordered.drafts, h.ordered.nonneg.trans h.ordered.within, h.ordered.nonneg⟩,
    h.ordered.within, h.undrafted, h.positionsValid⟩

theorem Sound.accumulates (h : Sound c) (hbatch : OrderedBatch c.maxNumSpecTokens batch) :
    Sound (accumulated c batch) := h.add hbatch.ordered

/-- A controller with counters in order takes a batch in order, and keeps them so. -/
theorem Sound.observes (fl : ℚ → ℚ) (h : Sound c) (hmax : c.maxNumSpecTokens < 2 ^ 63)
    (hbatch : OrderedBatch c.maxNumSpecTokens batch) :
    ∃ c' update, observeBatchOrRaise fl c batch = (c', .ok update) ∧ Sound c' ∧
      c'.maxNumSpecTokens = c.maxNumSpecTokens := by
  have hchecks := hbatch.passesChecks
  have hwithin := hchecks.within
  have hnonneg := hchecks.nonneg
  by_cases hdrafts : batch.numDrafts = 0
  · have hundrafted := hchecks.drafted hdrafts
    rw [observeBatchOrRaise, if_neg (by omega), if_neg (by omega), if_pos hdrafts,
      if_neg (by omega)]
    exact ⟨c, none, rfl, h, rfl⟩
  · have hsound := h.accumulates hbatch
    have hsome : 0 < (accumulated c batch).numDrafts :=
      Int.add_pos_of_nonneg_of_pos h.drafts (by omega)
    rw [observeBatchOrRaise_ok ⟨by omega, by omega, by omega⟩ hchecks.positions
      (hsound.quotable hsome hmax)]
    exact ⟨_, _, rfl, settle_sound hsound, (settle_moves fl (accumulated c batch)).max⟩

end

end SparkKit.Depth.Atomicity
