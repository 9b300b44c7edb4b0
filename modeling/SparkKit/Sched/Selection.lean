import SparkKit.Sched.Schedule

/-!
# The selection of long prefills

The selection prunes the turns of gone requests, and sorts the candidates by their last turn.
Waiting candidates beyond the free sequence slots do not take part.
-/
namespace SparkKit.Sched.Selection

open SparkKit.Sched.Requests SparkKit.Sched.StepState SparkKit.Sched.Schedule

/-- All candidates for a turn, the running ones first. -/
def longPrefillCandidates (cfg : SchedulerConfig) (s : Scheduler) : List ReqId :=
  runningCandidates cfg s ++ waitingCandidates cfg s

/-- The candidates that take part in the selection. -/
def selectable (cfg : SchedulerConfig) (s : Scheduler) : List ReqId :=
  runningCandidates cfg s ++ (waitingCandidates cfg s).filter fun id =>
    id ∈ (byAge s (waitingCandidates cfg s)).take (cfg.maxNumRunningReqs - s.running.length)

/-- The step of the last turn, `-1` without one. -/
def lastTurn (s : Scheduler) (id : ReqId) : ℤ :=
  match s.longPrefillLastScheduled.lookup id with
  | some step => (step : ℤ)
  | none => -1

/-- Turns were given in this step at the latest. -/
def TurnsPast (s : Scheduler) : Prop :=
  ∀ id turn, s.longPrefillLastScheduled.lookup id = some turn → turn ≤ s.currentStep

section
variable {cfg : SchedulerConfig} {s : Scheduler} {throttle : Bool}

/-! ## Turns -/

theorem lastTurn_congr {s' : Scheduler} {id : ReqId}
    (h : s'.longPrefillLastScheduled.lookup id = s.longPrefillLastScheduled.lookup id) :
    lastTurn s' id = lastTurn s id := by
  rw [lastTurn, h]
  rfl

theorem TurnsPast.lastTurn_le (h : TurnsPast s) (id : ReqId) : lastTurn s id ≤ s.currentStep := by
  rw [lastTurn]
  cases hturn : s.longPrefillLastScheduled.lookup id with
  | none =>
    show (-1 : ℤ) ≤ _
    omega
  | some turn => exact Int.ofNat_le.mpr (h id turn hturn)

/-- The older of two requests has the earlier last turn. -/
theorem lastTurn_le_of_ageKey {a b : ReqId} (h : ageKey s a ≤ ageKey s b) :
    lastTurn s a ≤ lastTurn s b := by
  have hlex : lastTurn s a < lastTurn s b ∨
      lastTurn s a = lastTurn s b ∧ (s.requests a).arrivalTime ≤ (s.requests b).arrivalTime :=
    Prod.Lex.toLex_le_toLex.mp h
  rcases hlex with hlt | ⟨heq, -⟩
  · exact le_of_lt hlt
  · exact le_of_eq heq

/-- Pruning drops turns of gone requests only. -/
theorem pruneTurns_lookup (s : Scheduler) (id : ReqId) :
    (pruneTurns s).longPrefillLastScheduled.lookup id = s.longPrefillLastScheduled.lookup id ∨
      id ∉ s.active ∧ (pruneTurns s).longPrefillLastScheduled.lookup id = none := by
  rw [pruneTurns]
  dsimp only
  generalize s.longPrefillLastScheduled.keys = keys
  generalize s.longPrefillLastScheduled = turns
  induction keys generalizing turns with
  | nil => exact .inl rfl
  | cons key keys ih =>
    rw [List.foldl_cons]
    by_cases hkey : key ∈ s.active
    · rw [if_pos hkey]
      exact ih turns
    · rw [if_neg hkey]
      by_cases hid : id = key
      · subst hid
        rcases ih (turns.erase id) with hsame | hgone
        · rw [AList.lookup_erase] at hsame
          exact .inr ⟨hkey, hsame⟩
        · exact .inr hgone
      · have herase : (turns.erase key).lookup id = turns.lookup id := AList.lookup_erase_ne hid
        rw [← herase]
        exact ih (turns.erase key)

theorem beginStep_lookup (cfg : SchedulerConfig) (s : Scheduler) (id : ReqId) :
    (beginStep cfg s).longPrefillLastScheduled.lookup id = s.longPrefillLastScheduled.lookup id ∨
      id ∉ s.active ∧ (beginStep cfg s).longPrefillLastScheduled.lookup id = none := by
  rw [beginStep]
  split
  · exact pruneTurns_lookup { s with currentStep := s.currentStep + 1 } id
  · exact .inl rfl

theorem beginStep_lookup_active {cfg : SchedulerConfig} {s : Scheduler} {id : ReqId}
    (h : id ∈ s.active) :
    (beginStep cfg s).longPrefillLastScheduled.lookup id = s.longPrefillLastScheduled.lookup id :=
  (beginStep_lookup cfg s id).resolve_right fun hgone => hgone.1 h

theorem beginStep_requests (cfg : SchedulerConfig) (s : Scheduler) :
    (beginStep cfg s).requests = s.requests ∧
      (beginStep cfg s).currentStep = s.currentStep + 1 ∧
      longPrefillCandidates cfg (beginStep cfg s) = longPrefillCandidates cfg s ∧
      runningCandidates cfg (beginStep cfg s) = runningCandidates cfg s ∧
      (beginStep cfg s).running = s.running := by
  obtain ⟨turns, hbegin⟩ := beginStep_eq cfg s
  rw [hbegin]
  exact ⟨rfl, rfl, rfl, rfl, rfl⟩

theorem beginStep_turnsPast (h : TurnsPast s) : TurnsPast (beginStep cfg s) := by
  intro id turn hturn
  rw [(beginStep_requests cfg s).2.1]
  rcases beginStep_lookup cfg s id with hsame | ⟨-, hgone⟩
  · rw [hsame] at hturn
    exact (h id turn hturn).trans (Nat.le_succ _)
  · rw [hgone] at hturn
    cases hturn

/-! ## Candidates -/

/-- Collecting the wanted ids keeps each once. -/
theorem collect_once {P Q : ReqId → Prop} [DecidablePred P] [DecidablePred Q] {ids acc : List ReqId}
    (hacc : acc.Nodup) :
    (ids.foldl (fun acc id =>
        if P id ∨ id ∈ acc then acc else if Q id then acc ++ [id] else acc) acc).Nodup ∧
      ∀ x, x ∈ ids.foldl (fun acc id =>
          if P id ∨ id ∈ acc then acc else if Q id then acc ++ [id] else acc) acc ↔
        x ∈ acc ∨ x ∈ ids ∧ ¬P x ∧ Q x := by
  induction ids generalizing acc with
  | nil => exact ⟨hacc, fun x => by simp⟩
  | cons id ids ih =>
    rw [List.foldl_cons]
    by_cases hskip : P id ∨ id ∈ acc
    · rw [if_pos hskip]
      refine ⟨(ih hacc).1, fun x => ?_⟩
      rw [(ih hacc).2 x, List.mem_cons]
      constructor
      · tauto
      · intro h
        rcases h with h | ⟨rfl | h, hnot, hwanted⟩
        · exact .inl h
        · exact .inl (hskip.resolve_left hnot)
        · exact .inr ⟨h, hnot, hwanted⟩
    rw [if_neg hskip]
    by_cases hwanted : Q id
    · rw [if_pos hwanted]
      have hnext : (acc ++ [id]).Nodup := by
        rw [List.nodup_append]
        refine ⟨hacc, List.nodup_singleton id, fun x hx y hy heq => ?_⟩
        rw [List.mem_singleton.mp hy] at heq
        exact hskip (.inr (heq ▸ hx))
      refine ⟨(ih hnext).1, fun x => ?_⟩
      rw [(ih hnext).2 x, List.mem_append, List.mem_singleton, List.mem_cons]
      constructor
      · intro h
        rcases h with (h | rfl) | h
        · exact .inl h
        · exact .inr ⟨.inl rfl, fun hnot => hskip (.inl hnot), hwanted⟩
        · exact .inr ⟨.inr h.1, h.2⟩
      · tauto
    · rw [if_neg hwanted]
      refine ⟨(ih hacc).1, fun x => ?_⟩
      rw [(ih hacc).2 x, List.mem_cons]
      constructor
      · tauto
      · intro h
        rcases h with h | ⟨rfl | h, hrest⟩
        · exact .inl h
        · exact absurd hrest.2 hwanted
        · exact .inr ⟨h, hrest⟩

theorem mem_waitingCandidates {id : ReqId} :
    id ∈ waitingCandidates cfg s ↔ id ∈ s.waiting ++ s.skippedWaiting ∧
      id ∉ runningCandidates cfg s ∧ isLongPrefillRequest cfg (s.requests id) = true := by
  rw [waitingCandidates, (collect_once List.nodup_nil).2 id]
  simp

theorem longPrefillCandidates_nodup (h : s.running.Nodup) : (longPrefillCandidates cfg s).Nodup := by
  rw [longPrefillCandidates, List.nodup_append]
  refine ⟨h.filter _, ?_, fun a ha b hb heq => ?_⟩
  · exact (collect_once List.nodup_nil).1
  · rw [heq] at ha
    exact (mem_waitingCandidates.mp hb).2.1 ha

theorem longPrefillCandidates_long {id : ReqId} (h : id ∈ longPrefillCandidates cfg s) :
    isLongPrefillRequest cfg (s.requests id) = true := by
  rcases List.mem_append.mp h with hrunning | hwaiting
  · exact (List.mem_filter.mp hrunning).2
  · exact (mem_waitingCandidates.mp hwaiting).2.2

/-! ## The selected ones -/

theorem selected_eq : selectLongPrefillRequestIds cfg s =
    (byAge s (selectable cfg s)).take cfg.maxLongPrefillsPerStep := rfl

theorem selectable_sublist : (selectable cfg s).Sublist (longPrefillCandidates cfg s) :=
  (List.Sublist.refl _).append List.filter_sublist

theorem mem_selectable_of_selected {id : ReqId} (h : id ∈ selectLongPrefillRequestIds cfg s) :
    id ∈ selectable cfg s := by
  rw [selected_eq] at h
  exact (List.mem_insertionSort _).mp (List.mem_of_mem_take h)

theorem mem_candidates_of_selected {id : ReqId} (h : id ∈ selectLongPrefillRequestIds cfg s) :
    id ∈ longPrefillCandidates cfg s :=
  selectable_sublist.subset (mem_selectable_of_selected h)

theorem selected_nodup (h : s.running.Nodup) : (selectLongPrefillRequestIds cfg s).Nodup := by
  have hsorted : (byAge s (selectable cfg s)).Nodup :=
    (List.perm_insertionSort _ _).nodup_iff.mpr
      ((longPrefillCandidates_nodup h).sublist selectable_sublist)
  rw [selected_eq]
  exact hsorted.sublist (List.take_sublist _ _)

/-- Who takes part and is not selected finds all turns taken by others that are not younger. -/
theorem selected_ahead {g : ReqId} (hg : g ∈ selectable cfg s)
    (hout : g ∉ selectLongPrefillRequestIds cfg s) :
    (selectLongPrefillRequestIds cfg s).length = cfg.maxLongPrefillsPerStep ∧
      ∀ x ∈ selectLongPrefillRequestIds cfg s, ageKey s x ≤ ageKey s g := by
  rw [selected_eq] at hout ⊢
  have hmem : g ∈ byAge s (selectable cfg s) := (List.mem_insertionSort _).mpr hg
  have hsorted : (byAge s (selectable cfg s)).Pairwise fun a b => ageKey s a ≤ ageKey s b := by
    have : Std.Total fun a b => ageKey s a ≤ ageKey s b := ⟨fun a b => le_total _ _⟩
    have : IsTrans ReqId fun a b => ageKey s a ≤ ageKey s b := ⟨fun a b c => le_trans⟩
    exact List.pairwise_insertionSort _ _
  generalize byAge s (selectable cfg s) = sorted at hout hmem hsorted ⊢
  rw [← List.take_append_drop cfg.maxLongPrefillsPerStep sorted] at hmem hsorted
  have hdrop : g ∈ sorted.drop cfg.maxLongPrefillsPerStep :=
    (List.mem_append.mp hmem).resolve_left hout
  have hlong : 0 < (sorted.drop cfg.maxLongPrefillsPerStep).length := List.length_pos_of_mem hdrop
  rw [List.length_drop] at hlong
  refine ⟨?_, fun x hx => (List.pairwise_append.mp hsorted).2.2 x hx g hdrop⟩
  rw [List.length_take]
  omega

/-- At full running capacity only running requests are selected. -/
theorem selected_full (hfull : cfg.maxNumRunningReqs ≤ s.running.length) {id : ReqId}
    (h : id ∈ selectLongPrefillRequestIds cfg s) : id ∈ runningCandidates cfg s := by
  rcases List.mem_append.mp (mem_selectable_of_selected h) with hrunning | hwaiting
  · exact hrunning
  · have hkeep := (List.mem_filter.mp hwaiting).2
    rw [Nat.sub_eq_zero_of_le hfull, List.take_zero] at hkeep
    simp at hkeep

/-- The turns of a step are selected from its start. -/
theorem stepContext_selected (henable : cfg.enableDecodeAwarePrefill = true) :
    (stepContext cfg throttle s).selectedLongPrefillIds =
      selectLongPrefillRequestIds cfg (beginStep cfg s) := by
  rw [stepContext]
  exact if_pos henable

end

end SparkKit.Sched.Selection
