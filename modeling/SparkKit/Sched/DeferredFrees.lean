import SparkKit.Sched.Requests
import Mathlib.Algebra.BigOperators.Group.List.Basic
import Mathlib.Algebra.Order.BigOperators.Group.List
import Mathlib.Algebra.Order.Group.Int
import Mathlib.Data.List.Flatten
import Mathlib.Data.List.Induction
import Mathlib.Data.List.Perm.Basic
import Mathlib.Data.List.TakeWhile

/-!
# Blocks released while steps are in flight

A step in flight may still write the blocks of a request that is preempted or finished
meanwhile. Such blocks wait in a queue behind a fence, the number of the last step that may
touch them, and go back to the pool when the output of that step is processed.
-/
namespace SparkKit.Sched.DeferredFrees

open SparkKit.Sched.Requests

/-- Blocks released together. `writers` are the steps that could still touch them then; the code
does not keep it. -/
structure Release where
  blocks : List ℕ
  writers : List ℕ

structure DeferredFree where
  fence : ℕ
  release : Release

/-- A step without output yet; `seq` is its number if it has tokens, which only the scheduler's
counters know in the code. -/
structure Step where
  numScheduledTokens : ReqDict ℤ
  seq : ℕ

def Step.totalNumScheduledTokens (step : Step) : ℤ :=
  (step.numScheduledTokens.entries.map Sigma.snd).sum

structure Fences where
  schedStepSeq : ℕ
  processedStepSeq : ℕ
  deferredFrees : List DeferredFree
  lastSchedSeq : ReqId → ℕ
  steps : List Step
  /-- what the block pool has got back, in order -/
  pool : List Release

/-- `block_pool.free_blocks` -/
def Fences.freeBlocks (f : Fences) (release : Release) : Fences :=
  { f with pool := f.pool ++ [release] }

/-- The steps in flight that booked the request. -/
def Fences.writersOf (f : Fences) (id : ReqId) : List ℕ :=
  (f.steps.filter fun step => id ∈ step.numScheduledTokens).map Step.seq

/-- `_free_request_blocks`, of a request with these blocks. The tail blocks are freed first. -/
def freeRequestBlocks (deferBlockFree : Bool) (f : Fences) (id : ReqId) (blocks : List ℕ) : Fences :=
  if deferBlockFree = false ∨ f.lastSchedSeq id ≤ f.processedStepSeq then
    f.freeBlocks ⟨blocks.reverse, f.writersOf id⟩
  else if blocks = [] then f
  else
    { f with
      deferredFrees := f.deferredFrees ++ [⟨f.schedStepSeq, ⟨blocks, f.writersOf id⟩⟩] }

/-- `_free_cow_retained_blocks`: the copies run with the step of number `fenceSeq`. -/
def freeCowRetainedBlocks (deferBlockFree : Bool) (f : Fences) (blocks : List ℕ) (fenceSeq : ℕ) :
    Fences :=
  if deferBlockFree = false ∨ fenceSeq ≤ f.processedStepSeq then f.freeBlocks ⟨blocks, [fenceSeq]⟩
  else
    { f with
      deferredFrees := f.deferredFrees ++ [⟨fenceSeq, ⟨blocks.reverse, [fenceSeq]⟩⟩] }

/-- The loop of `_drain_deferred_frees`: what stays deferred, and the pool. -/
def drain (processedStepSeq : ℕ) :
    List DeferredFree → List Release → List DeferredFree × List Release
  | [], pool => ([], pool)
  | d :: rest, pool =>
      if d.fence > processedStepSeq then (d :: rest, pool)
      else drain processedStepSeq rest (pool ++ [⟨d.release.blocks.reverse, d.release.writers⟩])

/-- `_drain_deferred_frees` -/
def drainDeferredFrees (f : Fences) : Fences :=
  let (deferredFrees, pool) := drain f.processedStepSeq f.deferredFrees f.pool
  { f with deferredFrees := deferredFrees, pool := pool }

/-- The end of `schedule`, with the `last_sched_seq` of `_update_after_schedule`. -/
def scheduleStep (deferBlockFree : Bool) (f : Fences) (booked : ReqDict ℤ) : Fences :=
  let total := (booked.entries.map Sigma.snd).sum
  let seq := if deferBlockFree = true ∧ total > 0 then f.schedStepSeq + 1 else f.schedStepSeq
  { f with
    schedStepSeq := seq
    lastSchedSeq := fun id =>
      if deferBlockFree = true ∧ id ∈ booked then seq else f.lastSchedSeq id
    steps := f.steps ++ [⟨booked, seq⟩] }

/-- The start of `update_from_output`. -/
def processStep (deferBlockFree : Bool) (f : Fences) : Fences :=
  match f.steps with
  | [] => f
  | step :: steps =>
      let f := { f with steps := steps }
      if deferBlockFree = true ∧ step.totalNumScheduledTokens > 0 then
        drainDeferredFrees { f with processedStepSeq := f.processedStepSeq + 1 }
      else f

inductive Event where
  | schedule (booked : ReqDict ℤ)
  | output
  /-- a request is preempted or its blocks are freed -/
  | release (id : ReqId) (blocks : List ℕ)
  /-- `schedule` takes copies that its step will run -/
  | retain (blocks : List ℕ)

def Fences.step (deferBlockFree : Bool) (f : Fences) : Event → Fences
  | .schedule booked => scheduleStep deferBlockFree f booked
  | .output => processStep deferBlockFree f
  | .release id blocks => freeRequestBlocks deferBlockFree f id blocks
  | .retain blocks => freeCowRetainedBlocks deferBlockFree f blocks (f.schedStepSeq + 1)

def initialFences : Fences := ⟨0, 0, [], fun _ => 0, [], []⟩

def run (deferBlockFree : Bool) (events : List Event) : Fences :=
  events.foldl (Fences.step deferBlockFree) initialFences

/-! ## The fences hold -/

/-- The step has tokens. -/
def Step.busy (step : Step) : Bool := step.totalNumScheduledTokens > 0

def Fences.busy (f : Fences) : List Step := f.steps.filter Step.busy

structure Fenced (f : Fences) : Prop where
  /-- the steps in flight are numbered after those processed -/
  numbered : f.busy.map Step.seq = List.range' (f.processedStepSeq + 1) f.busy.length
  count : f.schedStepSeq = f.processedStepSeq + f.busy.length
  last : ∀ id, f.lastSchedSeq id ≤ f.schedStepSeq
  covers : ∀ step ∈ f.steps, ∀ id ∈ step.numScheduledTokens, step.seq ≤ f.lastSchedSeq id
  fences : ∀ d ∈ f.deferredFrees, d.fence ≤ f.schedStepSeq + 1 ∧ ∀ w ∈ d.release.writers, w ≤ d.fence
  waits : ∀ d ∈ f.deferredFrees.head?, f.processedStepSeq < d.fence
  settled : ∀ r ∈ f.pool, ∀ w ∈ r.writers, w ≤ f.processedStepSeq

/-- The drain returns the entries up to the first whose fence is ahead. -/
theorem drain_eq (processedStepSeq : ℕ) (deferredFrees : List DeferredFree) (pool : List Release) :
    drain processedStepSeq deferredFrees pool =
      (deferredFrees.dropWhile fun d => d.fence ≤ processedStepSeq,
        pool ++ (deferredFrees.takeWhile fun d => d.fence ≤ processedStepSeq).map fun d =>
          ⟨d.release.blocks.reverse, d.release.writers⟩) := by
  induction deferredFrees generalizing pool with
  | nil =>
    rw [drain]
    simp
  | cons d rest ih =>
    rw [drain]
    by_cases hdone : d.fence ≤ processedStepSeq
    · rw [if_neg (not_lt.mpr hdone), ih]
      simp [hdone]
    · rw [if_pos (not_le.mp hdone)]
      simp [hdone]

def BookedPositive (booked : ReqDict ℤ) : Prop := ∀ entry ∈ booked.entries, 0 < entry.2

theorem total_pos {booked : ReqDict ℤ} (h : BookedPositive booked) {id : ReqId} (hid : id ∈ booked) :
    0 < (booked.entries.map Sigma.snd).sum := by
  obtain ⟨entry, hentry, -⟩ := List.mem_map.mp hid
  refine List.sum_pos _ (fun n hn => ?_) ?_
  · obtain ⟨e, he, rfl⟩ := List.mem_map.mp hn
    exact h e he
  · exact List.ne_nil_of_mem (List.mem_map_of_mem hentry)

section
variable {f : Fences}

theorem fenced_initial : Fenced initialFences := by
  refine ⟨rfl, rfl, fun _ => Nat.le_refl 0, nofun, nofun, nofun, nofun⟩

theorem filter_busy (steps : List Step) (step : Step) :
    (steps ++ [step]).filter Step.busy =
      if step.totalNumScheduledTokens > 0 then steps.filter Step.busy ++ [step]
      else steps.filter Step.busy := by
  rw [List.filter_append, List.filter_singleton, Step.busy]
  by_cases hpos : step.totalNumScheduledTokens > 0
  · rw [if_pos hpos, decide_eq_true hpos]
    rfl
  · rw [if_neg hpos, decide_eq_false hpos]
    exact List.append_nil _

/-- A step with tokens is numbered after all others. -/
theorem Fenced.schedule (h : Fenced f) {booked : ReqDict ℤ} (hbooked : BookedPositive booked) :
    Fenced (scheduleStep true f booked) := by
  have hcount := h.count
  by_cases htotal : (booked.entries.map Sigma.snd).sum > 0
  · have hseq : (if true = true ∧ (booked.entries.map Sigma.snd).sum > 0 then f.schedStepSeq + 1
        else f.schedStepSeq) = f.schedStepSeq + 1 := if_pos ⟨rfl, htotal⟩
    have hbusy : (scheduleStep true f booked).busy = f.busy ++ [⟨booked, f.schedStepSeq + 1⟩] := by
      have hbusy := filter_busy f.steps ⟨booked, f.schedStepSeq + 1⟩
      rw [if_pos (show Step.totalNumScheduledTokens ⟨booked, _⟩ > 0 from htotal)] at hbusy
      rw [scheduleStep, Fences.busy]
      dsimp only
      rw [hseq]
      exact hbusy
    have hlast : ∀ id, (scheduleStep true f booked).lastSchedSeq id =
        if id ∈ booked then f.schedStepSeq + 1 else f.lastSchedSeq id := by
      intro id
      rw [scheduleStep]
      dsimp only
      rw [hseq]
      by_cases hid : id ∈ booked
      · rw [if_pos ⟨rfl, hid⟩, if_pos hid]
      · rw [if_neg (fun hboth => hid hboth.2), if_neg hid]
    have hsched : (scheduleStep true f booked).schedStepSeq = f.schedStepSeq + 1 := hseq
    refine ⟨?_, ?_, fun id => ?_, fun step hstep id hid => ?_, fun d hd => ?_, h.waits, h.settled⟩
    · rw [hbusy, List.map_append, h.numbered, List.length_append, List.length_singleton,
        List.range'_concat]
      simp only [List.map_cons, List.map_nil, Nat.one_mul]
      rw [hcount, Nat.add_right_comm]
      rfl
    · rw [hsched, hbusy, List.length_append, List.length_singleton, hcount]
      rfl
    · have hbefore := h.last id
      rw [hlast, hsched]
      split
      · exact Nat.le_refl _
      · omega
    · have hstep : step ∈ f.steps ++ [⟨booked, _⟩] := hstep
      rw [hseq] at hstep
      have hbefore := h.last id
      rw [hlast]
      rcases List.mem_append.mp hstep with hold | hnew
      · have hcovers := h.covers step hold id hid
        split
        · omega
        · exact hcovers
      · rw [List.mem_singleton.mp hnew] at hid ⊢
        rw [if_pos hid]
    · obtain ⟨hfence, hwriters⟩ := h.fences d hd
      rw [hsched]
      exact ⟨by omega, hwriters⟩
  · have hempty : ∀ id, id ∉ booked := fun id hid => htotal (total_pos hbooked hid)
    have hseq : (if true = true ∧ (booked.entries.map Sigma.snd).sum > 0 then f.schedStepSeq + 1
        else f.schedStepSeq) = f.schedStepSeq := if_neg fun hboth => htotal hboth.2
    have hbusy : (scheduleStep true f booked).busy = f.busy := by
      have hbusy := filter_busy f.steps ⟨booked, f.schedStepSeq⟩
      rw [if_neg (show ¬Step.totalNumScheduledTokens ⟨booked, _⟩ > 0 from htotal)] at hbusy
      rw [scheduleStep, Fences.busy]
      dsimp only
      rw [hseq]
      exact hbusy
    have hlast : (scheduleStep true f booked).lastSchedSeq = f.lastSchedSeq := by
      funext id
      exact if_neg fun hboth => hempty id hboth.2
    have hsched : (scheduleStep true f booked).schedStepSeq = f.schedStepSeq := hseq
    refine ⟨?_, ?_, fun id => ?_, fun step hstep id hid => ?_, fun d hd => ?_, h.waits, h.settled⟩
    · rw [hbusy]
      exact h.numbered
    · rw [hsched, hbusy]
      exact hcount
    · rw [hlast, hsched]
      exact h.last id
    · rw [hlast]
      rcases List.mem_append.mp hstep with hold | hnew
      · exact h.covers step hold id hid
      · rw [List.mem_singleton.mp hnew] at hid
        exact absurd hid (hempty id)
    · rw [hsched]
      exact h.fences d hd

/-- The blocks of a request go back at once when none of its steps is in flight. -/
theorem Fenced.release (h : Fenced f) (id : ReqId) (blocks : List ℕ) :
    Fenced (freeRequestBlocks true f id blocks) := by
  have hwriters : ∀ w ∈ f.writersOf id, w ≤ f.lastSchedSeq id := by
    intro w hw
    obtain ⟨step, hstep, rfl⟩ := List.mem_map.mp hw
    obtain ⟨hmem, hid⟩ := List.mem_filter.mp hstep
    exact h.covers step hmem id (of_decide_eq_true hid)
  have hlast := h.last id
  rw [freeRequestBlocks]
  split
  · rename_i hnow
    have hnow : f.lastSchedSeq id ≤ f.processedStepSeq := hnow.resolve_left nofun
    refine ⟨h.numbered, h.count, h.last, h.covers, h.fences, h.waits, fun r hr w hw => ?_⟩
    rcases List.mem_append.mp hr with hr | hr
    · exact h.settled r hr w hw
    · rw [List.mem_singleton.mp hr] at hw
      exact (hwriters w hw).trans hnow
  rename_i hlater
  rw [not_or, not_le] at hlater
  split
  · exact h
  · refine ⟨h.numbered, h.count, h.last, h.covers, fun d hd => ?_, fun d hd => ?_, h.settled⟩
    · rcases List.mem_append.mp hd with hd | hd
      · exact h.fences d hd
      · rw [List.mem_singleton.mp hd]
        exact ⟨Nat.le_succ _, fun w hw => (hwriters w hw).trans hlast⟩
    · have hd : d ∈ (f.deferredFrees ++ [_]).head? := hd
      cases hqueue : f.deferredFrees with
      | nil =>
        rw [hqueue] at hd
        cases hd
        exact lt_of_lt_of_le hlater.2 hlast
      | cons d' rest =>
        rw [hqueue] at hd
        cases hd
        exact h.waits d (by rw [hqueue]; rfl)

/-- Copies wait for the step that is scheduled next. -/
theorem Fenced.retain (h : Fenced f) (blocks : List ℕ) :
    Fenced (freeCowRetainedBlocks true f blocks (f.schedStepSeq + 1)) := by
  have hcount := h.count
  have hlater : ¬(true = false ∨ f.schedStepSeq + 1 ≤ f.processedStepSeq) := by
    rw [not_or]
    exact ⟨nofun, by omega⟩
  rw [freeCowRetainedBlocks, if_neg hlater]
  refine ⟨h.numbered, h.count, h.last, h.covers, fun d hd => ?_, fun d hd => ?_, h.settled⟩
  · rcases List.mem_append.mp hd with hd | hd
    · exact h.fences d hd
    · rw [List.mem_singleton.mp hd]
      exact ⟨Nat.le_refl _, fun w hw => le_of_eq (List.mem_singleton.mp hw)⟩
  · have hd : d ∈ (f.deferredFrees ++ [_]).head? := hd
    cases hqueue : f.deferredFrees with
    | nil =>
      rw [hqueue] at hd
      cases hd
      show f.processedStepSeq < f.schedStepSeq + 1
      omega
    | cons d' rest =>
      rw [hqueue] at hd
      cases hd
      exact h.waits d (by rw [hqueue]; rfl)

/-- The output of the oldest step takes its number, and what waited for it goes back. -/
theorem Fenced.output (h : Fenced f) : Fenced (processStep true f) := by
  rw [processStep]
  cases hsteps : f.steps with
  | nil => exact h
  | cons step steps =>
    have hcovers : ∀ st ∈ steps, ∀ id ∈ st.numScheduledTokens, st.seq ≤ f.lastSchedSeq id :=
      fun st hst id hid => h.covers st (by rw [hsteps]; exact List.mem_cons_of_mem step hst) id hid
    have hcount := h.count
    have hnumbered := h.numbered
    have hlater := h.last
    rw [Fences.busy, hsteps] at hcount hnumbered
    dsimp only
    by_cases htotal : step.totalNumScheduledTokens > 0
    · rw [if_pos ⟨rfl, htotal⟩]
      have hbusy : step.busy = true := decide_eq_true htotal
      rw [List.filter_cons_of_pos hbusy, List.length_cons] at hcount hnumbered
      rw [List.map_cons, List.range'_succ, List.cons.injEq] at hnumbered
      rw [drainDeferredFrees, drain_eq]
      dsimp only
      refine ⟨hnumbered.2, ?_, hlater, hcovers, fun d hd => ?_, fun d hd => ?_, fun r hr w hw => ?_⟩
      · show f.schedStepSeq = f.processedStepSeq + 1 + (steps.filter _).length
        omega
      · exact h.fences d ((List.dropWhile_sublist _).subset hd)
      · have hhead := List.head?_dropWhile_not (fun d : DeferredFree => d.fence ≤ f.processedStepSeq + 1)
          f.deferredFrees
        have hd : (f.deferredFrees.dropWhile fun d => d.fence ≤ f.processedStepSeq + 1).head? = some d := hd
        rw [hd] at hhead
        exact not_le.mp (of_decide_eq_false hhead)
      · rcases List.mem_append.mp hr with hr | hr
        · exact (h.settled r hr w hw).trans (Nat.le_succ _)
        · obtain ⟨d, hd, rfl⟩ := List.mem_map.mp hr
          have hdue := List.mem_takeWhile_imp hd
          have hfence : d.fence ≤ f.processedStepSeq + 1 := of_decide_eq_true hdue
          have hmem := (List.takeWhile_sublist _).subset hd
          exact ((h.fences d hmem).2 w hw).trans hfence
    · rw [if_neg fun hboth => htotal hboth.2]
      have hbusy : ¬step.busy = true := fun hb => htotal (of_decide_eq_true hb)
      rw [List.filter_cons_of_neg hbusy] at hcount hnumbered
      exact ⟨hnumbered, hcount, hlater, hcovers, h.fences, h.waits, h.settled⟩

end

/-- The counts of a step are positive, as `update_from_output` asserts. -/
def Booked : Event → Prop
  | .schedule booked => BookedPositive booked
  | _ => True

theorem Fenced.step {f : Fences} (h : Fenced f) {event : Event} (hbooked : Booked event) :
    Fenced (f.step true event) := by
  cases event with
  | schedule booked => exact h.schedule hbooked
  | output => exact h.output
  | release id blocks => exact h.release id blocks
  | retain blocks => exact h.retain blocks

theorem fenced_run {events : List Event} (hbooked : ∀ event ∈ events, Booked event) :
    Fenced (run true events) := by
  rw [run]
  induction events using List.reverseRecOn with
  | nil => exact fenced_initial
  | append_singleton events event ih =>
    rw [List.foldl_append, List.foldl_cons, List.foldl_nil]
    refine (ih fun x hx => hbooked x (List.mem_append_left _ hx)).step ?_
    exact hbooked event (List.mem_append_right _ (List.mem_singleton.mpr rfl))

instance (event : Event) : Decidable (Booked event) :=
  match event with
  | .schedule booked => inferInstanceAs (Decidable (∀ entry ∈ booked.entries, 0 < entry.2))
  | .output => .isTrue trivial
  | .release _ _ => .isTrue trivial
  | .retain _ => .isTrue trivial

/-! ## What goes back -/

/-- Every block the pool has got back is out of reach: the steps that had booked its request when
it was released, or that ran the copy it was retained for, are processed and none is in flight. -/
theorem returned_blocks_settled {events : List Event} (hbooked : ∀ event ∈ events, Booked event) :
    ∀ r ∈ (run true events).pool, ∀ w ∈ r.writers, w ≤ (run true events).processedStepSeq ∧
      ∀ step ∈ (run true events).busy, step.seq ≠ w := by
  have h := fenced_run hbooked
  intro r hr w hw
  have hsettled := h.settled r hr w hw
  refine ⟨hsettled, fun step hstep heq => ?_⟩
  have hseq : step.seq ∈ (run true events).busy.map Step.seq := List.mem_map_of_mem hstep
  rw [h.numbered] at hseq
  obtain ⟨hge, -⟩ := List.mem_range'_1.mp hseq
  omega

/-- The blocks given up by an event. -/
def Event.blocks : Event → List ℕ
  | .release _ blocks => blocks
  | .retain blocks => blocks
  | _ => []

/-- The blocks returned or waiting. -/
def Fences.blocks (f : Fences) : List ℕ :=
  f.pool.flatMap Release.blocks ++ f.deferredFrees.flatMap fun d => d.release.blocks

theorem step_blocks (deferBlockFree : Bool) (f : Fences) (event : Event) :
    (f.step deferBlockFree event).blocks.Perm (f.blocks ++ event.blocks) := by
  have hback : ∀ (pool deferred more : List ℕ),
      ((pool ++ more) ++ deferred).Perm ((pool ++ deferred) ++ more) := by
    intro pool deferred more
    rw [List.append_assoc, List.append_assoc]
    exact List.perm_append_comm.append_left pool
  cases event with
  | schedule booked =>
    show f.blocks.Perm (f.blocks ++ [])
    rw [List.append_nil]
  | output =>
    show (processStep deferBlockFree f).blocks.Perm (f.blocks ++ [])
    rw [List.append_nil, processStep]
    split
    · exact .refl _
    dsimp only
    split
    · rw [drainDeferredFrees, drain_eq, Fences.blocks, Fences.blocks, List.flatMap_append,
        List.append_assoc]
      refine List.Perm.append_left _ ?_
      dsimp only
      have hsplit := List.takeWhile_append_dropWhile (l := f.deferredFrees)
        (p := fun d : DeferredFree => d.fence ≤ f.processedStepSeq + 1)
      generalize (f.deferredFrees.takeWhile fun d => d.fence ≤ f.processedStepSeq + 1) = due at hsplit ⊢
      generalize (f.deferredFrees.dropWhile fun d => d.fence ≤ f.processedStepSeq + 1) = rest at hsplit ⊢
      rw [← hsplit, List.flatMap_append, List.flatMap_map]
      exact (List.Perm.flatMap_left due fun d _ => List.reverse_perm _).append_right _
    · exact .refl _
  | release id blocks =>
    show (freeRequestBlocks deferBlockFree f id blocks).blocks.Perm (f.blocks ++ blocks)
    rw [freeRequestBlocks]
    split
    · rw [Fences.blocks, Fences.freeBlocks, Fences.blocks, List.flatMap_append]
      refine (hback _ _ _).trans (List.Perm.append_left _ ?_)
      simp
    split
    · rename_i hnone
      rw [hnone, List.append_nil]
    · rw [Fences.blocks, Fences.blocks, List.flatMap_append, List.append_assoc]
      simp
  | retain blocks =>
    show (freeCowRetainedBlocks deferBlockFree f blocks _).blocks.Perm (f.blocks ++ blocks)
    rw [freeCowRetainedBlocks]
    split
    · rw [Fences.blocks, Fences.freeBlocks, Fences.blocks, List.flatMap_append]
      refine (hback _ _ _).trans (List.Perm.append_left _ ?_)
      simp
    · rw [Fences.blocks, Fences.blocks, List.flatMap_append, ← List.append_assoc]
      refine List.Perm.append_left _ ?_
      simp

/-- No block is lost or returned twice: what the events gave up is in the pool or waits. When no
step with tokens is in flight, only blocks behind a copy that no step has run yet wait. -/
theorem releases_conserved {events : List Event} (hbooked : ∀ event ∈ events, Booked event) :
    (run true events).blocks.Perm (events.flatMap Event.blocks) ∧
      ((run true events).busy = [] → ∀ d ∈ (run true events).deferredFrees.head?,
        d.fence = (run true events).schedStepSeq + 1) := by
  refine ⟨?_, fun hidle d hd => ?_⟩
  · clear hbooked
    rw [run]
    induction events using List.reverseRecOn with
    | nil => exact .refl _
    | append_singleton events event ih =>
      rw [List.foldl_append, List.foldl_cons, List.foldl_nil, List.flatMap_append]
      refine (step_blocks true _ event).trans ?_
      rw [List.flatMap_singleton]
      exact ih.append_right _
  · have h := fenced_run hbooked
    have hcount := h.count
    have hwaits := h.waits d hd
    obtain ⟨hfence, -⟩ := h.fences d (List.mem_of_head? hd)
    rw [hidle, List.length_nil] at hcount
    omega

/-- A request is booked by two steps, released after the first, and its copy waits for the next. -/
def smallEvents : List Event :=
  [.schedule (AList.singleton 0 4), .schedule (AList.singleton 0 1), .output, .release 0 [3, 4],
    .retain [9], .output]

theorem returned_blocks_settled_small :
    (run true smallEvents).pool = [⟨[4, 3], [2]⟩] ∧
      ∀ w ∈ [2], w ≤ (run true smallEvents).processedStepSeq ∧
        ∀ step ∈ (run true smallEvents).busy, step.seq ≠ w :=
  ⟨rfl, returned_blocks_settled (by decide) ⟨[4, 3], [2]⟩ List.mem_cons_self⟩

theorem releases_conserved_small :
    (run true smallEvents).blocks.Perm [3, 4, 9] ∧
      ∀ d ∈ (run true smallEvents).deferredFrees.head?, d.fence = (run true smallEvents).schedStepSeq + 1 :=
  ⟨(releases_conserved (by decide)).1, (releases_conserved (by decide)).2 rfl⟩

end SparkKit.Sched.DeferredFrees
