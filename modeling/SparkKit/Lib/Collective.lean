import Mathlib.Logic.Relation
import Mathlib.Data.Fintype.Basic
import Mathlib.Data.Finset.Insert

/-!
# Programs of a group of ranks that meet in gathers

Each rank runs a list of operations on a state of its own. A compute operation is local
and may interleave freely; a gather waits until every rank of the group stands at a gather
of one shape and hands every rank all payloads. A group that completes has issued one
sequence of gathers on every rank, and its result does not depend on the interleaving.
-/
namespace SparkKit.Lib.Collective

open Relation

inductive Op (ι S P σ : Type*) where
  | compute (f : σ → σ)
  | gather (shape : S) (send : σ → P) (recv : (ι → P) → σ → σ)

/-- The remaining operations and the state of every rank. -/
structure Group (ι S P σ : Type*) where
  ops : ι → List (Op ι S P σ)
  st : ι → σ

variable {ι S P σ : Type*}

/-- The gathers a rank issues, by shape and in order. -/
def trace : List (Op ι S P σ) → List S
  | [] => []
  | .compute _ :: ops => trace ops
  | .gather shape _ _ :: ops => shape :: trace ops

@[simp] theorem trace_nil : trace ([] : List (Op ι S P σ)) = [] := rfl
@[simp] theorem trace_compute (f : σ → σ) (ops : List (Op ι S P σ)) :
    trace (.compute f :: ops) = trace ops := rfl
@[simp] theorem trace_gather (shape : S) (send : σ → P) (recv : (ι → P) → σ → σ)
    (ops : List (Op ι S P σ)) : trace (.gather shape send recv :: ops) = shape :: trace ops := rfl

theorem trace_append (ops ops' : List (Op ι S P σ)) : trace (ops ++ ops') = trace ops ++ trace ops' := by
  induction ops with
  | nil => rfl
  | cons op ops ih => cases op <;> simp [ih]

variable [DecidableEq ι]

/-- One rank computes, or all ranks meet in a gather. -/
inductive Step : Group ι S P σ → Group ι S P σ → Prop
  | compute (g : Group ι S P σ) (r : ι) (f : σ → σ) (rest : List (Op ι S P σ))
      (h : g.ops r = .compute f :: rest) :
      Step g { ops := Function.update g.ops r rest, st := Function.update g.st r (f (g.st r)) }
  | gather (g : Group ι S P σ) (shape : S) (send : ι → σ → P) (recv : ι → (ι → P) → σ → σ)
      (rest : ι → List (Op ι S P σ)) (h : ∀ r, g.ops r = .gather shape (send r) (recv r) :: rest r) :
      Step g { ops := rest, st := fun r => recv r (fun i => send i (g.st i)) (g.st r) }

def Run : Group ι S P σ → Group ι S P σ → Prop := ReflTransGen Step

def Done (g : Group ι S P σ) : Prop := ∀ r, g.ops r = []

/-- A run that leaves no rank waiting, and the states it leaves. -/
def Completes (g : Group ι S P σ) (final : ι → σ) : Prop :=
  ∃ g', Run g g' ∧ Done g' ∧ g'.st = final

theorem traces_agree_of_step {g g' : Group ι S P σ} (h : Step g g')
    (hagree : ∀ r r', trace (g'.ops r) = trace (g'.ops r')) (r r' : ι) :
    trace (g.ops r) = trace (g.ops r') := by
  cases h with
  | compute i f rest h =>
    have hsame : ∀ j, trace (g.ops j) = trace (Function.update g.ops i rest j) := by
      intro j
      by_cases hj : j = i
      · subst hj
        rw [Function.update_self, h, trace_compute]
      · rw [Function.update_of_ne hj]
    rw [hsame, hsame]
    exact hagree r r'
  | gather shape send recv rest h =>
    rw [h, h, trace_gather, trace_gather, hagree r r']

/-- A group that completes has issued the same gathers on every rank. -/
theorem traces_agree_of_completes {g : Group ι S P σ} {final : ι → σ} (h : Completes g final)
    (r r' : ι) : trace (g.ops r) = trace (g.ops r') := by
  obtain ⟨g', hrun, hdone, -⟩ := h
  revert r r'
  induction hrun using ReflTransGen.head_induction_on with
  | refl =>
    intro r r'
    rw [hdone, hdone]
  | head hstep _ ih => exact traces_agree_of_step hstep ih

theorem step_diamond [Nonempty ι] (g g₁ g₂ : Group ι S P σ) (h₁ : Step g g₁) (h₂ : Step g g₂) :
    ∃ g', ReflGen Step g₁ g' ∧ ReflTransGen Step g₂ g' := by
  cases h₁ with
  | compute r f rest h =>
    cases h₂ with
    | compute i e rest' h' =>
      by_cases hri : r = i
      · subst hri
        obtain ⟨he, rfl⟩ := List.cons.inj (h.symm.trans h')
        obtain rfl : f = e := by simpa using he
        exact ⟨_, .refl, .refl⟩
      · have hfar : Function.update g.ops r rest i = .compute e :: rest' := by
          rw [Function.update_of_ne (Ne.symm hri), h']
        have hnear : Function.update g.ops i rest' r = .compute f :: rest := by
          rw [Function.update_of_ne hri, h]
        refine ⟨_, .single (.compute _ i e rest' hfar), .single ?_⟩
        have hstep := Step.compute
          ⟨Function.update g.ops i rest', Function.update g.st i (e (g.st i))⟩ r f rest hnear
        simpa only [Function.update_of_ne hri, Function.update_of_ne (Ne.symm hri),
          Function.update_comm hri] using hstep
    | gather shape send recv rest' h' => exact absurd (h.symm.trans (h' r)) (by simp)
  | gather shape send recv rest h =>
    cases h₂ with
    | compute i e rest' h' => exact absurd ((h i).symm.trans h') (by simp)
    | gather shape' send' recv' rest' h' =>
      have heq : ∀ r, shape = shape' ∧ send r = send' r ∧ recv r = recv' r ∧ rest r = rest' r := by
        intro r
        obtain ⟨he, hrest⟩ := List.cons.inj ((h r).symm.trans (h' r))
        simp only [Op.gather.injEq] at he
        exact ⟨he.1, he.2.1, he.2.2, hrest⟩
      obtain rfl : send = send' := funext fun r => (heq r).2.1
      obtain rfl : recv = recv' := funext fun r => (heq r).2.2.1
      obtain rfl : rest = rest' := funext fun r => (heq r).2.2.2
      exact ⟨_, .refl, .refl⟩

theorem not_step_of_done [Nonempty ι] {g g' : Group ι S P σ} (hdone : Done g) : ¬ Step g g' := by
  intro h
  cases h with
  | compute r f rest h => exact absurd ((hdone r).symm.trans h) (by simp)
  | gather shape send recv rest h =>
    obtain ⟨r⟩ := ‹Nonempty ι›
    exact absurd ((hdone r).symm.trans (h r)) (by simp)

theorem eq_of_run_done [Nonempty ι] {g g' : Group ι S P σ} (hdone : Done g) (h : Run g g') :
    g' = g := by
  rcases ReflTransGen.cases_head h with he | ⟨_, hstep, -⟩
  · exact he.symm
  · exact absurd hstep (not_step_of_done hdone)

/-- Whatever the interleaving, a group completes with one result. -/
theorem completes_unique [Nonempty ι] {g : Group ι S P σ} {final final' : ι → σ}
    (h : Completes g final) (h' : Completes g final') : final = final' := by
  obtain ⟨d, hrun, hdone, rfl⟩ := h
  obtain ⟨d', hrun', hdone', rfl⟩ := h'
  obtain ⟨j, hj, hj'⟩ := church_rosser step_diamond hrun hrun'
  rw [← eq_of_run_done hdone hj, ← eq_of_run_done hdone' hj']

/-! ## Lockstep runs -/

theorem Completes.of_step {g g' : Group ι S P σ} {final : ι → σ} (h : Step g g')
    (h' : Completes g' final) : Completes g final := by
  obtain ⟨d, hrun, hdone, hst⟩ := h'
  exact ⟨d, .head h hrun, hdone, hst⟩

theorem run_computes_on {ops : ι → List (Op ι S P σ)} (st : ι → σ) {f : ι → σ → σ}
    {rest : ι → List (Op ι S P σ)} (h : ∀ r, ops r = .compute (f r) :: rest r) (ranks : Finset ι) :
    Run ⟨ops, st⟩ ⟨fun r => if r ∈ ranks then rest r else ops r,
      fun r => if r ∈ ranks then f r (st r) else st r⟩ := by
  induction ranks using Finset.induction_on with
  | empty =>
    simp only [Finset.notMem_empty, if_false]
    exact ReflTransGen.refl
  | insert r ranks hr ih =>
    refine ReflTransGen.tail ih ?_
    have hstep := Step.compute (⟨fun i => if i ∈ ranks then rest i else ops i,
      fun i => if i ∈ ranks then f i (st i) else st i⟩ : Group ι S P σ) r (f r) (rest r)
      (by simp only [hr, if_false, h])
    convert hstep using 2
    · funext i
      by_cases hi : i = r
      · subst hi
        simp
      · simp [Finset.mem_insert, hi]
    · funext i
      by_cases hi : i = r
      · subst hi
        simp [hr]
      · simp [Finset.mem_insert, hi]

/-- Every rank standing at a compute operation may perform it. -/
theorem Completes.computes [Fintype ι] {ops : ι → List (Op ι S P σ)} {st : ι → σ} {f : ι → σ → σ}
    {rest : ι → List (Op ι S P σ)} {final : ι → σ}
    (h : ∀ r, ops r = .compute (f r) :: rest r)
    (h' : Completes ⟨rest, fun r => f r (st r)⟩ final) : Completes ⟨ops, st⟩ final := by
  obtain ⟨d, hrun, hdone, hst⟩ := h'
  have hall := run_computes_on st h Finset.univ
  simp only [Finset.mem_univ, if_true] at hall
  exact ⟨d, hall.trans hrun, hdone, hst⟩

theorem Completes.gathers {ops : ι → List (Op ι S P σ)} {st : ι → σ} {shape : S}
    {send : ι → σ → P} {recv : ι → (ι → P) → σ → σ} {rest : ι → List (Op ι S P σ)} {final : ι → σ}
    (h : ∀ r, ops r = .gather shape (send r) (recv r) :: rest r)
    (h' : Completes ⟨rest, fun r => recv r (fun i => send i (st i)) (st r)⟩ final) :
    Completes ⟨ops, st⟩ final :=
  .of_step (.gather _ shape send recv rest h) h'

theorem Completes.done {ops : ι → List (Op ι S P σ)} {st : ι → σ} (h : ∀ r, ops r = []) :
    Completes ⟨ops, st⟩ st := ⟨_, .refl, h, rfl⟩

end SparkKit.Lib.Collective
