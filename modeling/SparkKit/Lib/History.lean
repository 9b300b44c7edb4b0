import Mathlib.Data.List.Induction

/-!
# Runs of an input-driven machine

A machine is a step function over states and inputs. A run is the list of its
inputs; every state a run reaches is the state after one of its prefixes.
-/
namespace SparkKit.Lib.History

variable {σ τ ι : Type*}

/-- The state after reading a list of inputs. -/
def runFrom (step : σ → ι → σ) (init : σ) (inputs : List ι) : σ := inputs.foldl step init

@[simp] theorem runFrom_concat (step : σ → ι → σ) (init : σ) (inputs : List ι) (i : ι) :
    runFrom step init (inputs ++ [i]) = step (runFrom step init inputs) i := by
  simp [runFrom]

/-- Two machines reading the same inputs stay related when their steps do. -/
theorem runFrom_simulation {step : σ → ι → σ} {step' : τ → ι → τ} {init : σ} {init' : τ}
    {R : σ → τ → Prop} (hinit : R init init')
    (hstep : ∀ s t i, R s t → R (step s i) (step' t i)) (inputs : List ι) :
    R (runFrom step init inputs) (runFrom step' init' inputs) := by
  induction inputs using List.reverseRecOn with
  | nil => exact hinit
  | append_singleton inputs i ih =>
    rw [runFrom_concat, runFrom_concat]
    exact hstep _ _ i ih

/-- A property of every step taken along a run. -/
def EveryStep (P : List ι → ι → Prop) (inputs : List ι) : Prop :=
  ∀ history next, history ++ [next] <+: inputs → P history next

theorem everyStep_congr {P Q : List ι → ι → Prop} (h : ∀ history next, P history next ↔ Q history next)
    (inputs : List ι) : EveryStep P inputs ↔ EveryStep Q inputs := by
  simp only [EveryStep, h]

theorem everyStep_concat {P : List ι → ι → Prop} {inputs : List ι} {i : ι} :
    EveryStep P (inputs ++ [i]) ↔ EveryStep P inputs ∧ P inputs i := by
  constructor
  · intro h
    refine ⟨fun history next hp => h history next (hp.trans (List.prefix_append _ _)), ?_⟩
    exact h inputs i (List.prefix_refl _)
  · rintro ⟨h, hlast⟩ history next hp
    rcases List.prefix_concat_iff.mp hp with heq | hp
    · obtain ⟨rfl, hi⟩ := List.append_inj' heq rfl
      obtain rfl : next = i := by simpa using hi
      exact hlast
    · exact h history next hp

theorem everyStep_nil {P : List ι → ι → Prop} : EveryStep P [] := fun history next hp =>
  absurd (List.prefix_nil.mp hp) (by simp)

theorem everyStep_forall {Q : ι → Prop} (inputs : List ι) :
    EveryStep (fun _ next => Q next) inputs ↔ ∀ i ∈ inputs, Q i := by
  induction inputs using List.reverseRecOn with
  | nil => exact ⟨fun _ i hi => absurd hi List.not_mem_nil, fun _ => everyStep_nil⟩
  | append_singleton inputs i ih =>
    rw [everyStep_concat, ih, List.forall_mem_append, List.forall_mem_singleton]

/-- The steps are at the positions of the list. -/
theorem everyStep_iff_take {P : List ι → ι → Prop} (inputs : List ι) :
    EveryStep P inputs ↔ ∀ k : Fin inputs.length, P (inputs.take k) inputs[k] := by
  constructor
  · intro h k
    apply h
    rw [Fin.getElem_fin, List.take_append_getElem]
    exact List.take_prefix _ _
  · rintro h history next ⟨rest, rfl⟩
    have hnext := h ⟨history.length, by simp⟩
    simpa using hnext

instance (P : List ι → ι → Prop) [∀ history next, Decidable (P history next)] (inputs : List ι) :
    Decidable (EveryStep P inputs) := decidable_of_iff _ (everyStep_iff_take inputs).symm

/-- An invariant that admissible steps keep, and that entails a property no other step
leaves true: the property holds along a run exactly when every step is admissible. -/
theorem everyStep_iff {step : σ → ι → σ} {init : σ} {Inv Good : σ → Prop} {Q : σ → ι → Prop}
    (hinit : Inv init) (hgood : ∀ s, Inv s → Good s)
    (hkeep : ∀ s i, Inv s → Q s i → Inv (step s i))
    (honly : ∀ s i, Inv s → Good (step s i) → Q s i) (inputs : List ι) :
    EveryStep (fun history next => Good (runFrom step init (history ++ [next]))) inputs ↔
      EveryStep (fun history next => Q (runFrom step init history) next) inputs := by
  suffices h : (EveryStep (fun history next => Good (runFrom step init (history ++ [next]))) inputs ↔
        EveryStep (fun history next => Q (runFrom step init history) next) inputs) ∧
      (EveryStep (fun history next => Q (runFrom step init history) next) inputs →
        Inv (runFrom step init inputs)) from h.1
  induction inputs using List.reverseRecOn with
  | nil => exact ⟨⟨fun _ => everyStep_nil, fun _ => everyStep_nil⟩, fun _ => hinit⟩
  | append_singleton inputs i ih =>
    obtain ⟨hiff, hinv⟩ := ih
    rw [everyStep_concat, everyStep_concat, runFrom_concat]
    refine ⟨⟨?_, ?_⟩, ?_⟩
    · rintro ⟨hbefore, hlast⟩
      have hadmissible := hiff.mp hbefore
      exact ⟨hadmissible, honly _ i (hinv hadmissible) hlast⟩
    · rintro ⟨hbefore, hlast⟩
      exact ⟨hiff.mpr hbefore, hgood _ (hkeep _ i (hinv hbefore) hlast)⟩
    · rintro ⟨hbefore, hlast⟩
      exact hkeep _ i (hinv hbefore) hlast

/-- A property the start has and that a step keeps exactly when the step's input is
admissible holds along a run exactly when every input is admissible. -/
theorem everyStep_invariant_iff {step : σ → ι → σ} {init : σ} {Inv : σ → Prop} {Q : ι → Prop}
    (hinit : Inv init) (hstep : ∀ s i, Inv s → (Inv (step s i) ↔ Q i)) (inputs : List ι) :
    EveryStep (fun history next => Inv (runFrom step init (history ++ [next]))) inputs ↔
      ∀ i ∈ inputs, Q i := by
  rw [← everyStep_forall]
  exact everyStep_iff hinit (fun _ h => h) (fun s i h => (hstep s i h).mpr)
    (fun s i h => (hstep s i h).mp) inputs

end SparkKit.Lib.History
