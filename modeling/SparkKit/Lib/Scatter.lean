import Mathlib.Logic.Function.Basic
import Mathlib.Data.List.Nodup
import Mathlib.Data.List.Perm.Basic

/-!
# Indexed writes into a total store

A scatter applies a list of indexed writes from left to right. The lemmas speak
about one index at a time: an index no write names keeps its value, and an index
that every write names with one value holds that value, whatever the order and
whatever happens at the other indices.
-/
namespace SparkKit.Lib.Scatter

variable {ι α : Type*} [DecidableEq ι]

/-- Apply indexed writes from left to right; a later write wins. -/
def scatter (writes : List (ι × α)) (store : ι → α) : ι → α :=
  writes.foldl (fun s w => Function.update s w.1 w.2) store

@[simp] theorem scatter_cons (w : ι × α) (ws : List (ι × α)) (store : ι → α) :
    scatter (w :: ws) store = scatter ws (Function.update store w.1 w.2) := rfl

theorem scatter_append (ws ws' : List (ι × α)) (store : ι → α) :
    scatter (ws ++ ws') store = scatter ws' (scatter ws store) := List.foldl_append

/-- An index no write names keeps its value. -/
theorem scatter_of_notMem {ws : List (ι × α)} {i : ι} (h : ∀ v, (i, v) ∉ ws)
    (store : ι → α) : scatter ws store i = store i := by
  induction ws generalizing store with
  | nil => rfl
  | cons w ws ih =>
    have hw : i ≠ w.1 := fun he => h w.2 (by simp [he])
    rw [scatter_cons, ih (fun v hv => h v (List.mem_cons_of_mem _ hv)),
      Function.update_of_ne hw]

/-- An index whose writes all carry one value holds that value. The other indices
may be written any number of times. -/
theorem scatter_of_unique {ws : List (ι × α)} {i : ι} {v : α} (hmem : (i, v) ∈ ws)
    (huniq : ∀ u, (i, u) ∈ ws → u = v) (store : ι → α) : scatter ws store i = v := by
  induction ws generalizing store with
  | nil => cases hmem
  | cons w ws ih =>
    rw [scatter_cons]
    by_cases hlater : ∃ u, (i, u) ∈ ws
    · obtain ⟨u, hu⟩ := hlater
      have hv : u = v := huniq u (List.mem_cons_of_mem _ hu)
      exact ih (hv ▸ hu) (fun u hu => huniq u (List.mem_cons_of_mem _ hu)) _
    · rcases List.mem_cons.mp hmem with rfl | hws
      · rw [scatter_of_notMem (fun u hu => hlater ⟨u, hu⟩), Function.update_self]
      · exact absurd ⟨v, hws⟩ hlater

/-- Only the writes to an index matter to it, and where they agree not even their order. -/
theorem scatter_congr {ws ws' : List (ι × α)} {i : ι} (hmem : ∀ v, (i, v) ∈ ws ↔ (i, v) ∈ ws')
    (huniq : ∀ u v, (i, u) ∈ ws → (i, v) ∈ ws → u = v) (store : ι → α) :
    scatter ws store i = scatter ws' store i := by
  by_cases hex : ∃ v, (i, v) ∈ ws
  · obtain ⟨v, hv⟩ := hex
    rw [scatter_of_unique hv (fun u hu => huniq u v hu hv),
      scatter_of_unique ((hmem v).mp hv) (fun u hu => huniq u v ((hmem u).mpr hu) hv)]
  · rw [scatter_of_notMem (fun v hv => hex ⟨v, hv⟩),
      scatter_of_notMem (fun v hv => hex ⟨v, (hmem v).mpr hv⟩)]

theorem scatter_perm {ws ws' : List (ι × α)} (hp : ws.Perm ws') {i : ι}
    (huniq : ∀ u v, (i, u) ∈ ws → (i, v) ∈ ws → u = v) (store : ι → α) :
    scatter ws store i = scatter ws' store i :=
  scatter_congr (fun _ => hp.mem_iff) huniq store

/-- Writes with pairwise distinct indices land each in its own place. -/
theorem scatter_of_nodup {ws : List (ι × α)} (hnd : (ws.map Prod.fst).Nodup)
    {i : ι} {v : α} (hmem : (i, v) ∈ ws) (store : ι → α) : scatter ws store i = v := by
  refine scatter_of_unique hmem (fun u hu => ?_) store
  have he := List.inj_on_of_nodup_map hnd hu hmem rfl
  exact congrArg Prod.snd he

end SparkKit.Lib.Scatter
