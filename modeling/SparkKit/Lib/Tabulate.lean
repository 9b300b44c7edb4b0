import Mathlib.Data.List.AList
import Mathlib.Tactic.Common

/-!
# Tabulated functions

A dictionary that is filled by inserting a value for one key after another.
-/
namespace SparkKit.Lib.Tabulate

variable {α β : Type*} [DecidableEq α]

/-- The entries of a function at some keys, on top of others. -/
def tabulateOnto (g : α → β) (table : AList fun _ : α => β) (keys : List α) :
    AList fun _ : α => β :=
  keys.foldl (fun table key => table.insert key (g key)) table

def tabulate (g : α → β) (keys : List α) : AList fun _ : α => β := tabulateOnto g ∅ keys

/-- Fresh keys are entered one by one. -/
theorem entries_tabulateOnto (g : α → β) {keys : List α} {table : AList fun _ : α => β}
    (hnodup : keys.Nodup) (hfresh : ∀ key ∈ keys, key ∉ table) :
    (tabulateOnto g table keys).entries =
      (keys.map fun key => (⟨key, g key⟩ : Sigma fun _ : α => β)).reverse ++ table.entries := by
  induction keys generalizing table with
  | nil => rfl
  | cons key keys ih =>
    obtain ⟨hkey, hnodup⟩ := List.nodup_cons.mp hnodup
    have hinsert := AList.entries_insert_of_notMem (b := g key) (hfresh key List.mem_cons_self)
    have hrest : ∀ key' ∈ keys, key' ∉ table.insert key (g key) := by
      intro key' hmem hin
      rcases (AList.mem_insert table).mp hin with rfl | hin
      · exact hkey hmem
      · exact hfresh key' (List.mem_cons_of_mem key hmem) hin
    rw [List.map_cons, List.reverse_cons, List.append_assoc, List.singleton_append, ← hinsert]
    exact ih hnodup hrest

theorem entries_tabulate (g : α → β) {keys : List α} (hnodup : keys.Nodup) :
    (tabulate g keys).entries =
      (keys.map fun key => (⟨key, g key⟩ : Sigma fun _ : α => β)).reverse := by
  rw [tabulate, entries_tabulateOnto g hnodup fun key _ => AList.notMem_empty key]
  exact List.append_nil _

theorem lookup_tabulate (g : α → β) {keys : List α} (hnodup : keys.Nodup) {key : α}
    (hkey : key ∈ keys) : (tabulate g keys).lookup key = some (g key) := by
  refine AList.mem_lookup_iff.mpr ?_
  rw [entries_tabulate g hnodup]
  exact List.mem_reverse.mpr (List.mem_map_of_mem hkey)

end SparkKit.Lib.Tabulate
