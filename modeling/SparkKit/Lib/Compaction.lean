import SparkKit.Lib.Scatter
import Mathlib.Data.List.Basic
import Mathlib.Data.List.Induction

/-!
# Compaction by prefix sums

Every kept lane stores its value at the number of kept lanes before it, so a tile of lanes
fills a dense prefix. Tiles that reserve their places from a shared counter fill it one
after the other, in whatever order they come.
-/
namespace SparkKit.Lib.Compaction

open SparkKit.Lib.Scatter

variable {α β : Type*}

/-- The stores of one tile: `base` plus the exclusive prefix sum of the kept lanes. -/
def stores (keep : α → Bool) (value : α → β) (base : ℕ) (lanes : List α) : List (ℕ × β) :=
  lanes.zipIdx.filterMap fun lane =>
    if keep lane.1 then some (base + (lanes.take lane.2).countP keep, value lane.1) else none

/-- The kept lanes get consecutive places. -/
theorem stores_eq (keep : α → Bool) (value : α → β) (base : ℕ) (lanes : List α) :
    stores keep value base lanes =
      (lanes.filter keep).mapIdx fun k x => (base + k, value x) := by
  induction lanes using List.reverseRecOn with
  | nil => rfl
  | append_singleton lanes x ih =>
    have hbefore : (lanes.zipIdx.filterMap fun lane =>
        if keep lane.1 then
          some (base + ((lanes ++ [x]).take lane.2).countP keep, value lane.1) else none) =
        stores keep value base lanes := by
      refine List.filterMap_congr fun lane hlane => ?_
      have hlt : lane.2 < lanes.length := by simpa using List.snd_lt_of_mem_zipIdx hlane
      rw [List.take_append_of_le_length (Nat.le_of_lt hlt)]
    rw [stores, List.zipIdx_append, List.filterMap_append, hbefore, ih, List.filter_append,
      List.mapIdx_append]
    congr 1
    by_cases hkeep : keep x
    · simp [hkeep, List.countP_eq_length_filter]
    · simp [hkeep]

/-- `xs` from index 0 on, over a store. -/
def overlay (xs : List β) (store : ℕ → β) (i : ℕ) : β := xs[i]?.getD (store i)

theorem overlay_nil (store : ℕ → β) : overlay [] store = store := by
  funext i
  simp [overlay]

/-- Storing at the consecutive places behind a prefix extends the prefix. -/
theorem scatter_overlay (xs ys : List β) (store : ℕ → β) :
    scatter (ys.mapIdx fun k y => (xs.length + k, y)) (overlay xs store) =
      overlay (xs ++ ys) store := by
  induction ys generalizing xs with
  | nil => rw [List.append_nil]; rfl
  | cons y ys ih =>
    have hstep : Function.update (overlay xs store) xs.length y = overlay (xs ++ [y]) store := by
      funext i
      by_cases hi : i = xs.length
      · subst hi
        simp [overlay]
      · rw [Function.update_of_ne hi, overlay, overlay]
        rcases Nat.lt_or_gt_of_ne hi with hlt | hgt
        · rw [List.getElem?_append_left hlt]
        · rw [List.getElem?_eq_none (Nat.le_of_lt hgt), List.getElem?_eq_none (by simp; omega)]
    have hrest : (ys.mapIdx fun k z => (xs.length + (k + 1), z)) =
        ys.mapIdx fun k z => ((xs ++ [y]).length + k, z) := by
      refine List.mapIdx_eq_mapIdx_iff.mpr fun i _ => ?_
      rw [List.length_append, List.length_singleton]
      congr 1
      omega
    rw [List.mapIdx_cons, scatter_cons, Nat.add_zero, hstep, hrest, ih, List.append_assoc,
      List.singleton_append]

/-- One tile: reserve a place for each kept lane and store it there. -/
def compactTile (keep : α → Bool) (value : α → β) (s : ℕ × (ℕ → β)) (tile : List α) :
    ℕ × (ℕ → β) :=
  (s.1 + tile.countP keep, scatter (stores keep value s.1 tile) s.2)

theorem compactTile_overlay (keep : α → Bool) (value : α → β) (xs : List β) (store : ℕ → β)
    (tile : List α) :
    compactTile keep value (xs.length, overlay xs store) tile =
      ((xs ++ (tile.filter keep).map value).length,
        overlay (xs ++ (tile.filter keep).map value) store) := by
  have hstores : stores keep value xs.length tile =
      ((tile.filter keep).map value).mapIdx fun k y => (xs.length + k, y) := by
    rw [stores_eq]
    refine List.ext_getElem? fun i => ?_
    rw [List.getElem?_mapIdx, List.getElem?_mapIdx, List.getElem?_map, Option.map_map]
    rfl
  rw [compactTile, hstores, scatter_overlay, List.length_append, List.length_map,
    List.countP_eq_length_filter]

/-- The tiles in the order they reserve leave the kept lanes as a dense prefix. -/
theorem foldl_compactTile (keep : α → Bool) (value : α → β) (tiles : List (List α))
    (xs : List β) (store : ℕ → β) :
    tiles.foldl (compactTile keep value) (xs.length, overlay xs store) =
      ((xs ++ (tiles.flatten.filter keep).map value).length,
        overlay (xs ++ (tiles.flatten.filter keep).map value) store) := by
  induction tiles generalizing xs with
  | nil => simp
  | cons tile tiles ih =>
    rw [List.foldl_cons, compactTile_overlay, ih, List.flatten_cons, List.filter_append,
      List.map_append, List.append_assoc]

/-- Reading a prefix back over a constant store. -/
theorem map_range_overlay {xs : List β} {n : ℕ} (h : xs.length ≤ n) (fill : β) :
    (List.range n).map (overlay xs fun _ => fill) = xs ++ List.replicate (n - xs.length) fill := by
  refine List.ext_getElem (by simp; omega) fun i hi hi' => ?_
  rw [List.getElem_map, List.getElem_range, overlay]
  by_cases hlt : i < xs.length
  · rw [List.getElem_append_left hlt, List.getElem?_eq_getElem hlt, Option.getD_some]
  · rw [List.getElem_append_right (Nat.not_lt.mp hlt), List.getElem_replicate,
      List.getElem?_eq_none (Nat.not_lt.mp hlt), Option.getD_none]

/-- Tile `t` of the lanes, `n` lanes wide. -/
def tile (lanes : List α) (n t : ℕ) : List α := (lanes.drop (t * n)).take n

theorem flatMap_tile (lanes : List α) (n count : ℕ) :
    (List.range count).flatMap (tile lanes n) = lanes.take (count * n) := by
  induction count with
  | zero => simp
  | succ count ih =>
    rw [List.range_succ, List.flatMap_append, ih, Nat.succ_mul, List.take_add]
    simp [tile]

/-- Tiles in any order hold the lanes. -/
theorem flatMap_tile_perm {lanes : List α} {n count : ℕ} {order : List ℕ}
    (horder : order.Perm (List.range count)) (hlen : lanes.length = count * n) :
    (order.flatMap (tile lanes n)).Perm lanes := by
  have h := horder.flatMap_right (tile lanes n)
  rwa [flatMap_tile, ← hlen, List.take_length] at h

end SparkKit.Lib.Compaction
