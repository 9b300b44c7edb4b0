import SparkKit.Lib.TopK
import SparkKit.Dcp.Candidates

/-!
# The distributed top-k is the global top-k

The ranks' shares partition the positions below the causal length, packing keeps the order
of the scores, and padding scores below every position. So the best of the gathered
candidates is the best of all positions, padded only when there are too few.
-/
namespace SparkKit.Dcp.TopkExact

open SparkKit.Lib.BlockCyclic SparkKit.Lib.TopK
open SparkKit.Dcp.Candidates

variable {α : Type*} [LinearOrder α]

/-- A rank's local top-k: the best of its share of the `n` positions, padded with `-1`. -/
def LocalTopk (g : DcpGroup) (n : ℕ) (score : ℕ → α) (K rank : ℕ) (row : List (α × ℤ)) : Prop :=
  row.length = K ∧ ∃ (chosen : Multiset ℕ) (pads : Multiset (α × ℤ)),
    IsTopK K (fun i => score (globalId g.worldSize g.interleave rank i))
      (Multiset.range (localLen g.worldSize g.interleave n rank)) chosen ∧
    (row : Multiset (α × ℤ)) =
      chosen.map (fun i => (score (globalId g.worldSize g.interleave rank i), (i : ℤ))) + pads ∧
    ∀ p ∈ pads, p.2 = -1

/-- The final top-k returns the ids of the `K` best gathered candidates. -/
def SelectsBest (stableTopk : StableTopk α) : Prop :=
  ∀ (gathered : List (Candidate α)) (K : ℕ), ∃ chosen : Multiset (Candidate α),
    IsTopK K Candidate.score gathered chosen ∧
    (stableTopk gathered K : Multiset ℤ) = chosen.map Candidate.id

/-- A row of `K` global ids is a true top-k of the positions below `n`. -/
structure ExactTopk (n : ℕ) (score : ℕ → α) (K : ℕ) (out : List ℤ) : Prop where
  length : out.length = K
  bounds : ∀ x ∈ out, x = -1 ∨ (0 ≤ x ∧ x < n)
  distinct : (out.filter (0 ≤ ·)).Nodup
  scores : ((out.filter (0 ≤ ·)).map fun x => score x.toNat : Multiset α) =
    (((Multiset.range n).map score).sort (· ≥ ·)).take K
  padding : out.count (-1) = K - n

/-- The gathered candidate a position becomes. -/
def candidateOf (score : ℕ → α) (p : ℕ) : Candidate α := ⟨score p, p⟩

theorem coe_flatMap {ι β : Type*} (parts : List ι) (f : ι → List β) :
    (parts.flatMap f : Multiset β) = (parts.map fun i => (f i : Multiset β)).sum := by
  induction parts with
  | nil => rfl
  | cons i parts ih => rw [List.flatMap_cons, ← Multiset.coe_add, ih, List.map_cons, List.sum_cons]

/-- Ids of a best selection of positions, padded up to `K`, form an exact row. -/
theorem exactTopk_of_best {n K : ℕ} {score : ℕ → α} {best : Multiset ℕ} {out : List ℤ}
    (hbest : IsTopK K score (Multiset.range n) best)
    (hout : (out : Multiset ℤ) = best.map (fun p : ℕ => (p : ℤ)) + Multiset.replicate (K - n) (-1)) :
    ExactTopk n score K out := by
  have hcard := hbest.card_eq
  rw [Multiset.card_range] at hcard
  have hfilter : ((out.filter (0 ≤ ·) : List ℤ) : Multiset ℤ) = best.map fun p : ℕ => (p : ℤ) := by
    rw [← Multiset.filter_coe, hout, Multiset.filter_add]
    rw [Multiset.filter_eq_self.mpr, Multiset.filter_eq_nil.mpr, add_zero]
    · intro x hx
      rw [Multiset.eq_of_mem_replicate hx]
      decide
    · intro x hx
      obtain ⟨p, -, rfl⟩ := Multiset.mem_map.mp hx
      exact Int.natCast_nonneg p
  have hmem : ∀ x ∈ out, x = -1 ∨ ∃ p : ℕ, p < n ∧ (p : ℤ) = x := by
    intro x hx
    have hx : x ∈ (out : Multiset ℤ) := hx
    rw [hout] at hx
    rcases Multiset.mem_add.mp hx with hx | hx
    · obtain ⟨p, hp, rfl⟩ := Multiset.mem_map.mp hx
      exact .inr ⟨p, Multiset.mem_range.mp (Multiset.mem_of_le hbest.le hp), rfl⟩
    · exact .inl (Multiset.eq_of_mem_replicate hx)
  refine ⟨?_, ?_, ?_, ?_, ?_⟩
  · have hlen := congrArg Multiset.card hout
    simp only [Multiset.coe_card, Multiset.card_add, Multiset.card_map, Multiset.card_replicate] at hlen
    omega
  · intro x hx
    rcases hmem x hx with rfl | ⟨p, hp, rfl⟩
    · exact .inl rfl
    · exact .inr ⟨Int.natCast_nonneg p, by omega⟩
  · rw [← Multiset.coe_nodup, hfilter, Multiset.nodup_map_iff_of_injective Nat.cast_injective]
    exact Multiset.nodup_of_le hbest.le (Multiset.nodup_range n)
  · rw [← Multiset.map_coe, hfilter, Multiset.map_map, ← hbest.map_score]
    rfl
  · rw [← Multiset.coe_count, hout, Multiset.count_add, Multiset.count_replicate_self,
      Multiset.count_eq_zero.mpr, Nat.zero_add]
    intro hneg
    obtain ⟨p, -, hp⟩ := Multiset.mem_map.mp hneg
    omega

section
variable {g : DcpGroup} {n : ℕ} {score : ℕ → α} {K : ℕ}

/-- The packed row of a rank is a best selection of its share's candidates and its pads. -/
theorem packRow_isTopK (hfit : ∀ p : ℕ, p < n → toFloat32 p = p) {rank : ℕ}
    (hr : rank < g.worldSize) {row : List (α × ℤ)} (h : LocalTopk g n score K rank row) :
    ∃ pads, K ≤ localLen g.worldSize g.interleave n rank + pads ∧
      IsTopK K Candidate.score
        ((Multiset.range (localLen g.worldSize g.interleave n rank)).map
            (fun i => candidateOf score (globalId g.worldSize g.interleave rank i)) +
          Multiset.replicate pads ⟨⊥, -1⟩)
        (packRow g rank row) := by
  obtain ⟨hlen, chosen, pads, hchosen, hrow, hpads⟩ := h
  have hcard := congrArg Multiset.card hrow
  simp only [Multiset.coe_card, Multiset.card_add, Multiset.card_map] at hcard
  have hccard := hchosen.card_eq
  rw [Multiset.card_range] at hccard
  have hpacked : (packRow g rank row : Multiset (Candidate α)) =
      chosen.map (fun i => candidateOf score (globalId g.worldSize g.interleave rank i)) +
        Multiset.replicate (K - Multiset.card chosen) ⟨⊥, -1⟩ := by
    rw [packRow, ← Multiset.map_coe, hrow, Multiset.map_add, Multiset.map_map]
    congr 1
    · refine Multiset.map_congr rfl fun i hi => ?_
      have hlt : globalId g.worldSize g.interleave rank i < n :=
        (lt_localLen_iff hr g.interleave_pos n i).mp
          (Multiset.mem_range.mp (Multiset.mem_of_le hchosen.le hi))
      show packCandidate g rank _ = _
      simp only [packCandidate, globalTopkId_natCast, hfit _ hlt, candidateOf]
      rw [if_pos (Int.natCast_nonneg i)]
    · rw [Multiset.map_congr rfl fun p hp => packCandidate_pad g rank (hpads p hp),
        Multiset.map_const']
      congr 1
      omega
  rw [hpacked]
  refine ⟨K - Multiset.card chosen, by omega, ?_⟩
  have hmap : IsTopK K Candidate.score _ _ := hchosen.map
    (fun i => candidateOf score (globalId g.worldSize g.interleave rank i))
    (fun x _ y _ hxy => WithBot.coe_le_coe.mpr hxy)
  have hpad := hmap.add_pads ⟨⊥, -1⟩
  rwa [Multiset.card_map] at hpad

omit [LinearOrder α] in
/-- The shares' candidates together are the candidates of all positions. -/
theorem sum_shares (g : DcpGroup) (n : ℕ) (score : ℕ → α) :
    ((List.range g.worldSize).map fun r =>
        (Multiset.range (localLen g.worldSize g.interleave n r)).map
          fun i => candidateOf score (globalId g.worldSize g.interleave r i)).sum =
      (Multiset.range n).map (candidateOf score) := by
  have hperm := (shares_perm g.world_pos g.interleave_pos n).map (candidateOf score)
  simp only [List.map_flatMap, List.map_map] at hperm
  have hsum := Multiset.coe_eq_coe.mpr hperm
  rw [coe_flatMap] at hsum
  exact hsum

/-- The row every rank ends with is exact. -/
theorem exactTopk_of_gather {stableTopk : StableTopk α} (hsel : SelectsBest stableTopk)
    (hfit : ∀ p : ℕ, p < n → toFloat32 p = p) {rows : ℕ → List (α × ℤ)}
    (hrows : ∀ r, r < g.worldSize → LocalTopk g n score K r (rows r)) :
    ExactTopk n score K (stableTopk (gatherRow g fun r => packRow g r (rows r)) K) := by
  obtain ⟨chosen, hchosen, hout⟩ := hsel (gatherRow g fun r => packRow g r (rows r)) K
  choose! pads hpads htop using fun r hr => packRow_isTopK hfit hr (hrows r hr)
  rw [gatherRow, coe_flatMap] at hchosen
  have hmerge := IsTopK.merge (List.range g.worldSize)
    (fun r hr => htop r (List.mem_range.mp hr)) hchosen
  have hsum : ((List.range g.worldSize).map fun r =>
      (Multiset.range (localLen g.worldSize g.interleave n r)).map
          (fun i => candidateOf score (globalId g.worldSize g.interleave r i)) +
        Multiset.replicate (pads r) (⟨⊥, -1⟩ : Candidate α)).sum =
      (Multiset.range n).map (candidateOf score) +
        Multiset.replicate ((List.range g.worldSize).map pads).sum ⟨⊥, -1⟩ := by
    rw [List.sum_map_add, sum_shares, sum_map_replicate]
  rw [hsum] at hmerge
  have hroom : K ≤ Multiset.card ((Multiset.range n).map (candidateOf score)) +
      ((List.range g.worldSize).map pads).sum := by
    have hshare := localLen_le g.world_pos g.interleave_pos n
    have hfirst : pads 0 ≤ ((List.range g.worldSize).map pads).sum :=
      List.le_sum_of_mem (List.mem_map_of_mem (List.mem_range.mpr g.world_pos))
    have hpad := hpads 0 g.world_pos
    rw [Multiset.card_map, Multiset.card_range]
    omega
  obtain ⟨picked, hpicked, rfl⟩ := hmerge.drop_pads (by
    intro x hx
    obtain ⟨p, -, rfl⟩ := Multiset.mem_map.mp hx
    exact WithBot.bot_lt_coe _) hroom
  have hself : ((Multiset.range n).map (candidateOf score)).map (fun c => c.id.toNat) =
      Multiset.range n := by
    rw [Multiset.map_map]
    exact Multiset.map_id _
  have hids : IsTopK K score (Multiset.range n) (picked.map fun c => c.id.toNat) := by
    rw [← hself]
    refine hpicked.map _ fun x hx y hy hxy => ?_
    obtain ⟨p, -, rfl⟩ := Multiset.mem_map.mp hx
    obtain ⟨q, -, rfl⟩ := Multiset.mem_map.mp hy
    exact WithBot.coe_le_coe.mp hxy
  refine exactTopk_of_best hids ?_
  rw [hout, Multiset.map_add, Multiset.map_replicate, Multiset.map_map, Multiset.card_map,
    Multiset.card_range]
  congr 1
  refine Multiset.map_congr rfl fun c hc => ?_
  obtain ⟨p, -, rfl⟩ := Multiset.mem_map.mp (Multiset.mem_of_le hpicked.le hc)
  rfl

/-- Without a group the local top-k already ranks global positions. -/
theorem exactTopk_of_single (hW : g.worldSize = 1) {row : List (α × ℤ)}
    (h : LocalTopk g n score K 0 row) : ExactTopk n score K (row.map Prod.snd) := by
  obtain ⟨hlen, chosen, pads, hchosen, hrow, hpads⟩ := h
  have hid : ∀ i, globalId g.worldSize g.interleave 0 i = i := by
    intro i
    simp only [globalId, hW, Nat.one_mul, Nat.zero_mul, Nat.add_zero]
    rw [Nat.mul_comm, Nat.div_add_mod]
  have hall : localLen g.worldSize g.interleave n 0 = n := by
    have hiff := fun i => lt_localLen_iff g.world_pos g.interleave_pos n i
    simp only [hid] at hiff
    have h₁ := hiff (localLen g.worldSize g.interleave n 0)
    have h₂ := hiff n
    omega
  simp only [hid, hall] at hchosen hrow
  have hcard := congrArg Multiset.card hrow
  simp only [Multiset.coe_card, Multiset.card_add, Multiset.card_map] at hcard
  have hccard := hchosen.card_eq
  rw [Multiset.card_range] at hccard
  refine exactTopk_of_best hchosen ?_
  rw [← Multiset.map_coe, hrow, Multiset.map_add, Multiset.map_map]
  congr 1
  rw [Multiset.map_congr rfl hpads, Multiset.map_const']
  congr 1
  omega

end

/-- The pack kernel forms the pairs the in-tree packing forms. -/
def PacksAsInTree (g : DcpGroup) (pack : PackKernel α) : Prop :=
  ∀ rank logits rowStart indices,
    pack rank logits rowStart indices = packRow g rank (scoredRow logits rowStart indices)

/-- Merging the ranks' local top-k rows yields a true global top-k on every rank, on the
B12X path and on the stock path. -/
theorem distributed_topk_exact (g : DcpGroup) (n K : ℕ) (score : ℕ → α)
    (stableTopk : StableTopk α) (hsel : SelectsBest stableTopk)
    (hfit : ∀ p : ℕ, p < n → toFloat32 p = p) :
    (∀ rows : ℕ → List (α × ℤ), (∀ r, r < g.worldSize → LocalTopk g n score K r (rows r)) →
      ∀ rank, rank < g.worldSize →
        ExactTopk n score K (mergeB12xDcpTopk g stableTopk K rows rank)) ∧
    (∀ (sup : MergeSupport) (pack : PackKernel α), PacksAsInTree g pack →
      ∀ (logits : ℕ → ℕ → α) (rowStart : ℕ → ℕ) (indices : ℕ → List ℤ),
      (∀ r, r < g.worldSize →
        LocalTopk g n score K r (scoredRow (logits r) (rowStart r) (indices r))) →
      ∀ rank, rank < g.worldSize → ∀ out,
        mergeDcpTopkGlobal g sup pack stableTopk K logits rowStart indices rank = .ok out →
        ExactTopk n score K out) := by
  constructor
  · intro rows hrows rank hrank
    unfold mergeB12xDcpTopk
    by_cases hW : g.worldSize ≤ 1
    · obtain rfl : rank = 0 := by omega
      rw [if_pos hW]
      exact exactTopk_of_single (by omega) (hrows 0 hrank)
    · rw [if_neg hW]
      exact exactTopk_of_gather hsel hfit hrows
  · intro sup pack hpack logits rowStart indices hrows rank hrank out hout
    unfold mergeDcpTopkGlobal at hout
    by_cases hW : g.worldSize ≤ 1
    · obtain rfl : rank = 0 := by omega
      rw [if_pos hW] at hout
      obtain rfl := Except.ok.inj hout
      have hsingle := exactTopk_of_single (by omega) (hrows 0 hrank)
      simpa only [scoredRow, List.map_map, Function.comp_def, List.map_id'] using hsingle
    · rw [if_neg hW] at hout
      cases hsup : assertCutedslDcpMergeSupported sup K with
      | error e =>
        rw [hsup] at hout
        cases hout
      | ok u =>
        rw [hsup] at hout
        obtain rfl := Except.ok.inj hout
        unfold PacksAsInTree at hpack
        simp only [hpack]
        exact exactTopk_of_gather hsel hfit hrows

/-- A stable sort by descending score, cut to `K`. -/
def sortedTopk : StableTopk α := fun gathered K =>
  ((gathered.mergeSort fun a b => b.score ≤ a.score).take K).map Candidate.id

theorem sortedTopk_selectsBest : SelectsBest (sortedTopk (α := α)) := by
  intro gathered K
  refine ⟨((gathered.mergeSort fun a b => b.score ≤ a.score).take K : List (Candidate α)), ?_, rfl⟩
  have hsorted : (gathered.mergeSort fun a b => b.score ≤ a.score).Pairwise
      fun a b => b.score ≤ a.score := by
    have h := @List.pairwise_mergeSort _ (fun a b : Candidate α => decide (b.score ≤ a.score))
      (fun a b c hab hbc => decide_eq_true ((of_decide_eq_true hbc).trans (of_decide_eq_true hab)))
      (fun a b => by simpa using le_total b.score a.score) gathered
    simpa using h
  have htop := isTopK_take K Candidate.score hsorted
  rwa [Multiset.coe_eq_coe.mpr (List.mergeSort_perm gathered _)] at htop

omit [LinearOrder α] in
/-- Padding indices look up the start of the logits row. -/
theorem coe_scoredRow_padded (logits : ℕ → α) (rowStart pads : ℕ) (indices : List ℤ) :
    (scoredRow logits rowStart (indices ++ List.replicate pads (-1)) : Multiset (α × ℤ)) =
      (scoredRow logits rowStart indices : Multiset (α × ℤ)) +
        Multiset.replicate pads (logits rowStart, -1) := by
  rw [scoredRow, List.map_append, List.map_replicate, ← Multiset.coe_add, Multiset.coe_replicate]
  rfl

/-- The scores of three positions on two ranks: one rank owns two, the other pads its row. -/
def threeScores (p : ℕ) : ℕ := [5, 7, 6].getD p 0

def twoRanks : DcpGroup := ⟨2, 1, Nat.two_pos, Nat.one_pos⟩

/-- Rank `r` has the logits of its positions `r`, `r + 2`, ... behind `r` others. -/
def twoLogits (r j : ℕ) : ℕ := threeScores (2 * (j - r) + r)

def twoIndices (r : ℕ) : List ℤ :=
  if r = 0 then [1, 0] ++ List.replicate 510 (-1) else [0] ++ List.replicate 511 (-1)

theorem twoIndices_length (r : ℕ) : (twoIndices r).length = 512 := by
  rw [twoIndices]
  split
  · rw [List.length_append, List.length_replicate]
    rfl
  · rw [List.length_append, List.length_replicate]
    rfl

theorem twoIndices_localTopk {r : ℕ} (hr : r < 2) :
    LocalTopk twoRanks 3 threeScores 512 r (scoredRow (twoLogits r) r (twoIndices r)) := by
  have hlength : (scoredRow (twoLogits r) r (twoIndices r)).length = 512 := by
    rw [scoredRow, List.length_map, twoIndices_length]
  have hr : r = 0 ∨ r = 1 := by omega
  rcases hr with rfl | rfl
  · refine ⟨hlength, {1, 0}, Multiset.replicate 510 (5, -1),
      ⟨0, by decide, by decide, by simp⟩, ?_, fun p hp => ?_⟩
    · exact coe_scoredRow_padded (twoLogits 0) 0 510 [1, 0]
    · rw [Multiset.eq_of_mem_replicate hp]
  · refine ⟨hlength, {0}, Multiset.replicate 511 (7, -1),
      ⟨0, by decide, by decide, by simp⟩, ?_, fun p hp => ?_⟩
    · exact coe_scoredRow_padded (twoLogits 1) 1 511 [0]
    · rw [Multiset.eq_of_mem_replicate hp]

theorem distributed_topk_three :
    ExactTopk 3 threeScores 2 (mergeB12xDcpTopk twoRanks sortedTopk 2
        (fun r => if r = 0 then [(6, 1), (5, 0)] else [(7, 0), (0, -1)]) 0) ∧
      ∃ out, mergeDcpTopkGlobal twoRanks ⟨true, true, true, true⟩
          (fun rank logits rowStart indices => packRow twoRanks rank (scoredRow logits rowStart indices))
          sortedTopk 512 twoLogits id twoIndices 1 = .ok out ∧ ExactTopk 3 threeScores 512 out := by
  have hfit : ∀ p : ℕ, p < 3 → toFloat32 p = p := fun p hp => toFloat32_of_lt (by omega)
  constructor
  · apply (distributed_topk_exact twoRanks 3 2 threeScores sortedTopk sortedTopk_selectsBest hfit).1 _
      ?_ 0 (by decide)
    intro r hr
    have hr : r = 0 ∨ r = 1 := by
      change r < 2 at hr
      omega
    rcases hr with rfl | rfl
    · exact ⟨rfl, {1, 0}, 0, ⟨0, by decide, by decide, by simp⟩, by decide, by simp⟩
    · exact ⟨rfl, {0}, {(0, -1)}, ⟨0, by decide, by decide, by simp⟩, by decide, by simp⟩
  · refine ⟨_, rfl, ?_⟩
    apply (distributed_topk_exact twoRanks 3 512 threeScores sortedTopk sortedTopk_selectsBest hfit).2
      ⟨true, true, true, true⟩ _ (fun _ _ _ _ => rfl) twoLogits id twoIndices _ 1 (by decide) _ rfl
    exact fun r hr => twoIndices_localTopk hr

end SparkKit.Dcp.TopkExact
