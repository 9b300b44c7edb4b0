import SparkKit.Tp4.AllReduceRun

/-!
# Four ranks

The ranks of the plan stand in a square: each has a peer on either endpoint. All of them add the
same four inputs, in an order that a commutative addition cannot tell apart, so that they put out
the same tensors without agreeing on anything but the rounds.
-/
namespace SparkKit.Tp4.FourRanks

open SparkKit.Tp4.Protocol SparkKit.Tp4.AllReduce SparkKit.Tp4.AllReduceRun

inductive Rank where
  | rank0
  | rank1
  | rank2
  | rank3
deriving DecidableEq, Repr

def Rank.index : Rank → ℕ
  | .rank0 => 0
  | .rank1 => 1
  | .rank2 => 2
  | .rank3 => 3

def roundIndex : Round → ℕ
  | .round0 => 0
  | .round1 => 1

def Rank.peer : Round → Rank → Rank
  | .round0, .rank0 => .rank1
  | .round0, .rank1 => .rank0
  | .round0, .rank2 => .rank3
  | .round0, .rank3 => .rank2
  | .round1, .rank0 => .rank3
  | .round1, .rank1 => .rank2
  | .round1, .rank2 => .rank1
  | .round1, .rank3 => .rank0

theorem Rank.peer_peer (round : Round) (r : Rank) : Rank.peer round (Rank.peer round r) = r := by
  cases round <;> cases r <;> rfl

/-- The peers are those of the round plan. -/
theorem makeTp4RoundPlan_peer (round : Round) (r : Rank) :
    makeTp4RoundPlan r.index (roundIndex round) =
      .ok ⟨roundIndex round, r.index, (Rank.peer round r).index, roundIndex round,
        decide (r.index > (Rank.peer round r).index)⟩ := by
  cases round <;> cases r <;> rfl

/-- A session of the four ranks whose addition is commutative, as that of `__hadd2` is. -/
structure Square (L α : Type*) [DecidableEq L] extends Session Rank L α where
  peers : peerRank = Rank.peer
  add_comm : ∀ a b, add a b = add b a

variable {L α : Type*} [DecidableEq L]

/-- The sum does not depend on the rank that adds it up. -/
theorem reduction_eq (C : Square L α) {lane source : L} (h : C.source lane = some source)
    (r r' : Rank) (s : ℕ) :
    reduction C.toSession r lane source s = reduction C.toSession r' lane source s := by
  have hother := C.disciplined.source_other lane source h
  have hcomm := C.add_comm
  rw [reduction, reduction, Session.peer, Session.peer, C.peers]
  cases hsource : C.endpoint source <;> cases hlane : C.endpoint lane
  case round0.round0 => exact absurd (hsource.trans hlane.symm) hother
  case round1.round1 => exact absurd (hsource.trans hlane.symm) hother
  all_goals cases r <;> cases r' <;> simp only [Rank.peer, hcomm]

theorem range_map_le {f : ℕ → α} {m n : ℕ} (h : m ≤ n) :
    (List.range m).map f <+: (List.range n).map f := by
  obtain ⟨k, rfl⟩ := Nat.exists_eq_add_of_le h
  apply List.IsPrefix.map
  rw [List.range_add]
  exact List.prefix_append _ _

/-- No two ranks ever put out different sums for an operation. -/
theorem ranks_agree (C : Square L α) (events : List (Event Rank L)) (lane source : L)
    (h : C.source lane = some source) (r r' : Rank) :
    (run C.toSession events).sums r lane <+: (run C.toSession events).sums r' lane ∨
      (run C.toSession events).sums r' lane <+: (run C.toSession events).sums r lane := by
  obtain ⟨-, houtputs⟩ := outputs_in_order C.toSession events
  have hsame : reduction C.toSession r lane source = reduction C.toSession r' lane source :=
    funext fun s => reduction_eq C h r r' s
  rw [houtputs r lane source h, houtputs r' lane source h, hsame]
  rcases Nat.le_total ((run C.toSession events).sums r lane).length
    ((run C.toSession events).sums r' lane).length with hle | hle
  · exact .inl (range_map_le hle)
  · exact .inr (range_map_le hle)

/-- Two operations of one row, for which every rank puts in its index and the operation's. -/
def indicesOf (P : Programs L) (h : Disciplined P) : Square L ℕ where
  toPrograms := P
  disciplined := h
  peerRank := Rank.peer
  peerRank_peerRank := Rank.peer_peer
  add := Nat.add
  input r _ s := s + r.index
  cleared := 0
  q _ := 1
  bytesPerRow := 4
  maxInlineData := 64
  launched := 2
  rows := DeferredCredits.one_row_valid
  within := by decide
  peers := rfl
  add_comm := Nat.add_comm

def indices : Square Round ℕ := indicesOf sequential sequential_disciplined

def stripedIndices : Square StripedLane ℕ := indicesOf striped striped_disciplined

/-- Every rank makes so many steps of its kernels and its progress thread, and what the latter
posted on the lanes is transmitted. -/
def exchange (kernelSteps progressSteps : ℕ) (lanes : List L) : List (Event Rank L) :=
  [Rank.rank0, .rank1, .rank2, .rank3].flatMap fun r =>
    List.replicate kernelSteps (.gpu r) ++ List.replicate progressSteps (.host r) ++
      lanes.flatMap fun lane => List.replicate 2 (.transmit r lane)

/-- Both operations, the second one up to the output of the first rank. -/
def twoOperations : List (Event Rank Round) :=
  exchange 3 4 [.round0] ++ exchange 6 7 [.round1] ++ exchange 6 7 [.round0] ++
    exchange 6 7 [.round1] ++ List.replicate 3 (.gpu .rank0)

def stripedOperations : List (Event Rank StripedLane) :=
  exchange 8 8 [.endpoint0Lower, .endpoint1Upper] ++
    exchange 10 14 [.endpoint0Upper, .endpoint1Lower] ++
    exchange 14 14 [.endpoint0Lower, .endpoint1Upper] ++
    exchange 10 14 [.endpoint0Upper, .endpoint1Lower] ++ List.replicate 6 (.gpu .rank0)

theorem outputs_in_order_indices :
    (run indices.toSession twoOperations).sums .rank0 .round1 = [10, 14] ∧
      [10, 14] = (List.range 2).map
        fun i => reduction indices.toSession .rank0 .round1 .round0 (i + 1) := by
  have hsums : (run indices.toSession twoOperations).sums .rank0 .round1 = [10, 14] := by
    decide +kernel
  have houtputs := (outputs_in_order indices.toSession twoOperations).2 .rank0 .round1 .round0 rfl
  rw [hsums] at houtputs
  exact ⟨hsums, houtputs⟩

theorem ranks_agree_indices :
    stripedIndices.source .endpoint1Lower = some .endpoint0Lower ∧
      (run stripedIndices.toSession stripedOperations).sums .rank0 .endpoint1Lower = [10, 14] ∧
      (run stripedIndices.toSession stripedOperations).sums .rank2 .endpoint1Lower = [10] ∧
      ([10, 14] <+: [10] ∨ [10] <+: [10, 14]) := by
  have hahead :
      (run stripedIndices.toSession stripedOperations).sums .rank0 .endpoint1Lower = [10, 14] := by
    decide +kernel
  have hbehind :
      (run stripedIndices.toSession stripedOperations).sums .rank2 .endpoint1Lower = [10] := by
    decide +kernel
  have hagree := ranks_agree stripedIndices stripedOperations .endpoint1Lower .endpoint0Lower rfl
    .rank0 .rank2
  rw [hahead, hbehind] at hagree
  exact ⟨rfl, hahead, hbehind, hagree⟩

end SparkKit.Tp4.FourRanks
