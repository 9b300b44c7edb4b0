import SparkKit.Lib.Consecutive
import SparkKit.Rdma.AllGather
import Mathlib.Data.List.FinRange
import Mathlib.Data.List.Perm.Basic
import Mathlib.Data.List.Nodup
import Mathlib.Data.List.Range
import Mathlib.Data.List.Perm.Subperm

/-!
# Isolation of the rounds

A link carries the immediates of its source in order, so the receives of a rank stay one
round apart from its counter as long as no poll takes a receive of a later round.
-/
namespace SparkKit.Rdma.Rounds

open SparkKit.Lib.History SparkKit.Lib.Consecutive SparkKit.Rdma.AllGather

variable {W : ℕ}

/-! ## The property -/

def peers (r : Fin W) : List (Fin W) := (List.finRange W).filter (· ≠ r)

/-- One round: exactly one receive of the round and one send completion for each peer, and
the contribution of every peer in the buffer. -/
def RoundComplete (chunk : ℕ) (r : Fin W) (d : Departure W) : Prop :=
  d.counted.Perm ((peers r).map (Completion.recvRdmaWithImm · d.it) ++
      (peers r).map Completion.rdmaWrite) ∧
    ∀ src, src ≠ r → d.recvbuf src = sendbuf chunk src

/-- A delivered receive is still queued, or was counted for its own round. -/
def Kept (me : Rank W) (src : Fin W) (imm : ℕ) : Prop :=
  .recvRdmaWithImm src imm ∈ me.cq ∨
    (imm = me.it ∧ .recvRdmaWithImm src imm ∈ me.counted) ∨
    ∃ d ∈ me.departures, d.it = imm ∧ .recvRdmaWithImm src imm ∈ d.counted

/-- Every round left was complete, and no completion is lost. -/
def RoundsIsolated (chunk : ℕ) (s : Cluster W) : Prop :=
  ∀ r, (∀ d ∈ (s.rank r).departures, RoundComplete chunk r d) ∧
    ∀ src, src ≠ r → ∀ imm < s.delivered (src, r), Kept (s.rank r) src imm

/-- A poll takes no receive of a later round. -/
def PollsOwnRound (rounds : ℕ) (s : Cluster W) : Event W → Prop
  | .pollCq r n => (s.rank r).inRound rounds → (s.rank r).waiting →
      ∀ src imm, .recvRdmaWithImm src imm ∈ (s.rank r).wc n → imm ≤ (s.rank r).it
  | _ => True

/-! ## Counting completions -/

/-- The immediates received from one peer, in order. -/
def tagsFrom (src : Fin W) (cs : List (Completion W)) : List ℕ :=
  cs.filterMap fun
    | .recvRdmaWithImm p imm => if p = src then some imm else none
    | .rdmaWrite _ => none

@[simp] theorem tagsFrom_append (src : Fin W) (cs ds : List (Completion W)) :
    tagsFrom src (cs ++ ds) = tagsFrom src cs ++ tagsFrom src ds := List.filterMap_append

theorem tagsFrom_recv (src p : Fin W) (imm : ℕ) :
    tagsFrom src [.recvRdmaWithImm p imm] = if p = src then [imm] else [] := by
  by_cases hp : p = src <;> simp [tagsFrom, hp]

theorem tagsFrom_send (src dst : Fin W) : tagsFrom src [.rdmaWrite dst] = [] := rfl

theorem mem_tagsFrom {src : Fin W} {imm : ℕ} {cs : List (Completion W)} :
    imm ∈ tagsFrom src cs ↔ .recvRdmaWithImm src imm ∈ cs := by
  unfold tagsFrom
  rw [List.mem_filterMap]
  constructor
  · rintro ⟨c, hc, himm⟩
    cases c with
    | recvRdmaWithImm p tag =>
      simp only [Option.ite_none_right_eq_some, Option.some.injEq] at himm
      obtain ⟨rfl, rfl⟩ := himm
      exact hc
    | rdmaWrite dst => cases himm
  · intro hc
    exact ⟨_, hc, if_pos rfl⟩

theorem count_tagsFrom (src : Fin W) (imm : ℕ) (cs : List (Completion W)) :
    (tagsFrom src cs).count imm = cs.count (.recvRdmaWithImm src imm) := by
  induction cs with
  | nil => rfl
  | cons c cs ih =>
    rw [← List.singleton_append, tagsFrom_append, List.count_append, List.count_append, ih]
    cases c with
    | recvRdmaWithImm p tag =>
      rw [tagsFrom_recv]
      by_cases hp : p = src
      · subst hp
        by_cases htag : tag = imm <;> simp [htag]
      · simp [hp]
    | rdmaWrite dst => simp [tagsFrom_send]

theorem mem_peers {r p : Fin W} : p ∈ peers r ↔ p ≠ r := by simp [peers]

theorem length_peers (r : Fin W) : (peers r).length = W - 1 := by
  have hsplit := List.length_eq_length_filter_add (l := List.finRange W) (· = r)
  have hone : ((List.finRange W).filter (· = r)).length = 1 := by
    rw [← List.countP_eq_length_filter, ← List.count_eq_one_of_mem (List.nodup_finRange W)
      (List.mem_finRange r)]
    rfl
  have hne : peers r = (List.finRange W).filter fun p => !decide (p = r) := by
    simp [peers]
  rw [hne]
  simp only [List.length_finRange] at hsplit
  omega

/-- A list without duplicates inside another one, and no shorter, is a permutation of it. -/
theorem perm_of_subset {α : Type*} {xs ys : List α} (hnodup : xs.Nodup) (hsub : xs ⊆ ys)
    (hlen : ys.length ≤ xs.length) : xs.Perm ys :=
  (hnodup.subperm hsub).perm_of_length_le hlen

/-! ## The invariant -/

/-- What the ends of a link and the wire hold of it. -/
structure Link where
  srcIt : ℕ
  posted : ℕ
  acked : ℕ
  dstIt : ℕ
  arrived : List ℕ
  inflight : List ℕ
  unacked : ℕ
  delivered : ℕ
  buf : List ℕ

/-- The completions counted in the open round and those not yet polled. -/
def seen (me : Rank W) : List (Completion W) := me.counted ++ me.cq

def link (s : Cluster W) (src dst : Fin W) : Link where
  srcIt := (s.rank src).it
  posted := if dst.val < (s.rank src).p then 1 else 0
  acked := (seen (s.rank src)).count (.rdmaWrite dst)
  dstIt := (s.rank dst).it
  arrived := tagsFrom src (seen (s.rank dst))
  inflight := s.inflight (src, dst)
  unacked := s.unacked (src, dst)
  delivered := s.delivered (src, dst)
  buf := (s.rank dst).recvbuf src

/-- The immediates of a link count up from the round its destination is in to the last one
its source has posted. -/
structure LinkInv (sent : List ℕ) (l : Link) : Prop where
  stream : CountsFrom l.dstIt (l.arrived ++ l.inflight)
  reach : l.dstIt + l.arrived.length + l.inflight.length = l.srcIt + l.posted
  sends : l.acked + l.unacked + l.inflight.length = l.posted
  delivered : l.delivered = l.dstIt + l.arrived.length
  buffer : 0 < l.delivered → l.buf = sent

/-- What a rank itself keeps. -/
structure RankInv (chunk : ℕ) (r : Fin W) (me : Rank W) : Prop where
  own : ∀ src imm, .recvRdmaWithImm src imm ∈ me.counted → imm = me.it
  gr : me.gr = me.counted.countP Completion.isRecv
  gs : me.gs = me.counted.countP fun c => !c.isRecv
  other : ∀ c ∈ seen me, c.peer ≠ r
  rounds : me.departures.map Departure.it = List.range me.it
  complete : ∀ d ∈ me.departures, RoundComplete chunk r d

structure Inv (chunk : ℕ) (s : Cluster W) : Prop where
  rank : ∀ r, RankInv chunk r (s.rank r)
  link : ∀ src dst, src ≠ dst → LinkInv (sendbuf chunk src) (link s src dst)
  self : ∀ r, s.inflight (r, r) = [] ∧ s.unacked (r, r) = 0

theorem inv_init (chunk : ℕ) : Inv chunk (init W chunk) where
  rank := fun r => {
    own := fun _ _ h => by cases h
    gr := rfl
    gs := rfl
    other := fun _ h => by cases h
    rounds := rfl
    complete := fun _ h => by cases h }
  link := fun src dst _ => {
    stream := rfl
    reach := rfl
    sends := rfl
    delivered := rfl
    buffer := fun h => absurd h (Nat.lt_irrefl 0) }
  self := fun r => ⟨rfl, rfl⟩

/-! ## Frames -/

/-- The source end of a link to `dst` is as it was. -/
structure SameSource (dst : Fin W) (me me' : Rank W) : Prop where
  it : me'.it = me.it
  posted : dst.val < me'.p ↔ dst.val < me.p
  acked : (seen me').count (.rdmaWrite dst) = (seen me).count (.rdmaWrite dst)

/-- The destination end of a link from `src` is as it was. -/
structure SameTarget (src : Fin W) (me me' : Rank W) : Prop where
  it : me'.it = me.it
  arrived : tagsFrom src (seen me') = tagsFrom src (seen me)
  buf : me'.recvbuf src = me.recvbuf src

theorem SameSource.refl (dst : Fin W) (me : Rank W) : SameSource dst me me := ⟨rfl, Iff.rfl, rfl⟩

theorem SameTarget.refl (src : Fin W) (me : Rank W) : SameTarget src me me := ⟨rfl, rfl, rfl⟩

section
variable {chunk rounds : ℕ} {s s' : Cluster W}

/-- What holds of the new state of one rank and of the others holds of every rank. -/
theorem setRank_forall {P : Fin W → Rank W → Prop} {r : Fin W} {me : Rank W} (hme : P r me)
    (h : ∀ q, q ≠ r → P q (s.rank q)) (q : Fin W) : P q ((s.setRank r me).rank q) := by
  by_cases hq : q = r
  · subst hq
    rwa [setRank_self]
  · rw [setRank_of_ne s hq]
    exact h q hq

/-- A link whose ends and wire are as they were keeps its invariant. -/
theorem linkInv_frame {src dst : Fin W} {sent : List ℕ} (h : LinkInv sent (link s src dst))
    (hsrc : SameSource dst (s.rank src) (s'.rank src))
    (hdst : SameTarget src (s.rank dst) (s'.rank dst))
    (hinflight : s'.inflight (src, dst) = s.inflight (src, dst))
    (hunacked : s'.unacked (src, dst) = s.unacked (src, dst))
    (hdelivered : s'.delivered (src, dst) = s.delivered (src, dst)) :
    LinkInv sent (link s' src dst) := by
  have heq : link s' src dst = link s src dst := by
    simp only [link, hsrc.it, hsrc.posted, hsrc.acked, hdst.it, hdst.arrived, hdst.buf, hinflight,
      hunacked, hdelivered]
  rw [heq]
  exact h

/-- A completion of another rank's queue pair joins the queue of a rank. -/
theorem RankInv.sees {r : Fin W} {me me' : Rank W} (h : RankInv chunk r me) {c : Completion W}
    (hseen : seen me' = seen me ++ [c]) (hc : c.peer ≠ r) (hcounted : me'.counted = me.counted)
    (hit : me'.it = me.it) (hgr : me'.gr = me.gr) (hgs : me'.gs = me.gs)
    (hdepartures : me'.departures = me.departures) : RankInv chunk r me' := by
  refine ⟨?_, ?_, ?_, ?_, ?_, ?_⟩
  · rw [hcounted, hit]
    exact h.own
  · rw [hcounted, hgr]
    exact h.gr
  · rw [hcounted, hgs]
    exact h.gs
  · intro x hx
    rw [hseen] at hx
    rcases List.mem_append.mp hx with hx | hx
    · exact h.other x hx
    · rw [List.mem_singleton.mp hx]
      exact hc
  · rw [hdepartures, hit]
    exact h.rounds
  · rw [hdepartures]
    exact h.complete

/-- No rank is both ends of a link. -/
theorem diagonal_ne {src dst : Fin W} (hne : src ≠ dst) (q : Fin W) : (q, q) ≠ (src, dst) := by
  intro hq
  obtain ⟨hsrc, hdst⟩ := Prod.mk.inj hq
  exact hne (hsrc.symm.trans hdst)

/-! ## A step at a time -/

/-- A posted write joins its link at the back. -/
theorem LinkInv.post {sent : List ℕ} {l l' : Link} (h : LinkInv sent l) (hposted : l.posted = 0)
    (hl' : l' = { l with posted := 1, inflight := l.inflight ++ [l.srcIt] }) :
    LinkInv sent l' := by
  subst hl'
  have hreach := h.reach
  have hsends := h.sends
  refine ⟨?_, ?_, ?_, h.delivered, h.buffer⟩
  · show CountsFrom l.dstIt (l.arrived ++ (l.inflight ++ [l.srcIt]))
    rw [← List.append_assoc]
    refine countsFrom_append.mpr ⟨h.stream, countsFrom_singleton.mpr ?_⟩
    rw [List.length_append]
    omega
  · show l.dstIt + l.arrived.length + (l.inflight ++ [l.srcIt]).length = l.srcIt + 1
    rw [List.length_append, List.length_singleton]
    omega
  · show l.acked + l.unacked + (l.inflight ++ [l.srcIt]).length = 1
    rw [List.length_append, List.length_singleton]
    omega

/-- A delivered write moves from the wire to the completions of its destination. -/
theorem LinkInv.deliver {sent : List ℕ} {l l' : Link} (h : LinkInv sent l) {imm : ℕ}
    {rest : List ℕ} (hhead : l.inflight = imm :: rest)
    (hl' : l' = { l with
      arrived := l.arrived ++ [imm]
      inflight := rest
      unacked := l.unacked + 1
      delivered := l.delivered + 1
      buf := sent }) : LinkInv sent l' := by
  subst hl'
  have hreach := h.reach
  have hsends := h.sends
  have hdelivered := h.delivered
  have hstream := h.stream
  rw [hhead, List.length_cons] at hreach hsends
  rw [hhead] at hstream
  refine ⟨?_, ?_, ?_, ?_, fun _ => rfl⟩
  · show CountsFrom l.dstIt ((l.arrived ++ [imm]) ++ rest)
    rwa [List.append_assoc]
  · show l.dstIt + (l.arrived ++ [imm]).length + rest.length = l.srcIt + l.posted
    rw [List.length_append, List.length_singleton]
    omega
  · show l.acked + (l.unacked + 1) + rest.length = l.posted
    omega
  · show l.delivered + 1 = l.dstIt + (l.arrived ++ [imm]).length
    rw [List.length_append, List.length_singleton]
    omega

/-- An acknowledged write moves to the completions of its source. -/
theorem LinkInv.ack {sent : List ℕ} {l l' : Link} (h : LinkInv sent l) (hunacked : 0 < l.unacked)
    (hl' : l' = { l with acked := l.acked + 1, unacked := l.unacked - 1 }) : LinkInv sent l' := by
  subst hl'
  have hsends := h.sends
  refine ⟨h.stream, h.reach, ?_, h.delivered, h.buffer⟩
  show l.acked + 1 + (l.unacked - 1) + l.inflight.length = l.posted
  omega

/-- The source of a completed link starts its next round. -/
theorem LinkInv.leaveSource {sent : List ℕ} {l l' : Link} (h : LinkInv sent l) (acked : ℕ)
    (hposted : l.posted = 1) (hacked : l.acked = 1 + acked)
    (hl' : l' = { l with srcIt := l.srcIt + 1, posted := 0, acked := acked }) :
    LinkInv sent l' := by
  subst hl'
  have hreach := h.reach
  have hsends := h.sends
  refine ⟨h.stream, ?_, ?_, h.delivered, h.buffer⟩
  · show l.dstIt + l.arrived.length + l.inflight.length = l.srcIt + 1 + 0
    omega
  · show acked + l.unacked + l.inflight.length = 0
    omega

/-- The destination of a link that has counted its round starts its next one. -/
theorem LinkInv.leaveTarget {sent : List ℕ} {l l' : Link} (h : LinkInv sent l) (rest : List ℕ)
    (harrived : l.arrived = [l.dstIt] ++ rest)
    (hl' : l' = { l with dstIt := l.dstIt + 1, arrived := rest }) : LinkInv sent l' := by
  subst hl'
  have hstream := h.stream
  have hreach := h.reach
  have hdelivered := h.delivered
  rw [harrived, List.append_assoc] at hstream
  rw [harrived, List.length_append, List.length_singleton] at hreach hdelivered
  refine ⟨(countsFrom_append.mp hstream).2, ?_, h.sends.trans rfl, ?_, h.buffer⟩
  · show l.dstIt + 1 + rest.length + l.inflight.length = l.srcIt + l.posted
    omega
  · show l.delivered = l.dstIt + 1 + rest.length
    omega

theorem postSend_inv (h : Inv chunk s) (r : Fin W) : Inv chunk (postSend rounds s r) := by
  unfold postSend
  by_cases hcan : (s.rank r).it < rounds ∧ (s.rank r).p < W
  swap
  · rw [dif_neg hcan]
    exact h
  rw [dif_pos hcan]
  let me : Rank W := { s.rank r with p := (s.rank r).p + 1 }
  have hrank : ∀ q, RankInv chunk q ((s.setRank r me).rank q) :=
    setRank_forall { h.rank r with } fun q _ => h.rank q
  have hsource : ∀ src dst : Fin W, (src = r → dst.val ≠ (s.rank r).p) →
      SameSource dst (s.rank src) ((s.setRank r me).rank src) := by
    intro src dst
    apply setRank_forall (P := fun q new => (q = r → dst.val ≠ (s.rank r).p) →
      SameSource dst (s.rank q) new)
    · intro hne
      have := hne rfl
      refine ⟨rfl, ?_, rfl⟩
      show dst.val < (s.rank r).p + 1 ↔ dst.val < (s.rank r).p
      omega
    · exact fun q _ _ => .refl _ _
  have htarget : ∀ src dst : Fin W, SameTarget src (s.rank dst) ((s.setRank r me).rank dst) := by
    intro src
    apply setRank_forall (P := fun q new => SameTarget src (s.rank q) new)
    · exact ⟨rfl, rfl, rfl⟩
    · exact fun q _ => .refl _ _
  by_cases hself : (⟨(s.rank r).p, hcan.2⟩ : Fin W) = r
  · rw [if_pos hself]
    refine ⟨hrank, fun src dst hne => ?_, h.self⟩
    refine linkInv_frame (h.link src dst hne) (hsource src dst ?_) (htarget src dst) rfl rfl rfl
    rintro rfl hdst
    exact hne ((Fin.ext hdst).trans hself).symm
  · rw [if_neg hself]
    refine ⟨hrank, fun src dst hne => ?_, fun q => ⟨?_, (h.self q).2⟩⟩
    · by_cases hpair : (src, dst) = (r, ⟨(s.rank r).p, hcan.2⟩)
      · obtain ⟨rfl, rfl⟩ := Prod.mk.inj hpair
        refine (h.link _ _ hne).post (if_neg (Nat.lt_irrefl _)) ?_
        simp [link, seen, setRank_of_ne s hne.symm]
      · refine linkInv_frame (h.link src dst hne) (hsource src dst ?_) (htarget src dst)
          (Function.update_of_ne hpair _ _) rfl rfl
        rintro rfl hdst
        exact hpair (Prod.ext rfl (Fin.ext hdst))
    · show Function.update s.inflight _ _ (q, q) = []
      rw [Function.update_of_ne (diagonal_ne (Ne.symm hself) q)]
      exact (h.self q).1

theorem deliver_inv (h : Inv chunk s) (src dst : Fin W) : Inv chunk (deliver chunk s src dst) := by
  unfold deliver
  cases hhead : s.inflight (src, dst) with
  | nil => exact h
  | cons imm rest =>
    dsimp only
    by_cases hwr : s.recvWrs (src, dst) = 0
    · rw [if_pos hwr]
      exact h
    rw [if_neg hwr]
    have hne : src ≠ dst := by
      rintro rfl
      rw [(h.self src).1] at hhead
      cases hhead
    let peer : Rank W := { s.rank dst with
      cq := (s.rank dst).cq ++ [.recvRdmaWithImm src imm]
      recvbuf := Function.update (s.rank dst).recvbuf src (sendbuf chunk src) }
    have hseen : seen peer = seen (s.rank dst) ++ [.recvRdmaWithImm src imm] :=
      (List.append_assoc _ _ _).symm
    have hsource : ∀ a b : Fin W, SameSource b (s.rank a) ((s.setRank dst peer).rank a) := by
      intro a b
      apply setRank_forall (P := fun q new => SameSource b (s.rank q) new)
      · refine ⟨rfl, Iff.rfl, ?_⟩
        rw [hseen, List.count_append]
        rfl
      · exact fun q _ => .refl _ _
    refine ⟨?_, fun a b hab => ?_, fun q => ?_⟩
    · apply setRank_forall
      · exact (h.rank dst).sees hseen hne rfl rfl rfl rfl rfl
      · exact fun q _ => h.rank q
    · by_cases hpair : (a, b) = (src, dst)
      · obtain ⟨rfl, rfl⟩ := Prod.mk.inj hpair
        refine (h.link a b hab).deliver hhead ?_
        simp [link, seen, setRank_of_ne s hne, tagsFrom_recv]
      · have htarget : SameTarget a (s.rank b) ((s.setRank dst peer).rank b) := by
          apply setRank_forall
            (P := fun q new => (a, q) ≠ (src, dst) → SameTarget a (s.rank q) new) _ _ b hpair
          · intro hother
            have ha : a ≠ src := fun ha => hother (Prod.ext ha rfl)
            refine ⟨rfl, ?_, Function.update_of_ne ha _ _⟩
            rw [hseen, tagsFrom_append, tagsFrom_recv, if_neg ha.symm, List.append_nil]
          · exact fun q _ _ => .refl _ _
        exact linkInv_frame (h.link a b hab) (hsource a b) htarget
          (Function.update_of_ne hpair _ _) (Function.update_of_ne hpair _ _)
          (Function.update_of_ne hpair _ _)
    · have hpair := diagonal_ne hne q
      exact ⟨(Function.update_of_ne hpair _ _).trans (h.self q).1,
        (Function.update_of_ne hpair _ _).trans (h.self q).2⟩

theorem ack_inv (h : Inv chunk s) (src dst : Fin W) : Inv chunk (ack s src dst) := by
  unfold AllGather.ack
  by_cases hzero : s.unacked (src, dst) = 0
  · rw [if_pos hzero]
    exact h
  rw [if_neg hzero]
  have hne : src ≠ dst := by
    rintro rfl
    exact hzero (h.self src).2
  let me : Rank W := { s.rank src with cq := (s.rank src).cq ++ [.rdmaWrite dst] }
  have hseen : seen me = seen (s.rank src) ++ [.rdmaWrite dst] := (List.append_assoc _ _ _).symm
  have htarget : ∀ a b : Fin W, SameTarget a (s.rank b) ((s.setRank src me).rank b) := by
    intro a
    apply setRank_forall (P := fun q new => SameTarget a (s.rank q) new)
    · refine ⟨rfl, ?_, rfl⟩
      rw [hseen, tagsFrom_append, tagsFrom_send, List.append_nil]
    · exact fun q _ => .refl _ _
  refine ⟨?_, fun a b hab => ?_, fun q => ?_⟩
  · apply setRank_forall
    · exact (h.rank src).sees hseen hne.symm rfl rfl rfl rfl rfl
    · exact fun q _ => h.rank q
  · by_cases hpair : (a, b) = (src, dst)
    · obtain ⟨rfl, rfl⟩ := Prod.mk.inj hpair
      refine (h.link a b hab).ack (Nat.pos_of_ne_zero hzero) ?_
      simp [link, seen, setRank_of_ne s hne.symm, Nat.add_assoc]
    · have hsource : SameSource b (s.rank a) ((s.setRank src me).rank a) := by
        apply setRank_forall
          (P := fun q new => (q, b) ≠ (src, dst) → SameSource b (s.rank q) new) _ _ a hpair
        · intro hother
          have hb : dst ≠ b := fun hb => hother (Prod.ext rfl hb.symm)
          refine ⟨rfl, Iff.rfl, ?_⟩
          rw [hseen, List.count_append]
          simp [hb]
        · exact fun q _ _ => .refl _ _
      exact linkInv_frame (h.link a b hab) hsource (htarget a b) rfl
        (Function.update_of_ne hpair _ _) rfl
  · have hpair := diagonal_ne hne q
    exact ⟨(h.self q).1, (Function.update_of_ne hpair _ _).trans (h.self q).2⟩

/-- The rank that polls: its completions change place only. -/
theorem seen_poll (me : Rank W) (n : ℕ) :
    (me.counted ++ me.wc n) ++ me.cq.drop (min n 16) = seen me := by
  rw [List.append_assoc]
  exact congrArg (me.counted ++ ·) (List.take_append_drop _ _)

/-- A receive that is there is of the open round or a later one. -/
theorem recv_bounds (h : Inv chunk s) {r src : Fin W} {imm : ℕ}
    (hc : .recvRdmaWithImm src imm ∈ seen (s.rank r)) :
    src ≠ r ∧ (s.rank r).it ≤ imm ∧ imm < s.delivered (src, r) := by
  have hne : src ≠ r := (h.rank r).other _ hc
  have hlink := h.link src r hne
  have harrived := (countsFrom_append.mp hlink.stream).1.mem_iff.mp (mem_tagsFrom.mpr hc)
  have hdelivered := hlink.delivered
  exact ⟨hne, harrived.1, lt_of_lt_of_eq harrived.2 hdelivered.symm⟩

theorem pollCq_inv (h : Inv chunk s) (r : Fin W) (n : ℕ)
    (hown : PollsOwnRound rounds s (.pollCq r n)) : Inv chunk (pollCq rounds s r n) := by
  unfold pollCq
  by_cases hcan : (s.rank r).inRound rounds ∧ (s.rank r).waiting
  swap
  · rw [if_neg hcan]
    exact h
  rw [if_pos hcan]
  have hr := h.rank r
  refine ⟨?_, fun a b hab => ?_, h.self⟩
  · apply setRank_forall
    · refine ⟨?_, ?_, ?_, ?_, hr.rounds, hr.complete⟩
      · intro src imm hc
        rcases List.mem_append.mp hc with hc | hc
        · exact hr.own src imm hc
        · have hseen : .recvRdmaWithImm src imm ∈ seen (s.rank r) :=
            List.mem_append_right _ (List.mem_of_mem_take hc)
          exact Nat.le_antisymm (hown hcan.1 hcan.2 src imm hc) (recv_bounds h hseen).2.1
      · show (s.rank r).gr + _ = _
        rw [List.countP_append, hr.gr]
      · show (s.rank r).gs + _ = _
        rw [List.countP_append, hr.gs]
      · intro c hc
        exact hr.other c ((seen_poll _ n).symm ▸ hc)
    · exact fun q _ => h.rank q
  · refine linkInv_frame (h.link a b hab) ?_ ?_ rfl rfl rfl
    · apply setRank_forall (P := fun q new => SameSource b (s.rank q) new)
      · exact ⟨rfl, Iff.rfl, congrArg (List.count _) (seen_poll _ n)⟩
      · exact fun q _ => .refl _ _
    · apply setRank_forall (P := fun q new => SameTarget a (s.rank q) new)
      · exact ⟨rfl, congrArg (tagsFrom a) (seen_poll _ n), rfl⟩
      · exact fun q _ => .refl _ _

/-! ## Leaving a round -/

/-- The receives a rank has counted, when they are enough, are one for each peer. -/
theorem counted_recvs (h : Inv chunk s) {r : Fin W} (hgr : W - 1 ≤ (s.rank r).gr) :
    ((s.rank r).counted.filter Completion.isRecv).Perm
      ((peers r).map (Completion.recvRdmaWithImm · (s.rank r).it)) := by
  have hr := h.rank r
  apply perm_of_subset
  · rw [List.nodup_iff_count_le_one]
    intro c
    cases c with
    | rdmaWrite dst =>
      rw [List.count_eq_zero_of_not_mem]
      · exact Nat.zero_le 1
      · intro hc
        cases (List.mem_filter.mp hc).2
    | recvRdmaWithImm src imm =>
      by_cases hc : .recvRdmaWithImm src imm ∈ (s.rank r).counted
      · have hne : src ≠ r := hr.other _ (List.mem_append_left _ hc)
        have hnodup := (countsFrom_append.mp (h.link src r hne).stream).1.nodup
        have hone : (tagsFrom src (seen (s.rank r))).count imm ≤ 1 :=
          List.nodup_iff_count_le_one.mp hnodup imm
        rw [count_tagsFrom, seen, List.count_append] at hone
        rw [List.count_filter rfl]
        omega
      · rw [List.count_filter rfl, List.count_eq_zero_of_not_mem hc]
        exact Nat.zero_le 1
  · intro c hc
    obtain ⟨hc, hrecv⟩ := List.mem_filter.mp hc
    cases c with
    | rdmaWrite dst => cases hrecv
    | recvRdmaWithImm src imm =>
      rw [hr.own src imm hc]
      exact List.mem_map_of_mem (mem_peers.mpr (hr.other _ (List.mem_append_left _ hc)))
  · rw [List.length_map, length_peers, ← List.countP_eq_length_filter, ← hr.gr]
    exact hgr

/-- And so are the send completions. -/
theorem counted_sends (h : Inv chunk s) {r : Fin W} (hgs : W - 1 ≤ (s.rank r).gs) :
    ((s.rank r).counted.filter fun c => !c.isRecv).Perm ((peers r).map Completion.rdmaWrite) := by
  have hr := h.rank r
  apply perm_of_subset
  · rw [List.nodup_iff_count_le_one]
    intro c
    cases c with
    | recvRdmaWithImm src imm =>
      rw [List.count_eq_zero_of_not_mem]
      · exact Nat.zero_le 1
      · intro hc
        cases (List.mem_filter.mp hc).2
    | rdmaWrite dst =>
      rw [List.count_filter rfl]
      by_cases hc : .rdmaWrite dst ∈ (s.rank r).counted
      · have hne : dst ≠ r := hr.other _ (List.mem_append_left _ hc)
        have hsends := (h.link r dst hne.symm).sends
        have hposted : (link s r dst).posted ≤ 1 := by
          show (if _ then 1 else 0) ≤ 1
          split <;> omega
        have hacked : (link s r dst).acked = _ := List.count_append
        omega
      · rw [List.count_eq_zero_of_not_mem hc]
        exact Nat.zero_le 1
  · intro c hc
    obtain ⟨hc, hsend⟩ := List.mem_filter.mp hc
    cases c with
    | recvRdmaWithImm src imm => cases hsend
    | rdmaWrite dst =>
      exact List.mem_map_of_mem (mem_peers.mpr (hr.other _ (List.mem_append_left _ hc)))
  · rw [List.length_map, length_peers, ← List.countP_eq_length_filter, ← hr.gs]
    exact hgs

/-- The loop condition fails only for a complete round. -/
theorem roundComplete_of_leave (h : Inv chunk s) {r : Fin W} (hdone : ¬ (s.rank r).waiting) :
    RoundComplete chunk r ⟨(s.rank r).it, (s.rank r).counted, (s.rank r).recvbuf⟩ := by
  obtain ⟨hgr, hgs⟩ := not_or.mp hdone
  have hrecvs := counted_recvs h (Nat.le_of_not_lt hgr)
  have hsends := counted_sends h (Nat.le_of_not_lt hgs)
  refine ⟨?_, fun src hne => ?_⟩
  · exact (List.filter_append_perm Completion.isRecv _).symm.trans (hrecvs.append hsends)
  · have hmem : .recvRdmaWithImm src (s.rank r).it ∈ (s.rank r).counted :=
      List.mem_of_mem_filter (hrecvs.mem_iff.mpr (List.mem_map_of_mem (mem_peers.mpr hne)))
    have hbound := (recv_bounds h (List.mem_append_left _ hmem)).2.2
    exact (h.link src r hne).buffer (Nat.zero_lt_of_lt hbound)

theorem nodup_peers (r : Fin W) : (peers r).Nodup := (List.nodup_finRange W).filter _

/-- A complete round counts one receive of the round from each peer. -/
theorem tagsFrom_counted (h : Inv chunk s) {r q : Fin W} (hne : q ≠ r)
    (hgr : W - 1 ≤ (s.rank r).gr) : tagsFrom q (s.rank r).counted = [(s.rank r).it] := by
  have hcount : (tagsFrom q (s.rank r).counted).count (s.rank r).it = 1 := by
    rw [count_tagsFrom, ← List.count_filter (p := Completion.isRecv) rfl,
      (counted_recvs h hgr).count_eq]
    apply List.count_eq_one_of_mem
    · exact (nodup_peers r).map fun a b hab => (Completion.recvRdmaWithImm.inj hab).1
    · exact List.mem_map_of_mem (mem_peers.mpr hne)
  have hall := List.eq_replicate_of_mem fun imm himm =>
    (h.rank r).own q imm (mem_tagsFrom.mp himm)
  rw [hall, List.count_replicate_self] at hcount
  rw [hall, hcount]
  rfl

/-- And one send completion to each peer. -/
theorem count_send_counted (h : Inv chunk s) {r q : Fin W} (hne : q ≠ r)
    (hgs : W - 1 ≤ (s.rank r).gs) : (s.rank r).counted.count (.rdmaWrite q) = 1 := by
  rw [← List.count_filter (p := fun c => !c.isRecv) rfl, (counted_sends h hgs).count_eq]
  apply List.count_eq_one_of_mem
  · exact (nodup_peers r).map fun a b hab => Completion.rdmaWrite.inj hab
  · exact List.mem_map_of_mem (mem_peers.mpr hne)

theorem nextRound_inv (h : Inv chunk s) (r : Fin W) : Inv chunk (nextRound rounds s r) := by
  unfold nextRound
  by_cases hcan : (s.rank r).inRound rounds ∧ ¬ (s.rank r).waiting
  swap
  · rw [if_neg hcan]
    exact h
  rw [if_pos hcan]
  have hr := h.rank r
  obtain ⟨hgr, hgs⟩ := not_or.mp hcan.2
  refine ⟨?_, fun a b hab => ?_, h.self⟩
  · apply setRank_forall
    · refine ⟨fun _ _ hc => absurd hc List.not_mem_nil, rfl, rfl, ?_, ?_, ?_⟩
      · exact fun c hc => hr.other c (List.mem_append_right _ hc)
      · show ((s.rank r).departures ++ [_]).map Departure.it = List.range ((s.rank r).it + 1)
        rw [List.map_append, hr.rounds, List.range_succ]
        rfl
      · intro d hd
        rcases List.mem_append.mp hd with hd | hd
        · exact hr.complete d hd
        · rw [List.mem_singleton.mp hd]
          exact roundComplete_of_leave h hcan.2
    · exact fun q _ => h.rank q
  · by_cases ha : a = r
    · subst ha
      refine (h.link a b hab).leaveSource ((s.rank a).cq.count (.rdmaWrite b)) ?_ ?_ ?_
      · exact if_pos (lt_of_lt_of_eq b.isLt hcan.1.2.symm)
      · have hone := count_send_counted h hab.symm (Nat.le_of_not_lt hgs)
        show (seen (s.rank a)).count _ = _
        rw [seen, List.count_append, hone]
      · simp [link, seen, setRank_of_ne s hab.symm]
    by_cases hb : b = r
    · subst hb
      refine (h.link a b hab).leaveTarget (tagsFrom a (s.rank b).cq) ?_ ?_
      · have hone := tagsFrom_counted h hab (Nat.le_of_not_lt hgr)
        show tagsFrom a (seen (s.rank b)) = _
        rw [seen, tagsFrom_append, hone]
        rfl
      · simp [link, seen, setRank_of_ne s hab]
    · refine linkInv_frame (h.link a b hab) ?_ ?_ rfl rfl rfl
      · rw [setRank_of_ne s ha]
        exact .refl _ _
      · rw [setRank_of_ne s hb]
        exact .refl _ _

/-! ## Runs -/

theorem step_inv (h : Inv chunk s) (e : Event W) (hown : PollsOwnRound rounds s e) :
    Inv chunk (step chunk rounds s e) := by
  cases e with
  | postSend r => exact postSend_inv h r
  | deliver src dst => exact deliver_inv h src dst
  | ack src dst => exact ack_inv h src dst
  | pollCq r n => exact pollCq_inv h r n hown
  | nextRound r => exact nextRound_inv h r

theorem roundsIsolated_of_inv (h : Inv chunk s) : RoundsIsolated chunk s := by
  intro r
  have hr := h.rank r
  refine ⟨hr.complete, fun src hne imm himm => ?_⟩
  by_cases hpast : imm < (s.rank r).it
  · have hmem : imm ∈ (s.rank r).departures.map Departure.it := by
      rw [hr.rounds]
      exact List.mem_range.mpr hpast
    obtain ⟨d, hd, rfl⟩ := List.mem_map.mp hmem
    refine .inr (.inr ⟨d, hd, rfl, ((hr.complete d hd).1.mem_iff).mpr ?_⟩)
    exact List.mem_append_left _ (List.mem_map_of_mem (mem_peers.mpr hne))
  · have hlink := h.link src r hne
    have hdelivered : s.delivered (src, r) = _ := hlink.delivered
    rw [hdelivered] at himm
    have harrived := (countsFrom_append.mp hlink.stream).1.mem_iff.mpr
      ⟨Nat.le_of_not_lt hpast, himm⟩
    rcases List.mem_append.mp (mem_tagsFrom.mp harrived) with hc | hc
    · exact .inr (.inl ⟨hr.own src imm hc, hc⟩)
    · exact .inl hc

/-- A poll that takes a receive of a later round loses it. -/
theorem pollsOwnRound_of_isolated (h : Inv chunk s) (e : Event W)
    (hisolated : RoundsIsolated chunk (step chunk rounds s e)) : PollsOwnRound rounds s e := by
  cases e with
  | pollCq r n =>
    intro hround hwaiting src imm hc
    by_contra hlater
    have hseen : .recvRdmaWithImm src imm ∈ seen (s.rank r) :=
      List.mem_append_right _ (List.mem_of_mem_take hc)
    obtain ⟨hne, -, hdelivered⟩ := recv_bounds h hseen
    have hnodup := (countsFrom_append.mp (h.link src r hne).stream).1.nodup
    have hkept := (hisolated r).2 src hne imm
    simp only [step, pollCq, if_pos (And.intro hround hwaiting), setRank_self,
      setRank_delivered] at hkept
    rcases hkept hdelivered with hcq | ⟨himm, -⟩ | ⟨d, hd, rfl, -⟩
    · have htwice : (tagsFrom src (seen (s.rank r))).count imm ≤ 1 :=
        List.nodup_iff_count_le_one.mp hnodup imm
      rw [count_tagsFrom, ← seen_poll (s.rank r) n, List.count_append, List.count_append] at htwice
      have htaken := List.count_pos_iff.mpr hc
      have hleft : 0 < ((s.rank r).cq.drop (min n 16)).count (.recvRdmaWithImm src imm) :=
        List.count_pos_iff.mpr hcq
      omega
    · exact hlater (Nat.le_of_eq himm)
    · have hmem := List.mem_map_of_mem (f := Departure.it) hd
      rw [(h.rank r).rounds, List.mem_range] at hmem
      exact hlater (Nat.le_of_lt hmem)
  | _ => trivial

end

/-- Along every run of any number of ranks and rounds, the rounds stay isolated exactly when
no poll takes a receive of a later round than the polling rank's. -/
theorem rounds_isolated_iff (W chunk rounds : ℕ) (events : List (Event W)) :
    EveryStep (fun history next => RoundsIsolated chunk (run chunk rounds (history ++ [next])))
        events ↔
      EveryStep (fun history next => PollsOwnRound rounds (run chunk rounds history) next) events :=
  everyStep_iff (inv_init chunk) (fun _ => roundsIsolated_of_inv)
    (fun _ e h hown => step_inv h e hown) (fun _ e h => pollsOwnRound_of_isolated h e) events

/-! ## A round that runs ahead -/

/-- Three ranks. Rank 2 posts to rank 0 before its write to rank 1 lands, and rank 0 goes on
to the next round; rank 1 counts both writes of rank 0 in round zero. -/
def fastPeer : List (Event 3) :=
  [0, 1, 2].flatMap (fun r => [.postSend r, .postSend r, .postSend r]) ++
  [.deliver 1 0, .deliver 2 0, .deliver 0 1, .deliver 0 2, .ack 0 1, .ack 0 2, .pollCq 0 4,
    .nextRound 0, .postSend 0, .postSend 0, .deliver 0 1, .deliver 1 2, .ack 1 0, .ack 1 2,
    .pollCq 1 4, .nextRound 1]

/-- Rank 1 leaves round zero with two receives from rank 0 and nothing from rank 2. -/
theorem rounds_not_isolated :
    ¬ EveryStep (fun history next => RoundsIsolated 1 (run 1 50 (history ++ [next]))) fastPeer := by
  intro h
  have hisolated := h (fastPeer.take 24) (.nextRound 1) ⟨[], rfl⟩
  have hbuf : ¬ ∀ d ∈ ((run 1 50 fastPeer).rank 1).departures,
      d.recvbuf 2 = sendbuf 1 (2 : Fin 3) := by
    decide +kernel
  apply hbuf
  intro d hd
  exact ((hisolated 1).1 d hd).2 2 (by decide)

end SparkKit.Rdma.Rounds
