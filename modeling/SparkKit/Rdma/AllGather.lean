import SparkKit.Lib.History
import Mathlib.Logic.Function.Basic
import Mathlib.Data.Fin.Basic

/-!
# The RDMA all-gather prototype

Each rank runs the round loop of `ag4_proto.c`: it posts one write with immediate to every
peer, then polls its completion queue until it has counted `W - 1` receives and `W - 1`
sends. The fabric between the ranks keeps the order of each queue pair and nothing else.
-/
namespace SparkKit.Rdma.AllGather

inductive Completion (W : ℕ) where
  /-- `IBV_WC_RECV_RDMA_WITH_IMM` from the queue pair of a peer -/
  | recvRdmaWithImm (src : Fin W) (imm : ℕ)
  /-- the completion of a write to a peer -/
  | rdmaWrite (dst : Fin W)
deriving DecidableEq

def Completion.isRecv {W : ℕ} : Completion W → Bool
  | .recvRdmaWithImm _ _ => true
  | .rdmaWrite _ => false

def Completion.peer {W : ℕ} : Completion W → Fin W
  | .recvRdmaWithImm src _ => src
  | .rdmaWrite dst => dst

/-- What a rank has when it leaves a round: the completions it counted, and its buffer. -/
structure Departure (W : ℕ) where
  it : ℕ
  counted : List (Completion W)
  recvbuf : Fin W → List ℕ

/-- One process. `counted` and `departures` only record what `gr` and `gs` counted. -/
structure Rank (W : ℕ) where
  it : ℕ
  p : ℕ
  gr : ℕ
  gs : ℕ
  cq : List (Completion W)
  recvbuf : Fin W → List ℕ
  counted : List (Completion W)
  departures : List (Departure W)

/-- The ranks and, for each pair of source and destination, the immediates of the writes on
the wire, the writes not yet acknowledged, the posted receives, and the writes delivered. -/
structure Cluster (W : ℕ) where
  rank : Fin W → Rank W
  inflight : Fin W × Fin W → List ℕ
  unacked : Fin W × Fin W → ℕ
  recvWrs : Fin W × Fin W → ℕ
  delivered : Fin W × Fin W → ℕ

/-- `sendbuf`, filled once with `'a' + rank`. -/
def sendbuf {W : ℕ} (chunk : ℕ) (r : Fin W) : List ℕ := List.replicate chunk (97 + r.val)

def initRank (W chunk : ℕ) : Rank W where
  it := 0
  p := 0
  gr := 0
  gs := 0
  cq := []
  recvbuf := fun _ => List.replicate chunk 0
  counted := []
  departures := []

def init (W chunk : ℕ) : Cluster W where
  rank := fun _ => initRank W chunk
  inflight := fun _ => []
  unacked := fun _ => 0
  recvWrs := fun _ => 256
  delivered := fun _ => 0

inductive Event (W : ℕ) where
  | postSend (r : Fin W)
  | deliver (src dst : Fin W)
  | ack (src dst : Fin W)
  | pollCq (r : Fin W) (n : ℕ)
  | nextRound (r : Fin W)

section
variable {W : ℕ}

def Cluster.setRank (s : Cluster W) (r : Fin W) (me : Rank W) : Cluster W :=
  { s with rank := Function.update s.rank r me }

@[simp] theorem setRank_self (s : Cluster W) (r : Fin W) (me : Rank W) :
    (s.setRank r me).rank r = me := Function.update_self _ _ _

theorem setRank_of_ne (s : Cluster W) {r q : Fin W} (hq : q ≠ r) (me : Rank W) :
    (s.setRank r me).rank q = s.rank q := Function.update_of_ne hq _ _

@[simp] theorem setRank_inflight (s : Cluster W) (r : Fin W) (me : Rank W) :
    (s.setRank r me).inflight = s.inflight := rfl

@[simp] theorem setRank_unacked (s : Cluster W) (r : Fin W) (me : Rank W) :
    (s.setRank r me).unacked = s.unacked := rfl

@[simp] theorem setRank_delivered (s : Cluster W) (r : Fin W) (me : Rank W) :
    (s.setRank r me).delivered = s.delivered := rfl

/-- One turn of the posting loop. -/
def postSend (rounds : ℕ) (s : Cluster W) (r : Fin W) : Cluster W :=
  let me := s.rank r
  if h : me.it < rounds ∧ me.p < W then
    let dst : Fin W := ⟨me.p, h.2⟩
    let posted := s.setRank r { me with p := me.p + 1 }
    if dst = r then posted
    else { posted with
      inflight := Function.update s.inflight (r, dst) (s.inflight (r, dst) ++ [me.it]) }
  else s

/-- The oldest write of a queue pair lands, once a receive is posted for it. -/
def deliver (chunk : ℕ) (s : Cluster W) (src dst : Fin W) : Cluster W :=
  let peer := s.rank dst
  match s.inflight (src, dst) with
  | [] => s
  | imm :: rest =>
      if s.recvWrs (src, dst) = 0 then s
      else
        { s.setRank dst { peer with
            cq := peer.cq ++ [.recvRdmaWithImm src imm]
            recvbuf := Function.update peer.recvbuf src (sendbuf chunk src) } with
          inflight := Function.update s.inflight (src, dst) rest
          unacked := Function.update s.unacked (src, dst) (s.unacked (src, dst) + 1)
          recvWrs := Function.update s.recvWrs (src, dst) (s.recvWrs (src, dst) - 1)
          delivered := Function.update s.delivered (src, dst) (s.delivered (src, dst) + 1) }

/-- A delivered write completes at its sender. -/
def ack (s : Cluster W) (src dst : Fin W) : Cluster W :=
  let me := s.rank src
  if s.unacked (src, dst) = 0 then s
  else { s.setRank src { me with cq := me.cq ++ [.rdmaWrite dst] } with
    unacked := Function.update s.unacked (src, dst) (s.unacked (src, dst) - 1) }

/-- The posting loop of the round is over. -/
def Rank.inRound (rounds : ℕ) (me : Rank W) : Prop := me.it < rounds ∧ me.p = W

/-- `while(gr<W-1||gs<W-1)` -/
def Rank.waiting (me : Rank W) : Prop := me.gr < W - 1 ∨ me.gs < W - 1

instance (rounds : ℕ) (me : Rank W) : Decidable (me.inRound rounds) :=
  inferInstanceAs (Decidable (_ ∧ _))

instance (me : Rank W) : Decidable me.waiting := inferInstanceAs (Decidable (_ ∨ _))

/-- What `ibv_poll_cq(cq,16,wc)` returns when `n` completions are there. -/
def Rank.wc (me : Rank W) (n : ℕ) : List (Completion W) := me.cq.take (min n 16)

def pollCq (rounds : ℕ) (s : Cluster W) (r : Fin W) (n : ℕ) : Cluster W :=
  let me := s.rank r
  if me.inRound rounds ∧ me.waiting then
    { s.setRank r { me with
        gr := me.gr + (me.wc n).countP Completion.isRecv
        gs := me.gs + (me.wc n).countP fun c => !c.isRecv
        cq := me.cq.drop (min n 16)
        counted := me.counted ++ me.wc n } with
      recvWrs := fun link => s.recvWrs link +
        if link.2 = r then (me.wc n).countP fun c => c.isRecv && c.peer = link.1 else 0 }
  else s

/-- The loop is left, and the next iteration resets the counters. -/
def nextRound (rounds : ℕ) (s : Cluster W) (r : Fin W) : Cluster W :=
  let me := s.rank r
  if me.inRound rounds ∧ ¬ me.waiting then
    s.setRank r { me with
      it := me.it + 1
      p := 0
      gr := 0
      gs := 0
      counted := []
      departures := me.departures ++ [⟨me.it, me.counted, me.recvbuf⟩] }
  else s

def step (chunk rounds : ℕ) (s : Cluster W) : Event W → Cluster W
  | .postSend r => postSend rounds s r
  | .deliver src dst => deliver chunk s src dst
  | .ack src dst => ack s src dst
  | .pollCq r n => pollCq rounds s r n
  | .nextRound r => nextRound rounds s r

/-- The cluster after a list of events. -/
def run (chunk rounds : ℕ) (events : List (Event W)) : Cluster W :=
  Lib.History.runFrom (step chunk rounds) (init W chunk) events

end

end SparkKit.Rdma.AllGather
