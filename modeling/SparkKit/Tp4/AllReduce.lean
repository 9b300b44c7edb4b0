import SparkKit.Lib.CyclicProgram
import SparkKit.Tp4.DeferredCredits

/-!
# The all-reduce of the ranks

Every rank runs its kernels and its progress thread over the lanes it sends on and those it
receives on. A first exchange adds the input of the peer, a second one the sum of the peer of
the other endpoint. The lanes are those of `DeferredCredits`; here their payloads come from what
the kernels read, and the programs fix the order of the steps of a rank. The command ring between
kernels and progress thread is that of `CommandRing`. Its waits are left out here: the thread waits
for the staged word, which is stored after the command is published, and the kernels find room for
a command at once (`AllReduceProgress.claim_never_waits`).
-/
namespace SparkKit.Tp4.AllReduce

open SparkKit.Lib.CyclicProgram SparkKit.Lib.History SparkKit.Lib.SlotTurns
open SparkKit.Tp4.Protocol SparkKit.Tp4.DeferredCredits

variable {R L α : Type*}

/-- The steps of the kernels. `load` adds what was sent and what was received on a lane, for the
lane that carries the sum or for the output. The consumer word of a lane that another is reduced
from is the staged word of the latter: it is kept in both, and `release` and `publish` store it. -/
inductive GpuStep (L : Type*) where
  | waitCredit (lane : L)
  | fill (lane : L)
  | publish (lane : L)
  | waitRemote (lane : L)
  | load (lane : L)
  | release (lane : L)
deriving DecidableEq, Repr

def GpuStep.lane : GpuStep L → L
  | .waitCredit lane => lane
  | .fill lane => lane
  | .publish lane => lane
  | .waitRemote lane => lane
  | .load lane => lane
  | .release lane => lane

/-- The steps of `exchange_round`: four for what the rank sends on a lane, three for what it
receives. -/
inductive HostStep (L : Type*) where
  | waitStaged (lane : L)
  | store (lane : L)
  | postPayload (lane : L)
  | postDoorbell (lane : L)
  | waitConsumer (lane : L)
  | reserve (lane : L)
  | postCredit (lane : L)
deriving DecidableEq, Repr

def HostStep.lane : HostStep L → L
  | .waitStaged lane => lane
  | .store lane => lane
  | .postPayload lane => lane
  | .postDoorbell lane => lane
  | .waitConsumer lane => lane
  | .reserve lane => lane
  | .postCredit lane => lane

/-- The endpoints are named by the rounds of the plan that they are for. -/
inductive Round where
  | round0
  | round1
deriving DecidableEq, Repr

structure Programs (L : Type*) where
  schedule : Tp4AllreduceSchedule
  gpu : List (GpuStep L)
  host : List (HostStep L)
  endpoint : L → Round
  /-- The lane whose sum is sent on the lane; the input is when there is none. -/
  source : L → Option L

/-! ## The sequential schedule -/

/-- `tp4_tensor_all_reduce`. -/
def sequentialGpu : List (GpuStep Round) :=
  [.waitCredit .round0, .fill .round0, .publish .round0, .waitRemote .round0,
    .waitCredit .round1, .load .round0, .fill .round1, .release .round0, .publish .round1,
    .waitRemote .round1, .load .round1, .release .round1]

/-- `exchange_round`. -/
def exchangeRound (round : Round) : List (HostStep Round) :=
  [.waitStaged round, .store round, .postPayload round, .postDoorbell round,
    .waitConsumer round, .reserve round, .postCredit round]

/-- `progress`. -/
def sequential : Programs Round where
  schedule := .sequential
  gpu := sequentialGpu
  host := exchangeRound .round0 ++ exchangeRound .round1
  endpoint := id
  source
    | .round0 => none
    | .round1 => some .round0

/-! ## The striped schedule -/

/-- A stripe of an endpoint. The lower half starts on endpoint 0, the upper half on endpoint 1. -/
inductive StripedLane where
  | endpoint0Lower
  | endpoint0Upper
  | endpoint1Lower
  | endpoint1Upper
deriving DecidableEq, Repr

/-- The chain of `tp4_striped_…` kernels. -/
def stripedGpu : List (GpuStep StripedLane) :=
  [.waitCredit .endpoint0Lower, .waitCredit .endpoint0Upper, .waitCredit .endpoint1Lower,
    .waitCredit .endpoint1Upper, .fill .endpoint0Lower, .fill .endpoint1Upper,
    .publish .endpoint0Lower, .publish .endpoint1Upper,
    .waitRemote .endpoint0Lower, .waitRemote .endpoint1Upper,
    .load .endpoint0Lower, .fill .endpoint1Lower, .load .endpoint1Upper, .fill .endpoint0Upper,
    .release .endpoint0Lower, .publish .endpoint1Lower,
    .release .endpoint1Upper, .publish .endpoint0Upper,
    .waitRemote .endpoint1Lower, .waitRemote .endpoint0Upper,
    .load .endpoint1Lower, .load .endpoint0Upper,
    .release .endpoint1Lower, .release .endpoint0Upper]

/-- `progress_dual_port_striped`, by phases: the waits of the first one, its transfers, the waits
for the reductions and their credits, and the same for the second. -/
def stripedHost : List (HostStep StripedLane) :=
  [.waitStaged .endpoint0Lower, .waitStaged .endpoint1Upper,
    .store .endpoint0Lower, .postPayload .endpoint0Lower, .postDoorbell .endpoint0Lower,
    .store .endpoint1Upper, .postPayload .endpoint1Upper, .postDoorbell .endpoint1Upper,
    .waitConsumer .endpoint0Lower, .waitStaged .endpoint1Lower,
    .waitConsumer .endpoint1Upper, .waitStaged .endpoint0Upper,
    .reserve .endpoint0Lower, .postCredit .endpoint0Lower,
    .reserve .endpoint1Upper, .postCredit .endpoint1Upper,
    .store .endpoint0Upper, .store .endpoint1Lower,
    .postPayload .endpoint0Upper, .postDoorbell .endpoint0Upper,
    .postPayload .endpoint1Lower, .postDoorbell .endpoint1Lower,
    .waitConsumer .endpoint0Upper, .waitConsumer .endpoint1Lower,
    .reserve .endpoint0Upper, .postCredit .endpoint0Upper,
    .reserve .endpoint1Lower, .postCredit .endpoint1Lower]

def striped : Programs StripedLane where
  schedule := .dualPortStriped
  gpu := stripedGpu
  host := stripedHost
  endpoint
    | .endpoint0Lower => .round0
    | .endpoint0Upper => .round0
    | .endpoint1Lower => .round1
    | .endpoint1Upper => .round1
  source
    | .endpoint0Lower => none
    | .endpoint1Upper => none
    | .endpoint1Lower => some .endpoint0Lower
    | .endpoint0Upper => some .endpoint1Upper

/-! ## The order of the steps -/

/-- When in an operation the steps are made: the kernels up to the staging of the input, the
transfer of the input, the kernels with the first sum, and so on in turn. -/
def gpuStage (P : Programs L) : GpuStep L → ℕ
  | .waitCredit lane =>
    if (P.source lane).isNone = true ∨ P.schedule = .dualPortStriped then 0 else 2
  | .fill lane => if (P.source lane).isNone = true then 0 else 2
  | .publish lane => if (P.source lane).isNone = true then 0 else 2
  | .waitRemote lane => if (P.source lane).isNone = true then 2 else 4
  | .load lane => if (P.source lane).isNone = true then 2 else 4
  | .release lane => if (P.source lane).isNone = true then 2 else 4

def hostStage (P : Programs L) : HostStep L → ℕ
  | .waitStaged lane => if (P.source lane).isNone = true then 1 else 3
  | .store lane => if (P.source lane).isNone = true then 1 else 3
  | .postPayload lane => if (P.source lane).isNone = true then 1 else 3
  | .postDoorbell lane => if (P.source lane).isNone = true then 1 else 3
  | .waitConsumer lane => if (P.source lane).isNone = true then 3 else 5
  | .reserve lane => if (P.source lane).isNone = true then 3 else 5
  | .postCredit lane => if (P.source lane).isNone = true then 3 else 5

theorem gpuStage_lt (P : Programs L) (i : GpuStep L) : gpuStage P i < 6 := by
  cases i <;> rw [gpuStage] <;> split <;> decide

theorem hostStage_lt (P : Programs L) (i : HostStep L) : hostStage P i < 6 := by
  cases i <;> rw [hostStage] <;> split <;> decide

theorem doorbell_stage (P : Programs L) (lane : L) :
    hostStage P (.postDoorbell lane) < gpuStage P (.waitRemote lane) := by
  rw [hostStage, gpuStage]
  split <;> decide

theorem publish_stage (P : Programs L) (lane : L) :
    gpuStage P (.publish lane) < hostStage P (.waitStaged lane) := by
  rw [hostStage, gpuStage]
  split <;> decide

theorem release_stage (P : Programs L) (lane : L) :
    gpuStage P (.release lane) < hostStage P (.waitConsumer lane) := by
  rw [hostStage, gpuStage]
  split <;> decide

/-- What the order of the steps in the two programs has to be. -/
structure Disciplined [DecidableEq L] (P : Programs L) : Prop where
  nodup : P.gpu.Nodup
  host_nodup : P.host.Nodup
  gpu_sorted : P.gpu.Pairwise fun i j => gpuStage P i ≤ gpuStage P j
  host_sorted : P.host.Pairwise fun i j => hostStage P i ≤ hostStage P j
  staged_store : ∀ lane, Before P.host (.waitStaged lane) (.store lane)
  store_payload : ∀ lane, Before P.host (.store lane) (.postPayload lane)
  payload_doorbell : ∀ lane, Before P.host (.postPayload lane) (.postDoorbell lane)
  consumer_reserve : ∀ lane, Before P.host (.waitConsumer lane) (.reserve lane)
  reserve_credit : ∀ lane, Before P.host (.reserve lane) (.postCredit lane)
  credit_fill : ∀ lane, Before P.gpu (.waitCredit lane) (.fill lane)
  fill_publish : ∀ lane, Before P.gpu (.fill lane) (.publish lane)
  remote_load : ∀ lane, Before P.gpu (.waitRemote lane) (.load lane)
  load_release : ∀ lane, Before P.gpu (.load lane) (.release lane)
  fill_load : ∀ lane, Before P.gpu (.fill lane) (.load lane)
  load_fill : ∀ lane source, P.source lane = some source → Before P.gpu (.load source) (.fill lane)
  source_input : ∀ lane source, P.source lane = some source → P.source source = none
  source_other : ∀ lane source, P.source lane = some source → P.endpoint source ≠ P.endpoint lane

theorem sequential_disciplined : Disciplined sequential := by
  constructor
  case nodup | host_nodup | gpu_sorted | host_sorted => decide
  case load_fill | source_input | source_other =>
    intro lane source
    cases lane <;> cases source <;> decide
  all_goals
    intro lane
    cases lane <;> decide

theorem striped_disciplined : Disciplined striped := by
  constructor
  case nodup | host_nodup | gpu_sorted | host_sorted => decide
  case load_fill | source_input | source_other =>
    intro lane source
    cases lane <;> cases source <;> decide
  all_goals
    intro lane
    cases lane <;> decide

/-! ## Ranks -/

/-- What the ranks agree on: the programs, how they are connected, and the operations they
replay. The input of a rank is given by the lane that carries it. -/
structure Session (R L α : Type*) [DecidableEq L] extends Programs L where
  disciplined : Disciplined toPrograms
  /-- The rank at the other end of an endpoint. -/
  peerRank : Round → R → R
  peerRank_peerRank : ∀ e r, peerRank e (peerRank e r) = r
  add : α → α → α
  input : R → L → ℕ → α
  cleared : α
  q : ℕ → ℕ
  bytesPerRow : ℕ
  maxInlineData : ℕ
  launched : ℕ
  rows : ∀ s, 1 ≤ q s ∧ q s ≤ kTp4GraphAllreduceMaximumQ
  within : launched ≤ kTp4GraphMaximumDoorbellSequence

def Session.peer [DecidableEq L] (C : Session R L α) (lane : L) : R → R :=
  C.peerRank (C.endpoint lane)

theorem Session.peer_peer [DecidableEq L] (C : Session R L α) (lane : L) (r : R) :
    C.peer lane (C.peer lane r) = r := C.peerRank_peerRank _ r

/-- A lane that carries the given payloads. -/
def laneSession [DecidableEq L] (C : Session R L α) (lane : L) (payload : ℕ → α) :
    DeferredCredits.Session α where
  schedule := C.schedule
  source := if C.source lane = none then .input else .reduction
  payload := payload
  cleared := C.cleared
  q := C.q
  bytesPerRow := C.bytesPerRow
  maxInlineData := C.maxInlineData
  launched := C.launched
  rows := C.rows
  within := C.within

structure State (R L α : Type*) where
  gpu : R → ℕ
  host : R → ℕ
  lane : R × L → Lane α
  /-- What the kernels of a rank loaded from a lane, one sum for every operation. -/
  sums : R → L → List α

variable [DecidableEq L] (C : Session R L α)

/-- The lane that a step of the kernels of a rank is about. -/
def owner (r : R) : GpuStep L → R × L
  | .waitCredit lane => (r, lane)
  | .fill lane => (r, lane)
  | .publish lane => (r, lane)
  | .waitRemote lane => (C.peer lane r, lane)
  | .load lane => (C.peer lane r, lane)
  | .release lane => (C.peer lane r, lane)

def hostOwner (r : R) : HostStep L → R × L
  | .waitStaged lane => (r, lane)
  | .store lane => (r, lane)
  | .postPayload lane => (r, lane)
  | .postDoorbell lane => (r, lane)
  | .waitConsumer lane => (C.peer lane r, lane)
  | .reserve lane => (C.peer lane r, lane)
  | .postCredit lane => (C.peer lane r, lane)

/-- What the kernels fill the send buffer of a lane with. -/
def filling (st : State R L α) (r : R) (lane : L) : α :=
  match C.source lane with
  | none => C.input r lane ((st.lane (r, lane)).stagings + 1)
  | some source => (st.sums r source).getLast?.getD C.cleared

/-- What they read from a lane and add up. -/
def loading (st : State R L α) (r : R) (lane : L) : α :=
  let slot := slotIndex ((st.lane (C.peer lane r, lane)).uses + 1)
  C.add ((st.lane (r, lane)).send slot) ((st.lane (C.peer lane r, lane)).receive slot)

section
variable [DecidableEq R]

def onLane (st : State R L α) (p : R × L) (next : State R L α → State R L α) :
    Turn (Lane α) → Turn (State R L α)
  | .waiting => .waiting
  | .mismatched => .mismatched
  | .done s => .done (next { st with lane := Function.update st.lane p s })

def nextGpu (r : R) (st : State R L α) : State R L α :=
  { st with gpu := Function.update st.gpu r (st.gpu r + 1) }

def nextHost (r : R) (st : State R L α) : State R L α :=
  { st with host := Function.update st.host r (st.host r + 1) }

def addSum (r : R) (lane : L) (sum : α) (st : State R L α) : State R L α :=
  { st with
    sums := Function.update st.sums r
      (Function.update (st.sums r) lane (st.sums r lane ++ [sum])) }

/-- The turn of the kernels on a lane. -/
def gpuTurn (st : State R L α) (r : R) : GpuStep L → Turn (Lane α)
  | .waitCredit lane | .fill lane | .publish lane =>
    kernelStep (laneSession C lane fun _ => filling C st r lane) (st.lane (r, lane))
  | .waitRemote lane | .load lane | .release lane =>
    peerKernelStep (laneSession C lane fun _ => C.cleared) (st.lane (C.peer lane r, lane))

def gpuStep (st : State R L α) (r : R) : Turn (State R L α) :=
  match current C.gpu (st.gpu r) with
  | none => .waiting
  | some (.load lane) =>
    onLane st (owner C r (.load lane)) (nextGpu r ∘ addSum r lane (loading C st r lane))
      (gpuTurn C st r (.load lane))
  | some i => onLane st (owner C r i) (nextGpu r) (gpuTurn C st r i)

/-- The turn of the progress thread on a lane. -/
def hostTurn (st : State R L α) (r : R) : HostStep L → Turn (Lane α)
  | .waitStaged lane | .store lane | .postPayload lane | .postDoorbell lane =>
    progressStep (laneSession C lane fun _ => C.cleared) (st.lane (r, lane))
  | .waitConsumer lane | .reserve lane | .postCredit lane =>
    peerProgressStep (laneSession C lane fun _ => C.cleared) (st.lane (C.peer lane r, lane))

def hostStep (st : State R L α) (r : R) : Turn (State R L α) :=
  match current C.host (st.host r) with
  | none => .waiting
  | some i => onLane st (hostOwner C r i) (nextHost r) (hostTurn C st r i)

inductive Event (R L : Type*) where
  | gpu (r : R)
  | host (r : R)
  | transmit (r : R) (lane : L)
  | transmitCredit (r : R) (lane : L)
deriving Repr

def turn (st : State R L α) : Event R L → Turn (State R L α)
  | .gpu r => gpuStep C st r
  | .host r => hostStep C st r
  | .transmit r lane => onLane st (r, lane) id (transmitStep (st.lane (r, lane)))
  | .transmitCredit r lane => onLane st (r, lane) id (transmitCreditStep (st.lane (r, lane)))

def step (st : State R L α) (event : Event R L) : State R L α :=
  match turn C st event with
  | .done st' => st'
  | _ => st

def initial : State R L α where
  gpu _ := 0
  host _ := 0
  lane p := DeferredCredits.initial (laneSession C p.2 fun _ => C.cleared)
  sums _ _ := []

def run (events : List (Event R L)) : State R L α := runFrom (step C) (initial C) events

end

/-! ## What the kernels compute -/

/-- The payload that a rank sends on a lane: its input, or the first sum of it. -/
def payload (r : R) (lane : L) (s : ℕ) : α :=
  match C.source lane with
  | none => C.input r lane s
  | some source => C.add (C.input r source s) (C.input (C.peer source r) source s)

def total (r : R) (lane : L) (s : ℕ) : α :=
  C.add (payload C r lane s) (payload C (C.peer lane r) lane s)

theorem total_source {r : R} {lane source : L} (h : C.source lane = some source) (s : ℕ) :
    total C r source s = payload C r lane s := by
  have hinput := C.disciplined.source_input lane source h
  rw [total, payload, payload, payload, hinput, h]

end SparkKit.Tp4.AllReduce
