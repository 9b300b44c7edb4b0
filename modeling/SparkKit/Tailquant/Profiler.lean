import SparkKit.Lib.History
import Mathlib.Algebra.BigOperators.Group.List.Basic
import Mathlib.Algebra.Order.BigOperators.Group.List
import Mathlib.Data.List.GetD
import Mathlib.Algebra.Order.Ring.Nat

/-!
# The router-frequency profiler

`_tq_record` counts routed experts in one process-wide buffer, sized and keyed by the first
call that routes anything; `_tq_dump` writes it at exit. The update itself, `index_add_`, is a
parameter.
-/
namespace SparkKit.Tailquant.Profiler

open SparkKit.Lib.History (runFrom runFrom_concat)

/-- The routed experts of a batch, `topk` for each of the rows. -/
structure TopkIds where
  rows : ℕ
  topk : ℕ
  ids : List ℤ
  numel : ids.length = rows * topk

/-- An expert layer: its `prefix`, if any, and its `id`. -/
structure Owner where
  layerPrefix : Option String
  id : ℕ

structure Call where
  owner : Owner
  topkIds : Option TopkIds

structure Buffers where
  buf : List ℕ
  ones : List ℕ
  key : String

/-- The singleton `_TQ`. -/
structure Tq where
  dir : Option String
  buffers : Option Buffers

def start : Tq where
  dir := none
  buffers := none

/-- `getattr(owner, "prefix", None) or ("inst%d" % id(owner))` -/
def ownerKey (owner : Owner) : String :=
  let layerPrefix := owner.layerPrefix.getD ""
  if layerPrefix = "" then "inst" ++ toString owner.id else layerPrefix

/-- The buffers of the first call. -/
def allocate (owner : Owner) (topkIds : TopkIds) : Buffers where
  buf := List.replicate (max 256 topkIds.topk) 0
  ones := List.replicate topkIds.ids.length 1
  key := ownerKey owner

section
variable (indexAdd : List ℕ → List ℤ → List ℕ → List ℕ) (env : Option String)

/-- `_tq_record`, where `env` is the value of `VLLM_TAILQUANT_PROFILE_DIR`. -/
def tqRecord (tq : Tq) (call : Call) : Tq :=
  let d := tq.dir.getD (env.getD "")
  let tq := { tq with dir := some d }
  match call.topkIds with
  | none => tq
  | some topkIds =>
      if d = "" ∨ topkIds.ids.length = 0 then tq
      else
        let b := tq.buffers.getD (allocate call.owner topkIds)
        let valid := topkIds.ids.filter fun i => i < (b.buf.length : ℤ)
        -- an exception here is swallowed, so the buffer is what `index_add_` left
        { tq with buffers := some { b with buf := indexAdd b.buf valid (b.ones.take valid.length) } }

end

/-- `key.replace("/", "_")` -/
def fileKey (key : String) : String :=
  String.ofList (key.toList.map fun c => if c = '/' then '_' else c)

structure HistFile where
  dir : String
  name : String
  key : String
  counts : List ℕ

/-- `_tq_dump` -/
def tqDump (tq : Tq) : Option HistFile :=
  match tq.dir, tq.buffers with
  | some d, some b =>
      if d = "" then none
      else
        let key := fileKey b.key
        some { dir := d, name := "router_hist_" ++ key ++ ".json", key := key, counts := b.buf }
  | _, _ => none

/-! ## What should be counted -/

def Call.ids (c : Call) : List ℤ := (c.topkIds.map TopkIds.ids).getD []

def Call.topk (c : Call) : ℕ := (c.topkIds.map TopkIds.topk).getD 0

/-- The key a layer is dumped under. -/
def layerKey (owner : Owner) : String := fileKey (ownerKey owner)

/-- How often an expert was routed to in a layer's calls. -/
def routed (calls : List Call) (key : String) (expert : ℕ) : ℕ :=
  (calls.map fun c => if layerKey c.owner = key then c.ids.count (expert : ℤ) else 0).sum

/-- The count of an expert in a layer's histogram; a layer that is missing has none. -/
def reported (dump : Option HistFile) (key : String) (expert : ℕ) : ℕ :=
  match dump with
  | some file => if file.key = key then file.counts.getD expert 0 else 0
  | none => 0

section
variable (indexAdd : List ℕ → List ℤ → List ℕ → List ℕ) (env : Option String)

def Exact (calls : List Call) : Prop :=
  ∀ key expert, reported (tqDump (runFrom (tqRecord indexAdd env) start calls)) key expert =
    routed calls key expert

/-- The first call that routes anything, which sizes the buffers. -/
def sizingCall (calls : List Call) : Option Call := calls.find? fun c => c.ids ≠ []

/-- A call is counted as a whole: it comes from the layer of the sizing call, routes to experts
of the buffer only and has no more entries than the sizing call. -/
structure Counted (first c : Call) : Prop where
  armed : env.getD "" ≠ ""
  sameLayer : layerKey c.owner = layerKey first.owner
  inBuffer : ∀ i ∈ c.ids, 0 ≤ i ∧ i < max 256 first.topk
  fits : c.ids.length ≤ first.ids.length

def AllCounted (calls : List Call) : Prop :=
  ∀ first, sizingCall calls = some first → ∀ c ∈ calls, c.ids ≠ [] → Counted env first c

end

/-- What the recorder relies on of `index_add_`: it keeps the size, adds each source entry at
its index, and raises at once when there are not as many sources as indices. -/
structure IndexAddLaws (indexAdd : List ℕ → List ℤ → List ℕ → List ℕ) : Prop where
  length_eq : ∀ buf index source, (indexAdd buf index source).length = buf.length
  adds : ∀ buf index source, index.length = source.length →
    (∀ i ∈ index, 0 ≤ i ∧ i < buf.length) → ∀ e < buf.length,
    (indexAdd buf index source).getD e 0 =
      buf.getD e 0 + (((index.zip source).filter fun p => p.1 = (e : ℤ)).map Prod.snd).sum
  raises : ∀ buf index source, index.length ≠ source.length → indexAdd buf index source = buf

/-- An `index_add_` for indices in range. -/
def pureIndexAdd (buf : List ℕ) (index : List ℤ) (source : List ℕ) : List ℕ :=
  if index.length = source.length then
    buf.mapIdx fun e old => old + (((index.zip source).filter fun p => p.1 = (e : ℤ)).map Prod.snd).sum
  else buf

/-! ## One call -/

section
variable {indexAdd : List ℕ → List ℤ → List ℕ → List ℕ} {env : Option String} {tq : Tq} {c : Call}

theorem ids_of_topkIds {topkIds : TopkIds} (h : c.topkIds = some topkIds) :
    c.ids = topkIds.ids ∧ c.topk = topkIds.topk := by
  rw [Call.ids, Call.topk, h]
  exact ⟨rfl, rfl⟩

theorem tqRecord_idle (h : c.ids = [] ∨ tq.dir.getD (env.getD "") = "") :
    tqRecord indexAdd env tq c = { tq with dir := some (tq.dir.getD (env.getD "")) } := by
  cases htopk : c.topkIds with
  | none => simp only [tqRecord, htopk]
  | some topkIds =>
    rw [(ids_of_topkIds htopk).1] at h
    have hskip : tq.dir.getD (env.getD "") = "" ∨ topkIds.ids.length = 0 :=
      h.symm.imp_right List.length_eq_zero_iff.mpr
    simp only [tqRecord, htopk]
    rw [if_pos hskip]

/-- The buffers the first call would set up. -/
def Call.buffers (c : Call) : Buffers where
  buf := List.replicate (max 256 c.topk) 0
  ones := List.replicate c.ids.length 1
  key := ownerKey c.owner

theorem tqRecord_routed {d : String} (hdir : tq.dir.getD (env.getD "") = d) (hd : d ≠ "")
    (hids : c.ids ≠ []) {b : Buffers} (hb : tq.buffers.getD c.buffers = b) :
    tqRecord indexAdd env tq c = {
      dir := some d
      buffers := some { b with
        buf := indexAdd b.buf (c.ids.filter fun i => i < (b.buf.length : ℤ))
          (b.ones.take (c.ids.filter fun i => i < (b.buf.length : ℤ)).length) } } := by
  cases htopk : c.topkIds with
  | none => exact absurd (by rw [Call.ids, htopk]; rfl) hids
  | some topkIds =>
    obtain ⟨hcids, hctopk⟩ := ids_of_topkIds htopk
    have hgo : ¬ (d = "" ∨ topkIds.ids.length = 0) := by
      rw [← hcids, List.length_eq_zero_iff]
      exact not_or.mpr ⟨hd, hids⟩
    have hallocate : allocate c.owner topkIds = c.buffers := by
      rw [allocate, Call.buffers, hcids, hctopk]
    simp only [tqRecord, htopk, hdir, if_neg hgo, hallocate, hb, hcids]

/-- The ids of a call that reach the buffer of a sizing call. -/
def taken (first c : Call) : List ℤ :=
  let valid := c.ids.filter fun i => i < ((max 256 first.topk : ℕ) : ℤ)
  if valid.length ≤ first.ids.length then valid else []

theorem sum_ones (index : List ℤ) (e : ℤ) :
    (((index.zip (List.replicate index.length 1)).filter fun p => p.1 = (e : ℤ)).map Prod.snd).sum =
      index.count e := by
  induction index with
  | nil => rfl
  | cons i index ih =>
    rw [List.length_cons, List.replicate_succ, List.zip_cons_cons, List.count_cons]
    by_cases hi : i = e
    · rw [List.filter_cons_of_pos (by simpa using hi), List.map_cons, List.sum_cons, ih,
        if_pos (by simpa using hi), Nat.add_comm]
    · rw [List.filter_cons_of_neg (by simpa using hi), ih, if_neg (by simpa using hi), Nat.add_zero]

/-- The state after some calls, `first` the one that sized the buffers. -/
structure Books (d : String) (first : Call) (calls : List Call) (tq : Tq) : Prop where
  dir : tq.dir = some d
  buffers : ∃ buf, tq.buffers = some
      { buf := buf, ones := List.replicate first.ids.length 1, key := ownerKey first.owner } ∧
    buf.length = max 256 first.topk ∧
    ∀ e : ℕ, buf.getD e 0 = (calls.map fun c => (taken first c).count (e : ℤ)).sum

theorem taken_idle (first : Call) (h : c.ids = []) : taken first c = [] := by
  simp only [taken, h, List.filter_nil, ite_self]

theorem mem_taken {first : Call} {i : ℤ} (h : i ∈ taken first c) :
    i ∈ c.ids ∧ i < ((max 256 first.topk : ℕ) : ℤ) := by
  simp only [taken] at h
  split at h
  · obtain ⟨hi, hlt⟩ := List.mem_filter.mp h
    exact ⟨hi, of_decide_eq_true hlt⟩
  · exact absurd h List.not_mem_nil

theorem sum_map_concat (f : Call → ℕ) (calls : List Call) (c : Call) :
    ((calls ++ [c]).map f).sum = (calls.map f).sum + f c := by
  rw [List.map_append, List.sum_append, List.map_singleton, List.sum_singleton]

/-- One call adds what it takes, where none of its ids is negative. -/
theorem Books.record {d : String} {first : Call} {calls : List Call} (hadd : IndexAddLaws indexAdd)
    (hd : d ≠ "") (hnonneg : ∀ i ∈ c.ids, 0 ≤ i) (h : Books d first calls tq) :
    Books d first (calls ++ [c]) (tqRecord indexAdd env tq c) := by
  obtain ⟨hdir, buf, hbuffers, hlength, hcounts⟩ := h
  have hgetD : tq.dir.getD (env.getD "") = d := by rw [hdir]; rfl
  by_cases hids : c.ids = []
  · rw [tqRecord_idle (.inl hids), hgetD]
    refine ⟨rfl, buf, hbuffers, hlength, fun e => ?_⟩
    rw [sum_map_concat, taken_idle first hids, hcounts]
    rfl
  · have hb : tq.buffers.getD c.buffers =
        { buf := buf, ones := List.replicate first.ids.length 1, key := ownerKey first.owner } := by
      rw [hbuffers]
      rfl
    rw [tqRecord_routed hgetD hd hids hb, List.take_replicate, hlength]
    refine ⟨rfl, _, rfl, by rw [hadd.length_eq, hlength], fun e => ?_⟩
    rw [sum_map_concat, ← hcounts]
    set valid := c.ids.filter fun i => i < ((max 256 first.topk : ℕ) : ℤ) with hvalid
    by_cases hfits : valid.length ≤ first.ids.length
    · have htaken : taken first c = valid := if_pos hfits
      have hrange : ∀ i ∈ valid, 0 ≤ i ∧ i < buf.length := by
        intro i hi
        obtain ⟨hi, hlt⟩ := List.mem_filter.mp hi
        rw [hlength]
        exact ⟨hnonneg i hi, of_decide_eq_true hlt⟩
      rw [Nat.min_eq_left hfits, htaken]
      rcases Nat.lt_or_ge e buf.length with he | he
      · rw [hadd.adds _ _ _ (List.length_replicate ..).symm hrange e he, sum_ones]
      · have hnone : valid.count (e : ℤ) = 0 := by
          refine List.count_eq_zero.mpr fun hmem => ?_
          have hlt := (hrange _ hmem).2
          omega
        rw [List.getD_eq_default _ _ he, List.getD_eq_default _ _ (by rw [hadd.length_eq]; exact he),
          hnone]
    · have htaken : taken first c = [] := if_neg hfits
      rw [htaken, hadd.raises _ _ _ (by rw [List.length_replicate]; omega)]
      rfl

/-- The sizing call. -/
theorem Books.size {d : String} {calls : List Call} (hadd : IndexAddLaws indexAdd) (hd : d ≠ "")
    (hdir : tq.dir.getD (env.getD "") = d) (hbuffers : tq.buffers = none)
    (hidle : ∀ c ∈ calls, c.ids = []) (hnonneg : ∀ i ∈ c.ids, 0 ≤ i) (hids : c.ids ≠ []) :
    Books d c (calls ++ [c]) (tqRecord indexAdd env tq c) := by
  -- allocating first and then recording comes to the same
  obtain ⟨allocated, hallocated⟩ : ∃ allocated : Tq,
      allocated = { dir := some d, buffers := some c.buffers } := ⟨_, rfl⟩
  have hbooks : Books d c calls allocated := by
    rw [hallocated]
    refine ⟨rfl, _, rfl, List.length_replicate, fun e => ?_⟩
    have hzero : (calls.map fun c' => (taken c c').count (e : ℤ)).sum = 0 := by
      refine List.sum_eq_zero fun x hx => ?_
      obtain ⟨c', hc', rfl⟩ := List.mem_map.mp hx
      rw [taken_idle c (hidle c' hc')]
      rfl
    rw [hzero, List.getD_eq_getElem?_getD, List.getElem?_replicate]
    split <;> rfl
  have hsame : tqRecord indexAdd env tq c = tqRecord indexAdd env allocated c := by
    have hb : tq.buffers.getD c.buffers = c.buffers := by
      rw [hbuffers]
      rfl
    have hdir' : allocated.dir.getD (env.getD "") = d := by
      rw [hallocated]
      rfl
    have hb' : allocated.buffers.getD c.buffers = c.buffers := by
      rw [hallocated]
      rfl
    rw [tqRecord_routed hdir hd hids hb, tqRecord_routed hdir' hd hids hb']
  rw [hsame]
  exact hbooks.record hadd hd hnonneg

end

/-! ## Whole runs -/

section
variable {indexAdd : List ℕ → List ℤ → List ℕ → List ℕ} {env : Option String}

/-- Before the sizing call there are no buffers. -/
def Unsized (env : Option String) (tq : Tq) : Prop :=
  tq.dir.getD (env.getD "") = env.getD "" ∧ tq.buffers = none

theorem Unsized.record {tq : Tq} {c : Call} (h : Unsized env tq)
    (hidle : c.ids = [] ∨ env.getD "" = "") : Unsized env (tqRecord indexAdd env tq c) := by
  rw [tqRecord_idle (hidle.imp_right h.1.trans), h.1]
  exact ⟨rfl, h.2⟩

theorem run_unarmed (harmed : env.getD "" = "") (calls : List Call) :
    Unsized env (runFrom (tqRecord indexAdd env) start calls) := by
  induction calls using List.reverseRecOn with
  | nil => exact ⟨rfl, rfl⟩
  | append_singleton calls c ih =>
    rw [runFrom_concat]
    exact ih.record (.inr harmed)

theorem sizingCall_concat (calls : List Call) (c : Call) : sizingCall (calls ++ [c]) =
    (sizingCall calls).or (if c.ids ≠ [] then some c else none) := by
  rw [sizingCall, List.find?_append, List.find?_singleton]
  simp only [sizingCall, decide_eq_true_eq]

theorem idle_of_sizingCall {calls : List Call} (h : sizingCall calls = none) :
    ∀ c ∈ calls, c.ids = [] := by
  intro c hc
  have hidle := List.find?_eq_none.mp h c hc
  rwa [decide_eq_true_iff, not_not] at hidle

/-- What the state is after every call. -/
theorem run_books (hadd : IndexAddLaws indexAdd) (harmed : env.getD "" ≠ "") (calls : List Call)
    (hnonneg : ∀ c ∈ calls, ∀ i ∈ c.ids, 0 ≤ i) :
    (sizingCall calls = none → Unsized env (runFrom (tqRecord indexAdd env) start calls)) ∧
    ∀ first, sizingCall calls = some first →
      Books (env.getD "") first calls (runFrom (tqRecord indexAdd env) start calls) := by
  induction calls using List.reverseRecOn with
  | nil => exact ⟨fun _ => ⟨rfl, rfl⟩, fun first h => nomatch h⟩
  | append_singleton calls c ih =>
    rw [List.forall_mem_append, List.forall_mem_singleton] at hnonneg
    obtain ⟨hunsized, hbooks⟩ := ih hnonneg.1
    rw [runFrom_concat, sizingCall_concat]
    cases hsizing : sizingCall calls with
    | some first =>
      refine ⟨fun h => (nomatch h), fun first' h => ?_⟩
      obtain rfl : first = first' := Option.some.inj h
      exact (hbooks first hsizing).record hadd harmed hnonneg.2
    | none =>
      rw [Option.none_or]
      have htq := hunsized hsizing
      refine ⟨fun h => ?_, fun first h => ?_⟩
      · exact htq.record (.inl (by simpa using h))
      · rw [Option.ite_none_right_eq_some] at h
        obtain ⟨hids, hfirst⟩ := h
        obtain rfl : c = first := Option.some.inj hfirst
        exact Books.size hadd harmed htq.1 htq.2 (idle_of_sizingCall hsizing) hnonneg.2 hids

theorem tqDump_unsized {tq : Tq} (h : tq.buffers = none) : tqDump tq = none := by
  cases hdir : tq.dir with
  | none => simp only [tqDump, hdir]
  | some d => simp only [tqDump, hdir, h]

theorem Books.reported {d : String} {first : Call} {calls : List Call} {tq : Tq} (hd : d ≠ "")
    (h : Books d first calls tq) (key : String) (e : ℕ) :
    reported (tqDump tq) key e = if layerKey first.owner = key then
      (calls.map fun c => (taken first c).count (e : ℤ)).sum else 0 := by
  obtain ⟨hdir, buf, hbuffers, -, hcounts⟩ := h
  simp only [tqDump, hdir, hbuffers, if_neg hd, Profiler.reported, hcounts]
  rfl

end

/-! ## Exactness -/

section
variable {indexAdd : List ℕ → List ℤ → List ℕ → List ℕ} {env : Option String}
variable {first c : Call} {calls : List Call}

theorem taken_of_counted (h : Counted env first c) : taken first c = c.ids := by
  have hvalid : (c.ids.filter fun i => i < ((max 256 first.topk : ℕ) : ℤ)) = c.ids :=
    List.filter_eq_self.mpr fun i hi => decide_eq_true (h.inBuffer i hi).2
  simp only [taken, hvalid]
  exact if_pos h.fits

/-- A call all of whose ids are taken stays within the buffer and the ones. -/
theorem within_of_taken (first : Call) (hids : c.ids ≠ []) (h : ∀ i ∈ c.ids, i ∈ taken first c) :
    (∀ i ∈ c.ids, i < ((max 256 first.topk : ℕ) : ℤ)) ∧ c.ids.length ≤ first.ids.length := by
  have hbelow : ∀ i ∈ c.ids, i < ((max 256 first.topk : ℕ) : ℤ) := fun i hi => (mem_taken (h i hi)).2
  have hvalid : (c.ids.filter fun i => i < ((max 256 first.topk : ℕ) : ℤ)) = c.ids :=
    List.filter_eq_self.mpr fun i hi => decide_eq_true (hbelow i hi)
  refine ⟨hbelow, ?_⟩
  by_contra hlong
  have hnone : taken first c = [] := by
    simp only [taken, hvalid]
    exact if_neg hlong
  obtain ⟨i, hi⟩ := List.exists_mem_of_ne_nil _ hids
  have hmem := h i hi
  rw [hnone] at hmem
  exact absurd hmem List.not_mem_nil

theorem count_taken_le (first c : Call) (e : ℤ) : (taken first c).count e ≤ c.ids.count e := by
  simp only [taken]
  split
  · exact List.filter_sublist.count_le e
  · exact Nat.zero_le _

theorem eq_of_sum_eq {f g : Call → ℕ} (hle : ∀ c ∈ calls, f c ≤ g c)
    (hsum : (calls.map f).sum = (calls.map g).sum) : ∀ c ∈ calls, f c = g c := by
  intro c hc
  by_contra hne
  exact absurd hsum (List.sum_lt_sum f g hle ⟨c, hc, by have := hle c hc; omega⟩).ne

theorem routed_pos {i : ℤ} (hc : c ∈ calls) (hi : i ∈ c.ids) (hnonneg : 0 ≤ i) :
    0 < routed calls (layerKey c.owner) i.toNat := by
  have hcount : 0 < c.ids.count ((i.toNat : ℕ) : ℤ) := by
    rw [Int.toNat_of_nonneg hnonneg]
    exact List.count_pos_iff.mpr hi
  refine hcount.trans_le (List.single_le_sum (fun _ _ => Nat.zero_le _) _ ?_)
  exact List.mem_map.mpr ⟨c, hc, if_pos rfl⟩

theorem sizingCall_mem (h : sizingCall calls = some first) : first ∈ calls ∧ first.ids ≠ [] := by
  rw [sizingCall] at h
  have hids := List.find?_some h
  exact ⟨List.mem_of_find?_eq_some h, of_decide_eq_true hids⟩

/-- With every call counted the histogram is exact. -/
theorem exact_of_allCounted (hadd : IndexAddLaws indexAdd) (h : AllCounted env calls) :
    Exact indexAdd env calls := by
  intro key e
  cases hsizing : sizingCall calls with
  | none =>
    have hidle := idle_of_sizingCall hsizing
    have hzero : routed calls key e = 0 := by
      refine List.sum_eq_zero fun x hx => ?_
      obtain ⟨c, hc, rfl⟩ := List.mem_map.mp hx
      rw [hidle c hc, List.count_nil, ite_self]
    have hunsized : Unsized env (runFrom (tqRecord indexAdd env) start calls) := by
      by_cases harmed : env.getD "" = ""
      · exact run_unarmed harmed calls
      · refine (run_books hadd harmed calls fun c hc i hi => ?_).1 hsizing
        rw [hidle c hc] at hi
        exact absurd hi List.not_mem_nil
    rw [hzero, tqDump_unsized hunsized.2]
    rfl
  | some first =>
    have hcounted := h first hsizing
    obtain ⟨hmem, hids⟩ := sizingCall_mem hsizing
    have harmed := (hcounted first hmem hids).armed
    have hnonneg : ∀ c ∈ calls, ∀ i ∈ c.ids, 0 ≤ i := fun c hc i hi =>
      ((hcounted c hc (List.ne_nil_of_mem hi)).inBuffer i hi).1
    rw [((run_books hadd harmed calls hnonneg).2 first hsizing).reported harmed]
    have hcall : ∀ c ∈ calls, (if layerKey c.owner = key then c.ids.count (e : ℤ) else 0) =
        if layerKey first.owner = key then (taken first c).count (e : ℤ) else 0 := by
      intro c hc
      by_cases hidle : c.ids = []
      · rw [taken_idle first hidle, hidle, List.count_nil, ite_self, ite_self]
      · rw [taken_of_counted (hcounted c hc hidle), (hcounted c hc hidle).sameLayer]
    rw [routed, List.map_congr_left hcall]
    split
    · rfl
    · rw [List.map_const', List.sum_replicate]
      rfl

/-- Where no id is negative, an exact histogram has counted every call. -/
theorem allCounted_of_exact (hadd : IndexAddLaws indexAdd)
    (hnonneg : ∀ c ∈ calls, ∀ i ∈ c.ids, 0 ≤ i) (h : Exact indexAdd env calls) :
    AllCounted env calls := by
  intro first hsizing
  have hreported : ∀ c ∈ calls, c.ids ≠ [] → ∃ e,
      reported (tqDump (runFrom (tqRecord indexAdd env) start calls)) (layerKey c.owner) e ≠ 0 := by
    intro c hc hids
    obtain ⟨i, hi⟩ := List.exists_mem_of_ne_nil _ hids
    refine ⟨i.toNat, ?_⟩
    rw [h]
    exact (routed_pos hc hi (hnonneg c hc i hi)).ne'
  obtain ⟨hmem, hfirst⟩ := sizingCall_mem hsizing
  have harmed : env.getD "" ≠ "" := by
    intro harmed
    obtain ⟨e, he⟩ := hreported first hmem hfirst
    rw [tqDump_unsized (run_unarmed harmed calls).2] at he
    exact he rfl
  have hbooks := (run_books hadd harmed calls hnonneg).2 first hsizing
  have hlayer : ∀ c ∈ calls, c.ids ≠ [] → layerKey c.owner = layerKey first.owner := by
    intro c hc hids
    obtain ⟨e, he⟩ := hreported c hc hids
    rw [hbooks.reported harmed] at he
    by_contra hne
    exact he (if_neg (Ne.symm hne))
  -- no other layer, so what the layer misses was dropped
  have htaken : ∀ c ∈ calls, ∀ e : ℕ, (taken first c).count (e : ℤ) = c.ids.count (e : ℤ) := by
    intro c hc e
    have hsum := h (layerKey first.owner) e
    rw [hbooks.reported harmed, if_pos rfl, routed] at hsum
    have hcall : ∀ c ∈ calls, (if layerKey c.owner = layerKey first.owner then
        c.ids.count (e : ℤ) else 0) = c.ids.count (e : ℤ) := by
      intro c hc
      by_cases hidle : c.ids = []
      · rw [hidle, List.count_nil, ite_self]
      · exact if_pos (hlayer c hc hidle)
    rw [List.map_congr_left hcall] at hsum
    exact eq_of_sum_eq (fun c _ => count_taken_le first c e) hsum c hc
  intro c hc hids
  have hwithin := within_of_taken first hids fun i hi => by
    have hcount := htaken c hc i.toNat
    rw [Int.toNat_of_nonneg (hnonneg c hc i hi)] at hcount
    exact List.count_pos_iff.mp (hcount ▸ List.count_pos_iff.mpr hi)
  exact ⟨harmed, hlayer c hc hids, fun i hi => ⟨hnonneg c hc i hi, by exact_mod_cast hwithin.1 i hi⟩,
    hwithin.2⟩

/-- The dumped counts are exact in every run whose calls all come from one layer, route to
experts of the buffer and fit the sizing call. Where no id is negative they are exact in no other
run. -/
theorem tqDump_exact (hadd : IndexAddLaws indexAdd) (env : Option String) (calls : List Call) :
    (AllCounted env calls → Exact indexAdd env calls) ∧
      ((∀ c ∈ calls, ∀ i ∈ c.ids, 0 ≤ i) → Exact indexAdd env calls → AllCounted env calls) :=
  ⟨exact_of_allCounted hadd, allCounted_of_exact hadd⟩

end

theorem pureIndexAdd_laws : IndexAddLaws pureIndexAdd where
  length_eq buf index source := by
    simp only [pureIndexAdd]
    split
    · exact List.length_mapIdx
    · rfl
  adds buf index source hlength _ e he := by
    rw [pureIndexAdd, if_pos hlength, List.getD_eq_getElem _ _ (by rwa [List.length_mapIdx]),
      List.getElem_mapIdx, List.getD_eq_getElem _ _ he]
  raises buf index source hlength := if_neg hlength

def expertLayer (name : String) : Owner where
  layerPrefix := some name
  id := 0

def batch (rows topk : ℕ) (expert : ℤ) : TopkIds where
  rows := rows
  topk := topk
  ids := List.replicate (rows * topk) expert
  numel := List.length_replicate

theorem tqDump_exact_two_batches :
    Exact pureIndexAdd (some "/var/tmp/tailquant")
      [⟨expertLayer "layers.3", some (batch 4 2 7)⟩, ⟨expertLayer "layers.3", some (batch 1 2 5)⟩] := by
  refine (tqDump_exact pureIndexAdd_laws (some "/var/tmp/tailquant") _).1 fun first hfirst c hc _ => ?_
  obtain rfl := Option.some.inj hfirst
  rcases List.mem_cons.mp hc with rfl | hc
  · exact ⟨by decide, rfl, by decide, by decide⟩
  · obtain rfl := List.mem_singleton.mp hc
    exact ⟨by decide, rfl, by decide, by decide⟩

/-- Two layers route one token each. -/
theorem second_layer_missing :
    ¬ Exact pureIndexAdd (some "/var/tmp/tailquant")
      [⟨expertLayer "layers.3", some (batch 1 2 7)⟩, ⟨expertLayer "layers.4", some (batch 1 2 7)⟩] := by
  intro h
  have hcounted := allCounted_of_exact pureIndexAdd_laws (by decide) h _ rfl
    ⟨expertLayer "layers.4", some (batch 1 2 7)⟩ (by simp) (by decide)
  exact absurd hcounted.sameLayer (by decide)

end SparkKit.Tailquant.Profiler
