import SparkKit.Lib.Scatter
import SparkKit.Nvfp4.Scalars
import SparkKit.Nvfp4.Record

/-!
# Two writers of the KV record

The reference packs whole records and copies them row by row into the paged cache. The
fused kernel runs one program per token and stores each part of the record on its own.
Neither fixes an order of its stores, so a write is any ordering of them; padding tokens
go to slot 0, which no request owns.
-/
namespace SparkKit.Nvfp4.Writer

open SparkKit.Lib.Scatter
open SparkKit.Nvfp4.Scalars SparkKit.Nvfp4.Record

variable {X F : Type}

/-- One row of the call: 512 latent entries, 64 RoPE entries and the physical slot, negative
for padding. -/
structure Token (X : Type) where
  kvC : ℕ → X
  kPe : ℕ → X
  slot : ℤ

/-- `latent_scale`, as a device tensor or as a Python float. -/
inductive LatentScale (F : Type)
  | tensor (scale : F)
  | python (scale : F)

/-- `float(latent_scale)` -/
def LatentScale.value : LatentScale F → F
  | .tensor scale => scale
  | .python scale => scale

/-- `torch.where(slots >= 0, slots, 0)` -/
def cacheSlot (slot : ℤ) : ℕ := if slot ≥ 0 then slot.toNat else 0

/-! ## `pack_records` -/

section Reference
variable (ops : ScalarOps X F) (latentScale : LatentScale F) (tok : Token X)

/-- `x` of `pack_records` at one dimension. -/
def latent (d : ℕ) : F :=
  match latentScale with
  | .tensor scale => ops.div (ops.toFloat32 (tok.kvC d)) scale
  | .python scale => ops.divScalar (ops.toFloat32 (tok.kvC d)) scale

def groupAmax (g : ℕ) : F :=
  ops.reduceMax ((List.range 16).map fun i => ops.abs (latent ops latentScale tok (g * 16 + i)))

/-- `gs_e4m3` -/
def groupScaleByte (g : ℕ) : UInt8 :=
  ops.toE4m3 (ops.orTiny (ops.divScalar (groupAmax ops latentScale tok g) (ops.lit 6)))

/-- `gs_used` -/
def groupScaleUsed (g : ℕ) : F := ops.orTiny (ops.ofE4m3 (groupScaleByte ops latentScale tok g))

def latentCode (d : ℕ) : UInt8 :=
  e2m1Encode ops (ops.clamp 6
    (ops.div (latent ops latentScale tok d) (groupScaleUsed ops latentScale tok (d / 16))))

/-- `rs` -/
def ropeScale : F :=
  ops.orTiny (ops.divScalar
    (ops.reduceMax ((List.range 64).map fun j => ops.abs (ops.toFloat32 (tok.kPe j))))
    (ops.lit 448))

def ropePayload : RecordLayout → RopePayload
  | .fp8Rope => .fp8 (ops.float32Bytes (ropeScale ops tok)) fun j =>
      ops.toE4m3 (ops.clamp 448 (ops.div (ops.toFloat32 (tok.kPe j)) (ropeScale ops tok)))
  | .bf16Rope => .bf16 fun i => ops.bfloat16Bytes (ops.toFloat32 (tok.kPe (i / 2))) (i % 2)

def packRecord (layout : RecordLayout) : List UInt8 :=
  catRecord (latentCode ops latentScale tok) (groupScaleByte ops latentScale tok)
    (ropePayload ops tok layout)

end Reference

/-! ## `nvfp4_ds_mla_write_kernel` -/

section Kernel
variable (ops : ScalarOps X F) (scale : F) (tok : Token X)

/-- `xe` and `xo`: the even and the odd dimension of pair `i` of group `g`. -/
def latentEven (g i : ℕ) : F := ops.div (ops.toFloat32 (tok.kvC (g * 16 + 2 * i))) scale

def latentOdd (g i : ℕ) : F := ops.div (ops.toFloat32 (tok.kvC (g * 16 + 2 * i + 1))) scale

def kernelAmax (g : ℕ) : F :=
  ops.maximum (ops.reduceMax ((List.range 8).map fun i => ops.abs (latentEven ops scale tok g i)))
    (ops.reduceMax ((List.range 8).map fun i => ops.abs (latentOdd ops scale tok g i)))

/-- `gs_b`; `inv6` is the launcher's `1 / 6`. -/
def kernelScaleByte (g : ℕ) : UInt8 :=
  let inv6 := ops.div (ops.lit 1) (ops.lit 6)
  ops.toE4m3 (ops.orTiny (ops.mul (kernelAmax ops scale tok g) inv6))

def kernelCode (g : ℕ) (x : F) : UInt8 :=
  e2m1Code ops (ops.clamp 6 (ops.div x (ops.orTiny (ops.ofE4m3 (kernelScaleByte ops scale tok g)))))

/-- `rsv`, equal in every lane; `inv448` is the launcher's `1 / 448`. -/
def kernelRopeScale : F :=
  let inv448 := ops.div (ops.lit 1) (ops.lit 448)
  let ramax := ops.reduceMax ((List.range 64).map fun j => ops.abs (ops.toFloat32 (tok.kPe j)))
  ops.orTiny (ops.mul (ops.lit 1) (ops.mul ramax inv448))

/-- The stores of one program, by offset into the record. -/
def kernelStores : List (ℕ × UInt8) :=
  ((List.range 32).flatMap fun g => (List.range 8).map fun i =>
    (g * 8 + i, kernelCode ops scale tok g (latentEven ops scale tok g i) |||
      kernelCode ops scale tok g (latentOdd ops scale tok g i) <<< 4)) ++
  ((List.range 32).map fun g => (256 + g, kernelScaleByte ops scale tok g)) ++
  ((List.range 64).map fun j =>
    (304 + j, ops.toE4m3 (ops.clamp 448
      (ops.div (ops.toFloat32 (tok.kPe j)) (kernelRopeScale ops tok))))) ++
  ((List.range 4).map fun b =>
    (288 + b, ops.float32Bytes
      (ops.reduceMax ((List.range 64).map fun _ => kernelRopeScale ops tok)) b)) ++
  (((List.range 16).filter fun z => z < 12).map fun z => (292 + z, 0))

end Kernel

/-! ## Writing to the cache -/

/-- The paged cache as flat bytes; slot `s` holds the bytes from `s * recordBytes` on. -/
abbrev Cache := ℕ → UInt8

/-- The bytes of a record with their offsets. -/
def indexed (start : ℕ) (bytes : List UInt8) : List (ℕ × UInt8) :=
  (bytes.zipIdx start).map Prod.swap

def slotStores (width slot : ℕ) (stores : List (ℕ × UInt8)) : List (ℕ × UInt8) :=
  stores.map fun store => (slot * width + store.1, store.2)

/-- The stores of one token in the reference, and in the kernel. -/
def torchStores (ops : ScalarOps X F) (layout : RecordLayout) (latentScale : LatentScale F)
    (tok : Token X) : List (ℕ × UInt8) :=
  slotStores (recordBytes layout) (cacheSlot tok.slot)
    (indexed 0 (packRecord ops latentScale tok layout))

def fusedStores (ops : ScalarOps X F) (latentScale : LatentScale F) (tok : Token X) :
    List (ℕ × UInt8) :=
  match latentScale with
  | .tensor scale | .python scale =>
      slotStores (recordBytes .fp8Rope) (cacheSlot tok.slot) (kernelStores ops scale tok)

/-- `_write_to_kv_cache_torch` -/
def WriteTorch (ops : ScalarOps X F) (layout : RecordLayout) (latentScale : LatentScale F)
    (tokens : List (Token X)) (cache cache' : Cache) : Prop :=
  ∃ order, order.Perm (tokens.flatMap (torchStores ops layout latentScale)) ∧
    cache' = scatter order cache

/-- `write_to_kv_cache_fused`; the assertion on the record width comes after the return on
an empty call. -/
def WriteFused (ops : ScalarOps X F) (layout : RecordLayout) (latentScale : LatentScale F)
    (tokens : List (Token X)) (cache : Cache) (out : Except String Cache) : Prop :=
  if tokens = [] then out = .ok cache
  else if recordBytes layout ≠ recordBytes .fp8Rope then
    out = .error s!"fused writer supports the 368-byte record, got {recordBytes layout}"
  else ∃ order, order.Perm (tokens.flatMap (fusedStores ops latentScale)) ∧
    out = .ok (scatter order cache)

/-- `write_to_kv_cache` -/
def WriteDispatch (haveTriton : Bool) (ops : ScalarOps X F) (layout : RecordLayout)
    (latentScale : LatentScale F) (tokens : List (Token X)) (cache : Cache)
    (out : Except String Cache) : Prop :=
  if haveTriton ∧ recordBytes layout = recordBytes .fp8Rope then
    WriteFused ops layout latentScale tokens cache out
  else ∃ cache', WriteTorch ops layout latentScale tokens cache cache' ∧ out = .ok cache'

def dispatchStores (haveTriton : Bool) (ops : ScalarOps X F) (layout : RecordLayout)
    (latentScale : LatentScale F) : Token X → List (ℕ × UInt8) :=
  if haveTriton ∧ recordBytes layout = recordBytes .fp8Rope then fusedStores ops latentScale
  else torchStores ops layout latentScale

/-- A call whose real slots are distinct and none of them is the pad slot. -/
structure WriteCall (X : Type) where
  tokens : List (Token X)
  slots_nodup : ((tokens.map Token.slot).filter fun slot => slot ≥ 0).Nodup
  slot_ne_pad : ∀ tok ∈ tokens, tok.slot ≠ 0

/-- A write leaves every slot but the pad slot as the reference leaves it, and as it was
where no token names it; the stores of padding tokens lie in the pad slot's record. -/
structure MatchesReference (ops : ScalarOps X F) (layout : RecordLayout)
    (latentScale : LatentScale F) (call : WriteCall X) (cache cache' : Cache)
    (stores : Token X → List (ℕ × UInt8)) : Prop where
  same : ∀ ref, WriteTorch ops layout latentScale call.tokens cache ref →
    ∀ slot : ℕ, slot ≠ 0 → ∀ b < recordBytes layout,
      cache' (slot * recordBytes layout + b) = ref (slot * recordBytes layout + b)
  kept : ∀ slot : ℕ, slot ≠ 0 → (∀ tok ∈ call.tokens, tok.slot ≠ slot) →
    ∀ b < recordBytes layout, cache' (slot * recordBytes layout + b) = cache (slot * recordBytes layout + b)
  padding : ∀ tok ∈ call.tokens, tok.slot < 0 →
    ∀ store ∈ stores tok, store.1 < recordBytes layout

/-- The fused writer succeeds and matches the reference. -/
def FusedMatches (ops : ScalarOps X F) (layout : RecordLayout) (latentScale : LatentScale F)
    (call : WriteCall X) (cache : Cache) : Prop :=
  ∀ out, WriteFused ops layout latentScale call.tokens cache out →
    ∃ cache', out = .ok cache' ∧
      MatchesReference ops layout latentScale call cache cache' (fusedStores ops latentScale)

/-- Dividing by the scale is the same operation in both writers: always for a tensor, for a
Python float when multiplying by its reciprocal rounds like dividing. -/
def SharedDivision (ops : ScalarOps X F) : LatentScale F → Prop
  | .tensor _ => True
  | .python scale => ∀ x, ops.divScalar x scale = ops.div x scale

/-! ## One record -/

theorem mem_indexed_append {start b : ℕ} {v : UInt8} {xs ys : List UInt8} :
    (b, v) ∈ indexed start (xs ++ ys) ↔
      (b, v) ∈ indexed start xs ∨ (b, v) ∈ indexed (start + xs.length) ys := by
  rw [indexed, List.zipIdx_append, List.map_append, List.mem_append]
  rfl

theorem mem_indexed_row {start b n : ℕ} {v : UInt8} {f : ℕ → UInt8} :
    (b, v) ∈ indexed start (row n f) ↔ (b, v) ∈ (List.range n).map fun i => (start + i, f i) := by
  have hzip : indexed start (row n f) = (List.range n).map fun i => (start + i, f i) := by
    refine List.ext_getElem (by simp [indexed]) fun i hi hi' => ?_
    simp [indexed, row]
  rw [hzip]

theorem packedPairs_eq (f : ℕ → UInt8) (groups : ℕ) :
    ((List.range groups).flatMap fun g =>
      (List.range 8).map fun i => (g * 8 + i, f (g * 8 + i))) =
      (List.range (groups * 8)).map fun k => (0 + k, f k) := by
  induction groups with
  | zero => rfl
  | succ groups ih =>
    have hgroups : List.range (groups + 1) = List.range groups ++ [groups] := List.range_succ
    rw [hgroups, List.flatMap_append, ih, Nat.succ_mul, List.range_add, List.map_append,
      List.map_map]
    simp

section
variable {ops : ScalarOps X F} {latentScale : LatentScale F} {scale : F} {tok : Token X}
  (hlatent : ∀ d, latent ops latentScale tok d = ops.div (ops.toFloat32 (tok.kvC d)) scale)
include hlatent

/-- The kernel reduces the even and the odd half of a group and then both. -/
theorem kernelAmax_eq (g : ℕ) : kernelAmax ops scale tok g = groupAmax ops latentScale tok g := by
  have hpairs : (List.range 16).map (fun i => ops.abs (latent ops latentScale tok (g * 16 + i))) =
      (List.range (7 + 1)).flatMap fun i =>
        [ops.abs (latentEven ops scale tok g i), ops.abs (latentOdd ops scale tok g i)] := by
    have hsplit : List.range 16 = (List.range 8).flatMap fun i => [2 * i, 2 * i + 1] := by
      decide
    rw [hsplit, List.map_flatMap]
    simp only [List.map_cons, List.map_nil, hlatent, latentEven, latentOdd, Nat.add_assoc]
  rw [groupAmax, hpairs, ScalarOps.reduceMax_pairs]
  rfl

theorem kernelScaleByte_eq (g : ℕ) :
    kernelScaleByte ops scale tok g = groupScaleByte ops latentScale tok g := by
  rw [kernelScaleByte, kernelAmax_eq hlatent]
  rfl

theorem kernelCode_eq {g d : ℕ} (hd : d / 16 = g) :
    kernelCode ops scale tok g (ops.div (ops.toFloat32 (tok.kvC d)) scale) =
      latentCode ops latentScale tok d := by
  rw [kernelCode, e2m1Code_eq_encode, kernelScaleByte_eq hlatent, latentCode, hlatent, hd]
  rfl

theorem kernelPacked_eq {g i : ℕ} (hi : i < 8) :
    kernelCode ops scale tok g (latentEven ops scale tok g i) |||
        kernelCode ops scale tok g (latentOdd ops scale tok g i) <<< 4 =
      packedByte (latentCode ops latentScale tok) (g * 8 + i) := by
  have heven : g * 16 + 2 * i = 2 * (g * 8 + i) := by omega
  rw [latentEven, latentOdd, kernelCode_eq hlatent (by omega), kernelCode_eq hlatent (by omega),
    heven]
  rfl

omit hlatent in
theorem kernelRopeScale_eq : kernelRopeScale ops tok = ropeScale ops tok := by
  rw [kernelRopeScale, ops.one_mul]
  rfl

/-- The kernel's stores put every byte of the packed record at its offset. -/
theorem mem_kernelStores {b : ℕ} {v : UInt8} : (b, v) ∈ kernelStores ops scale tok ↔
    (b, v) ∈ indexed 0 (packRecord ops latentScale tok .fp8Rope) := by
  have hpacked : ((List.range 32).flatMap fun g => (List.range 8).map fun i =>
      (g * 8 + i, kernelCode ops scale tok g (latentEven ops scale tok g i) |||
        kernelCode ops scale tok g (latentOdd ops scale tok g i) <<< 4)) =
      (List.range 256).map fun k => (0 + k, packedByte (latentCode ops latentScale tok) k) := by
    rw [← packedPairs_eq _ 32]
    refine List.flatMap_congr fun g _ => List.map_congr_left fun i hi => ?_
    rw [kernelPacked_eq hlatent (List.mem_range.mp hi)]
  have hscales : kernelScaleByte ops scale tok = groupScaleByte ops latentScale tok :=
    funext (kernelScaleByte_eq hlatent)
  have hropeScale : ops.reduceMax ((List.range 64).map fun _ => kernelRopeScale ops tok) =
      ropeScale ops tok := by
    rw [List.map_const', List.length_range, ScalarOps.reduceMax_replicate, kernelRopeScale_eq]
  have hpad : (List.range 16).filter (fun z => decide (z < 12)) = List.range 12 := by decide
  rw [kernelStores, hpacked, hscales, hropeScale, kernelRopeScale_eq, hpad]
  rw [packRecord, ropePayload, catRecord, nopeBytes]
  simp only [mem_indexed_append, mem_indexed_row, List.length_append, length_row, List.mem_append]
  tauto

end

theorem latent_eq_div {ops : ScalarOps X F} {latentScale : LatentScale F}
    (hshared : SharedDivision ops latentScale) (tok : Token X) :
    ∃ scale, (∀ d, latent ops latentScale tok d = ops.div (ops.toFloat32 (tok.kvC d)) scale) ∧
      fusedStores ops latentScale tok =
        slotStores (recordBytes .fp8Rope) (cacheSlot tok.slot) (kernelStores ops scale tok) := by
  cases latentScale with
  | tensor scale => exact ⟨scale, fun d => rfl, rfl⟩
  | python scale => exact ⟨scale, fun d => hshared _, rfl⟩

/-- Both writers store the same bytes at the same addresses for a token. -/
theorem mem_fusedStores {ops : ScalarOps X F} {latentScale : LatentScale F}
    (hshared : SharedDivision ops latentScale) (tok : Token X) (store : ℕ × UInt8) :
    store ∈ fusedStores ops latentScale tok ↔
      store ∈ torchStores ops .fp8Rope latentScale tok := by
  obtain ⟨scale, hlatent, hstores⟩ := latent_eq_div hshared tok
  rw [hstores, torchStores, slotStores, slotStores, List.mem_map, List.mem_map]
  constructor
  · rintro ⟨⟨b, v⟩, hmem, rfl⟩
    exact ⟨(b, v), (mem_kernelStores hlatent).mp hmem, rfl⟩
  · rintro ⟨⟨b, v⟩, hmem, rfl⟩
    exact ⟨(b, v), (mem_kernelStores hlatent).mpr hmem, rfl⟩

/-! ## The cache -/

theorem length_packRecord (ops : ScalarOps X F) (latentScale : LatentScale F) (tok : Token X)
    (layout : RecordLayout) :
    (packRecord ops latentScale tok layout).length = recordBytes layout := by
  rw [packRecord, length_catRecord]
  cases layout <;> rfl

theorem address_inj {width slot slot' b b' : ℕ} (hb : b < width) (hb' : b' < width)
    (h : slot * width + b = slot' * width + b') : slot = slot' ∧ b = b' := by
  have hdiv : ∀ {s c : ℕ}, c < width → (s * width + c) / width = s := by
    intro s c hc
    rw [Nat.mul_comm, Nat.mul_add_div (by omega), Nat.div_eq_of_lt hc, Nat.add_zero]
  have hslot : slot = slot' := by rw [← hdiv (s := slot) hb, h, hdiv hb']
  subst hslot
  exact ⟨rfl, by omega⟩

/-- A byte of a slot is stored by the tokens of that slot only, each with its record's byte. -/
theorem mem_torchStores {ops : ScalarOps X F} {layout : RecordLayout}
    {latentScale : LatentScale F} {tok : Token X} {slot b : ℕ} (hb : b < recordBytes layout)
    {v : UInt8} : (slot * recordBytes layout + b, v) ∈ torchStores ops layout latentScale tok ↔
      cacheSlot tok.slot = slot ∧ (packRecord ops latentScale tok layout)[b]? = some v := by
  rw [torchStores, slotStores, List.mem_map]
  constructor
  · rintro ⟨⟨b', v'⟩, hmem, he⟩
    obtain ⟨⟨w, i⟩, hzip, hswap⟩ := List.mem_map.mp hmem
    obtain ⟨rfl, rfl⟩ := Prod.mk.inj hswap
    obtain ⟨haddress, rfl⟩ := Prod.mk.inj he
    have hget := List.mem_zipIdx_iff_getElem?.mp hzip
    have hlt : i < recordBytes layout := by
      rw [← length_packRecord ops latentScale tok]
      exact (List.getElem?_eq_some_iff.mp hget).1
    obtain ⟨hslot, rfl⟩ := address_inj hlt hb haddress
    exact ⟨hslot, hget⟩
  · rintro ⟨rfl, hget⟩
    refine ⟨(b, v), List.mem_map.mpr ⟨(v, b), ?_, rfl⟩, rfl⟩
    exact List.mem_zipIdx_iff_getElem?.mpr hget

theorem cacheSlot_eq_iff {slot : ℤ} {target : ℕ} (htarget : target ≠ 0) :
    cacheSlot slot = target ↔ slot = target := by
  rw [cacheSlot]
  split <;> omega

/-- Outside the pad slot a call has at most one token for each slot. -/
theorem WriteCall.eq_of_slot_eq (call : WriteCall X) {tok tok' : Token X}
    (htok : tok ∈ call.tokens) (htok' : tok' ∈ call.tokens) (hslot : tok.slot = tok'.slot)
    (hreal : tok.slot ≥ 0) : tok = tok' := by
  have hnodup := call.slots_nodup
  rw [List.filter_map] at hnodup
  refine List.inj_on_of_nodup_map hnodup (List.mem_filter.mpr ⟨htok, ?_⟩)
    (List.mem_filter.mpr ⟨htok', ?_⟩) hslot
  · exact decide_eq_true hreal
  · exact decide_eq_true (hslot ▸ hreal)

section
variable {ops : ScalarOps X F} {layout : RecordLayout} {latentScale : LatentScale F}
  {call : WriteCall X} {stores : Token X → List (ℕ × UInt8)}
  (hstores : ∀ tok store, store ∈ stores tok ↔ store ∈ torchStores ops layout latentScale tok)
include hstores

theorem mem_stores {slot b : ℕ} (hslot : slot ≠ 0) (hb : b < recordBytes layout) {v : UInt8} :
    (slot * recordBytes layout + b, v) ∈ call.tokens.flatMap stores ↔
      ∃ tok ∈ call.tokens, tok.slot = slot ∧
        (packRecord ops latentScale tok layout)[b]? = some v := by
  simp only [List.mem_flatMap, hstores, mem_torchStores hb, cacheSlot_eq_iff hslot]

/-- Any order of such stores matches the reference. -/
theorem matchesReference_of_stores {order : List (ℕ × UInt8)}
    (horder : order.Perm (call.tokens.flatMap stores)) (cache : Cache) :
    MatchesReference ops layout latentScale call cache (scatter order cache) stores where
  same := by
    rintro ref ⟨order', horder', rfl⟩ slot hslot b hb
    refine scatter_congr (fun v => ?_) (fun u v hu hv => ?_) cache
    · rw [horder.mem_iff, horder'.mem_iff, mem_stores hstores hslot hb,
        mem_stores (fun _ _ => Iff.rfl) hslot hb]
    · rw [horder.mem_iff, mem_stores hstores hslot hb] at hu hv
      obtain ⟨tok, htok, hat, hu⟩ := hu
      obtain ⟨tok', htok', hat', hv⟩ := hv
      obtain rfl := call.eq_of_slot_eq htok htok' (hat.trans hat'.symm) (by omega)
      exact Option.some.inj (hu.symm.trans hv)
  kept := by
    intro slot hslot hnone b hb
    refine scatter_of_notMem (fun v hv => ?_) cache
    obtain ⟨tok, htok, hat, -⟩ := (mem_stores hstores hslot hb).mp (horder.mem_iff.mp hv)
    exact hnone tok htok hat
  padding := by
    rintro tok htok hpad ⟨address, v⟩ hstore
    rw [hstores, torchStores, slotStores] at hstore
    obtain ⟨⟨b, w⟩, hmem, he⟩ := List.mem_map.mp hstore
    obtain ⟨rfl, rfl⟩ := Prod.mk.inj he
    obtain ⟨⟨w, i⟩, hzip, hswap⟩ := List.mem_map.mp hmem
    obtain ⟨rfl, rfl⟩ := Prod.mk.inj hswap
    have hlt := (List.getElem?_eq_some_iff.mp (List.mem_zipIdx_iff_getElem?.mp hzip)).1
    rw [length_packRecord] at hlt
    have hslot : cacheSlot tok.slot = 0 := if_neg (by omega)
    change cacheSlot tok.slot * recordBytes layout + i < recordBytes layout
    rw [hslot]
    omega

end

/-- In the compact layout the fused writer matches the reference; in the other one it raises
on every call with a token. The dispatching writer matches the reference in both. -/
theorem fused_matches_reference (ops : ScalarOps X F) (latentScale : LatentScale F)
    (hshared : SharedDivision ops latentScale) (call : WriteCall X) (cache : Cache) :
    FusedMatches ops .fp8Rope latentScale call cache ∧
    (∀ out, WriteFused ops .bf16Rope latentScale call.tokens cache out → call.tokens ≠ [] →
      out = .error "fused writer supports the 368-byte record, got 432") ∧
    ∀ haveTriton layout out,
      WriteDispatch haveTriton ops layout latentScale call.tokens cache out →
        ∃ cache', out = .ok cache' ∧ MatchesReference ops layout latentScale call cache cache'
          (dispatchStores haveTriton ops layout latentScale) := by
  have hfused : FusedMatches ops .fp8Rope latentScale call cache := by
    intro out hout
    rw [WriteFused] at hout
    split at hout
    · rename_i hempty
      refine ⟨cache, hout, ?_⟩
      have horder : ([] : List (ℕ × UInt8)).Perm (call.tokens.flatMap (fusedStores ops latentScale)) := by
        rw [hempty]
        exact List.Perm.refl _
      exact matchesReference_of_stores (mem_fusedStores hshared) horder cache
    · rw [if_neg (by simp)] at hout
      obtain ⟨order, horder, rfl⟩ := hout
      exact ⟨_, rfl, matchesReference_of_stores (mem_fusedStores hshared) horder cache⟩
  refine ⟨hfused, fun out hout hne => ?_, fun haveTriton layout out hout => ?_⟩
  · rw [WriteFused, if_neg hne, if_pos (by decide)] at hout
    rw [hout]
    rfl
  · rw [WriteDispatch] at hout
    rw [dispatchStores]
    by_cases hfast : haveTriton ∧ recordBytes layout = recordBytes .fp8Rope
    · rw [if_pos hfast] at hout ⊢
      cases layout with
      | fp8Rope => exact hfused out hout
      | bf16Rope => exact absurd hfast.2 (by decide)
    · rw [if_neg hfast] at hout ⊢
      obtain ⟨cache', ⟨order, horder, rfl⟩, hok⟩ := hout
      exact ⟨_, hok, matchesReference_of_stores (fun _ _ => Iff.rfl) horder cache⟩

/-- Real tokens in slots 3 and 5 around two padding tokens, exactly computed. -/
def sampleCall : WriteCall ℚ where
  tokens := [⟨fun d => d, fun j => j, 3⟩, ⟨fun _ => 0, fun _ => 0, -1⟩,
    ⟨fun d => -d, fun _ => 2, 5⟩, ⟨fun _ => 1, fun _ => 1, -1⟩]
  slots_nodup := by decide
  slot_ne_pad := by decide

/-- One call through the kernel, into the wider record, and through the dispatching writer
with the kernel and without it. -/
theorem sampleCall_matches_reference :
    let ops := exactOps (fun _ _ => 0) fun _ _ => 0
    FusedMatches ops .fp8Rope (.python 1) sampleCall (fun _ => 0) ∧
    (¬ ∃ out, WriteFused ops .bf16Rope (.python 1) sampleCall.tokens (fun _ => 0) (.ok out)) ∧
    ∀ haveTriton layout out,
      WriteDispatch haveTriton ops layout (.python 1) sampleCall.tokens (fun _ => 0) out →
        ∃ cache', out = .ok cache' ∧ MatchesReference ops layout (.python 1) sampleCall
          (fun _ => 0) cache' (dispatchStores haveTriton ops layout (.python 1)) := by
  obtain ⟨hfused, hwide, hdispatch⟩ := fused_matches_reference
    (exactOps (fun _ _ => 0) fun _ _ => 0) (.python 1)
    (fun x => by simp [ScalarOps.divScalar, exactOps]) sampleCall fun _ => 0
  refine ⟨hfused, ?_, hdispatch⟩
  rintro ⟨out, hout⟩
  have hfail := hwide _ hout (by simp [sampleCall])
  cases hfail

/-- The fused writer refuses the wider record. -/
theorem sampleCall_not_fused_bf16 :
    ¬ ∀ (ops : ScalarOps ℚ ℚ) (layout : RecordLayout) (latentScale : LatentScale ℚ),
      SharedDivision ops latentScale → ∀ (call : WriteCall ℚ) (cache : Cache),
        FusedMatches ops layout latentScale call cache := by
  intro h
  obtain ⟨cache', hok, -⟩ := h (exactOps (fun _ _ => 0) fun _ _ => 0) .bf16Rope (.tensor 1) trivial
    sampleCall (fun _ => 0) (.error _) rfl
  cases hok

end SparkKit.Nvfp4.Writer
