import Mathlib.Tactic.Ring
import SparkKit.Lib.Tabulate
import SparkKit.Depth.LadderText
import SparkKit.Tailquant.Split

/-!
# From the split to the rate tables

The split tool writes the hot and cold experts of every layer into a plan, and what it expects
a weight to cost. `build_rate_tables` reads the plan and gives every projection pair of every
expert its rate code. Layer numbers are read in ASCII digits.
-/
namespace SparkKit.Tailquant.RatePlan

open SparkKit.Lib.Checked SparkKit.Lib.Tabulate SparkKit.Tailquant.Split
open SparkKit.Depth.LadderText (toDigits_isDigit)

/-! ## The plan -/

/-- A layer of `plan["layers"]`, without the figures that nothing reads. -/
structure LayerPlan where
  numExperts : ℕ
  hot : List ℕ
  cold : List ℕ
deriving DecidableEq

abbrev Plan := List (String × LayerPlan)

/-- The loop over `sorted(hist.items())`. The share of the busiest expert raises for a layer
without experts. -/
def planLayers (hist : List (String × List ℕ)) (target : ℚ) (minHot maxHot : ℕ) : Option Plan :=
  (hist.insertionSort fun a b => a.1 ≤ b.1).mapM fun layer => do
    let (hot, cold, _) ← splitLayer layer.2 target minHot maxHot
    if layer.2 = [] then none else return (layer.1, ⟨layer.2.length, hot, cold⟩)

/-- `effective_bits_per_weight`, before it is rounded. -/
def effectiveBits (bitsHot bitsCold target : ℚ) : ℚ := bitsHot * target + bitsCold * (1 - target)

/-! ## The layer of a key -/

/-- `_LAYER_RE` at the start of a text. -/
def layerIndexAt (text : List Char) : Option ℕ :=
  let digits := (text.drop 7).takeWhile Char.isDigit
  if "layers.".toList <+: text ∧ digits ≠ [] ∧ (text.drop (7 + digits.length)).head? = some '.' then
    some (Nat.ofDigitChars 10 digits 0)
  else none

/-- `_LAYER_RE.search` -/
def searchLayer : List Char → Option ℕ
  | [] => none
  | c :: rest => (layerIndexAt (c :: rest)).or (searchLayer rest)

def layerIndex (key : String) : Option ℕ := searchLayer key.toList

/-! ## Rate tables -/

def rateCode (lowBits highBits : ℕ) : ℕ := (lowBits <<< 4) ||| highBits

/-- The names of `PAIR_KINDS`. -/
inductive PairKind where
  | p22
  | p33
  | p24
  | p43
  | p44
deriving DecidableEq

/-- `PAIR_KINDS` -/
def PairKind.bits : PairKind → ℕ × ℕ
  | .p22 => (2, 2)
  | .p33 => (3, 3)
  | .p24 => (2, 4)
  | .p43 => (4, 3)
  | .p44 => (4, 4)

def PairKind.code (kind : PairKind) : ℕ := rateCode kind.bits.1 kind.bits.2

def hotCode : ℕ := rateCode 4 4

/-- The rows of a projection, one for every pair. -/
abbrev RateTable := List (List ℕ)

def rateRow (numExperts : ℕ) (cold : List ℕ) (coldCode : ℕ) : List ℕ :=
  (List.range numExperts).map fun e => if e ∉ cold then hotCode else coldCode

/-- `[[.. for e in range(num_experts)] for _ in range(pairs)]` -/
def rateTable (pairs numExperts : ℕ) (cold : List ℕ) (coldCode : ℕ) : RateTable :=
  List.replicate pairs (rateRow numExperts cold coldCode)

/-- The plan's entry for a layer. The keys of a plan are strings, so `plan["layers"].get(layer)`
finds none. -/
def findEntry (plan : Plan) (layer : ℕ) : Option LayerPlan :=
  (plan.find? fun entry => layerIndex entry.1 = some layer).map Prod.snd

/-- The `fc1` and `fc2` tables by layer. -/
abbrev RateTables := AList fun _ : ℕ => RateTable × RateTable

/-- One turn of the loop over the layers. -/
def addLayer (plan : Plan) (pairs numExperts : ℕ) (coldKind : PairKind) (built : RateTables × ℕ)
    (layer : ℕ) : Except String (RateTables × ℕ) :=
  match findEntry plan layer with
  | none => .error s!"plan has no entry for layer {layer}"
  | some entry =>
      let fc1 := rateTable pairs numExperts entry.cold coldKind.code
      let fc2 := rateTable pairs numExperts entry.cold coldKind.code
      .ok (built.1.insert layer (fc1, fc2), built.2 + entry.cold.dedup.length)

/-- `build_rate_tables`: the tables, and how many experts are cold. -/
def buildRateTables (plan : Plan) (layers : List ℕ) (pairs numExperts : ℕ) (coldKind : PairKind) :
    Except String (RateTables × ℕ) :=
  layers.foldlM (addLayer plan pairs numExperts coldKind) (∅, 0)

/-! ## Splits and what they cost -/

/-- Every key of a plan names one of the layers, and no two of them the same. -/
def Names (plan : Plan) (layers : List ℕ) : Prop :=
  (plan.map fun entry => layerIndex entry.1).Perm (layers.map some)

instance (plan : Plan) (layers : List ℕ) : Decidable (Names plan layers) :=
  inferInstanceAs (Decidable (List.Perm _ _))

/-- How many of the experts are not listed as cold. -/
def hotSlots (numExperts : ℕ) (cold : List ℕ) : ℕ :=
  (List.range numExperts).countP fun e => e ∉ cold

/-- The same over all layers of a plan. -/
def planHotSlots (plan : Plan) (numExperts : ℕ) : ℕ :=
  (plan.map fun entry => hotSlots numExperts entry.2.cold).sum

/-- A value is the mean of a list. -/
def IsMean (q : ℚ) (xs : List ℚ) : Prop := q * xs.length = xs.sum

instance (q : ℚ) (xs : List ℚ) : Decidable (IsMean q xs) := inferInstanceAs (Decidable (_ = _))

/-- The codes of all experts in all layers, for every pair of both projections. -/
def slotCodes (tables : RateTables) : List ℕ :=
  tables.entries.flatMap fun entry => (entry.2.1 ++ entry.2.2).flatten

/-- Every pair of both projections has the cold code for the experts listed cold and the hot code
for the others. The two are told apart unless cold experts are `P44` too. -/
def ColdExactly (plan : Plan) (pairs numExperts : ℕ) (coldKind : PairKind) (tables : RateTables) :
    Prop :=
  ∀ entry ∈ plan, ∃ layer, layerIndex entry.1 = some layer ∧
    ∃ fc1 fc2, tables.lookup layer = some (fc1, fc2) ∧
      ∀ table ∈ [fc1, fc2], table.length = pairs ∧ ∀ row ∈ table, row.length = numExperts ∧
        ∀ e < numExperts,
          row[e]? = some (if e ∈ entry.2.cold then coldKind.code else hotCode) ∧
            (coldKind ≠ .p44 → (row[e]? = some coldKind.code ↔ e ∈ entry.2.cold))

/-- The tables are built, name the cold experts and cost what the split tool expects, where a
code stands for `bits code` bits. -/
def Consistent (plan : Plan) (layers : List ℕ) (pairs numExperts : ℕ) (coldKind : PairKind)
    (bits : ℕ → ℚ) (target : ℚ) : Prop :=
  ∃ tables numCold, buildRateTables plan layers pairs numExperts coldKind = .ok (tables, numCold) ∧
    ColdExactly plan pairs numExperts coldKind tables ∧
    IsMean (effectiveBits (bits hotCode) (bits coldKind.code) target)
      ((slotCodes tables).map bits)

/-! ## What a key names -/

/-- A layer number and a dot behind `layers.` are read. -/
theorem layerIndexAt_digits (layer : ℕ) (rest : List Char) :
    layerIndexAt ("layers.".toList ++ (Nat.toDigits 10 layer ++ '.' :: rest)) = some layer := by
  have hdrop : ("layers.".toList ++ (Nat.toDigits 10 layer ++ '.' :: rest)).drop 7 =
      Nat.toDigits 10 layer ++ '.' :: rest := rfl
  have hdigits : (Nat.toDigits 10 layer ++ '.' :: rest).takeWhile Char.isDigit =
      Nat.toDigits 10 layer := by
    rw [List.takeWhile_append_of_pos (toDigits_isDigit layer), List.takeWhile_cons_of_neg (by decide),
      List.append_nil]
  have hdot : (("layers.".toList ++ (Nat.toDigits 10 layer ++ '.' :: rest)).drop
      (7 + (Nat.toDigits 10 layer).length)).head? = some '.' := by
    rw [← List.drop_drop, hdrop, List.drop_left]
    rfl
  simp only [layerIndexAt]
  rw [hdrop, hdigits, if_pos ⟨List.prefix_append _ _, Nat.toDigits_ne_nil, hdot⟩,
    Nat.ofDigitChars_ten_toDigits]

theorem searchLayer_skip {c : Char} {rest : List Char} (h : ¬ "layers.".toList <+: c :: rest) :
    searchLayer (c :: rest) = searchLayer rest := by
  have hnone : layerIndexAt (c :: rest) = none := by
    simp only [layerIndexAt]
    exact if_neg fun hread => h hread.1
  rw [searchLayer, hnone, Option.none_or]

theorem searchLayer_hit {text : List Char} {layer : ℕ} (h : layerIndexAt text = some layer) :
    searchLayer text = some layer := by
  cases text with
  | nil => cases h
  | cons c rest => rw [searchLayer, h, Option.some_or]

/-- The prefix of a model's expert layer names the layer. -/
theorem layerIndex_model (layer : ℕ) :
    layerIndex (String.ofList ("model.".toList ++
      ("layers.".toList ++ (Nat.toDigits 10 layer ++ '.' :: "mlp.experts".toList)))) =
      some layer := by
  have hread := layerIndexAt_digits layer "mlp.experts".toList
  have hother : ∀ c rest, c ≠ 'l' → ¬ "layers.".toList <+: c :: rest :=
    fun c rest hc hstart => hc (List.cons_prefix_cons.mp hstart).1.symm
  rw [layerIndex, String.toList_ofList]
  show searchLayer ('m' :: 'o' :: 'd' :: 'e' :: 'l' :: '.' :: _) = _
  rw [searchLayer_skip (hother _ _ (by decide)), searchLayer_skip (hother _ _ (by decide)),
    searchLayer_skip (hother _ _ (by decide)), searchLayer_skip (hother _ _ (by decide))]
  -- the `l` of `model` is followed by the dot
  rw [searchLayer_skip fun hstart => absurd (List.cons_prefix_cons.mp
    (List.cons_prefix_cons.mp hstart).2).1 (by decide)]
  rw [searchLayer_skip (hother _ _ (by decide))]
  exact searchLayer_hit hread

section
variable {plan : Plan} {layers : List ℕ} {pairs numExperts : ℕ} {coldKind : PairKind}

theorem findEntry_isSome {layer : ℕ} : findEntry plan layer ≠ none ↔
    some layer ∈ plan.map fun entry => layerIndex entry.1 := by
  rw [findEntry, Ne, Option.map_eq_none_iff, List.find?_eq_none, List.mem_map]
  simp only [decide_eq_true_eq, not_forall, not_not, exists_prop]

/-- Asked for as many layers as the plan has, every one is found exactly when the keys name them. -/
theorem names_iff_found (hdistinct : layers.Nodup) (hcount : layers.length = plan.length) :
    Names plan layers ↔ ∀ layer ∈ layers, findEntry plan layer ≠ none := by
  constructor
  · intro hnames layer hlayer
    apply findEntry_isSome.mpr
    exact hnames.mem_iff.mpr (List.mem_map_of_mem hlayer)
  · intro hfound
    have hnodup : (layers.map some).Nodup := hdistinct.map (Option.some_injective ℕ)
    have hsub : layers.map some ⊆ plan.map fun entry => layerIndex entry.1 := by
      intro index hindex
      obtain ⟨layer, hlayer, rfl⟩ := List.mem_map.mp hindex
      exact findEntry_isSome.mp (hfound layer hlayer)
    refine ((hnodup.subperm hsub).perm_of_length_le ?_).symm
    rw [List.length_map, List.length_map, hcount]

/-- The entry of a layer is the only one its number finds. -/
theorem findEntry_plan (hdistinct : layers.Nodup) (hnames : Names plan layers)
    {entry : String × LayerPlan} (hentry : entry ∈ plan) {layer : ℕ}
    (hlayer : layerIndex entry.1 = some layer) : findEntry plan layer = some entry.2 := by
  have hnodup : (plan.map fun entry => layerIndex entry.1).Nodup :=
    hnames.nodup_iff.mpr (hdistinct.map (Option.some_injective ℕ))
  clear hnames
  rw [findEntry]
  induction plan with
  | nil => exact absurd hentry List.not_mem_nil
  | cons first rest ih =>
    rw [List.map_cons, List.nodup_cons] at hnodup
    rw [List.find?_cons]
    rcases List.mem_cons.mp hentry with rfl | hrest
    · rw [decide_eq_true hlayer]
      rfl
    · have hother : ¬ layerIndex first.1 = some layer := by
        intro heq
        apply hnodup.1
        rw [heq, ← hlayer]
        exact List.mem_map_of_mem hrest
      rw [decide_eq_false hother]
      exact ih hrest hnodup.2

/-- Every entry of a plan that names its layers is for one of them. -/
theorem Names.layer (hnames : Names plan layers) {entry : String × LayerPlan}
    (hentry : entry ∈ plan) : ∃ layer ∈ layers, layerIndex entry.1 = some layer := by
  obtain ⟨layer, hlayer, heq⟩ := List.mem_map.mp (hnames.mem_iff.mp (List.mem_map_of_mem hentry))
  exact ⟨layer, hlayer, heq.symm⟩

/-! ## What the tables hold -/

/-- Tables that give both projections the same rows, by the cold experts of a layer. -/
def tablesOf (pairs numExperts coldCode : ℕ) (cold : ℕ → List ℕ) (layers : List ℕ) : RateTables :=
  tabulate (fun layer => (rateTable pairs numExperts (cold layer) coldCode,
    rateTable pairs numExperts (cold layer) coldCode)) layers

/-- The cold experts of a layer. -/
def coldOf (plan : Plan) (layer : ℕ) : List ℕ :=
  ((findEntry plan layer).map LayerPlan.cold).getD []

theorem coldOf_entry (hdistinct : layers.Nodup) (hnames : Names plan layers)
    {entry : String × LayerPlan} (hentry : entry ∈ plan) {layer : ℕ}
    (hlayer : layerIndex entry.1 = some layer) : coldOf plan layer = entry.2.cold := by
  rw [coldOf, findEntry_plan hdistinct hnames hentry hlayer]
  rfl

theorem addLayer_eq {layer : ℕ} (hfound : findEntry plan layer ≠ none) (built : RateTables × ℕ) :
    addLayer plan pairs numExperts coldKind built layer =
      .ok (built.1.insert layer
          (rateTable pairs numExperts (coldOf plan layer) coldKind.code,
            rateTable pairs numExperts (coldOf plan layer) coldKind.code),
        built.2 + (coldOf plan layer).dedup.length) := by
  obtain ⟨entry, hentry⟩ := Option.ne_none_iff_exists'.mp hfound
  rw [addLayer, coldOf, hentry]
  rfl

theorem foldlM_addLayer (hfound : ∀ layer ∈ layers, findEntry plan layer ≠ none)
    (built : RateTables × ℕ) :
    layers.foldlM (addLayer plan pairs numExperts coldKind) built =
      .ok (tabulateOnto (fun layer => (rateTable pairs numExperts (coldOf plan layer) coldKind.code,
          rateTable pairs numExperts (coldOf plan layer) coldKind.code)) built.1 layers,
        built.2 + (layers.map fun layer => (coldOf plan layer).dedup.length).sum) := by
  induction layers generalizing built with
  | nil => rfl
  | cons layer layers ih =>
    obtain ⟨hlayer, hrest⟩ := List.forall_mem_cons.mp hfound
    rw [List.foldlM_cons, addLayer_eq hlayer]
    refine (ih hrest _).trans ?_
    rw [List.map_cons, List.sum_cons, ← Nat.add_assoc]
    rfl

theorem buildRateTables_eq (hfound : ∀ layer ∈ layers, findEntry plan layer ≠ none) :
    buildRateTables plan layers pairs numExperts coldKind =
      .ok (tablesOf pairs numExperts coldKind.code (coldOf plan) layers,
        (layers.map fun layer => (coldOf plan layer).dedup.length).sum) := by
  rw [buildRateTables, foldlM_addLayer hfound, Nat.zero_add]
  rfl

/-- The first layer without an entry ends the tool. -/
theorem foldlM_addLayer_error (built : RateTables × ℕ)
    (hmissing : ∃ layer ∈ layers, findEntry plan layer = none) :
    ∃ layer ∈ layers, findEntry plan layer = none ∧
      layers.foldlM (addLayer plan pairs numExperts coldKind) built =
        .error s!"plan has no entry for layer {layer}" := by
  induction layers generalizing built with
  | nil => exact absurd hmissing (by simp)
  | cons layer layers ih =>
    by_cases hnone : findEntry plan layer = none
    · refine ⟨layer, List.mem_cons_self, hnone, ?_⟩
      rw [List.foldlM_cons, addLayer, hnone]
      rfl
    · have hrest : ∃ layer ∈ layers, findEntry plan layer = none := by
        obtain ⟨other, hother, hmissing⟩ := hmissing
        rcases List.mem_cons.mp hother with rfl | hother
        · exact absurd hmissing hnone
        · exact ⟨other, hother, hmissing⟩
      rw [List.foldlM_cons, addLayer_eq hnone]
      obtain ⟨other, hother, hmissing, herror⟩ := ih _ hrest
      exact ⟨other, List.mem_cons_of_mem layer hother, hmissing, herror⟩

/-- Only `P44` has the code of the hot experts. -/
theorem code_eq_hotCode : coldKind.code = hotCode ↔ coldKind = .p44 := by
  cases coldKind <;> decide

theorem rateRow_getElem {cold : List ℕ} {coldCode e : ℕ} (he : e < numExperts) :
    (rateRow numExperts cold coldCode)[e]? = some (if e ∈ cold then coldCode else hotCode) := by
  rw [rateRow, List.getElem?_map, List.getElem?_range he]
  exact congrArg some (ite_not ..)

theorem coldExactly_tablesOf (hdistinct : layers.Nodup) (hnames : Names plan layers) :
    ColdExactly plan pairs numExperts coldKind
      (tablesOf pairs numExperts coldKind.code (coldOf plan) layers) := by
  intro entry hentry
  obtain ⟨layer, hmem, hlayer⟩ := hnames.layer hentry
  refine ⟨layer, hlayer, _, _, lookup_tabulate _ hdistinct hmem, fun table htable => ?_⟩
  obtain rfl : table = rateTable pairs numExperts entry.2.cold coldKind.code := by
    rw [coldOf_entry hdistinct hnames hentry hlayer] at htable
    rcases List.mem_pair.mp htable with h | h
    · exact h
    · exact h
  refine ⟨List.length_replicate, fun row hrow => ?_⟩
  obtain rfl := (List.mem_replicate.mp hrow).2
  refine ⟨(List.length_map _).trans List.length_range, fun e he => ⟨rateRow_getElem he, ?_⟩⟩
  intro hkind
  rw [rateRow_getElem he, Option.some_inj]
  split
  · next hcold => exact iff_of_true rfl hcold
  · next hhot => exact iff_of_false (fun h => hkind (code_eq_hotCode.mp h.symm)) hhot

/-! ## The mean rate -/

/-- A sum of two values over a list. -/
theorem sum_map_ite_count {ι : Type*} (p : ι → Prop) [DecidablePred p] (xs : List ι) (a b : ℚ) :
    (xs.map fun x => if p x then a else b).sum =
      xs.countP (p ·) * a + (xs.length - xs.countP (p ·)) * b := by
  induction xs with
  | nil => simp
  | cons x xs ih =>
    rw [List.map_cons, List.sum_cons, ih, List.length_cons, List.countP_cons]
    split
    · next hp =>
      rw [if_pos (decide_eq_true hp)]
      push_cast
      ring
    · next hp =>
      rw [if_neg (by rw [decide_eq_false hp]; exact Bool.false_ne_true)]
      push_cast
      ring

/-- The weight of a layer's experts, from the number of hot ones, added over all layers. -/
theorem sum_map_slots (hots : List ℕ) (k n a b : ℚ) :
    (hots.map fun hot : ℕ => k * (hot * a + (n - hot) * b)).sum =
      k * (hots.sum * a + (hots.length * n - hots.sum) * b) := by
  induction hots with
  | nil => simp
  | cons hot hots ih =>
    rw [List.map_cons, List.sum_cons, ih, List.sum_cons, List.length_cons]
    push_cast
    ring

theorem sum_rateRow (w : ℕ → ℚ) (cold : List ℕ) (coldCode : ℕ) :
    ((rateRow numExperts cold coldCode).map w).sum =
      hotSlots numExperts cold * w hotCode +
        (numExperts - hotSlots numExperts cold) * w coldCode := by
  have hcodes : (rateRow numExperts cold coldCode).map w =
      (List.range numExperts).map fun e => if e ∉ cold then w hotCode else w coldCode := by
    rw [rateRow, List.map_map]
    exact List.map_congr_left fun e _ => apply_ite w ..
  rw [hcodes, sum_map_ite_count, List.length_range]
  rfl

/-- All codes of a layer's two tables. -/
theorem sum_tables (w : ℕ → ℚ) (cold : List ℕ) (coldCode : ℕ) :
    (((rateTable pairs numExperts cold coldCode ++
        rateTable pairs numExperts cold coldCode).flatten).map w).sum =
      2 * pairs * (hotSlots numExperts cold * w hotCode +
        (numExperts - hotSlots numExperts cold) * w coldCode) := by
  rw [List.map_flatten, List.sum_flatten, List.map_append, List.map_append, List.sum_append,
    rateTable, List.map_replicate, List.map_replicate, List.sum_replicate, sum_rateRow, nsmul_eq_mul]
  ring

/-- A sum over the layers is one over the entries that are for them. -/
theorem sum_layers (hnames : Names plan layers) {g : ℕ → ℚ} {h : LayerPlan → ℚ}
    (heq : ∀ entry ∈ plan, ∀ layer, layerIndex entry.1 = some layer → g layer = h entry.2) :
    (layers.map g).sum = (plan.map fun entry => h entry.2).sum := by
  have hsum : ((plan.map fun entry => layerIndex entry.1).map fun index => index.elim 0 g).sum =
      ((layers.map some).map fun index => index.elim 0 g).sum := (hnames.map _).sum_eq
  rw [List.map_map, List.map_map] at hsum
  refine hsum.symm.trans (congrArg List.sum (List.map_congr_left fun entry hentry => ?_))
  obtain ⟨layer, -, hlayer⟩ := hnames.layer hentry
  rw [Function.comp_apply, hlayer]
  exact heq entry hentry layer hlayer

/-- Any reading of the codes, added over all slots. -/
theorem sum_slotCodes (hdistinct : layers.Nodup) (hnames : Names plan layers)
    (pairs numExperts : ℕ) (coldKind : PairKind) (w : ℕ → ℚ) :
    ((slotCodes (tablesOf pairs numExperts coldKind.code (coldOf plan) layers)).map w).sum =
      2 * pairs * (planHotSlots plan numExperts * w hotCode +
        (plan.length * numExperts - planHotSlots plan numExperts) * w coldKind.code) := by
  have hslots := sum_map_slots
    (plan.map fun entry => hotSlots numExperts entry.2.cold) (2 * pairs) numExperts
    (w hotCode) (w coldKind.code)
  rw [List.length_map, List.map_map] at hslots
  rw [slotCodes, tablesOf, entries_tabulate _ hdistinct, List.map_flatMap, List.flatMap_def,
    List.sum_flatten, List.map_map, List.map_reverse, List.sum_reverse, List.map_map,
    planHotSlots, ← hslots]
  refine sum_layers hnames (h := fun entry : LayerPlan =>
    2 * pairs * (hotSlots numExperts entry.cold * w hotCode +
      (numExperts - hotSlots numExperts entry.cold) * w coldKind.code)) ?_
  intro entry hentry layer hlayer
  have hcold := coldOf_entry hdistinct hnames hentry hlayer
  simp only [Function.comp_apply, hcold]
  exact sum_tables w entry.2.cold coldKind.code

/-- How many slots there are. -/
theorem length_slotCodes (hdistinct : layers.Nodup) (hnames : Names plan layers) :
    ((slotCodes (tablesOf pairs numExperts coldKind.code (coldOf plan) layers)).length : ℚ) =
      2 * pairs * (plan.length * numExperts) := by
  have hones := sum_slotCodes hdistinct hnames pairs numExperts coldKind fun _ => 1
  rw [List.map_const', List.sum_replicate, nsmul_one] at hones
  rw [hones]
  ring

/-- The expected bits are the mean rate where the target is the share of hot experts, or where
the share does not matter. -/
theorem isMean_iff (hdistinct : layers.Nodup) (hnames : Names plan layers) (hpairs : 0 < pairs)
    (bits : ℕ → ℚ) (target : ℚ) :
    IsMean (effectiveBits (bits hotCode) (bits coldKind.code) target)
        ((slotCodes (tablesOf pairs numExperts coldKind.code (coldOf plan) layers)).map bits) ↔
      bits hotCode = bits coldKind.code ∨
        target * (plan.length * numExperts) = planHotSlots plan numExperts := by
  have hpairs : (2 * pairs : ℚ) ≠ 0 := by positivity
  have hdifference : effectiveBits (bits hotCode) (bits coldKind.code) target *
        (2 * pairs * (plan.length * numExperts)) -
      2 * pairs * (planHotSlots plan numExperts * bits hotCode +
        (plan.length * numExperts - planHotSlots plan numExperts) * bits coldKind.code) =
      2 * pairs * ((bits hotCode - bits coldKind.code) *
        (target * (plan.length * numExperts) - planHotSlots plan numExperts)) := by
    rw [effectiveBits]
    ring
  rw [IsMean, List.length_map, length_slotCodes hdistinct hnames, sum_slotCodes hdistinct hnames,
    ← sub_eq_zero, hdifference, mul_eq_zero_iff_left hpairs, mul_eq_zero, sub_eq_zero, sub_eq_zero]

/-- Keys that do not name the layers end the tool at one of them. -/
theorem buildRateTables_error (hdistinct : layers.Nodup) (hcount : layers.length = plan.length)
    (hnames : ¬ Names plan layers) :
    ∃ layer ∈ layers, findEntry plan layer = none ∧
      buildRateTables plan layers pairs numExperts coldKind =
        .error s!"plan has no entry for layer {layer}" := by
  apply foldlM_addLayer_error
  by_contra hall
  apply hnames
  apply (names_iff_found hdistinct hcount).mpr
  intro layer hlayer hnone
  exact hall ⟨layer, hlayer, hnone⟩

theorem names_of_build (hdistinct : layers.Nodup) (hcount : layers.length = plan.length)
    {built : RateTables × ℕ}
    (hbuild : buildRateTables plan layers pairs numExperts coldKind = .ok built) :
    Names plan layers := by
  by_contra hnames
  obtain ⟨layer, -, -, herror⟩ : ∃ layer ∈ layers, findEntry plan layer = none ∧
      buildRateTables plan layers pairs numExperts coldKind = .error _ :=
    buildRateTables_error hdistinct hcount hnames
  rw [herror] at hbuild
  cases hbuild

/-- The tables follow every plan whose keys name the layers asked for, and cost what the split
tool expects exactly when its target is the share of hot experts or both rates are read alike.
Other keys end the tool at a layer that none of them names. -/
theorem rateTables_consistent_iff (plan : Plan) {layers : List ℕ} (hdistinct : layers.Nodup)
    (hcount : layers.length = plan.length) {pairs : ℕ} (hpairs : 0 < pairs) (numExperts : ℕ)
    (coldKind : PairKind) (bits : ℕ → ℚ) (target : ℚ) :
    (Consistent plan layers pairs numExperts coldKind bits target ↔
      Names plan layers ∧ (bits hotCode = bits coldKind.code ∨
        target * (plan.length * numExperts) = planHotSlots plan numExperts)) ∧
    (¬ Names plan layers → ∃ layer ∈ layers, findEntry plan layer = none ∧
      buildRateTables plan layers pairs numExperts coldKind =
        .error s!"plan has no entry for layer {layer}") := by
  refine ⟨⟨fun h => ?_, fun h => ?_⟩, buildRateTables_error hdistinct hcount⟩
  · obtain ⟨tables, numCold, hbuild, -, hmean⟩ := h
    have hnames := names_of_build hdistinct hcount hbuild
    rw [buildRateTables_eq ((names_iff_found hdistinct hcount).mp hnames)] at hbuild
    cases hbuild
    exact ⟨hnames, (isMean_iff hdistinct hnames hpairs bits target).mp hmean⟩
  · obtain ⟨hnames, hshare⟩ := h
    exact ⟨_, _, buildRateTables_eq ((names_iff_found hdistinct hcount).mp hnames),
      coldExactly_tablesOf hdistinct hnames,
      (isMean_iff hdistinct hnames hpairs bits target).mpr hshare⟩

/-! ## Plans of the split tool -/

/-- The split tool's entry for a layer of the histogram. -/
structure Planned (target : ℚ) (minHot maxHot : ℕ) (layer : String × List ℕ)
    (entry : String × LayerPlan) : Prop where
  key : entry.1 = layer.1
  numExperts : entry.2.numExperts = layer.2.length
  lists : ∃ coverage,
    splitLayer layer.2 target minHot maxHot = some (entry.2.hot, entry.2.cold, coverage)

variable {target : ℚ} {minHot maxHot : ℕ}

theorem planLayers_planned {hist : List (String × List ℕ)} {plan : Plan}
    (h : planLayers hist target minHot maxHot = some plan) :
    List.Forall₂ (Planned target minHot maxHot) (hist.insertionSort fun a b => a.1 ≤ b.1) plan := by
  refine (mapM_forall₂ h).imp fun layer entry hentry => ?_
  obtain ⟨⟨hot, cold, coverage⟩, hsplit, hentry⟩ := Option.bind_eq_some_iff.mp hentry
  dsimp only at hentry
  split at hentry
  · cases hentry
  · cases hentry
    exact ⟨rfl, rfl, coverage, hsplit⟩

/-- The keys of the plan are those of the histogram. -/
theorem planLayers_names_iff {hist : List (String × List ℕ)} {plan : Plan}
    (h : planLayers hist target minHot maxHot = some plan) :
    Names plan layers ↔ (hist.map fun layer => layerIndex layer.1).Perm (layers.map some) := by
  have hkeys : (plan.map fun entry => layerIndex entry.1) =
      (hist.insertionSort fun a b => a.1 ≤ b.1).map fun layer => layerIndex layer.1 := by
    have hplanned := planLayers_planned h
    generalize hist.insertionSort (fun a b => a.1 ≤ b.1) = sorted at hplanned
    clear h
    induction hplanned with
    | nil => rfl
    | cons hentry _ ih => rw [List.map_cons, List.map_cons, ih, hentry.key]
  have hperm := List.perm_insertionSort (fun a b : String × List ℕ => a.1 ≤ b.1) hist
  rw [Names, hkeys]
  exact (hperm.map fun layer => layerIndex layer.1).congr_left _

/-- Every entry of a plan is one of the histogram's layers. -/
theorem planned_of_mem {hist : List (String × List ℕ)} {plan : Plan}
    (h : planLayers hist target minHot maxHot = some plan) {entry : String × LayerPlan}
    (hentry : entry ∈ plan) : ∃ layer ∈ hist, Planned target minHot maxHot layer entry := by
  have hplanned := planLayers_planned h
  have hlength := hplanned.length_eq
  obtain ⟨i, hi, rfl⟩ := List.mem_iff_getElem.mp hentry
  refine ⟨_, (List.perm_insertionSort _ hist).mem_iff.mp (List.getElem_mem (hlength ▸ hi)), ?_⟩
  exact hplanned.get (hlength ▸ hi) hi

/-- No more experts are hot than the cap allows. -/
theorem hotSlots_le {counts hot cold : List ℕ} {coverage : ℚ}
    (h : splitLayer counts target minHot maxHot = some (hot, cold, coverage)) :
    hotSlots counts.length cold ≤ maxHot := by
  obtain ⟨rfl, rfl⟩ := splitLayer_lists h
  have hsub : (List.range counts.length).filter
      (fun e => e ∉ coldIds counts (hotIds counts target minHot maxHot)) ⊆
        hotIds counts target minHot maxHot := by
    intro e he
    obtain ⟨hlt, hhot⟩ := List.mem_filter.mp he
    have hhot := of_decide_eq_true hhot
    rw [mem_cold, not_and, not_not] at hhot
    exact hhot (List.mem_range.mp hlt)
  have hlength : (hotIds counts target minHot maxHot).length ≤ maxHot := by
    rw [(hot_perm ..).length_eq]
    exact List.length_take_le _ _
  rw [hotSlots, List.countP_eq_length_filter]
  exact ((List.nodup_range.filter _).subperm hsub).length_le.trans hlength

/-- A cap below the target keeps the share of hot experts below it too: such a plan never costs
what the tool expects. -/
theorem capped_inconsistent {hist : List (String × List ℕ)} {plan : Plan}
    (h : planLayers hist target minHot maxHot = some plan)
    (hsized : ∀ layer ∈ hist, layer.2.length = numExperts) (hne : hist ≠ [])
    (hcap : (maxHot : ℚ) < target * numExperts) (hdistinct : layers.Nodup)
    (hcount : layers.length = plan.length) (hpairs : 0 < pairs) {bits : ℕ → ℚ}
    (hbits : bits hotCode ≠ bits coldKind.code) :
    ¬ Consistent plan layers pairs numExperts coldKind bits target := by
  intro hconsistent
  obtain ⟨tables, numCold, hbuild, -, hmean⟩ := hconsistent
  have hnames := names_of_build hdistinct hcount hbuild
  rw [buildRateTables_eq ((names_iff_found hdistinct hcount).mp hnames)] at hbuild
  cases hbuild
  have hshare := ((isMean_iff hdistinct hnames hpairs bits target).mp hmean).resolve_left hbits
  have hcapped : planHotSlots plan numExperts ≤ plan.length * maxHot := by
    have hle := List.sum_le_card_nsmul
      (plan.map fun entry => hotSlots numExperts entry.2.cold) maxHot fun slots hslots => by
        obtain ⟨entry, hentry, rfl⟩ := List.mem_map.mp hslots
        obtain ⟨layer, hlayer, hplanned⟩ := planned_of_mem h hentry
        obtain ⟨coverage, hsplit⟩ := hplanned.lists
        exact hsized layer hlayer ▸ hotSlots_le hsplit
    rwa [List.length_map, nsmul_eq_mul, Nat.cast_id] at hle
  have hsome : 0 < plan.length := by
    rw [← (planLayers_planned h).length_eq, List.length_insertionSort]
    exact List.length_pos_iff.mpr hne
  have hcapped : (planHotSlots plan numExperts : ℚ) ≤ plan.length * maxHot := by
    exact_mod_cast hcapped
  have hsome : (0 : ℚ) < plan.length := by exact_mod_cast hsome
  have hmore := mul_lt_mul_of_pos_left hcap hsome
  rw [← hshare, mul_left_comm] at hcapped
  exact absurd hcapped (not_le.mpr hmore)

/-- One layer of two experts, the second of them cold. -/
def twoExperts : Plan := [("model.layers.0.mlp.experts", ⟨2, [0], [1]⟩)]

/-- Four bits for the hot code, three for another. -/
def fourOrThree (code : ℕ) : ℚ := if code = hotCode then 4 else 3

/-- All hits are on the first of two experts. -/
theorem planLayers_twoExperts (hone : target ≤ 1) :
    planLayers [("model.layers.0.mlp.experts", [1, 0])] target 0 2 = some twoExperts := by
  have hfull : target ≤ trueDiv 1 1 := by rwa [trueDiv_self one_pos]
  have horder : order [1, 0] = [0, 1] := by decide
  have hgrow : grow [1, 0] target 0 [1, 0].sum (order [1, 0]) [] 0 = [0] := by
    rw [horder, grow]
    exact if_pos ⟨Nat.zero_le _, hfull⟩
  have hhot : hotIds [1, 0] target 0 2 = [0] := by
    simp only [hotIds, candidates, hgrow]
    rfl
  have hsplit : splitLayer [1, 0] target 0 2 = some ([0], [1], trueDiv 1 1) := by
    rw [splitLayer_eq (by rw [hhot]; decide), hhot]
    rfl
  rw [planLayers, List.insertionSort_cons, List.insertionSort_nil, List.orderedInsert_nil,
    List.mapM_cons, List.mapM_nil]
  dsimp only
  rw [hsplit]
  rfl

/-- The target is the share of hot experts; under a key without a layer number the tool ends. -/
theorem rateTables_consistent_half :
    planLayers [("model.layers.0.mlp.experts", [1, 0])] (1 / 2) 0 2 = some twoExperts ∧
      Consistent twoExperts [0] 1 2 .p33 fourOrThree (1 / 2) ∧
      ∃ layer ∈ [0], buildRateTables [("experts", ⟨2, [0], [1]⟩)] [0] 1 2 .p33 =
        .error s!"plan has no entry for layer {layer}" := by
  refine ⟨planLayers_twoExperts (by norm_num), ?_, ?_⟩
  · exact (rateTables_consistent_iff twoExperts (List.nodup_singleton 0) rfl one_pos 2 .p33
      fourOrThree (1 / 2)).1.mpr ⟨by decide +kernel, .inr (by decide +kernel)⟩
  · obtain ⟨layer, hlayer, -, herror⟩ := (rateTables_consistent_iff [("experts", ⟨2, [0], [1]⟩)]
      (List.nodup_singleton 0) rfl one_pos 2 .p33 fourOrThree (1 / 2)).2 (by decide +kernel)
    exact ⟨layer, hlayer, herror⟩

/-- The tool expects four bits where half the slots have three. -/
theorem full_coverage_inconsistent :
    planLayers [("model.layers.0.mlp.experts", [1, 0])] 1 0 2 = some twoExperts ∧
      ¬ Consistent twoExperts [0] 1 2 .p33 fourOrThree 1 := by
  refine ⟨planLayers_twoExperts le_rfl, fun h => ?_⟩
  obtain ⟨tables, numCold, hbuild, -, hmean⟩ := h
  cases hbuild
  exact absurd hmean (by decide +kernel)

end

end SparkKit.Tailquant.RatePlan
