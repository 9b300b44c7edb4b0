import SparkKit.Lib.BitSum
import SparkKit.Lib.FirstMin
import SparkKit.Lib.Scatter
import Mathlib.Algebra.Order.Group.Unbundled.Abs

/-!
# The ring tile codec

A tile of 256 values is stored in a ring of `256 * bits` bits. Element `t` owns `bits` of
them and is decoded from the sixteen bits that end with its own, so it also depends on bits
its predecessors chose; the first windows wrap onto the end of the ring. The encoder picks
each element's own bits greedily, in order, and may pass over the tile again.
-/
namespace SparkKit.Tailquant.RingCodec

open SparkKit.Lib.BitSum SparkKit.Lib.FirstMin SparkKit.Lib.Scatter

/-- A tensor of zeros and ones, read and written below `totalBits`. -/
abbrev Ring := ℕ → Bool

def zeroRing : Ring := fun _ => false

def totalBits (bits : ℕ) : ℕ := bits * 256

/-- `(lo + arange(16)) % total_bits` at `j`, where `lo` is itself a remainder. -/
def windowIndex (bits t j : ℕ) : ℕ :=
  let lo := (((t + 1) * bits : ℕ) - 16 : ℤ) % totalBits bits
  ((lo + j) % totalBits bits).toNat

/-- `(base + b) % total_bits`, the place of bit `b` of the element's own field. -/
def fieldIndex (bits t b : ℕ) : ℕ :=
  let base := t * bits % totalBits bits
  (base + b) % totalBits bits

/-- `ring[(base + b) % total_bits] = (choice >> b) & 1` for each `b`. -/
def writeField (bits : ℕ) (ring : Ring) (t choice : ℕ) : Ring :=
  scatter ((List.range bits).map fun b => (fieldIndex bits t b, choice.testBit b)) ring

/-- `w0`, the sixteen bits of the element's window. -/
def codeword (bits : ℕ) (ring : Ring) (t : ℕ) : ℕ :=
  bitSum (fun j => ring (windowIndex bits t j)) 16

/-- The ring as 32-bit words, bit `i` of the stream in bit `i % 32` of word `i / 32`. -/
def packWords (bits : ℕ) (ring : Ring) : List ℕ :=
  (List.range (totalBits bits / 32)).map fun wi =>
    (List.range 32).foldl (fun v b => v ||| (ring (wi * 32 + b)).toNat <<< b) 0

/-- `(w[i // 32] >> (i % 32)) & 1` -/
def wordBit (words : List ℕ) (i : ℕ) : Bool := (words.getD (i / 32) 0).testBit (i % 32)

variable {V : Type*} [AddCommGroup V] [LinearOrder V] (bits : ℕ) (lut : ℕ → V) (flat : ℕ → V)

/-! ## `mcg_codec.py` -/

/-- `tile_decode` at element `t` of the flat tile. -/
def tileDecode (words : List ℕ) (t : ℕ) : V :=
  let w := words.map (· &&& 0xFFFFFFFF)
  lut (bitSum (fun j => wordBit w (windowIndex bits t j)) 16)

/-- `err` of one choice for the element's own field. -/
def trialError (ring : Ring) (t choice : ℕ) : V :=
  |lut (codeword bits (writeField bits ring t choice) t) - flat t|

/-- `best_bits` -/
def bestBits (ring : Ring) (t : ℕ) : ℕ := argmin (trialError bits lut flat ring t) (1 <<< bits)

def encodeElement (ring : Ring) (t : ℕ) : Ring :=
  writeField bits ring t (bestBits bits lut flat ring t)

/-- The elements below `n` of one pass. -/
def encodeUpTo (ring : Ring) (n : ℕ) : Ring := (List.range n).foldl (encodeElement bits lut flat) ring

/-- The ring after `p` whole passes. -/
def afterPasses (p : ℕ) : Ring := (encodeUpTo bits lut flat · 256)^[p] zeroRing

/-- `tile_encode`: the words and the ring they pack. -/
def tileEncode (refinePasses : ℕ) : List ℕ × Ring :=
  let ring := afterPasses bits lut flat (refinePasses + 1)
  (packWords bits ring, ring)

/-- The ring as it stands when the last pass comes to element `t`. -/
def lastPassRing (refinePasses t : ℕ) : Ring :=
  encodeUpTo bits lut flat (afterPasses bits lut flat refinePasses) t

/-- The table value the encoder settles on for `t` in its last pass. -/
def chosenValue (refinePasses t : ℕ) : V :=
  lut (codeword bits (encodeElement bits lut flat (lastPassRing bits lut flat refinePasses t) t) t)

/-! ## `roundtrip.py` -/

/-- One turn of the search in `encode_tile`, which writes its trials into the ring itself. -/
def tryChoice (t : ℕ) (s : Ring × Option (V × ℕ)) (c : ℕ) : Ring × Option (V × ℕ) :=
  let ring := writeField bits s.1 t c
  (ring, improve s.2 |lut (codeword bits ring t) - flat t| c)

/-- One element of `encode_tile`. -/
def encodeTileElement (ring : Ring) (t : ℕ) : Ring :=
  let searched := (List.range (1 <<< bits)).foldl (tryChoice bits lut flat t) (ring, none)
  writeField bits searched.1 t ((searched.2.map Prod.snd).getD 0)

/-- The ring of `encode_tile` after the elements below `n`. -/
def encodeTileUpTo (n : ℕ) : Ring := (List.range n).foldl (encodeTileElement bits lut flat) zeroRing

/-- `encode_tile` -/
def encodeTile : List ℕ :=
  let ring := encodeTileUpTo bits lut flat 256
  (List.range (totalBits bits / 32)).map fun wi => bitSum (fun b => ring (wi * 32 + b)) 32

/-- `decode_tile` at element `t`. -/
def decodeTile (words : List ℕ) (t : ℕ) : V :=
  lut (bitSum (fun j => wordBit words (windowIndex bits t j)) 16)

/-! ## Where the bits of an element are -/

section
variable {bits} {t j b i choice : ℕ}

theorem succ_mul_bits_le (bits : ℕ) {t : ℕ} (ht : t < 256) : (t + 1) * bits ≤ totalBits bits := by
  rw [totalBits, Nat.mul_comm bits]
  exact Nat.mul_le_mul_right bits ht

/-- The other two files take the remainder of the whole sum. -/
theorem windowIndex_eq_emod (bits t j : ℕ) :
    windowIndex bits t j = ((((t + 1) * bits : ℕ) - 16 + j : ℤ) % totalBits bits).toNat := by
  simp only [windowIndex, Int.emod_add_emod]

theorem windowIndex_of_le (ht : t < 256) (hj : j < 16) (h : 16 ≤ (t + 1) * bits + j) :
    windowIndex bits t j = (t + 1) * bits + j - 16 := by
  have hle := succ_mul_bits_le bits ht
  rw [windowIndex_eq_emod, Int.emod_eq_of_lt (by omega) (by omega)]
  omega

theorem windowIndex_wrap (hbits : 0 < bits) (h : (t + 1) * bits + j < 16) :
    windowIndex bits t j = totalBits bits + ((t + 1) * bits + j) - 16 := by
  have htotal : totalBits bits = bits * 256 := rfl
  rw [windowIndex_eq_emod, ← Int.add_emod_right, Int.emod_eq_of_lt (by omega) (by omega)]
  omega

theorem fieldIndex_eq (ht : t < 256) (hb : b < bits) : fieldIndex bits t b = t * bits + b := by
  have hle := succ_mul_bits_le bits ht
  have hsucc : (t + 1) * bits = t * bits + bits := Nat.succ_mul t bits
  simp only [fieldIndex]
  rw [Nat.mod_eq_of_lt (show t * bits < totalBits bits by omega), Nat.mod_eq_of_lt (by omega)]

theorem mem_fieldWrites (ht : t < 256) {v : Bool} :
    (i, v) ∈ ((List.range bits).map fun b => (fieldIndex bits t b, choice.testBit b)) ↔
      ∃ b < bits, i = t * bits + b ∧ v = choice.testBit b := by
  rw [List.mem_map]
  constructor
  · intro h
    obtain ⟨b, hb, heq⟩ := h
    have hb := List.mem_range.mp hb
    rw [fieldIndex_eq ht hb] at heq
    exact ⟨b, hb, (congrArg Prod.fst heq).symm, (congrArg Prod.snd heq).symm⟩
  · intro h
    obtain ⟨b, hb, rfl, rfl⟩ := h
    exact ⟨b, List.mem_range.mpr hb, by rw [fieldIndex_eq ht hb]⟩

theorem writeField_own (ring : Ring) (ht : t < 256) (hb : b < bits) :
    writeField bits ring t choice (t * bits + b) = choice.testBit b := by
  refine scatter_of_unique ((mem_fieldWrites ht).mpr ⟨b, hb, rfl, rfl⟩) (fun u hu => ?_) ring
  obtain ⟨b', -, hb', rfl⟩ := (mem_fieldWrites ht).mp hu
  rw [Nat.add_left_cancel hb']

theorem writeField_other (ring : Ring) (ht : t < 256) (h : i < t * bits ∨ (t + 1) * bits ≤ i) :
    writeField bits ring t choice i = ring i := by
  refine scatter_of_notMem (fun v hv => ?_) ring
  obtain ⟨b, hb, rfl, -⟩ := (mem_fieldWrites ht).mp hv
  rw [Nat.succ_mul] at h
  omega

/-- A field written twice holds the second choice. -/
theorem writeField_writeField (ring : Ring) (ht : t < 256) (c c' : ℕ) :
    writeField bits (writeField bits ring t c) t c' = writeField bits ring t c' := by
  funext i
  by_cases hown : t * bits ≤ i ∧ i < (t + 1) * bits
  · have hi : i = t * bits + (i - t * bits) := by omega
    have hb : i - t * bits < bits := by
      have hsucc : (t + 1) * bits = t * bits + bits := Nat.succ_mul t bits
      omega
    rw [hi, writeField_own _ ht hb, writeField_own _ ht hb]
  · rw [writeField_other _ ht (by omega), writeField_other _ ht (by omega),
      writeField_other _ ht (by omega)]

theorem writeField_congr {ring ring' : Ring} (ht : t < 256) (h : i < t * bits → ring i = ring' i)
    (hi : i < (t + 1) * bits) :
    writeField bits ring t choice i = writeField bits ring' t choice i := by
  rcases Nat.lt_or_ge i (t * bits) with hlt | hge
  · rw [writeField_other _ ht (.inl hlt), writeField_other _ ht (.inl hlt), h hlt]
  · have hb : i - t * bits < bits := by
      have hsucc : (t + 1) * bits = t * bits + bits := Nat.succ_mul t bits
      omega
    have hi' : i = t * bits + (i - t * bits) := by omega
    rw [hi', writeField_own _ ht hb, writeField_own _ ht hb]

/-- A window that does not wrap is made of bits up to the element's own field. -/
theorem codeword_congr {ring ring' : Ring} (ht : t < 256) (hwrap : 16 ≤ (t + 1) * bits)
    (h : ∀ i < (t + 1) * bits, ring i = ring' i) : codeword bits ring t = codeword bits ring' t := by
  refine bitSum_congr fun j hj => ?_
  rw [windowIndex_of_le ht hj (by omega)]
  exact h _ (by omega)

end

/-! ## Which bits are final -/

section
variable {bits lut flat} {t n m i : ℕ}

/-- What a pass has written up to an element stays to its end, however it chooses. -/
theorem foldl_writeField_final (choose : Ring → ℕ → ℕ) (ring : Ring) (hmn : m ≤ n) (hn : n ≤ 256)
    (hi : i < m * bits) :
    (List.range n).foldl (fun ring t => writeField bits ring t (choose ring t)) ring i =
      (List.range m).foldl (fun ring t => writeField bits ring t (choose ring t)) ring i := by
  induction n, hmn using Nat.le_induction with
  | base => rfl
  | succ n hmn ih =>
    have hle : m * bits ≤ n * bits := Nat.mul_le_mul_right bits hmn
    rw [List.range_succ, List.foldl_append, List.foldl_cons, List.foldl_nil,
      writeField_other _ (by omega) (.inl (by omega))]
    exact ih (by omega)

theorem encodeUpTo_succ (ring : Ring) (n : ℕ) :
    encodeUpTo bits lut flat ring (n + 1) =
      encodeElement bits lut flat (encodeUpTo bits lut flat ring n) n := by
  rw [encodeUpTo, List.range_succ, List.foldl_append]
  rfl

theorem encodeUpTo_final (ring : Ring) (hmn : m ≤ n) (hn : n ≤ 256) (hi : i < m * bits) :
    encodeUpTo bits lut flat ring n i = encodeUpTo bits lut flat ring m i :=
  foldl_writeField_final (bestBits bits lut flat) ring hmn hn hi

theorem afterPasses_succ (p : ℕ) :
    afterPasses bits lut flat (p + 1) = encodeUpTo bits lut flat (afterPasses bits lut flat p) 256 :=
  Function.iterate_succ_apply' _ p zeroRing

/-- Up to its own field the ring is final once the last pass has been over an element. -/
theorem lastPass_final {p : ℕ} (ht : t < 256) (hi : i < (t + 1) * bits) :
    afterPasses bits lut flat (p + 1) i =
      encodeElement bits lut flat (lastPassRing bits lut flat p t) t i := by
  rw [afterPasses_succ, encodeUpTo_final _ ht (Nat.le_refl 256) hi, encodeUpTo_succ]
  rfl

end

/-! ## The packed words -/

section
variable {bits : ℕ} {i : ℕ}

theorem wordBit_of_words (word : (ℕ → Bool) → ℕ) (ring : Ring)
    (hword : ∀ f, word f = bitSum f 32) (hi : i < totalBits bits) :
    wordBit ((List.range (totalBits bits / 32)).map fun wi => word fun b => ring (wi * 32 + b)) i =
      ring i := by
  have htotal : totalBits bits = bits * 256 := rfl
  have hwi : i / 32 < totalBits bits / 32 := by omega
  rw [wordBit, List.getD_eq_getElem?_getD, List.getElem?_map, List.getElem?_range hwi,
    Option.map_some, Option.getD_some, hword, testBit_bitSum_of_lt (Nat.mod_lt i (by decide)),
    Nat.mul_comm, Nat.div_add_mod]

/-- The emitted stream is the ring. -/
theorem wordBit_packWords (ring : Ring) (hi : i < totalBits bits) :
    wordBit (packWords bits ring) i = ring i :=
  wordBit_of_words (fun f => (List.range 32).foldl (fun v b => v ||| (f b).toNat <<< b) 0) ring
    (fun f => foldl_or_eq_bitSum f 32) hi

theorem wordBit_masked (words : List ℕ) (i : ℕ) :
    wordBit (words.map (· &&& 0xFFFFFFFF)) i = wordBit words i := by
  have hmask : (0xFFFFFFFF : ℕ).testBit (i % 32) = true := by
    have h := Nat.testBit_two_pow_sub_one 32 (i % 32)
    rw [decide_eq_true (Nat.mod_lt i (by decide))] at h
    exact h
  rw [wordBit, wordBit, List.getD_eq_getElem?_getD, List.getD_eq_getElem?_getD, List.getElem?_map]
  cases words[i / 32]? with
  | none => rfl
  | some w =>
    show (w &&& 0xFFFFFFFF).testBit (i % 32) = w.testBit (i % 32)
    rw [Nat.testBit_and, hmask, Bool.and_true]

end

/-! ## The scalar loop of `roundtrip.py` is one pass -/

section
variable {bits lut flat}

theorem searched_eq (bits : ℕ) (lut flat : ℕ → V) (ring : Ring) {t : ℕ} (ht : t < 256) (n : ℕ) :
    let searched := (List.range n).foldl (tryChoice bits lut flat t) (ring, none)
    searched.2 = (List.range n).foldl
        (fun best c => improve best (trialError bits lut flat ring t c) c) none ∧
      ∀ c, writeField bits searched.1 t c = writeField bits ring t c := by
  induction n with
  | zero => exact ⟨rfl, fun c => rfl⟩
  | succ n ih =>
    obtain ⟨hbest, hring⟩ := ih
    simp only [List.range_succ, List.foldl_append, List.foldl_cons, List.foldl_nil]
    refine ⟨?_, fun c => ?_⟩
    · rw [tryChoice, hring, hbest]
      rfl
    · rw [tryChoice, writeField_writeField _ ht, hring]

theorem encodeTileElement_eq (ring : Ring) {t : ℕ} (ht : t < 256) :
    encodeTileElement bits lut flat ring t = encodeElement bits lut flat ring t := by
  obtain ⟨hbest, hring⟩ := searched_eq bits lut flat ring ht (1 <<< bits)
  rw [encodeTileElement, hring, hbest]
  rfl

theorem encodeTileUpTo_eq {n : ℕ} (hn : n ≤ 256) :
    encodeTileUpTo bits lut flat n = encodeUpTo bits lut flat zeroRing n := by
  refine List.foldl_ext _ _ zeroRing fun ring t ht => ?_
  exact encodeTileElement_eq ring ((List.mem_range.mp ht).trans_le hn)

/-- `encode_tile` emits what `tile_encode` emits without refinement. -/
theorem wordBit_encodeTile {i : ℕ} (hi : i < totalBits bits) :
    wordBit (encodeTile bits lut flat) i = encodeUpTo bits lut flat zeroRing 256 i := by
  rw [encodeTile, wordBit_of_words (fun f => bitSum f 32) _ (fun _ => rfl) hi,
    encodeTileUpTo_eq (Nat.le_refl 256)]

end

/-! ## What the decoder reads -/

section
variable {bits lut flat} {t : ℕ}

/-- Words whose stream is the last pass's ring up to an element's field decode to the value
chosen for it, and no other choice of that field would have been closer. -/
theorem decoded_of_final {p : ℕ} {words : List ℕ} (ht : t < 256) (hwrap : 16 ≤ (t + 1) * bits)
    (hwords : ∀ i < totalBits bits, wordBit words i = afterPasses bits lut flat (p + 1) i) :
    decodeTile bits lut words t = chosenValue bits lut flat p t ∧
      ∀ choice < 2 ^ bits,
        |decodeTile bits lut words t - flat t| ≤ trialError bits lut flat (wordBit words) t choice := by
  have hle := succ_mul_bits_le bits ht
  have hfinal : ∀ i < (t + 1) * bits, wordBit words i =
      encodeElement bits lut flat (lastPassRing bits lut flat p t) t i := by
    intro i hi
    rw [hwords i (by omega), lastPass_final ht hi]
  have hdecode : decodeTile bits lut words t = chosenValue bits lut flat p t :=
    congrArg lut (codeword_congr ht hwrap hfinal)
  refine ⟨hdecode, fun choice hchoice => ?_⟩
  have htrial : trialError bits lut flat (wordBit words) t choice =
      trialError bits lut flat (lastPassRing bits lut flat p t) t choice := by
    have hcode : codeword bits (writeField bits (wordBit words) t choice) t =
        codeword bits (writeField bits (lastPassRing bits lut flat p t) t choice) t := by
      refine codeword_congr ht hwrap fun i hi => writeField_congr ht (fun hlt => ?_) hi
      rw [hfinal i hi, encodeElement, writeField_other _ ht (.inl hlt)]
    rw [trialError, trialError, hcode]
  have hmin := argmin_isFirstMin (trialError bits lut flat (lastPassRing bits lut flat p t) t)
    (n := 1 <<< bits) (by rw [Nat.one_shiftLeft]; exact Nat.two_pow_pos bits)
  rw [hdecode, htrial]
  exact hmin.le choice (by rwa [Nat.one_shiftLeft])

omit [AddCommGroup V] [LinearOrder V] in
theorem tileDecode_eq (words : List ℕ) (t : ℕ) :
    tileDecode bits lut words t = decodeTile bits lut words t := by
  simp only [tileDecode, decodeTile, wordBit_masked]

end

/-- Both codecs give back, at every element whose window does not wrap, the table value chosen
in the last pass, and its error is the least of all choices for the element's own field. -/
theorem decode_returns_chosen {t : ℕ} (ht : t < 256) (hwrap : 16 ≤ (t + 1) * bits) :
    (∀ refinePasses,
      let words := (tileEncode bits lut flat refinePasses).1
      tileDecode bits lut words t = chosenValue bits lut flat refinePasses t ∧
        ∀ choice < 2 ^ bits, |tileDecode bits lut words t - flat t| ≤
          trialError bits lut flat (wordBit words) t choice) ∧
    let words := encodeTile bits lut flat
    decodeTile bits lut words t = lut (codeword bits (encodeTileUpTo bits lut flat (t + 1)) t) ∧
      ∀ choice < 2 ^ bits, |decodeTile bits lut words t - flat t| ≤
        trialError bits lut flat (wordBit words) t choice := by
  refine ⟨fun p => ?_, ?_⟩
  · simp only [tileDecode_eq]
    exact decoded_of_final ht hwrap fun i hi => wordBit_packWords _ hi
  · have hchosen : lut (codeword bits (encodeTileUpTo bits lut flat (t + 1)) t) =
        chosenValue bits lut flat 0 t := by
      rw [encodeTileUpTo_eq ht, encodeUpTo_succ]
      rfl
    simp only [hchosen]
    exact decoded_of_final ht hwrap fun i hi => by rw [wordBit_encodeTile hi, afterPasses_succ]; rfl

theorem decode_returns_chosen_at_five :
    let lut : ℕ → ℤ := fun w => w
    ∀ refinePasses,
      let words := (tileEncode 4 lut (fun _ => 0) refinePasses).1
      tileDecode 4 lut words 5 = chosenValue 4 lut (fun _ => 0) refinePasses 5 ∧
        ∀ choice < 2 ^ 4, |tileDecode 4 lut words 5 - 0| ≤
          trialError 4 lut (fun _ => 0) (wordBit words) 5 choice :=
  (decode_returns_chosen 4 (fun w => (w : ℤ)) (fun _ => 0) (t := 5) (by decide) (by decide)).1

end SparkKit.Tailquant.RingCodec
