import SparkKit.Graphs.Tables

/-!
# The text of a ladder

How `_parse` splits `VLLM_ADAPTIVE_SPEC_DEPTHS` and reads its tokens, and how a ladder is
written back. Digits and blanks are the ASCII ones.
-/
namespace SparkKit.Depth.LadderText

open SparkKit.Graphs.DepthLadder
open SparkKit.Graphs.Tables (sortedSet_pairwise)

/-- The characters `str.strip` removes. -/
def isBlank (c : Char) : Bool := (9 ≤ c.toNat && c.toNat ≤ 13) || (28 ≤ c.toNat && c.toNat ≤ 32)

def strip (tok : List Char) : List Char :=
  ((tok.dropWhile isBlank).reverse.dropWhile isBlank).reverse

/-- Digits, with single underscores allowed between them. -/
def digitsToNat (digits : List Char) : Option ℕ :=
  let groups := digits.splitOn '_'
  if groups.all fun group => !group.isEmpty && group.all Char.isDigit then
    some (Nat.ofDigitChars 10 groups.flatten 0)
  else none

/-- `int(tok)` -/
def pyInt (tok : List Char) : Option ℤ :=
  match strip tok with
  | '-' :: digits => (digitsToNat digits).map fun n : ℕ => -(n : ℤ)
  | '+' :: digits => (digitsToNat digits).map fun n : ℕ => (n : ℤ)
  | digits => (digitsToNat digits).map fun n : ℕ => (n : ℤ)

/-- `int(tok) for tok in text.split(",") if tok.strip()` -/
def readTokens (text : String) : LadderTokens :=
  ((text.toList.splitOn ',').filter fun tok => !(strip tok).isEmpty).map pyInt

/-- A ladder as the variable spells it. -/
def renderLadder (ladder : List ℕ) : String := ",".intercalate (ladder.map Nat.repr)

/-! ## Reading back what was written -/

theorem isDigit_toNat {c : Char} (h : c.isDigit) : 48 ≤ c.toNat ∧ c.toNat ≤ 57 := by
  simp only [Char.isDigit, Bool.and_eq_true, decide_eq_true_eq] at h
  exact ⟨h.1, h.2⟩

theorem isBlank_of_isDigit {c : Char} (h : c.isDigit) : isBlank c = false := by
  have hrange := isDigit_toNat h
  simp only [isBlank, Bool.or_eq_false_iff, Bool.and_eq_false_iff, decide_eq_false_iff_not]
  omega

theorem dropWhile_isBlank {digits : List Char} (h : ∀ c ∈ digits, c.isDigit) :
    digits.dropWhile isBlank = digits := by
  cases digits with
  | nil => rfl
  | cons c digits =>
    rw [List.dropWhile_cons_of_neg]
    rw [isBlank_of_isDigit (h c List.mem_cons_self)]
    exact Bool.false_ne_true

theorem strip_digits {digits : List Char} (h : ∀ c ∈ digits, c.isDigit) :
    strip digits = digits := by
  rw [strip, dropWhile_isBlank h, dropWhile_isBlank (fun c hc => h c (List.mem_reverse.mp hc)),
    List.reverse_reverse]

theorem toDigits_isDigit (n : ℕ) : ∀ c ∈ Nat.toDigits 10 n, c.isDigit := fun _ hc =>
  Nat.isDigit_of_mem_toDigits (by decide) (by decide) hc

theorem digitsToNat_toDigits (n : ℕ) : digitsToNat (Nat.toDigits 10 n) = some n := by
  have hsplit : (Nat.toDigits 10 n).splitOn '_' = [Nat.toDigits 10 n] :=
    List.splitOn_eq_singleton Nat.underscore_not_in_toDigits
  rw [digitsToNat, hsplit]
  have hall : (Nat.toDigits 10 n).all Char.isDigit := List.all_eq_true.mpr (toDigits_isDigit n)
  have hne : (Nat.toDigits 10 n).isEmpty = false :=
    List.isEmpty_eq_false_iff.mpr Nat.toDigits_ne_nil
  simp [hall, hne, Nat.ofDigitChars_ten_toDigits]

theorem pyInt_toDigits (n : ℕ) : pyInt (Nat.toDigits 10 n) = some (n : ℤ) := by
  have hdigits := toDigits_isDigit n
  have hread := digitsToNat_toDigits n
  rw [pyInt, strip_digits hdigits]
  -- a digit is neither sign
  split
  · rename_i digits heq
    exact absurd (hdigits '-' (heq ▸ List.mem_cons_self)) (by decide)
  · rename_i digits heq
    exact absurd (hdigits '+' (heq ▸ List.mem_cons_self)) (by decide)
  · rw [hread]
    rfl

theorem readTokens_renderLadder {ladder : List ℕ} (hne : ladder ≠ []) :
    readTokens (renderLadder ladder) = ladder.map fun depth : ℕ => some (depth : ℤ) := by
  have htoks : (renderLadder ladder).toList.splitOn ',' = ladder.map (Nat.toDigits 10) := by
    rw [renderLadder, String.toList_intercalate, List.map_map]
    have hrepr : String.toList ∘ Nat.repr = Nat.toDigits 10 := funext fun n => Nat.toList_repr
    rw [hrepr]
    refine List.splitOn_intercalate ',' ?_ (by simpa using hne)
    intro digits hdigits hcomma
    obtain ⟨n, -, rfl⟩ := List.mem_map.mp hdigits
    exact absurd (toDigits_isDigit n ',' hcomma) (by decide)
  rw [readTokens, htoks, List.filter_eq_self.mpr, List.map_map]
  · exact List.map_congr_left fun n _ => pyInt_toDigits n
  · intro digits hdigits
    obtain ⟨n, -, rfl⟩ := List.mem_map.mp hdigits
    rw [strip_digits (toDigits_isDigit n), List.isEmpty_eq_false_iff.mpr Nat.toDigits_ne_nil]
    rfl

/-! ## Parsing is a normalisation -/

/-- What a parsed ladder is. -/
structure IsLadder (maxNumSpecTokens : ℕ) (ladder : List ℕ) : Prop where
  max_mem : maxNumSpecTokens ∈ ladder
  bounds : ∀ depth ∈ ladder, 1 ≤ depth ∧ depth ≤ maxNumSpecTokens
  sorted : ladder.Pairwise (· < ·)

theorem parse_isLadder {maxNumSpecTokens : ℕ} {raw : LadderTokens} {ladder : List ℕ}
    (h : parseAdaptiveSpecDepthLadder maxNumSpecTokens raw = .ok ladder) :
    IsLadder maxNumSpecTokens ladder := by
  refine ⟨(ladder_bounds h).1, (ladder_bounds h).2, ?_⟩
  rw [parseAdaptiveSpecDepthLadder] at h
  split at h
  · cases h
  · obtain rfl := Except.ok.inj h
    exact sortedSet_pairwise _

theorem sortedSet_eq {xs ladder : List ℕ} (hsorted : ladder.Pairwise (· < ·))
    (hmem : ∀ x, x ∈ xs ↔ x ∈ ladder) : sortedSet xs = ladder :=
  (sortedSet_pairwise xs).eq_of_mem_iff hsorted fun x => by rw [mem_sortedSet, hmem]

theorem parseDepths_ladder (ladder : List ℕ) :
    parseDepths (ladder.map fun depth : ℕ => some (depth : ℤ)) =
      some (sortedSet (ladder.map fun depth : ℕ => (depth : ℤ))) := by
  have hread : (ladder.map fun depth : ℕ => some (depth : ℤ)).mapM id =
      some (ladder.map fun depth : ℕ => (depth : ℤ)) := by
    induction ladder with
    | nil => rfl
    | cons depth ladder ih =>
      rw [List.map_cons, List.mapM_cons, ih]
      rfl
  rw [parseDepths, hread]
  rfl

/-- A parsed ladder, written out and parsed again, is itself. -/
theorem parse_renderLadder {maxNumSpecTokens : ℕ} {ladder : List ℕ}
    (h : IsLadder maxNumSpecTokens ladder) :
    parseAdaptiveSpecDepthLadder maxNumSpecTokens (readTokens (renderLadder ladder)) =
      .ok ladder := by
  rw [readTokens_renderLadder (List.ne_nil_of_mem h.max_mem), parseAdaptiveSpecDepthLadder, if_neg,
    parseDepths_ladder]
  · refine congrArg Except.ok (sortedSet_eq h.sorted fun x => ?_)
    simp only [Option.orElse_some, Option.getD_some, List.mem_cons, List.mem_map, List.mem_filter,
      mem_sortedSet, decide_eq_true_eq]
    constructor
    · rintro (rfl | ⟨_, ⟨⟨depth, hdepth, rfl⟩, -⟩, rfl⟩)
      · exact h.max_mem
      · exact hdepth
    · intro hx
      have hbound := h.bounds x hx
      exact Or.inr ⟨x, ⟨⟨x, hx, rfl⟩, by omega⟩, rfl⟩
  · have hbound := h.bounds _ h.max_mem
    omega

end SparkKit.Depth.LadderText
