/-!
# Computations that may raise

Inversion of a successful bind and of a successful fold, where a fold that raises does so, and
folds that agree step by step.
-/
namespace SparkKit.Lib.Outcome

variable {ε α β : Type _}

/-- A bind succeeds through a successful first part. -/
theorem bind_ok {x : Except ε α} {f : α → Except ε β} {b : β} (h : (x >>= f) = .ok b) :
    ∃ a, x = .ok a ∧ f a = .ok b := by
  cases x with
  | error e => cases h
  | ok a => exact ⟨a, rfl, h⟩

/-- A bind raises in its first part or in the second. -/
theorem bind_error {x : Except ε α} {f : α → Except ε β} {e : ε} (h : (x >>= f) = .error e) :
    x = .error e ∨ ∃ a, x = .ok a ∧ f a = .error e := by
  cases x with
  | error e' =>
    cases h
    exact .inl rfl
  | ok a => exact .inr ⟨a, rfl, h⟩

/-- What the start has and each successful step keeps, a successful fold has. -/
theorem foldlM_ok {f : β → α → Except ε β} {I : List α → β → Prop} {b b' : β} {xs : List α}
    (hinit : I [] b)
    (hstep : ∀ done x c c', x ∈ xs → I done c → f c x = .ok c' → I (done ++ [x]) c')
    (h : xs.foldlM f b = .ok b') : I xs b' := by
  suffices hgen : ∀ rest done c, (∀ x ∈ rest, x ∈ xs) → I done c →
      rest.foldlM f c = .ok b' → I (done ++ rest) b' from
    hgen xs [] b (fun _ hx => hx) hinit h
  intro rest
  induction rest with
  | nil =>
    intro done c _ hc h
    rw [List.append_nil]
    cases h
    exact hc
  | cons x rest ih =>
    intro done c hsub hc h
    rw [List.foldlM_cons] at h
    obtain ⟨c', hx, hxs⟩ := bind_ok h
    have hnext := hstep done x c c' (hsub x List.mem_cons_self) hc hx
    have hfinal := ih (done ++ [x]) c' (fun y hy => hsub y (List.mem_cons_of_mem x hy)) hnext hxs
    rwa [List.append_assoc] at hfinal

/-- A fold ends well, or an element raises where the invariant holds. -/
theorem foldlM_cases {f : β → α → Except ε β} {I : List α → β → Prop} {b : β} {xs : List α}
    (hinit : I [] b)
    (hstep : ∀ done x rest c c', xs = done ++ x :: rest → I done c → f c x = .ok c' →
      I (done ++ [x]) c') :
    (∃ b', xs.foldlM f b = .ok b' ∧ I xs b') ∨
      ∃ e done x rest c, xs.foldlM f b = .error e ∧ xs = done ++ x :: rest ∧ I done c ∧
        f c x = .error e := by
  suffices hgen : ∀ rest done c, xs = done ++ rest → I done c →
      (∃ b', rest.foldlM f c = .ok b' ∧ I xs b') ∨
        ∃ e done x after c', rest.foldlM f c = .error e ∧ xs = done ++ x :: after ∧ I done c' ∧
          f c' x = .error e from
    hgen xs [] b rfl hinit
  intro rest
  induction rest with
  | nil =>
    intro done c hsplit hc
    rw [List.append_nil] at hsplit
    exact .inl ⟨c, rfl, hsplit ▸ hc⟩
  | cons x rest ih =>
    intro done c hsplit hc
    rw [List.foldlM_cons]
    cases hx : f c x with
    | error e => exact .inr ⟨e, done, x, rest, c, rfl, hsplit, hc, hx⟩
    | ok c' =>
      have hnext := hstep done x rest c c' hsplit hc hx
      exact ih (done ++ [x]) c' (by rw [hsplit, List.append_assoc]; rfl) hnext

/-- A fold seen through a projection that its steps respect. -/
theorem foldlM_map {γ : Type _} {f : β → α → Except ε β} {f' : γ → α → Except ε γ} {g : β → γ}
    (hstep : ∀ b x, (f b x).map g = f' (g b) x) (xs : List α) (b : β) :
    (xs.foldlM f b).map g = xs.foldlM f' (g b) := by
  induction xs generalizing b with
  | nil => rfl
  | cons x xs ih =>
    rw [List.foldlM_cons, List.foldlM_cons, ← hstep]
    cases f b x with
    | error e => rfl
    | ok b' => exact ih b'

end SparkKit.Lib.Outcome
