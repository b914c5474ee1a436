import DecodeTrie.Build.History

/-!
# Loops that stop at the first failure

The sites of an encoding and the modes of a register column are filled in a loop that stops at the
first failure. An invariant of the items that are done says what such a loop does: it holds of all
items when the loop succeeds, and of the items before the failing one when it fails.
-/

namespace DecodeTrie

section forM

variable {ε σ α : Type} {f : α → EStateM ε σ PUnit}

theorem forM_cons_eq (a : α) (l : List α) (s : σ) :
    (a :: l).forM f s =
      match f a s with
      | .ok _ s' => l.forM f s'
      | .error e s' => .error e s' := by
  simp only [List.forM, bind, EStateM.bind]
  cases f a s <;> rfl

variable {I : List α → σ → Prop} {l : List α}
  (hstep : ∀ {done a rest s s'}, l = done ++ a :: rest → I done s → f a s = .ok () s' →
    I (done ++ [a]) s')

include hstep

/-- **A loop that succeeds** has done all its items. -/
theorem forM_ok {s s' : σ} (h0 : I [] s) (h : l.forM f s = .ok () s') : I l s' := by
  suffices hsuffix : ∀ done rest s, l = done ++ rest → I done s → rest.forM f s = .ok () s' →
      I l s' from hsuffix [] l s rfl h0 h
  -- What is left to do becomes shorter, and what is done grows with it.
  intro done rest
  induction rest generalizing done with
  | nil =>
    intro s hl hI hok
    cases hok
    rwa [hl, List.append_nil]
  | cons a rest ih =>
    intro s hl hI hok
    rw [forM_cons_eq] at hok
    split at hok
    · next s₁ hs₁ => exact ih (done ++ [a]) s₁ (by rw [hl]; simp) (hstep hl hI hs₁) hok
    · cases hok

/-- **A loop that fails** has done the items before the failing one. -/
theorem forM_error {s s' : σ} {e : ε} (h0 : I [] s) (h : l.forM f s = .error e s') :
    ∃ done a rest s₀, l = done ++ a :: rest ∧ I done s₀ ∧ f a s₀ = .error e s' := by
  suffices hsuffix : ∀ done rest s, l = done ++ rest → I done s → rest.forM f s = .error e s' →
      ∃ done a rest s₀, l = done ++ a :: rest ∧ I done s₀ ∧ f a s₀ = .error e s'
    from hsuffix [] l s rfl h0 h
  intro done rest
  induction rest generalizing done with
  | nil =>
    intro s _ _ herr
    cases herr
  | cons a rest ih =>
    intro s hl hI herr
    rw [forM_cons_eq] at herr
    split at herr
    · next s₁ hs₁ => exact ih (done ++ [a]) s₁ (by rw [hl]; simp) (hstep hl hI hs₁) herr
    · next e' s₁ hs₁ =>
      cases herr
      exact ⟨done, a, rest, s, hl, hI, hs₁⟩

end forM

/-! ## The items before one of a range -/

theorem eq_range_of_range_eq {n k : Nat} {done rest : List Nat}
    (h : List.range n = done ++ k :: rest) : done = List.range k ∧ k < n := by
  have hlen := congrArg List.length h
  rw [List.length_range, List.length_append, List.length_cons] at hlen
  have hk : k = done.length := by
    have hget := congrArg (fun l ↦ l[done.length]?) h
    rw [List.getElem?_append_right (Nat.le_refl _), Nat.sub_self,
      List.getElem?_range (by omega), List.getElem?_cons_zero] at hget
    exact (Option.some.inj hget).symm
  refine ⟨?_, by omega⟩
  have htake := congrArg (List.take done.length) h
  rw [List.take_left, List.take_range, Nat.min_eq_left (by omega)] at htake
  rw [← htake, hk]

end DecodeTrie
