import DecodeTrie.Build
import Mathlib.Data.List.Forall2

/-!
# Two builds in step

Two computations run in step when they take related states to the same value and to related states,
or both fail, with related errors (`InStep`). The rules are those of the steps, as for one run: what
is composed of computations in step is in step (`InStep.bind`, `InStep.forM`).

Builds are related when their tries are equal (`Build.SameTrie`). Placing a leaf asks the build for
nothing but its trie, and so the owner of the number, for whom only a range is noted, does not
matter to it: filling a site for two owners runs in step (`Build.inStep_fill`).
-/

namespace DecodeTrie

/-! ## Rules -/

section

variable {ε ε' σ σ' α β ι ι' : Type}

/-- Two outcomes are alike: the same value or related errors, and related states. -/
inductive AlikeOutcomes (E : ε → ε' → Prop) (R : σ → σ' → Prop) :
    EStateM.Result ε σ α → EStateM.Result ε' σ' α → Prop
  | ok (a : α) {s : σ} {s' : σ'} (hs : R s s') : AlikeOutcomes E R (.ok a s) (.ok a s')
  | error {e : ε} {e' : ε'} {s : σ} {s' : σ'} (he : E e e') (hs : R s s') :
      AlikeOutcomes E R (.error e s) (.error e' s')

/-- From related states, two computations have outcomes that are alike. -/
def InStep (E : ε → ε' → Prop) (R : σ → σ' → Prop) (f : EStateM ε σ α) (f' : EStateM ε' σ' α) :
    Prop :=
  ∀ s s', R s s' → AlikeOutcomes E R (f s) (f' s')

namespace InStep

variable {E : ε → ε' → Prop} {R : σ → σ' → Prop}

theorem pure (a : α) : InStep E R (pure a) (pure a) := fun _ _ hs ↦ .ok a hs

theorem modify {g : σ → σ} {g' : σ' → σ'} (hg : ∀ s s', R s s' → R (g s) (g' s')) :
    InStep E R (modify g) (modify g') :=
  fun s s' hs ↦ .ok () (hg s s' hs)

theorem bind {f : EStateM ε σ α} {f' : EStateM ε' σ' α} {g : α → EStateM ε σ β}
    {g' : α → EStateM ε' σ' β} (hf : InStep E R f f') (hg : ∀ a, InStep E R (g a) (g' a)) :
    InStep E R (f >>= g) (f' >>= g') := by
  intro s s' hs
  have hout := hf s s' hs
  simp only [Bind.bind, EStateM.bind]
  generalize f s = out at hout
  generalize f' s' = out' at hout
  cases hout with
  | ok a hs => exact hg a _ _ hs
  | error he hs => exact .error he hs

/-- Loops over related items run in step. -/
theorem forM {f : ι → EStateM ε σ PUnit} {f' : ι' → EStateM ε' σ' PUnit} {P : ι → ι' → Prop}
    (hf : ∀ i i', P i i' → InStep E R (f i) (f' i')) {l : List ι} {l' : List ι'}
    (hl : List.Forall₂ P l l') : InStep E R (l.forM f) (l'.forM f') := by
  induction hl with
  | nil => exact InStep.pure _
  | cons hi _ ih => exact (hf _ _ hi).bind fun _ ↦ ih

end InStep

end

/-! ## Steps on builds -/

namespace Build

/-- Two builds have the same trie. -/
def SameTrie (b b' : Build) : Prop := b.trie = b'.trie

variable {number owner owner' : Nat}

theorem inStep_onTrie {α : Type} (step : EStateM Clash Trie α) :
    InStep Eq SameTrie (onTrie step) (onTrie step) := by
  rintro ⟨t, ranges⟩ ⟨t', ranges'⟩ ⟨⟩
  simp only [onTrie]
  cases step t with
  | ok a t => exact .ok a rfl
  | error clash t => exact .error rfl rfl

theorem inStep_place (p : Position) (steps : List Step) :
    InStep Eq SameTrie (place number owner p steps) (place number owner' p steps) := by
  rintro ⟨t, ranges⟩ ⟨t', ranges'⟩ ⟨⟩
  simp only [place]
  cases Trie.place number p steps t with
  | ok u t => exact .ok () rfl
  | error clash t => exact .error rfl rfl

theorem inStep_placeOneMode (x : NodeId) (reg : Fin 8) (m : Nat) (tail : List Step) :
    InStep Eq SameTrie (placeOneMode number owner x reg m tail)
      (placeOneMode number owner' x reg m tail) := by
  refine InStep.bind (InStep.modify fun b b' h ↦ ?_) fun _ ↦ inStep_place _ tail
  exact congrArg (Trie.detach x reg m) h

theorem inStep_placeOrShare (x : NodeId) (reg : Fin 8) (tail : List Step) (column : List Slot)
    (m : Nat) : InStep Eq SameTrie (placeOrShare number owner x reg tail column m)
      (placeOrShare number owner' x reg tail column m) := by
  rw [placeOrShare, placeOrShare]
  split
  · next twin _ =>
    exact InStep.modify fun _ _ h ↦ congrArg (fun t : Trie ↦
      t.set (Trie.cell x reg m) (t.slot (Trie.cell x reg twin))) h
  · exact inStep_place _ tail

theorem inStep_placeEveryMode (x : NodeId) (reg : Fin 8) (tail : List Step) :
    InStep Eq SameTrie (placeEveryMode number owner x reg tail)
      (placeEveryMode number owner' x reg tail) := by
  -- Both runs read the same column, because it is read from the trie.
  rintro ⟨t, ranges⟩ ⟨t', ranges'⟩ ⟨⟩
  have hloop : InStep Eq SameTrie
      ((List.range 4).forM (placeOrShare number owner x reg tail (t.columnSlots x reg)))
      ((List.range 4).forM (placeOrShare number owner' x reg tail (t.columnSlots x reg))) := by
    refine InStep.forM (P := Eq) ?_ (List.forall₂_refl _)
    rintro m _ rfl
    exact inStep_placeOrShare x reg tail _ m
  exact hloop ⟨t, ranges⟩ ⟨t, ranges'⟩ rfl

/-- **Filling a site** for two owners runs in step. -/
theorem inStep_fill (s : Site) :
    InStep Eq SameTrie (fill number owner s) (fill number owner' s) := by
  refine (inStep_onTrie (Trie.reach number s.stem)).bind fun p ↦ ?_
  cases s.column with
  | none => exact inStep_place p s.tail
  | some column =>
    refine (inStep_onTrie (Trie.ensureTable number .modrm p)).bind fun x ↦ ?_
    cases column.mode with
    | some m => exact inStep_placeOneMode x column.reg m s.tail
    | none => exact inStep_placeEveryMode x column.reg s.tail

end Build

end DecodeTrie
