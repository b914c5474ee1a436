import DecodeTrie.Proofs.Build.Loops
import DecodeTrie.Proofs.Trie.Columns

/-!
# Leaves in a build

A leaf in a build is a leaf in its trie and a number in the range of its owner. Filling a register
column notes the number once, however many leaves it takes, because noting it again changes
nothing (`noteRange_self`).
-/

namespace DecodeTrie.Build

open Trie (ColumnFilled Filling)

/-! ## Ranges -/

/-- The ranges with a further number for an instruction. -/
def noteRange (ranges : Array (Option EncodingRange)) (owner number : Nat) :
    Array (Option EncodingRange) :=
  ranges.modify owner fun r ↦ some (EncodingRange.widen number r)

theorem noteRange_getElem? (ranges : Array (Option EncodingRange)) (owner number i : Nat) :
    (noteRange ranges owner number)[i]? =
      if owner = i then ranges[i]?.map fun r ↦ some (EncodingRange.widen number r)
      else ranges[i]? :=
  Array.getElem?_modify

theorem widen_comm (a b : Nat) (r : Option EncodingRange) :
    EncodingRange.widen a (some (EncodingRange.widen b r)) =
      EncodingRange.widen b (some (EncodingRange.widen a r)) := by
  cases r with
  | none => simp only [EncodingRange.widen, EncodingRange.mk.injEq]; omega
  | some r => simp only [EncodingRange.widen, EncodingRange.mk.injEq]; omega

theorem widen_self (a : Nat) (r : Option EncodingRange) :
    EncodingRange.widen a (some (EncodingRange.widen a r)) = EncodingRange.widen a r := by
  cases r with
  | none => simp only [EncodingRange.widen, EncodingRange.mk.injEq]; omega
  | some r => simp only [EncodingRange.widen, EncodingRange.mk.injEq]; omega

/-- The order in which numbers are noted does not matter. -/
theorem noteRange_comm (ranges : Array (Option EncodingRange)) (o n o' n' : Nat) :
    noteRange (noteRange ranges o n) o' n' = noteRange (noteRange ranges o' n') o n := by
  refine Array.ext_getElem? fun i ↦ ?_
  simp only [noteRange_getElem?]
  by_cases ho : o = i
  · by_cases ho' : o' = i
    · simp [ho, ho', Function.comp_def, widen_comm n' n]
    · simp [ho, ho']
  · simp [ho]

/-- A number that has been noted can be noted again. -/
theorem noteRange_self (ranges : Array (Option EncodingRange)) (o n : Nat) :
    noteRange (noteRange ranges o n) o n = noteRange ranges o n := by
  refine Array.ext_getElem? fun i ↦ ?_
  simp only [noteRange_getElem?]
  by_cases ho : o = i
  · simp [ho, Function.comp_def, widen_self]
  · simp [ho]

/-- Noting a number any number of times notes it once. -/
theorem noteRange_foldl {α : Type} (ranges : Array (Option EncodingRange)) (o n : Nat)
    {l : List α} (hl : l ≠ []) :
    l.foldl (fun r _ ↦ noteRange r o n) ranges = noteRange ranges o n := by
  induction l generalizing ranges with
  | nil => exact absurd rfl hl
  | cons a l ih =>
    rw [List.foldl_cons]
    by_cases hl' : l = []
    · rw [hl', List.foldl_nil]
    · rw [ih _ hl', noteRange_self]

/-! ## One leaf -/

section place

variable {number owner : Nat} {p : Position} {steps : List Step} {b b' : Build}

theorem place_eq_ok (h : place number owner p steps b = .ok () b') :
    Trie.place number p steps b.trie = .ok () b'.trie ∧
      b'.ranges = noteRange b.ranges owner number := by
  rw [place] at h
  split at h
  · next hp =>
    cases h
    exact ⟨hp, rfl⟩
  · cases h

theorem place_eq_error {c : Clash} (h : place number owner p steps b = .error c b') :
    Trie.place number p steps b.trie = .error c b'.trie ∧ b'.ranges = b.ranges := by
  rw [place] at h
  split at h
  · cases h
  · next hp =>
    cases h
    exact ⟨hp, rfl⟩

end place

/-! ## Register columns -/

section column

variable {number owner : Nat} {x : NodeId} {reg : Fin 8} {tail : List Step} {b b' : Build}
  (h : b.trie.WellLinked) (hx : b.trie.kind x = .modrm) {c : List Nat}
  (hc : b.trie.slotAt c = .node x) (hvalid : Route.Valid .modrm tail)

theorem placeOneMode_eq (m : Nat) :
    placeOneMode number owner x reg m tail b =
      place number owner (Trie.cell x reg m) tail ⟨b.trie.detach x reg m, b.ranges⟩ := rfl

theorem placeEveryMode_eq :
    placeEveryMode number owner x reg tail b =
      (List.range 4).forM (placeOrShare number owner x reg tail (b.trie.columnSlots x reg)) b := rfl

theorem placeOrShare_of_twin {column : List Slot} {k j : Nat}
    (hj : Trie.earlierTwin? column k = some j) :
    placeOrShare number owner x reg tail column k b =
      .ok () ⟨b.trie.set (Trie.cell x reg k) (b.trie.slot (Trie.cell x reg j)), b.ranges⟩ := by
  simp only [placeOrShare, hj]
  rfl

theorem placeOrShare_of_first {column : List Slot} {k : Nat}
    (hj : Trie.earlierTwin? column k = none) :
    placeOrShare number owner x reg tail column k b =
      place number owner (Trie.cell x reg k) tail b := by
  simp only [placeOrShare, hj]

include h hx hc hvalid

/-- A leaf at one mode, when the step succeeds. -/
theorem columnFilled_of_placeOneMode {m : Fin 4}
    (hok : placeOneMode number owner x reg m tail b = .ok () b') :
    ColumnFilled b.trie c ⟨reg, some m⟩ number tail b'.trie ∧
      b'.ranges = noteRange b.ranges owner number := by
  rw [placeOneMode_eq] at hok
  obtain ⟨hplace, hranges⟩ := place_eq_ok hok
  exact ⟨Trie.columnFilled_of_place_detach h hx hc hvalid hplace, hranges⟩

/-- A leaf at one mode, when the step fails: the mode has got a child of its own, and the number is
not noted. -/
theorem obstructed_of_placeOneMode {m : Fin 4}
    (hf : Fruitful b.trie.view (c ++ [ModRM.slot reg m])) {e : Clash}
    (herr : placeOneMode number owner x reg m tail b = .error e b') :
    (b'.trie = b.trie.detach x reg m ∧ b'.ranges = b.ranges) ∧
      Obstructed b.trie.view (c ++ [ModRM.slot reg m]) tail e := by
  rw [placeOneMode_eq] at herr
  obtain ⟨hplace, hranges⟩ := place_eq_error herr
  obtain ⟨htrie, hobs⟩ := Trie.obstructed_of_place_detach h hx hc hvalid hf hplace
  exact ⟨⟨htrie, hranges⟩, hobs⟩

/-- The loop over the modes keeps the invariant, and the first mode notes the number. -/
theorem filling_step {done rest : List Nat} {k : Nat} {b₁ b₂ : Build}
    (hl : List.range 4 = done ++ k :: rest)
    (hI : Filling b.trie c x reg number tail done.length b₁.trie ∧
      (done ≠ [] → b₁.ranges = noteRange b.ranges owner number) ∧
      (done = [] → b₁.ranges = b.ranges))
    (hok : placeOrShare number owner x reg tail (b.trie.columnSlots x reg) k b₁ = .ok () b₂) :
    Filling b.trie c x reg number tail (done ++ [k]).length b₂.trie ∧
      (done ++ [k] ≠ [] → b₂.ranges = noteRange b.ranges owner number) ∧
      (done ++ [k] = [] → b₂.ranges = b.ranges) := by
  obtain ⟨hfill, hnoted, hstart⟩ := hI
  obtain ⟨rfl, hk⟩ := eq_range_of_range_eq hl
  have htwin := Trie.earlierTwin_spec b.trie x reg hk
  rw [List.length_range] at hfill
  rw [List.length_append, List.length_range, List.length_singleton]
  cases hj : Trie.earlierTwin? (b.trie.columnSlots x reg) k with
  | some j =>
    rw [hj] at htwin
    obtain ⟨hjk, heq⟩ := htwin
    rw [placeOrShare_of_twin hj] at hok
    cases hok
    have hne : List.range k ≠ [] := by
      rw [ne_eq, List.range_eq_nil]
      exact Nat.ne_of_gt (Nat.zero_lt_of_lt hjk)
    refine ⟨?_, fun _ ↦ hnoted hne, fun he ↦ absurd he (by simp)⟩
    -- An empty mode takes over the child of its twin; another one has been filled with it.
    by_cases he : b.trie.slot (Trie.cell x reg k) = .empty
    · exact hfill.share h hx hc hk hjk heq he
    · exact hfill.same hc hk hjk heq he
  | none =>
    rw [hj] at htwin
    rw [placeOrShare_of_first hj] at hok
    obtain ⟨hplace, hranges⟩ := place_eq_ok hok
    refine ⟨hfill.place h hx hc hk hvalid htwin hplace, fun _ ↦ ?_, fun he ↦ absurd he (by simp)⟩
    rw [hranges]
    by_cases hne : List.range k = []
    · rw [hstart hne]
    · rw [hnoted hne, noteRange_self]

/-- A leaf at every mode, when the steps succeed. -/
theorem columnFilled_of_placeEveryMode
    (hok : placeEveryMode number owner x reg tail b = .ok () b') :
    ColumnFilled b.trie c ⟨reg, none⟩ number tail b'.trie ∧
      b'.ranges = noteRange b.ranges owner number := by
  rw [placeEveryMode_eq] at hok
  obtain ⟨hfill, hnoted, -⟩ := forM_ok (I := fun done b₁ ↦
      Filling b.trie c x reg number tail done.length b₁.trie ∧
        (done ≠ [] → b₁.ranges = noteRange b.ranges owner number) ∧
        (done = [] → b₁.ranges = b.ranges))
    (filling_step h hx hc hvalid) ⟨.zero h, fun hne ↦ absurd rfl hne, fun _ ↦ rfl⟩ hok
  exact ⟨Filling.columnFilled h hx hc hfill, hnoted (by decide)⟩

/-- A leaf at every mode, when a step fails: the modes before are filled, this one is obstructed,
and the number is noted as soon as one mode is filled. -/
theorem obstructed_of_placeEveryMode
    (hf : ∀ m, m < 4 → Fruitful b.trie.view (c ++ [ModRM.slot reg m])) {e : Clash}
    (herr : placeEveryMode number owner x reg tail b = .error e b') :
    ∃ k, k < 4 ∧ Filling b.trie c x reg number tail k b'.trie ∧
      b'.ranges = (if k = 0 then b.ranges else noteRange b.ranges owner number) ∧
      Obstructed b.trie.view (c ++ [ModRM.slot reg k]) tail e := by
  rw [placeEveryMode_eq] at herr
  obtain ⟨done, k, rest, b₁, hl, ⟨hfill, hnoted, hstart⟩, hk⟩ := forM_error (I := fun done b₁ ↦
      Filling b.trie c x reg number tail done.length b₁.trie ∧
        (done ≠ [] → b₁.ranges = noteRange b.ranges owner number) ∧
        (done = [] → b₁.ranges = b.ranges))
    (filling_step h hx hc hvalid) ⟨.zero h, fun hne ↦ absurd rfl hne, fun _ ↦ rfl⟩ herr
  obtain ⟨rfl, hk4⟩ := eq_range_of_range_eq hl
  rw [List.length_range] at hfill
  have htwin := Trie.earlierTwin_spec b.trie x reg hk4
  cases hj : Trie.earlierTwin? (b.trie.columnSlots x reg) k with
  | some j =>
    -- Sharing the child of a twin cannot fail.
    rw [placeOrShare_of_twin hj] at hk
    cases hk
  | none =>
    rw [hj] at htwin
    rw [placeOrShare_of_first hj] at hk
    obtain ⟨hplace, hranges⟩ := place_eq_error hk
    obtain ⟨htrie, hobs⟩ := hfill.obstructed h hx hc hk4 hvalid htwin (hf k hk4) hplace
    refine ⟨k, hk4, by rw [htrie]; exact hfill, ?_, hobs⟩
    rw [hranges]
    split
    · next h0 => exact hstart (List.range_eq_nil.mpr h0)
    · next h0 => exact hnoted fun he ↦ h0 (List.range_eq_nil.mp he)

end column

end DecodeTrie.Build
