import DecodeTrie.Proofs.Build.Histories
import DecodeTrie.Proofs.Catalog.WellFormed
import Mathlib.Order.Bounds.Basic

/-!
# The ranges of instructions

A build keeps a range of encoding numbers for each instruction, beside the trie in which the numbers
stand. The two agree after any history of insertions, failing ones included: an instruction has no
range as long as none of its numbers is in the trie, and otherwise its range goes from the least of
them to the greatest (`ranges_after`).

A range is not read off the trie. It grows with each leaf that is placed, while numbers also come
into the trie when a mode shares the child of another one and when a subtree is copied. What joins
both is the record of a build: its sites give the ranges (`Holding.spans_ranges`), and the numbers
of its sites are those in the trie (`Build.Holds.exists_slot_iff`).
-/

namespace DecodeTrie

/-! ## The least range of a set -/

/-- A range is the least one with the numbers of a set in it. The empty set has no range. -/
def EncodingRange.Spans (S : Set Nat) : Option EncodingRange → Prop
  | none => S = ∅
  | some r => IsLeast S r.first ∧ IsGreatest S r.last

namespace EncodingRange

variable {S : Set Nat} {r r' : Option EncodingRange}

/-- A range that is widened by a number spans one number more. -/
theorem Spans.widen (h : Spans S r) (n : Nat) : Spans (insert n S) (some (widen n r)) := by
  cases r with
  | none =>
    rw [show S = ∅ from h, insert_empty_eq]
    exact ⟨isLeast_singleton, isGreatest_singleton⟩
  | some r =>
    rw [EncodingRange.widen, Nat.min_comm, Nat.max_comm]
    exact ⟨h.1.insert n, h.2.insert n⟩

/-- There is no range exactly for the empty set. -/
theorem Spans.eq_none_iff (h : Spans S r) : r = none ↔ S = ∅ := by
  cases r with
  | none => exact iff_of_true rfl h
  | some r => exact iff_of_false (Option.some_ne_none r) (Set.Nonempty.ne_empty ⟨_, h.1.1⟩)

/-- A set has one range only. -/
theorem Spans.unique (h : Spans S r) (h' : Spans S r') : r = r' := by
  cases r with
  | none => exact (h'.eq_none_iff.mpr h).symm
  | some r =>
    cases r' with
    | none => exact h.eq_none_iff.mpr h'
    | some r' =>
      obtain ⟨first, last⟩ := r
      obtain ⟨first', last'⟩ := r'
      rw [Option.some.injEq, EncodingRange.mk.injEq]
      exact ⟨h.1.unique h'.1, h.2.unique h'.2⟩

end EncodingRange

open EncodingRange (Spans)

/-! ## The ranges of sites -/

namespace Holding

/-- The numbers of the sites that belong to an instruction. -/
def numbersOf (held : List Holding) (i : Nat) : Set Nat :=
  {n | ∃ a ∈ held, a.owner = i ∧ a.number = n}

theorem numbersOf_concat (held : List Holding) (a : Holding) (i : Nat) :
    numbersOf (held ++ [a]) i =
      if a.owner = i then insert a.number (numbersOf held i) else numbersOf held i := by
  ext n
  simp only [numbersOf, List.mem_append, List.mem_singleton, or_and_right, exists_or,
    exists_eq_left, Set.mem_ofPred_eq]
  by_cases h : a.owner = i
  · rw [if_pos h, Set.mem_insert_iff, or_comm]
    simp [h, eq_comm]
  · simp [h]

/-- **The ranges of sites** span the numbers of the sites, by instruction. -/
theorem spans_ranges (c : Catalog) (held : List Holding) {i : Nat}
    (hi : i < c.instructions.size) :
    ∃ r, (ranges c held)[i]? = some r ∧ Spans (numbersOf held i) r := by
  induction held using List.reverseRecOn with
  | nil => exact ⟨none, by simp [ranges, Build.empty, hi], by simp [Spans, numbersOf]⟩
  | append_singleton held a ih =>
    obtain ⟨r, hr, hspans⟩ := ih
    rw [ranges_append, List.foldl_cons, List.foldl_nil, Build.noteRange_getElem?,
      numbersOf_concat, hr]
    by_cases howner : a.owner = i
    · rw [if_pos howner, if_pos howner]
      exact ⟨_, rfl, hspans.widen a.number⟩
    · rw [if_neg howner, if_neg howner]
      exact ⟨r, rfl, hspans⟩

theorem size_ranges (c : Catalog) (held : List Holding) :
    (ranges c held).size = c.instructions.size := by
  induction held using List.reverseRecOn with
  | nil => simp [ranges, Build.empty]
  | append_singleton held a ih =>
    rw [ranges_append, List.foldl_cons, List.foldl_nil, Build.noteRange, Array.size_modify, ih]

end Holding

/-! ## The numbers in a trie -/

/-- At the end of a path to a number there is a position that holds it. -/
theorem Trie.exists_slot_of_slotAt {t : Trie} {path : List Nat} {n : Nat}
    (h : t.slotAt path = .leaf n) : ∃ p, t.slot p = .leaf n := by
  induction path using List.reverseRecOn with
  | nil => cases h
  | append_singleton q i =>
    rw [slotAt_concat] at h
    cases hq : t.slotAt q with
    | node y => rw [hq] at h; exact ⟨⟨y, i⟩, h⟩
    | empty => rw [hq] at h; cases h
    | leaf m => rw [hq] at h; cases h

namespace Build

variable {c : Catalog} {b : Build} {held : List Holding}

/-- **The numbers in the trie of a build** are those of the sites on record. -/
theorem Holds.exists_slot_iff (h : Holds c b held) {n : Nat} :
    (∃ p, b.trie.slot p = .leaf n) ↔ ∃ a ∈ held, a.number = n := by
  constructor
  · rintro ⟨p, hp⟩
    obtain ⟨x, hx, rfl⟩ := h.exists_claim_of_slot hp
    obtain ⟨a, ha, hxa⟩ := List.mem_flatMap.mp hx
    exact ⟨a, ha, (Holding.mem_claims.mp hxa).1.symm⟩
  · rintro ⟨a, ha, rfl⟩
    -- A site has a route, and its number stands at the end of it.
    obtain ⟨r, hr⟩ := List.exists_mem_of_ne_nil _ a.site.routes_ne_nil
    have hclaim : (⟨a.number, r⟩ : Claim) ∈ held.flatMap Holding.claims :=
      List.mem_flatMap.mpr ⟨a, ha, Holding.mem_claims.mpr ⟨rfl, hr⟩⟩
    have hview := h.agrees.view_of_wants hclaim (Route.wants_slots _ _)
    exact Trie.exists_slot_of_slotAt (Trie.content_eq_leaf_iff.mp hview)

end Build

/-- The encoding numbers that stand in a trie and belong to an instruction. -/
def Catalog.numbersIn (c : Catalog) (t : Trie) (i : Nat) : Set Nat :=
  {n | (∃ p, t.slot p = .leaf n) ∧ ∃ e, c.encodings[n]? = some e ∧ e.insn = i}

/-- The numbers of an instruction in the trie are those of its sites. -/
theorem Build.Holds.numbersIn_eq {c : Catalog} {b : Build} {held : List Holding}
    (h : Holds c b held)
    (howned : ∀ a ∈ held, ∃ e, c.encodings[a.number]? = some e ∧ e.insn = a.owner) (i : Nat) :
    c.numbersIn b.trie i = Holding.numbersOf held i := by
  ext n
  rw [Catalog.numbersIn, Set.mem_ofPred_eq, h.exists_slot_iff]
  constructor
  · rintro ⟨⟨a, ha, rfl⟩, e, he, rfl⟩
    obtain ⟨e', he', howner⟩ := howned a ha
    rw [he] at he'
    cases he'
    exact ⟨a, ha, howner.symm, rfl⟩
  · rintro ⟨a, ha, rfl, rfl⟩
    exact ⟨⟨a, ha, rfl⟩, howned a ha⟩

/-- What an insertion leaves behind belongs to the owner of its encoding. -/
theorem Insertion.Leaves.owned {c : Catalog} (hc : c.Numbered) {steering : Steering}
    {i : Insertion} {a : Holding} (h : i.Leaves c steering a) :
    ∃ e, c.encodings[a.number]? = some e ∧ e.insn = a.owner := by
  obtain ⟨e, he, hnumber, howner, -⟩ := h
  exact ⟨e, by rw [hnumber, hc.number_eq he, he], howner.symm⟩

/-- **Ranges follow the trie.** After any history of insertions, failing ones included, there is a
range or none for each instruction: none exactly if no number of the instruction is in the trie, and
otherwise the range from the least of these numbers to the greatest. Every number in the trie
belongs to an instruction. -/
theorem ranges_after (steps : List CatalogStep) (options : Options) (history : List Insertion) :
    let c := Catalog.after steps
    let b := Build.after c (c.steering options) history
    b.ranges.size = c.instructions.size ∧
      (∀ i < c.instructions.size,
        (b.ranges[i]? = some none ↔ c.numbersIn b.trie i = ∅) ∧
        ∀ r, b.ranges[i]? = some (some r) →
          IsLeast (c.numbersIn b.trie i) r.first ∧ IsGreatest (c.numbersIn b.trie i) r.last) ∧
      ∀ p n, b.trie.slot p = .leaf n → ∃ i < c.instructions.size, n ∈ c.numbersIn b.trie i := by
  intro c b
  have hc : c.WellFormed := Catalog.wellFormed_empty.afterFrom steps
  obtain ⟨held, hheld, hleft⟩ := Build.exists_holds c (c.steering options) history
  have howned : ∀ a ∈ held, ∃ e, c.encodings[a.number]? = some e ∧ e.insn = a.owner := by
    intro a ha
    obtain ⟨i, -, hia⟩ := hleft a ha
    exact hia.owned hc.numbered
  refine ⟨by rw [hheld.ranges_eq, Holding.size_ranges], fun i hi ↦ ?_, fun p n hp ↦ ?_⟩
  · obtain ⟨r, hr, hspans⟩ := Holding.spans_ranges c held hi
    rw [hheld.numbersIn_eq howned, hheld.ranges_eq, hr]
    constructor
    · rw [Option.some.injEq, hspans.eq_none_iff]
    · rintro r' hr'
      rw [Option.some.inj hr'] at hspans
      exact hspans
  · obtain ⟨a, ha, rfl⟩ := hheld.exists_slot_iff.mp ⟨p, hp⟩
    obtain ⟨e, he, -⟩ := howned a ha
    obtain ⟨insn, hinsn, -⟩ := (hc.insn_eq_iff he e.insn).mp rfl
    exact ⟨e.insn, (Array.getElem?_eq_some_iff.mp hinsn).1, ⟨p, hp⟩, e, he, rfl⟩

theorem ranges_after_takenMode :
    let c := Catalog.after takenMode
    let b := Build.after c (c.steering {}) [takeLastMode, takeEveryMode]
    ¬ Build.Accepts c (c.steering {}) [takeLastMode, takeEveryMode] ∧ 1 < c.instructions.size ∧
      b.ranges[1]? = some (some ⟨1, 1⟩) ∧ c.numbersIn b.trie 1 ≠ ∅ ∧
      IsLeast (c.numbersIn b.trie 1) 1 ∧ IsGreatest (c.numbersIn b.trie 1) 1 := by
  intro c b
  have hfails : ¬ Build.Accepts c (c.steering {}) [takeLastMode, takeEveryMode] := by
    decide +kernel
  have hsize : 1 < c.instructions.size := by decide +kernel
  have hrange : b.ranges[1]? = some (some ⟨1, 1⟩) := by decide +kernel
  obtain ⟨-, hranges, -⟩ := ranges_after takenMode {} [takeLastMode, takeEveryMode]
  obtain ⟨hnone, hsome⟩ := hranges 1 hsize
  refine ⟨hfails, hsize, hrange, fun hempty ↦ ?_, hsome ⟨1, 1⟩ hrange⟩
  have hcontra := hrange.symm.trans (hnone.mpr hempty)
  cases hcontra

end DecodeTrie
