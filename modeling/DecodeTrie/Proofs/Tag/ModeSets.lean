import DecodeTrie.Proofs.Tag.Registries
import DecodeTrie.Tag.ModeStep
import Mathlib.Data.List.Induction
import Mathlib.Data.List.Nodup
import Mathlib.Logic.Relation

/-!
# Mode sets

A mode set keeps the names it was defined from, and beside them a mask that is computed once. The
mask says which core modes can be reached through the members of the set, the members of those
members and so on (`ModeRegistry.WellFormed`): a set is defined from names that are there already,
so a later name is never reached from it, and the union of the masks at its definition stays right.

A step that fails changes nothing, and a step that succeeds puts one new name behind the others of
its kind (`ModeStep.outcome_cases`). So names stay different, and masks stay what they are.
-/

namespace DecodeTrie

namespace ModeRegistry

variable {r : ModeRegistry} {name : String} {members : List String} {mask mask' : Nat}

/-! ## Names -/

/-- The names of the core modes and of the mode sets. -/
def names (r : ModeRegistry) : List String := r.core.names ++ r.sets.map ModeSet.name

theorem setMask?_isSome : (r.setMask? name).isSome ↔ name ∈ r.sets.map ModeSet.name := by
  simp [setMask?]

/-- What is declared has a mask. -/
theorem mask?_isSome (hi : r.core.Inverse) : (r.mask? name).isSome ↔ name ∈ r.names := by
  rw [isSome_mask?, Bool.or_eq_true, hi.isSome_get?, setMask?_isSome, names, List.mem_append]

theorem mask?_eq_none_iff (hi : r.core.Inverse) : r.mask? name = none ↔ name ∉ r.names := by
  rw [← mask?_isSome hi, Option.not_isSome_iff_eq_none]

/-! ## Unions -/

/-- The error of a union is the first name that is not declared. -/
theorem unionInto_eq_error_iff (hi : r.core.Inverse) {unknown : String} :
    r.unionInto mask members = .error unknown ↔
      members.find? (· ∉ r.names) = some unknown := by
  induction members generalizing mask with
  | nil => simp [unionInto]
  | cons m ms ih =>
    rw [unionInto]
    split
    · next hm =>
      have hmem : m ∈ r.names := (mask?_isSome hi).mp (Option.isSome_of_eq_some hm)
      rw [ih, List.find?_cons_of_neg (by simpa using hmem)]
    · next hm =>
      rw [List.find?_cons_of_pos (by simpa using (mask?_eq_none_iff hi).mp hm)]
      simp

theorem union_eq_error_iff (hi : r.core.Inverse) {unknown : String} :
    r.union members = .error unknown ↔ members.find? (· ∉ r.names) = some unknown :=
  unionInto_eq_error_iff hi

/-- A union has the bits of the masks of its names, which are all declared. -/
theorem unionInto_ok (hi : r.core.Inverse) (h : r.unionInto mask members = .ok mask') :
    (∀ m ∈ members, m ∈ r.names) ∧ ∀ b, mask'.testBit b = true ↔
      mask.testBit b = true ∨ ∃ m ∈ members, ∃ k, r.mask? m = some k ∧ k.testBit b = true := by
  induction members generalizing mask with
  | nil =>
    obtain rfl := Except.ok.inj h
    simp
  | cons m ms ih =>
    rw [unionInto] at h
    split at h
    · next k hk =>
      obtain ⟨hmem, hbits⟩ := ih h
      have hm : m ∈ r.names := (mask?_isSome hi).mp (Option.isSome_of_eq_some hk)
      refine ⟨List.forall_mem_cons.mpr ⟨hm, hmem⟩, fun b ↦ ?_⟩
      rw [hbits, Nat.testBit_or, Bool.or_eq_true, or_assoc]
      simp [hk]
    · cases h

theorem union_ok (hi : r.core.Inverse) (h : r.union members = .ok mask) :
    (∀ m ∈ members, m ∈ r.names) ∧ ∀ b, mask.testBit b = true ↔
      ∃ m ∈ members, ∃ k, r.mask? m = some k ∧ k.testBit b = true := by
  simpa using unionInto_ok hi h

/-! ## Reachable modes -/

/-- The first name is that of a set, and the second one is among the names that the set was defined
from. -/
def HasMember (r : ModeRegistry) (name member : String) : Prop :=
  ∃ s ∈ r.sets, s.name = name ∧ member ∈ s.members

/-- The names of a registry are different, and the masks of its sets say which core modes can be
reached through the members. -/
structure WellFormed (r : ModeRegistry) : Prop where
  /-- The core modes are found where they are listed. -/
  inverse : r.core.Inverse
  /-- No name is used twice, be it for core modes or for sets. -/
  nodup_names : r.names.Nodup
  /-- The members of sets are declared. -/
  mem_names : ∀ {a b : String}, r.HasMember a b → b ∈ r.names
  /-- No set is empty. -/
  mask_ne_zero : ∀ s ∈ r.sets, s.mask ≠ 0
  /-- The bits of a set are those of the core modes that can be reached from it. -/
  testBit_iff : ∀ s ∈ r.sets, ∀ b, s.mask.testBit b = true ↔
    ∃ mode, r.core.names[b]? = some mode ∧ Relation.TransGen r.HasMember s.name mode

theorem wellFormed_empty : ({} : ModeRegistry).WellFormed where
  inverse := TagRegistry.inverse_fresh _
  nodup_names := List.nodup_nil
  mem_names h := by simp [HasMember] at h
  mask_ne_zero s hs := absurd hs List.not_mem_nil
  testBit_iff s hs := absurd hs List.not_mem_nil

theorem HasMember.mem_names {a b : String} (h : r.HasMember a b) : a ∈ r.names := by
  obtain ⟨s, hs, rfl, -⟩ := h
  exact List.mem_append_right _ (List.mem_map_of_mem hs)

/-- A core mode is no set. -/
theorem WellFormed.not_hasMember (h : r.WellFormed) (hname : name ∈ r.core.names) (b : String) :
    ¬ r.HasMember name b := by
  rintro ⟨s, hs, rfl, -⟩
  exact List.disjoint_of_nodup_append h.nodup_names hname (List.mem_map_of_mem hs)

theorem WellFormed.mem_names_of_transGen (h : r.WellFormed) {a b : String}
    (hab : Relation.TransGen r.HasMember a b) : b ∈ r.names := by
  obtain ⟨c, -, hcb⟩ := Relation.TransGen.tail'_iff.mp hab
  exact h.mem_names hcb

/-- The mask of a declared name is not zero. -/
theorem WellFormed.ne_zero_of_mask? (h : r.WellFormed) (hm : r.mask? name = some mask) :
    mask ≠ 0 := by
  rw [mask?] at hm
  split at hm
  · next bit _ =>
    obtain rfl := Option.some.inj hm
    intro hzero
    simpa [hzero] using testBit_bitMask bit bit
  · obtain ⟨s, hs, rfl⟩ := Option.map_eq_some_iff.mp hm
    exact h.mask_ne_zero s (List.mem_of_find?_eq_some hs)

/-- The mask of a name has the bits of the core modes that can be reached from the name. A core
mode is reached from itself. -/
theorem WellFormed.testBit_of_mask? (h : r.WellFormed) (hm : r.mask? name = some mask) (b : Nat) :
    mask.testBit b = true ↔
      ∃ mode, r.core.names[b]? = some mode ∧ Relation.ReflTransGen r.HasMember name mode := by
  rw [mask?] at hm
  split at hm
  · next bit hbit =>
    obtain rfl := Option.some.inj hm
    have hname : r.core.names[bit]? = some name := (h.inverse name bit).mp hbit
    rw [testBit_bitMask, decide_eq_true_eq]
    constructor
    · rintro rfl
      exact ⟨name, hname, .refl⟩
    · rintro ⟨mode, hmode, hreach⟩
      obtain rfl | ⟨c, hc, -⟩ := hreach.cases_head
      · exact Option.some.inj (hbit.symm.trans ((h.inverse name b).mpr hmode))
      · exact absurd hc (h.not_hasMember (List.mem_of_getElem? hname) c)
  · next hnone =>
    obtain ⟨s, hs, rfl⟩ := Option.map_eq_some_iff.mp hm
    have hname : s.name = name := by simpa using List.find?_some hs
    rw [h.testBit_iff s (List.mem_of_find?_eq_some hs), hname]
    refine exists_congr fun mode ↦ and_congr_right fun hmode ↦ ?_
    rw [Relation.reflTransGen_iff_eq_or_transGen, or_iff_right]
    rintro rfl
    exact h.inverse.get?_eq_none_iff.mp hnone (List.mem_of_getElem? hmode)

/-! ## Steps that succeed -/

/-- The registry with one more core mode. -/
def withMode (r : ModeRegistry) (name : String) : ModeRegistry :=
  { r with core := r.core.push name }

/-- The registry with one more set. -/
def withSet (r : ModeRegistry) (s : ModeSet) : ModeRegistry := { r with sets := r.sets ++ [s] }

theorem names_withMode : (r.withMode name).names.Perm (name :: r.names) := by
  rw [names, names, withMode, TagRegistry.names_push, List.append_assoc]
  exact List.perm_middle

theorem names_withSet (s : ModeSet) : (r.withSet s).names.Perm (s.name :: r.names) := by
  rw [names, withSet, List.map_append, ← List.append_assoc]
  exact List.perm_append_singleton _ _

theorem mem_sets_withSet {s s' : ModeSet} : s' ∈ (r.withSet s).sets ↔ s' ∈ r.sets ∨ s' = s := by
  rw [withSet, List.mem_append, List.mem_singleton]

/-- A further core mode leaves the members of the sets alone, and is reached from none of them. -/
theorem WellFormed.withMode (h : r.WellFormed) (hname : name ∉ r.names) :
    (r.withMode name).WellFormed where
  inverse := h.inverse.push (h.inverse.get?_eq_none_iff.mpr (mt (List.mem_append_left _) hname))
  nodup_names := names_withMode.nodup_iff.mpr (List.nodup_cons.mpr ⟨hname, h.nodup_names⟩)
  mem_names hab := names_withMode.mem_iff.mpr (List.mem_cons_of_mem _ (h.mem_names hab))
  mask_ne_zero := h.mask_ne_zero
  testBit_iff s hs b := by
    rw [h.testBit_iff s hs]
    refine exists_congr fun mode ↦ and_congr_left fun hreach ↦ ?_
    have hne : mode ≠ name := fun heq ↦ hname (heq ▸ h.mem_names_of_transGen hreach)
    rw [ModeRegistry.withMode, TagRegistry.names_push]
    grind

section withSet

variable {s : ModeSet}

theorem hasMember_withSet {a b : String} :
    (r.withSet s).HasMember a b ↔ r.HasMember a b ∨ s.name = a ∧ b ∈ s.members := by
  simp [HasMember, withSet, or_and_right, exists_or]

theorem hasMember_withSet_of_mem {a b : String} (hname : s.name ∉ r.names) (ha : a ∈ r.names) :
    (r.withSet s).HasMember a b ↔ r.HasMember a b := by
  rw [hasMember_withSet, or_iff_left]
  rintro ⟨rfl, -⟩
  exact hname ha

/-- From a name that was there before a new set, the same is reached as before. -/
theorem WellFormed.reflTransGen_withSet (h : r.WellFormed) (hname : s.name ∉ r.names)
    {a b : String} (ha : a ∈ r.names) :
    Relation.ReflTransGen (r.withSet s).HasMember a b ↔ Relation.ReflTransGen r.HasMember a b := by
  refine ⟨fun hab ↦ ?_, Relation.ReflTransGen.mono (fun _ _ ↦ hasMember_withSet.mpr ∘ .inl) a b⟩
  -- The induction goes along the path from its end, so that the names on it stay old ones.
  induction hab using Relation.ReflTransGen.head_induction_on with
  | refl => exact .refl
  | head hac _ ih =>
    have hac := (hasMember_withSet_of_mem hname ha).mp hac
    exact .head hac (ih (h.mem_names hac))

theorem WellFormed.transGen_withSet (h : r.WellFormed) (hname : s.name ∉ r.names)
    {a b : String} (ha : a ∈ r.names) :
    Relation.TransGen (r.withSet s).HasMember a b ↔ Relation.TransGen r.HasMember a b := by
  rw [Relation.TransGen.head'_iff, Relation.TransGen.head'_iff]
  refine exists_congr fun c ↦ ?_
  rw [hasMember_withSet_of_mem hname ha]
  exact and_congr_right fun hac ↦ h.reflTransGen_withSet hname (h.mem_names hac)

/-- What a new set reaches is what its members reach. -/
theorem WellFormed.transGen_withSet_self (h : r.WellFormed) (hname : s.name ∉ r.names)
    (hmembers : ∀ m ∈ s.members, m ∈ r.names) {b : String} :
    Relation.TransGen (r.withSet s).HasMember s.name b ↔
      ∃ m ∈ s.members, Relation.ReflTransGen r.HasMember m b := by
  rw [Relation.TransGen.head'_iff]
  refine exists_congr fun m ↦ ?_
  have hmember : (r.withSet s).HasMember s.name m ↔ m ∈ s.members := by
    rw [hasMember_withSet, or_iff_right fun hm ↦ hname hm.mem_names]
    exact and_iff_right rfl
  rw [hmember]
  exact and_congr_right fun hm ↦ h.reflTransGen_withSet hname (hmembers m hm)

/-- A further set has the union of the masks of its members. -/
theorem WellFormed.withSet (h : r.WellFormed) (hname : s.name ∉ r.names)
    (hunion : r.union s.members = .ok s.mask) (hzero : s.mask ≠ 0) :
    (r.withSet s).WellFormed := by
  obtain ⟨hmembers, hbits⟩ := union_ok h.inverse hunion
  refine ⟨h.inverse, ?_, ?_, ?_, ?_⟩
  · exact (names_withSet s).nodup_iff.mpr (List.nodup_cons.mpr ⟨hname, h.nodup_names⟩)
  · intro a b hab
    refine (names_withSet s).mem_iff.mpr (List.mem_cons_of_mem _ ?_)
    obtain hab | ⟨-, hb⟩ := hasMember_withSet.mp hab
    · exact h.mem_names hab
    · exact hmembers b hb
  · intro s' hs'
    obtain hs' | rfl := mem_sets_withSet.mp hs'
    · exact h.mask_ne_zero s' hs'
    · exact hzero
  · intro s' hs' b
    obtain hs' | rfl := mem_sets_withSet.mp hs'
    · have hmem : s'.name ∈ r.names := List.mem_append_right _ (List.mem_map_of_mem hs')
      rw [h.testBit_iff s' hs']
      exact exists_congr fun mode ↦ and_congr_right fun _ ↦ (h.transGen_withSet hname hmem).symm
    · rw [hbits]
      simp only [h.transGen_withSet_self hname hmembers]
      constructor
      · rintro ⟨m, hm, k, hk, hbit⟩
        obtain ⟨mode, hmode, hreach⟩ := (h.testBit_of_mask? hk b).mp hbit
        exact ⟨mode, hmode, m, hm, hreach⟩
      · rintro ⟨mode, hmode, m, hm, hreach⟩
        obtain ⟨k, hk⟩ :=
          Option.isSome_iff_exists.mp ((mask?_isSome h.inverse).mpr (hmembers m hm))
        exact ⟨m, hm, k, hk, (h.testBit_of_mask? hk b).mpr ⟨mode, hmode, hreach⟩⟩

end withSet

/-! ### Masks stay -/

theorem mask?_withMode {other : String} (hnew : r.mask? name = none)
    (hm : r.mask? other = some mask) : (r.withMode name).mask? other = some mask := by
  have hne : other ≠ name := by
    rintro rfl
    cases hnew.symm.trans hm
  have hget : (r.withMode name).core.get? other = r.core.get? other := by
    rw [withMode, TagRegistry.get?_push, if_neg hne]
  rw [mask?] at hm ⊢
  rw [hget]
  exact hm

theorem mask?_withSet {s : ModeSet} (hm : r.mask? name = some mask) :
    (r.withSet s).mask? name = some mask := by
  rw [mask?] at hm ⊢
  rw [withSet]
  split at hm
  · next bit hbit =>
    rw [hbit]
    exact hm
  · next hnone =>
    obtain ⟨s', hs', hmask⟩ := Option.map_eq_some_iff.mp hm
    rw [hnone, setMask?, List.find?_append, hs', Option.some_or, Option.map_some, hmask]

/-! ## Steps -/

/-- A union is empty only if it is the union of nothing. -/
theorem WellFormed.union_eq_zero_iff (h : r.WellFormed) (hunion : r.union members = .ok mask) :
    mask = 0 ↔ members = [] := by
  obtain ⟨hmembers, hbits⟩ := union_ok h.inverse hunion
  constructor
  · rintro rfl
    refine List.eq_nil_iff_forall_not_mem.mpr fun m hm ↦ ?_
    obtain ⟨k, hk⟩ := Option.isSome_iff_exists.mp ((mask?_isSome h.inverse).mpr (hmembers m hm))
    obtain ⟨b, hb⟩ := Nat.exists_testBit_of_ne_zero (h.ne_zero_of_mask? hk)
    simpa using (hbits b).mpr ⟨m, hm, k, hk, hb⟩
  · rintro rfl
    exact (Except.ok.inj hunion).symm

end ModeRegistry

namespace ModeStep

open ModeRegistry

variable {r : ModeRegistry} {name : String} {members : List String} {mask : Nat}

/-- A mode is refused for the same names as a set is. -/
theorem outcome_declareMode (name : String) (r : ModeRegistry) :
    (declareMode name).outcome r =
      if (r.mask? name).isSome then (.error (.duplicateMode name), r)
      else if r.core.size < TagClass.limit then (.ok r.core.size, r.withMode name)
      else (.error (.tagOverflow r.core.cls name), r) := by
  rw [outcome, run, ModeRegistry.declareMode, isSome_mask?]
  by_cases htaken : ((r.core.get? name).isSome || (r.setMask? name).isSome) = true
  · rw [if_pos htaken, if_pos htaken]
  · have hget : r.core.get? name = none :=
      Option.not_isSome_iff_eq_none.mp fun hsome ↦ htaken (Bool.or_eq_true_iff.mpr (.inl hsome))
    rw [if_neg htaken, if_neg htaken]
    by_cases hsize : r.core.size < TagClass.limit
    · rw [if_pos hsize, TagRegistry.register_of_lt hget hsize]
      rfl
    · rw [if_neg hsize, TagRegistry.register_of_le hget (Nat.le_of_not_lt hsize)]

theorem outcome_defineSet (name : String) (members : List String) (r : ModeRegistry) :
    (defineSet name members).outcome r =
      if (r.mask? name).isSome then (.error (.duplicateMode name), r)
      else
        match r.union members with
        | .error unknown => (.error (.unknownMode unknown name), r)
        | .ok mask =>
          if mask = 0 then (.error (.emptyModeSet name), r)
          else (.ok mask, r.withSet ⟨name, members, mask⟩) := by
  rw [outcome, run, ModeRegistry.defineSet]
  by_cases htaken : (r.mask? name).isSome
  · rw [if_pos htaken, if_pos htaken]
  · rw [if_neg htaken, if_neg htaken]
    rcases r.union members with unknown | mask
    · rfl
    · by_cases hzero : mask = 0
      · simp only [if_pos hzero]
      · simp only [if_neg hzero]
        rfl

/-- **What a step does.** It fails and changes nothing, or it puts a new name behind the others of
its kind. -/
theorem outcome_cases (s : ModeStep) (r : ModeRegistry) :
    (∃ e, s.outcome r = (.error e, r)) ∨
    (∃ name, s = .declareMode name ∧ r.mask? name = none ∧
      s.outcome r = (.ok r.core.size, r.withMode name)) ∨
    ∃ set : ModeSet, s = .defineSet set.name set.members ∧ r.mask? set.name = none ∧
      r.union set.members = .ok set.mask ∧ set.mask ≠ 0 ∧
      s.outcome r = (.ok set.mask, r.withSet set) := by
  obtain name | ⟨name, members⟩ := s
  · rw [outcome_declareMode]
    split_ifs with htaken hsize
    · exact .inl ⟨_, rfl⟩
    · exact .inr (.inl ⟨name, rfl, Option.not_isSome_iff_eq_none.mp htaken, rfl⟩)
    · exact .inl ⟨_, rfl⟩
  · rw [outcome_defineSet]
    split_ifs with htaken
    · exact .inl ⟨_, rfl⟩
    · have hnew : r.mask? name = none := Option.not_isSome_iff_eq_none.mp htaken
      rcases hunion : r.union members with unknown | mask
      · exact .inl ⟨_, rfl⟩
      · by_cases hzero : mask = 0
        · exact .inl ⟨_, if_pos hzero⟩
        · exact .inr (.inr ⟨⟨name, members, mask⟩, rfl, hnew, hunion, hzero, if_neg hzero⟩)

/-- Every step keeps a registry well-formed. -/
theorem wellFormed_outcome (s : ModeStep) (h : r.WellFormed) : (s.outcome r).2.WellFormed := by
  obtain ⟨e, hs⟩ | ⟨name, -, hnew, hs⟩ | ⟨set, -, hnew, hunion, hzero, hs⟩ := s.outcome_cases r
  · rw [hs]
    exact h
  · rw [hs]
    exact h.withMode ((mask?_eq_none_iff h.inverse).mp hnew)
  · rw [hs]
    exact h.withSet ((mask?_eq_none_iff h.inverse).mp hnew) hunion hzero

/-- Every step keeps the masks that are there. -/
theorem mask?_outcome (s : ModeStep) (hm : r.mask? name = some mask) :
    (s.outcome r).2.mask? name = some mask := by
  obtain ⟨e, hs⟩ | ⟨name, -, hnew, hs⟩ | ⟨set, -, -, -, -, hs⟩ := s.outcome_cases r
  · rw [hs]
    exact hm
  · rw [hs]
    exact mask?_withMode hnew hm
  · rw [hs]
    exact mask?_withSet hm

/-- A step that fails changes nothing. -/
theorem outcome_of_error {s : ModeStep} {e : CompileError} (h : (s.outcome r).1 = .error e) :
    (s.outcome r).2 = r := by
  obtain ⟨e', hs⟩ | ⟨name, -, -, hs⟩ | ⟨set, -, -, -, -, hs⟩ := s.outcome_cases r
  · rw [hs]
  · rw [hs] at h
    cases h
  · rw [hs] at h
    cases h

theorem eq_of_run_eq_error {s : ModeStep} {e : CompileError} {r' : ModeRegistry}
    (h : s.run r = .error e r') : r = r' := by
  have hsame : (s.outcome r).2 = r := outcome_of_error (e := e) (by rw [outcome, h])
  rw [outcome, h] at hsame
  exact hsame.symm

/-- The sets behind a step are those before it, and the one that it defines. -/
theorem mem_sets_outcome {s : ModeStep} {set : ModeSet} :
    set ∈ (s.outcome r).2.sets ↔
      set ∈ r.sets ∨ s = .defineSet set.name set.members ∧ (s.outcome r).1 = .ok set.mask := by
  obtain ⟨e, hs⟩ | ⟨name, rfl, -, hs⟩ | ⟨set', rfl, -, -, -, hs⟩ := s.outcome_cases r
  · simp [hs]
  · simp [hs, withMode]
  · obtain ⟨name, members, mask⟩ := set
    obtain ⟨name', members', mask'⟩ := set'
    simp [hs, mem_sets_withSet, and_assoc, eq_comm]

/-- A set is refused as empty if and only if it is a new one without members. -/
theorem defineSet_empty_iff (h : r.WellFormed) {set : String} :
    ((defineSet name members).outcome r).1 = .error (.emptyModeSet set) ↔
      set = name ∧ name ∉ r.names ∧ members = [] := by
  simp only [outcome_defineSet, mask?_isSome h.inverse]
  split_ifs with hname
  · simp [hname]
  · rcases hunion : r.union members with unknown | mask
    · have hne : members ≠ [] := by
        rintro rfl
        cases hunion
      simp [hne]
    · have hzero := h.union_eq_zero_iff hunion
      by_cases hmask : mask = 0
      · simp [hmask, hname, hzero.mp hmask, eq_comm]
      · simp [hmask, mt hzero.mpr hmask]

/-- The error of an unknown mode names the first member that is not declared. -/
theorem defineSet_unknown_iff (h : r.WellFormed) {unknown context : String} :
    ((defineSet name members).outcome r).1 = .error (.unknownMode unknown context) ↔
      context = name ∧ name ∉ r.names ∧ members.find? (· ∉ r.names) = some unknown := by
  simp only [outcome_defineSet, mask?_isSome h.inverse, ← union_eq_error_iff h.inverse]
  split_ifs with hname
  · simp [hname]
  · rcases hunion : r.union members with unknown' | mask
    · simp [hname, and_comm, eq_comm]
    · by_cases hmask : mask = 0
      · simp [hmask]
      · simp [hmask]

end ModeStep

namespace ModeRegistry

variable {r : ModeRegistry} {name : String} {mask : Nat}

/-! ## Histories -/

theorem WellFormed.afterFrom (h : r.WellFormed) (history : List ModeStep) :
    (r.afterFrom history).WellFormed := by
  induction history generalizing r with
  | nil => exact h
  | cons s history ih => exact ih (s.wellFormed_outcome h)

theorem mask?_afterFrom (history : List ModeStep) (hm : r.mask? name = some mask) :
    (r.afterFrom history).mask? name = some mask := by
  induction history generalizing r with
  | nil => exact hm
  | cons s history ih => exact ih (s.mask?_outcome hm)

/-- The sets of a registry are those that its history has defined. -/
theorem mem_sets_after_iff {history : List ModeStep} {set : ModeSet} :
    set ∈ (after history).sets ↔
      ∃ before later, history = before ++ .defineSet set.name set.members :: later ∧
        ((ModeStep.defineSet set.name set.members).outcome (after before)).1 = .ok set.mask := by
  induction history using List.reverseRecOn with
  | nil => simp [after, afterFrom]
  | append_singleton history s ih =>
    have hstep : after (history ++ [s]) = (s.outcome (after history)).2 := after_append history [s]
    rw [hstep, ModeStep.mem_sets_outcome, ih]
    constructor
    · rintro (⟨before, later, rfl, hok⟩ | ⟨rfl, hok⟩)
      · exact ⟨before, later ++ [s], by simp, hok⟩
      · exact ⟨history, [], rfl, hok⟩
    · rintro ⟨before, later, hsplit, hok⟩
      obtain rfl | ⟨later, s', rfl⟩ := List.eq_nil_or_concat later
      · obtain ⟨rfl, hs⟩ := List.append_inj' hsplit rfl
        obtain rfl := List.singleton_inj.mp hs
        exact .inr ⟨rfl, hok⟩
      · rw [List.concat_eq_append, ← List.cons_append, ← List.append_assoc] at hsplit
        exact .inl ⟨before, later, (List.append_inj' hsplit rfl).1, hok⟩

/-- **Mode sets are transitive unions, fixed for good.** However modes and sets have been declared,
and whichever of the steps have failed:
* the registry is well-formed, so names are different, and the mask of a set has the bits of the
  core modes that can be reached from it;
* its sets are those that the successful steps have defined, from the members given there;
* a further step that fails changes nothing;
* a mask stays what it is, whatever comes later;
* a set is refused as empty if and only if it is a new one without members, and for an unknown mode
  if and only if it is a new one and the mode is the first member that is not declared. -/
theorem masks_fixed (history : List ModeStep) :
    (after history).WellFormed ∧
    (∀ set, set ∈ (after history).sets ↔
      ∃ before later, history = before ++ .defineSet set.name set.members :: later ∧
        ((ModeStep.defineSet set.name set.members).outcome (after before)).1 = .ok set.mask) ∧
    (∀ (s : ModeStep) (e : CompileError), (s.outcome (after history)).1 = .error e →
      (s.outcome (after history)).2 = after history) ∧
    (∀ (name : String) (mask : Nat) (later : List ModeStep),
      (after history).mask? name = some mask →
        (after (history ++ later)).mask? name = some mask) ∧
    ∀ (name : String) (members : List String),
      (∀ set, ((ModeStep.defineSet name members).outcome (after history)).1 =
          .error (.emptyModeSet set) ↔
        set = name ∧ name ∉ (after history).names ∧ members = []) ∧
      ∀ unknown context, ((ModeStep.defineSet name members).outcome (after history)).1 =
          .error (.unknownMode unknown context) ↔
        context = name ∧ name ∉ (after history).names ∧
          members.find? (· ∉ (after history).names) = some unknown := by
  have hwf : (after history).WellFormed := wellFormed_empty.afterFrom history
  refine ⟨hwf, fun set ↦ mem_sets_after_iff, fun s e he ↦ ModeStep.outcome_of_error he,
    fun name mask later hm ↦ ?_, fun name members ↦ ⟨fun set ↦ ModeStep.defineSet_empty_iff hwf,
      fun unknown context ↦ ModeStep.defineSet_unknown_iff hwf⟩⟩
  rw [after_append]
  exact mask?_afterFrom later hm

/-- A set of sets keeps its mask while more is declared, and its name is not free any more. -/
theorem masks_fixed_nestedSet :
    let history : List ModeStep := [.declareMode "real", .declareMode "long",
      .defineSet "any" ["real", "long"], .defineSet "nested" ["any"]]
    let s : ModeStep := .declareMode "nested"
    let later : List ModeStep := [s, .defineSet "none" [], .declareMode "virtual"]
    ((s.outcome (after history)).1 = .error (.duplicateMode "nested") ∧
      (s.outcome (after history)).2 = after history) ∧
    (after history).mask? "nested" = some 3 ∧
      (after (history ++ later)).mask? "nested" = some 3 := by
  intro history s later
  obtain ⟨-, -, hfail, hkeep, -⟩ := masks_fixed history
  have herror : (s.outcome (after history)).1 = .error (.duplicateMode "nested") := by decide
  have hmask : (after history).mask? "nested" = some 3 := by decide
  exact ⟨⟨herror, hfail s _ herror⟩, hmask, hkeep "nested" 3 later hmask⟩

end ModeRegistry

end DecodeTrie
