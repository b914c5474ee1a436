import DecodeTrie.Proofs.Tag.Requests

/-!
# Sets of tags and their names

A set of tags is a number, and the names of its members are read off a registry. The two come from
each other: the set of registered names has those names as members, then and in every larger
registry (`TagRegistry.Denotes`), and registering the names of the members of any number gives the
number back, less the bits that belong to no name (`TagRegistry.registerAll_namesIn`).
-/

namespace DecodeTrie

/-- Sets with the same members are the same. -/
theorem TagSet.eq_of_contains {s t : TagSet}
    (h : ∀ b, s.contains b = true ↔ t.contains b = true) : s = t := by
  obtain ⟨m⟩ := s
  obtain ⟨n⟩ := t
  exact congrArg TagSet.mk (Nat.eq_of_testBit_eq fun b ↦ Bool.eq_iff_iff.mpr (h b))

namespace TagRegistry

variable {r : TagRegistry} {cls : TagClass} {asked names : List String} {name : String}
  {set : TagSet} {bit : Nat}

/-! ## Members -/

/-- The members of a set are the tags with the given names. -/
structure Denotes (r : TagRegistry) (set : TagSet) (names : List String) : Prop where
  /-- The names of the members are the given ones. -/
  mem_namesIn_iff : ∀ name, name ∈ r.namesIn set ↔ name ∈ names
  /-- They are listed by increasing bits, so each of them once. -/
  increasing : ∃ bits : List Nat, bits.Pairwise (· < ·) ∧
    (r.namesIn set).map r.get? = bits.map some
  /-- A name, registered or not, belongs to a member if and only if it is one of the given ones. -/
  containsOpt_iff : ∀ name, set.containsOpt (r.get? name) = true ↔ name ∈ names

theorem containsOpt_get?_iff :
    set.containsOpt (r.get? name) = true ↔
      ∃ bit, r.get? name = some bit ∧ set.contains bit = true := by
  rw [TagSet.containsOpt, Option.any_eq_true]

theorem mem_namesIn :
    name ∈ r.namesIn set ↔ ∃ bit, r.names[bit]? = some name ∧ set.contains bit = true := by
  rw [namesIn, List.mem_map]
  constructor
  · rintro ⟨⟨name, bit⟩, he, rfl⟩
    obtain ⟨he, hbit⟩ := List.mem_filter.mp he
    exact ⟨bit, mem_entries.mp he, hbit⟩
  · rintro ⟨bit, hname, hbit⟩
    exact ⟨(name, bit), List.mem_filter.mpr ⟨mem_entries.mpr hname, hbit⟩, rfl⟩

theorem mem_namesIn_ofRequests :
    name ∈ (ofRequests cls asked).namesIn set ↔
      ∃ bit, (firstNames asked)[bit]? = some name ∧ set.contains bit = true := by
  rw [mem_namesIn, names_ofRequests]

/-- The names of members are listed in the order of their bits. -/
theorem increasing_namesIn (cls : TagClass) (asked : List String) (set : TagSet) :
    ∃ bits : List Nat, bits.Pairwise (· < ·) ∧
      ((ofRequests cls asked).namesIn set).map (ofRequests cls asked).get? = bits.map some := by
  refine ⟨((ofRequests cls asked).entries.filter fun e ↦ set.contains e.2).map Prod.snd, ?_, ?_⟩
  · have hbits : ((ofRequests cls asked).entries.map Prod.snd).Pairwise (· < ·) := by
      rw [entries, List.zipIdx_map_snd]
      exact List.pairwise_lt_range'
    exact hbits.sublist (List.filter_sublist.map _)
  · rw [namesIn, List.map_map, List.map_map]
    refine List.map_congr_left fun e he ↦ ?_
    exact (inverse_ofRequests cls asked _ _).mpr (mem_entries.mp (List.mem_filter.mp he).1)

/-- For the names of the members it suffices which names belong to members. -/
theorem denotes_ofRequests
    (h : ∀ name, (∃ bit, (firstNames asked)[bit]? = some name ∧ set.contains bit = true) ↔
      name ∈ names) : (ofRequests cls asked).Denotes set names where
  mem_namesIn_iff name := mem_namesIn_ofRequests.trans (h name)
  increasing := increasing_namesIn cls asked set
  containsOpt_iff name := by
    simp only [containsOpt_get?_iff, get?_ofRequests_eq_some_iff]
    exact h name

/-! ## From names to sets and back -/

/-- The set of registered names has the members that it was made from, also in a larger registry. -/
theorem denotes_append (hsub : names ⊆ firstNames (asked ++ names))
    (hbits : ∀ b, set.contains b = true ↔
      ∃ name ∈ names, (firstNames (asked ++ names))[b]? = some name) (more : List String) :
    (ofRequests cls (asked ++ names ++ more)).Denotes set names := by
  refine denotes_ofRequests fun name ↦ ⟨?_, fun hname ↦ ?_⟩
  · rintro ⟨bit, hbit, hmem⟩
    obtain ⟨name', hname', hbit'⟩ := (hbits bit).mp hmem
    obtain rfl := Option.some.inj (hbit.symm.trans (getElem?_firstNames_append hbit' more))
    exact hname'
  · obtain ⟨bit, hbit⟩ := List.mem_iff_getElem?.mp (hsub hname)
    exact ⟨bit, getElem?_firstNames_append hbit more, (hbits bit).mpr ⟨name, hname, hbit⟩⟩

/-- Registering what is registered already gives its set and changes nothing. -/
theorem registerAll_of_subset (h : names ⊆ firstNames asked) :
    ∃ set : TagSet, registerAll names (ofRequests cls asked) = .ok set (ofRequests cls asked) ∧
      ∀ b, set.contains b = true ↔ ∃ name ∈ names, (firstNames asked)[b]? = some name := by
  have hsame (before : List String) (hbefore : before ⊆ names) :
      firstNames (asked ++ before) = firstNames asked :=
    firstNames_append_of_subset (List.Subset.trans hbefore h)
  obtain ⟨-, set, hset, hbits⟩ | ⟨before, name, rest, rfl, -, -, hnew, -⟩ :=
    registerAll_cases cls asked names
  · rw [ofRequests, ofRequests, hsame names (List.Subset.refl _), ← ofRequests] at hset
    rw [hsame names (List.Subset.refl _)] at hbits
    exact ⟨set, hset, hbits⟩
  · rw [hsame before (List.subset_append_left _ _)] at hnew
    exact absurd (h (by simp)) hnew

/-- The bits of a number that belong to names are those below the number of names. -/
theorem contains_mod_iff {bits b : Nat} :
    TagSet.contains ⟨bits % bitMask (ofRequests cls asked).size⟩ b = true ↔
      ∃ name ∈ (ofRequests cls asked).namesIn ⟨bits⟩, (firstNames asked)[b]? = some name := by
  rw [TagSet.contains, size_ofRequests, bitMask, Nat.one_shiftLeft, Nat.testBit_mod_two_pow,
    Bool.and_eq_true, decide_eq_true_eq]
  constructor
  · rintro ⟨hlt, hbit⟩
    have hname : (firstNames asked)[b]? = some (firstNames asked)[b] := List.getElem?_eq_getElem hlt
    exact ⟨_, mem_namesIn_ofRequests.mpr ⟨b, hname, hbit⟩, hname⟩
  · rintro ⟨name, hname, hb⟩
    obtain ⟨bit, hbit, hmem⟩ := mem_namesIn_ofRequests.mp hname
    obtain rfl : bit = b := (getElem?_firstNames_eq_iff hbit).mp hb
    exact ⟨(List.getElem?_eq_some_iff.mp hbit).1, hmem⟩

/-- **Tag sets and names go back and forth.** However a registry has come about:
* if registering names gives a set, then that set has the tags with these names as members, in the
  registry behind the step and in whatever it becomes later;
* registering the names that the members of any number have changes nothing, and gives the number
  cut to the bits that belong to names. -/
theorem registerAll_namesIn (cls : TagClass) (history : List TagStep) :
    (∀ (names : List String) (set : TagSet) (r : TagRegistry),
      registerAll names (after cls history) = .ok set r →
        ∀ later : List TagStep, (r.afterFrom later).Denotes set names) ∧
    ∀ bits : Nat,
      registerAll ((after cls history).namesIn ⟨bits⟩) (after cls history) =
        .ok ⟨bits % bitMask (after cls history).size⟩ (after cls history) := by
  rw [after_eq_ofRequests]
  generalize history.flatMap TagStep.names = asked
  refine ⟨fun names set r hok later ↦ ?_, fun bits ↦ ?_⟩
  · obtain ⟨hsub, set', hset', hbits⟩ | ⟨_, _, _, _, _, _, _, herror⟩ :=
      registerAll_cases cls asked names
    · obtain ⟨rfl, rfl⟩ := EStateM.Result.ok.inj (hset'.symm.trans hok)
      rw [afterFrom_ofRequests]
      exact denotes_append hsub hbits _
    · cases herror.symm.trans hok
  · have hsub : (ofRequests cls asked).namesIn ⟨bits⟩ ⊆ firstNames asked := by
      intro name hname
      obtain ⟨bit, hbit, -⟩ := mem_namesIn_ofRequests.mp hname
      exact List.mem_of_getElem? hbit
    obtain ⟨set, hset, hbits⟩ := registerAll_of_subset hsub
    have heq : set = ⟨bits % bitMask (ofRequests cls asked).size⟩ :=
      TagSet.eq_of_contains fun b ↦ (hbits b).trans contains_mod_iff.symm
    rw [hset, heq]

/-- A name that is asked for twice is one member, and a later name does not become a member. -/
theorem registerAll_namesIn_repeatedName :
    let r : TagRegistry := after .encoding [.register "a", .register "b"]
    let r' : TagRegistry := ⟨.encoding, ["a", "b", "c"], [("c", 2), ("b", 1), ("a", 0)]⟩
    registerAll ["c", "a", "c"] r = .ok ⟨0b101⟩ r' ∧
      (r'.afterFrom [.registerAll ["d", "a"]]).Denotes ⟨0b101⟩ ["c", "a", "c"] ∧
      registerAll (r.namesIn ⟨0b11010⟩) r = .ok ⟨0b10⟩ r := by
  intro r r'
  obtain ⟨hnames, hbits⟩ := registerAll_namesIn .encoding [.register "a", .register "b"]
  have hr : r = ⟨.encoding, ["a", "b"], [("b", 1), ("a", 0)]⟩ := by decide +kernel
  have hok : registerAll ["c", "a", "c"] r = .ok ⟨0b101⟩ r' := by
    rw [hr]
    rfl
  exact ⟨hok, hnames _ _ _ hok _, hbits 0b11010⟩

end TagRegistry

end DecodeTrie
