import DecodeTrie.Proofs.Appearance
import DecodeTrie.Proofs.Tag.Masks
import DecodeTrie.Tag.TagStep

/-!
# Bits follow first appearance

A registry holds the first names of those that it has been asked for, each once, in the order in
which they have been asked for first (`TagRegistry.after_eq_ofRequests`). It does not matter whether
names were asked for one at a time or several in one go, nor which of the steps have failed: a step
fails only on a full registry, and the names that it then leaves out would not have found room
either.
-/

namespace DecodeTrie

namespace TagRegistry

variable {cls : TagClass} {asked more names : List String} {name : String} {bit : Nat}

/-! ## The first names -/

/-- The names that a registry can hold of those that it is asked for: each one where it is asked for
first, up to the limit. -/
def firstNames (asked : List String) : List String := asked.eraseDups.take TagClass.limit

theorem length_firstNames_le (asked : List String) :
    (firstNames asked).length ≤ TagClass.limit := by
  rw [firstNames, List.length_take]
  exact Nat.min_le_left _ _

theorem nodup_firstNames (asked : List String) : (firstNames asked).Nodup :=
  (nodup_eraseDups asked).sublist (List.take_sublist _ _)

/-- Names are never given up. -/
theorem firstNames_prefix_append (asked more : List String) :
    firstNames asked <+: firstNames (asked ++ more) := by
  obtain ⟨rest, hrest⟩ := eraseDups_prefix_append asked more
  rw [firstNames, firstNames, ← hrest, List.take_append]
  exact List.prefix_append _ _

/-- Names keep their places. -/
theorem getElem?_firstNames_append (h : (firstNames asked)[bit]? = some name)
    (more : List String) : (firstNames (asked ++ more))[bit]? = some name := by
  obtain ⟨hlt, rfl⟩ := List.getElem?_eq_some_iff.mp h
  exact List.prefix_iff_getElem?.mp (firstNames_prefix_append asked more) bit hlt

/-- A name has one place. -/
theorem getElem?_firstNames_eq_iff (h : (firstNames asked)[bit]? = some name) {b : Nat} :
    (firstNames asked)[b]? = some name ↔ bit = b := by
  rw [← h, eq_comm]
  exact List.getElem?_inj (List.getElem?_eq_some_iff.mp h).1 (nodup_firstNames asked)

/-- As long as there is room, every name that is asked for is held. -/
theorem subset_firstNames (h : (firstNames asked).length < TagClass.limit) :
    asked ⊆ firstNames asked := by
  intro name hname
  rw [firstNames, List.length_take] at h
  rw [firstNames, List.take_of_length_le (by omega)]
  exact List.mem_eraseDups.mpr hname

/-- A full registry stays what it is. -/
theorem firstNames_append_of_full (h : TagClass.limit ≤ (firstNames asked).length)
    (more : List String) : firstNames (asked ++ more) = firstNames asked := by
  refine ((firstNames_prefix_append asked more).eq_of_length_le ?_).symm
  exact Nat.le_trans (length_firstNames_le _) h

/-- Names that are held are not appended again. -/
theorem firstNames_append_of_subset (h : more ⊆ firstNames asked) :
    firstNames (asked ++ more) = firstNames asked := by
  have hsub : more ⊆ asked := fun _ hname ↦
    List.mem_eraseDups.mp (List.mem_of_mem_take (h hname))
  rw [firstNames, eraseDups_append_of_subset hsub, firstNames]

/-- A new name is appended if there is room. -/
theorem firstNames_concat_of_not_mem (hroom : (firstNames asked).length < TagClass.limit)
    (h : name ∉ firstNames asked) :
    firstNames (asked ++ [name]) = firstNames asked ++ [name] := by
  have hnew : name ∉ asked := fun hmem ↦ h (subset_firstNames hroom hmem)
  rw [firstNames, List.length_take] at hroom
  rw [firstNames, eraseDups_concat, if_neg (mt List.contains_iff_mem.mp hnew), firstNames,
    List.take_of_length_le (l := asked.eraseDups) (by omega), List.take_of_length_le]
  rw [List.length_append, List.length_singleton]
  omega

/-! ## Registering -/

/-- The registry of a class that has been asked for names. -/
def ofRequests (cls : TagClass) (asked : List String) : TagRegistry :=
  pushAll { cls := cls } (firstNames asked)

@[simp] theorem cls_ofRequests (cls : TagClass) (asked : List String) :
    (ofRequests cls asked).cls = cls :=
  cls_pushAll _ _

@[simp] theorem names_ofRequests (cls : TagClass) (asked : List String) :
    (ofRequests cls asked).names = firstNames asked := by
  rw [ofRequests, names_pushAll, List.nil_append]

theorem size_ofRequests (cls : TagClass) (asked : List String) :
    (ofRequests cls asked).size = (firstNames asked).length := by
  rw [size, names_ofRequests]

theorem inverse_ofRequests (cls : TagClass) (asked : List String) :
    (ofRequests cls asked).Inverse :=
  (inverse_fresh cls).pushAll (nodup_firstNames asked)

theorem get?_ofRequests_eq_some_iff :
    (ofRequests cls asked).get? name = some bit ↔ (firstNames asked)[bit]? = some name := by
  rw [inverse_ofRequests cls asked name bit, names_ofRequests]

/-- A new name goes into both stores, if there is room. -/
theorem ofRequests_concat (hroom : (firstNames asked).length < TagClass.limit)
    (h : name ∉ firstNames asked) :
    ofRequests cls (asked ++ [name]) = (ofRequests cls asked).push name := by
  rw [ofRequests, firstNames_concat_of_not_mem hroom h, pushAll_append, ← ofRequests]
  rfl

/-- **What registering a name does.** It gives the place of the name among the first names, or the
registry is full and stays what it is. -/
theorem register_cases (cls : TagClass) (asked : List String) (name : String) :
    (∃ bit, (firstNames (asked ++ [name]))[bit]? = some name ∧
      register name (ofRequests cls asked) = .ok bit (ofRequests cls (asked ++ [name]))) ∨
    (TagClass.limit ≤ (firstNames asked).length ∧ name ∉ firstNames asked ∧
      register name (ofRequests cls asked) =
        .error (.tagOverflow cls name) (ofRequests cls asked)) := by
  rcases hget : (ofRequests cls asked).get? name with _ | bit
  · have hnew : name ∉ firstNames asked := by
      rw [← names_ofRequests cls, ← (inverse_ofRequests cls asked).get?_eq_none_iff]
      exact hget
    have hsize := size_ofRequests cls asked
    obtain hroom | hfull := Nat.lt_or_ge (firstNames asked).length TagClass.limit
    · have hnames := firstNames_concat_of_not_mem hroom hnew
      refine .inl ⟨(firstNames asked).length, by simp [hnames], ?_⟩
      rw [register_of_lt hget (hsize ▸ hroom), hsize, ofRequests_concat hroom hnew]
    · refine .inr ⟨hfull, hnew, ?_⟩
      rw [register_of_le hget (hsize ▸ hfull), cls_ofRequests]
  · have hbit : (firstNames asked)[bit]? = some name := get?_ofRequests_eq_some_iff.mp hget
    have hsame : firstNames (asked ++ [name]) = firstNames asked :=
      firstNames_append_of_subset (List.cons_subset.mpr
        ⟨List.mem_of_getElem? hbit, List.nil_subset _⟩)
    refine .inl ⟨bit, hsame ▸ hbit, ?_⟩
    rw [register_of_get? hget, ofRequests, ofRequests, hsame]

section

variable {r r' : TagRegistry} {set : TagSet} {e : CompileError}

theorem registerInto_cons_of_ok (h : register name r = .ok bit r') :
    registerInto set (name :: names) r = registerInto (set.insert bit) names r' := by
  simp only [registerInto, Bind.bind, EStateM.bind, h]

theorem registerInto_cons_of_error (h : register name r = .error e r') :
    registerInto set (name :: names) r = .error e r' := by
  simp only [registerInto, Bind.bind, EStateM.bind, h]

end

/-- **What registering names does.** Either all of them have a place among the first names, and
their bits join the set, or the registry is full behind some of them and the next one is new. -/
theorem registerInto_cases (cls : TagClass) (asked names : List String) (set : TagSet) :
    (names ⊆ firstNames (asked ++ names) ∧ ∃ set' : TagSet,
      registerInto set names (ofRequests cls asked) = .ok set' (ofRequests cls (asked ++ names)) ∧
      ∀ b, set'.contains b = true ↔
        set.contains b = true ∨ ∃ name ∈ names, (firstNames (asked ++ names))[b]? = some name) ∨
    ∃ before name rest, names = before ++ name :: rest ∧
      TagClass.limit ≤ (firstNames (asked ++ before)).length ∧
      before ⊆ firstNames (asked ++ before) ∧ name ∉ firstNames (asked ++ before) ∧
      registerInto set names (ofRequests cls asked) =
        .error (.tagOverflow cls name) (ofRequests cls (asked ++ before)) := by
  induction names generalizing asked set with
  | nil => exact .inl ⟨List.nil_subset _, set, by rw [List.append_nil]; rfl, by simp⟩
  | cons name names ih =>
    obtain ⟨bit, hbit, hreg⟩ | ⟨hfull, hnew, hreg⟩ := register_cases cls asked name
    · -- The name keeps its place when the others are registered behind it.
      have hkeep (more : List String) : (firstNames (asked ++ name :: more))[bit]? = some name := by
        rw [List.append_cons]
        exact getElem?_firstNames_append hbit more
      rw [registerInto_cons_of_ok hreg]
      obtain ⟨hsub, set', hset', hbits⟩ | ⟨before, next, rest, rfl, hfull, hsub, hnew, hset'⟩ :=
        ih (asked ++ [name]) (set.insert bit)
      · rw [← List.append_cons] at hsub hset' hbits
        refine .inl ⟨List.cons_subset.mpr ⟨List.mem_of_getElem? (hkeep names), hsub⟩, set', hset',
          fun b ↦ ?_⟩
        rw [hbits, TagSet.contains_insert, Bool.or_eq_true, decide_eq_true_eq, or_assoc]
        simp [getElem?_firstNames_eq_iff (hkeep names)]
      · rw [← List.append_cons] at hfull hsub hnew hset'
        exact .inr ⟨name :: before, next, rest, rfl, hfull,
          List.cons_subset.mpr ⟨List.mem_of_getElem? (hkeep before), hsub⟩, hnew, hset'⟩
    · refine .inr ⟨[], name, names, rfl, ?_, List.nil_subset _, ?_, ?_⟩
      · rwa [List.append_nil]
      · rwa [List.append_nil]
      · rw [registerInto_cons_of_error hreg, List.append_nil]

/-- What is registered one name at a time is held, or the registry is full. -/
theorem registerAll_cases (cls : TagClass) (asked names : List String) :
    (names ⊆ firstNames (asked ++ names) ∧ ∃ set : TagSet,
      registerAll names (ofRequests cls asked) = .ok set (ofRequests cls (asked ++ names)) ∧
      ∀ b, set.contains b = true ↔
        ∃ name ∈ names, (firstNames (asked ++ names))[b]? = some name) ∨
    ∃ before name rest, names = before ++ name :: rest ∧
      TagClass.limit ≤ (firstNames (asked ++ before)).length ∧
      before ⊆ firstNames (asked ++ before) ∧ name ∉ firstNames (asked ++ before) ∧
      registerAll names (ofRequests cls asked) =
        .error (.tagOverflow cls name) (ofRequests cls (asked ++ before)) := by
  simpa [registerAll] using registerInto_cases cls asked names .empty

end TagRegistry

/-! ## Histories -/

namespace TagStep

open TagRegistry

variable {cls : TagClass} {asked names : List String} {name : String} {bit mask : Nat}

/-- **Every step lets a registry grow**, whether it succeeds or fails: the stores stay inverse to
each other, and names keep their bits. -/
theorem growsTo_outcome (s : TagStep) (r : TagRegistry) : r.GrowsTo (s.outcome r).2 := by
  have h : Ends s.run r (fun _ ↦ r.GrowsTo) r.GrowsTo := by
    obtain name | names := s
    · exact (register_ends name r).mono (fun _ _ h ↦ h.1) fun _ h ↦ h
    · rw [run, map_eq_pure_bind]
      exact (registerAll_ends names r).bind fun set r' h ↦ .pure h.1
  rw [Ends] at h
  rw [outcome]
  rcases hrun : s.run r with ⟨n, r'⟩ | ⟨e, r'⟩
  · rw [hrun] at h
    exact h
  · rw [hrun] at h
    exact h

/-- A name is registered in the place that it has among the first names, or it finds no room. -/
theorem outcome_register_cases (cls : TagClass) (asked : List String) (name : String) :
    (∃ bit, (firstNames (asked ++ [name]))[bit]? = some name ∧
      (register name).outcome (ofRequests cls asked) =
        (.ok bit, ofRequests cls (asked ++ [name]))) ∨
    (TagClass.limit ≤ (firstNames asked).length ∧ name ∉ firstNames asked ∧
      (register name).outcome (ofRequests cls asked) =
        (.error (.tagOverflow cls name), ofRequests cls asked)) := by
  obtain ⟨bit, hbit, hreg⟩ | ⟨hfull, hnew, hreg⟩ := register_cases cls asked name
  · exact .inl ⟨bit, hbit, by rw [outcome, run, hreg]⟩
  · exact .inr ⟨hfull, hnew, by rw [outcome, run, hreg]⟩

/-- Names are registered in their places, or one of them finds no room. -/
theorem outcome_registerAll_cases (cls : TagClass) (asked names : List String) :
    (names ⊆ firstNames (asked ++ names) ∧ ∃ mask,
      (registerAll names).outcome (ofRequests cls asked) =
        (.ok mask, ofRequests cls (asked ++ names))) ∨
    ∃ before name rest, names = before ++ name :: rest ∧
      TagClass.limit ≤ (firstNames (asked ++ before)).length ∧
      before ⊆ firstNames (asked ++ before) ∧ name ∉ firstNames (asked ++ before) ∧
      (registerAll names).outcome (ofRequests cls asked) =
        (.error (.tagOverflow cls name), ofRequests cls (asked ++ before)) := by
  obtain ⟨hsub, set, hreg, -⟩ | ⟨before, name, rest, hnames, hfull, hsub, hnew, hreg⟩ :=
    registerAll_cases cls asked names
  · exact .inl ⟨hsub, set.bits, by simp only [outcome, run, Functor.map, EStateM.map, hreg]⟩
  · exact .inr ⟨before, name, rest, hnames, hfull, hsub, hnew,
      by simp only [outcome, run, Functor.map, EStateM.map, hreg]⟩

theorem outcome_register_of_getElem? (h : (firstNames (asked ++ [name]))[bit]? = some name) :
    (register name).outcome (ofRequests cls asked) = (.ok bit, ofRequests cls (asked ++ [name])) := by
  obtain ⟨b, hb, hout⟩ | ⟨hfull, hnew, -⟩ := outcome_register_cases cls asked name
  · rw [hout, (getElem?_firstNames_eq_iff hb).mp h]
  · rw [firstNames_append_of_full hfull] at h
    exact absurd (List.mem_of_getElem? h) hnew

theorem outcome_register_of_not_mem (h : name ∉ firstNames (asked ++ [name])) :
    (register name).outcome (ofRequests cls asked) =
      (.error (.tagOverflow cls name), ofRequests cls asked) := by
  obtain ⟨b, hb, -⟩ | ⟨-, -, hout⟩ := outcome_register_cases cls asked name
  · exact absurd (List.mem_of_getElem? hb) h
  · exact hout

/-- Names are registered together if and only if each of them is among the first names. -/
theorem outcome_registerAll_ok_iff :
    (∃ mask, ((registerAll names).outcome (ofRequests cls asked)).1 = .ok mask) ↔
      names ⊆ firstNames (asked ++ names) := by
  obtain ⟨hsub, mask, hout⟩ | ⟨before, name, rest, rfl, hfull, -, hnew, hout⟩ :=
    outcome_registerAll_cases cls asked names
  · rw [hout]
    exact iff_of_true ⟨mask, rfl⟩ hsub
  · rw [hout, ← List.append_assoc, firstNames_append_of_full hfull]
    exact iff_of_false nofun fun hsub ↦ hnew (hsub (by simp))

/-- Where not all names are among the first ones, registering stops at the first that is not. -/
theorem outcome_registerAll_of_not_subset (h : ¬ names ⊆ firstNames (asked ++ names)) :
    ∃ before name rest, names = before ++ name :: rest ∧
      before ⊆ firstNames (asked ++ names) ∧ name ∉ firstNames (asked ++ names) ∧
      (registerAll names).outcome (ofRequests cls asked) =
        (.error (.tagOverflow cls name), ofRequests cls (asked ++ before)) := by
  obtain ⟨hsub, -⟩ | ⟨before, name, rest, rfl, hfull, hsub, hnew, hout⟩ :=
    outcome_registerAll_cases cls asked names
  · exact absurd hsub h
  · refine ⟨before, name, rest, rfl, ?_⟩
    rw [← List.append_assoc, firstNames_append_of_full hfull]
    exact ⟨hsub, hnew, hout⟩

/-- Every step leaves the registry of all names that have been asked for. -/
theorem outcome_snd (s : TagStep) (cls : TagClass) (asked : List String) :
    (s.outcome (ofRequests cls asked)).2 = ofRequests cls (asked ++ s.names) := by
  obtain name | names := s
  · obtain ⟨bit, -, h⟩ | ⟨hfull, -, h⟩ := outcome_register_cases cls asked name
    · rw [h, TagStep.names]
    · rw [h, ofRequests, ofRequests, firstNames_append_of_full hfull]
  · obtain ⟨-, mask, h⟩ | ⟨before, name, rest, hnames, hfull, -, -, h⟩ :=
      outcome_registerAll_cases cls asked names
    · rw [h, TagStep.names]
    · rw [h, TagStep.names, hnames, ← List.append_assoc, ofRequests, ofRequests,
        firstNames_append_of_full hfull]

end TagStep

namespace TagRegistry

variable {cls : TagClass} {asked names : List String} {name : String} {bit : Nat}

theorem Inverse.afterFrom {r : TagRegistry} (h : r.Inverse) (history : List TagStep) :
    (r.afterFrom history).Inverse := by
  induction history generalizing r with
  | nil => exact h
  | cons s history ih => exact ih ((s.growsTo_outcome r).inverse h)

theorem afterFrom_ofRequests (cls : TagClass) (asked : List String) (history : List TagStep) :
    (ofRequests cls asked).afterFrom history =
      ofRequests cls (asked ++ history.flatMap TagStep.names) := by
  induction history generalizing asked with
  | nil => rw [List.flatMap_nil, List.append_nil]; rfl
  | cons s history ih =>
    rw [afterFrom, List.foldl_cons, s.outcome_snd, ← afterFrom, ih, List.flatMap_cons,
      List.append_assoc]

/-- **A registry holds the first names** of those that its history has asked for. -/
theorem after_eq_ofRequests (cls : TagClass) (history : List TagStep) :
    after cls history = ofRequests cls (history.flatMap TagStep.names) :=
  afterFrom_ofRequests cls [] history

theorem after_concat (cls : TagClass) (history : List TagStep) (s : TagStep) :
    after cls (history ++ [s]) = ofRequests cls (history.flatMap TagStep.names ++ s.names) := by
  rw [after_eq_ofRequests, List.flatMap_append, List.flatMap_singleton]

theorem size_ofRequests_le : (ofRequests cls asked).size ≤ TagClass.limit :=
  size_ofRequests cls asked ▸ length_firstNames_le asked

/-- **The two stores stay inverse** to each other, whatever has been registered and whichever of the
steps have failed. -/
theorem inverse_after (cls : TagClass) (history : List TagStep) : (after cls history).Inverse :=
  (inverse_fresh cls).afterFrom history

/-- **Bits follow first appearance, for good.** However names have been registered, and whichever of
the steps have failed:
* the names are the first ones of all that were asked for, as many as there is room for;
* the map from names to bits and the list of names are inverse to each other;
* the masks are different, and fit below the limit of the class;
* a name is registered if and only if it is among the first names, and its place there is its bit
  now and whenever it is registered later; otherwise the step fails for that name and changes
  nothing;
* names are registered together if and only if all of them are among the first names; otherwise the
  step fails for the first that is not, and leaves what registering those before it leaves. -/
theorem bits_fixed (cls : TagClass) (history : List TagStep) :
    let r := after cls history
    let asked := history.flatMap TagStep.names
    (r.cls = cls ∧ r.names = firstNames asked) ∧
    (∀ name bit, r.get? name = some bit ↔ r.names[bit]? = some name) ∧
    ((r.entries.map fun e ↦ bitMask e.2).Nodup ∧
      ∀ e ∈ r.entries, bitMask e.2 < bitMask TagClass.limit) ∧
    (∀ name : String,
      (∀ bit, (firstNames (asked ++ [name]))[bit]? = some name →
        (TagStep.register name).outcome r = (.ok bit, after cls (history ++ [.register name])) ∧
        ∀ later, ((TagStep.register name).outcome
          (after cls (history ++ .register name :: later))).1 = .ok bit) ∧
      (name ∉ firstNames (asked ++ [name]) →
        (TagStep.register name).outcome r = (.error (.tagOverflow cls name), r))) ∧
    ∀ names : List String,
      ((∃ mask, ((TagStep.registerAll names).outcome r).1 = .ok mask) ↔
        names ⊆ firstNames (asked ++ names)) ∧
      (¬ names ⊆ firstNames (asked ++ names) → ∃ before name rest,
        names = before ++ name :: rest ∧ before ⊆ firstNames (asked ++ names) ∧
        name ∉ firstNames (asked ++ names) ∧
        (TagStep.registerAll names).outcome r =
          (.error (.tagOverflow cls name), after cls (history ++ [.registerAll before]))) := by
  intro r asked
  have hr : r = ofRequests cls asked := after_eq_ofRequests cls history
  have hmasks := singleBits_symbols (r := ofRequests cls asked) size_ofRequests_le
  simp only [after_concat, hr]
  refine ⟨⟨cls_ofRequests cls asked, names_ofRequests cls asked⟩, hr ▸ inverse_after cls history,
    ⟨?_, fun e he ↦ ?_⟩,
    fun name ↦ ⟨fun bit hbit ↦ ⟨TagStep.outcome_register_of_getElem? hbit, fun later ↦ ?_⟩,
      TagStep.outcome_register_of_not_mem⟩,
    fun names ↦ ⟨TagStep.outcome_registerAll_ok_iff, TagStep.outcome_registerAll_of_not_subset⟩⟩
  · have hnodup := hmasks.nodup
    rwa [symbols, List.map_map] at hnodup
  · have hinverse := inverse_ofRequests cls asked
    have hget := (hinverse _ _).mpr (mem_entries.mp he)
    exact (covers_bitMask hget).lt hinverse size_ofRequests_le
  · have hasked : (history ++ .register name :: later).flatMap TagStep.names =
        asked ++ [name] ++ later.flatMap TagStep.names := by
      simp [asked, TagStep.names]
    rw [after_eq_ofRequests, hasked]
    refine congrArg Prod.fst (TagStep.outcome_register_of_getElem? ?_)
    rw [List.append_assoc]
    exact getElem?_firstNames_append hbit _

/-- A class with as many names as it can hold: nearly all of them at once, and then one more. -/
def crowdedTags : List TagStep := [.registerAll ((List.range 29).map toString), .register "last"]

theorem bits_fixed_crowdedTags :
    let r := after .encoding crowdedTags
    (∃ r', (TagStep.register "last").outcome r = (.ok 29, r')) ∧
      (TagStep.register "late").outcome r = (.error (.tagOverflow .encoding "late"), r) ∧
      ∃ before name rest, ["7", "late", "last"] = before ++ name :: rest ∧
        ((TagStep.registerAll ["7", "late", "last"]).outcome r).1 =
          .error (.tagOverflow .encoding name) := by
  intro r
  obtain ⟨-, -, -, hregister, hall⟩ := bits_fixed .encoding crowdedTags
  have hlast : (firstNames (crowdedTags.flatMap TagStep.names ++ ["last"]))[29]? = some "last" := by
    decide +kernel
  have hlate : "late" ∉ firstNames (crowdedTags.flatMap TagStep.names ++ ["late"]) := by
    decide +kernel
  have hbatch : ¬ ["7", "late", "last"] ⊆
      firstNames (crowdedTags.flatMap TagStep.names ++ ["7", "late", "last"]) := by
    decide +kernel
  obtain ⟨before, name, rest, hsplit, -, -, hout⟩ := (hall _).2 hbatch
  exact ⟨⟨_, ((hregister "last").1 29 hlast).1⟩, (hregister "late").2 hlate,
    before, name, rest, hsplit, congrArg Prod.fst hout⟩

end TagRegistry

end DecodeTrie
