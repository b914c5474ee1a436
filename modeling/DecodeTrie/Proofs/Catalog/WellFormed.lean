import DecodeTrie.Proofs.Catalog.Numbering

/-!
# Well-formed catalogs

The parts of a catalog fit together, however it has been built and whichever steps have failed
(`wellFormed_after`): the instructions own consecutive blocks of encodings that start at `0` and end
with the last encoding, the index has each name under the position of its instruction, arguments are
checked, and masks are made of registered names.

Steps that only register names keep all of this, because registries never renumber
(`WellFormed.grow`). The only other step appends an instruction with its encodings, whose block
starts where the last one ends (`WellFormed.append`).
-/

namespace DecodeTrie

/-! ## Blocks -/

/-- The blocks of the instructions follow each other, from the number `start` to before the
number `stop`. -/
def Tile (start : Nat) : List Instruction → Nat → Prop
  | [], stop => start = stop
  | insn :: insns, stop => insn.first = start ∧ insn.first ≤ insn.stop ∧ Tile insn.stop insns stop

namespace Tile

variable {start stop : Nat} {insns : List Instruction} {insn : Instruction}

theorem concat (h : Tile start insns stop) (hfirst : insn.first = stop)
    (hle : insn.first ≤ insn.stop) : Tile start (insns ++ [insn]) insn.stop := by
  induction insns generalizing start with
  | nil => exact ⟨hfirst.trans h.symm, hle, rfl⟩
  | cons i is ih => exact ⟨h.1, h.2.1, ih h.2.2⟩

theorem stop_le (h : Tile start insns stop) : start ≤ stop ∧ ∀ insn ∈ insns, insn.stop ≤ stop := by
  induction insns generalizing start with
  | nil => exact ⟨Nat.le_of_eq h, nofun⟩
  | cons i is ih =>
    obtain ⟨hfirst, hle, hrest⟩ := h
    obtain ⟨hstop, hall⟩ := ih hrest
    exact ⟨by omega, List.forall_mem_cons.mpr ⟨hstop, hall⟩⟩

end Tile

/-! ## Instructions and encodings -/

/-- An instruction that is checked: its arguments are few and well sized, and its masks are made of
registered tags and declared core modes. -/
structure Instruction.Sound (r : Registries) (insn : Instruction) : Prop where
  /-- There are not too many arguments. -/
  args_le : insn.args.length ≤ maxArguments
  /-- The sizes of the arguments fit together. -/
  wellSized : WellSized insn.args
  /-- The tags are registered. -/
  tags : r.insnTags.Covers insn.tags.bits
  /-- The mask of the tags has at most 30 bits. -/
  tags_lt : insn.tags.bits < bitMask TagClass.limit
  /-- The modes are declared core modes. -/
  modes : r.modes.core.Covers insn.validModes
  /-- The mask of the modes has at most 30 bits. -/
  modes_lt : insn.validModes < bitMask TagClass.limit

/-- An encoding that is checked: its literals fit, and its mask is made of registered tags. -/
structure Encoding.Sound (r : Registries) (e : Encoding) : Prop where
  /-- Literals fit. -/
  literalsFit : LiteralsFit e.args
  /-- The tags are registered. -/
  tags : r.encTags.Covers e.tags.bits
  /-- The mask of the tags has at most 30 bits. -/
  tags_lt : e.tags.bits < bitMask TagClass.limit

section grow

variable {r r' : Registries}

theorem Instruction.Sound.grow {insn : Instruction} (h : insn.Sound r) (hr : r.GrowsTo r') :
    insn.Sound r' where
  args_le := h.args_le
  wellSized := h.wellSized
  tags := h.tags.grow hr.insnTags
  tags_lt := h.tags_lt
  modes := h.modes.grow hr.modes.core
  modes_lt := h.modes_lt

theorem Encoding.Sound.grow {e : Encoding} (h : e.Sound r) (hr : r.GrowsTo r') : e.Sound r' :=
  ⟨h.literalsFit, h.tags.grow hr.encTags, h.tags_lt⟩

theorem Encoding.Passes.sound {e : Encoding} {count insn number : Nat}
    (h : e.Passes r count insn number) (hr : r.WellFormed) : e.Sound r :=
  ⟨h.literalsFit, h.tags, h.tags.lt hr.encTags_inverse hr.encTags_le⟩

end grow

/-! ## Catalogs -/

namespace Catalog

/-- The parts of a catalog fit together. -/
structure WellFormed (c : Catalog) : Prop where
  /-- The registries find their names and are not too large, and mode sets are made of declared core
  modes. -/
  registries : c.registries.WellFormed
  /-- Encodings are numbered by their positions. -/
  numbered : c.Numbered
  /-- The blocks of the instructions follow each other, in the order of the instructions, from `0`
  to the number of encodings. -/
  tile : Tile 0 c.instructions.toList c.encodings.size
  /-- An encoding belongs to the instruction in whose block its number is. -/
  insn_eq_iff : ∀ {n : Nat} {e : Encoding}, c.encodings[n]? = some e →
    ∀ i, e.insn = i ↔ ∃ insn, c.instructions[i]? = some insn ∧ insn.first ≤ n ∧ n < insn.stop
  /-- No two instructions have the same name. -/
  nodup_names : (c.instructions.toList.map Instruction.name).Nodup
  /-- The index has the name of each instruction, under its position, and nothing else. -/
  lookup_eq_some_iff : ∀ name i,
    c.lookup name = some i ↔ ∃ insn, c.instructions[i]? = some insn ∧ insn.name = name
  /-- Instructions are checked. -/
  sound_instruction : ∀ {i : Nat} {insn : Instruction}, c.instructions[i]? = some insn →
    insn.Sound c.registries
  /-- Encodings are checked. -/
  sound_encoding : ∀ {n : Nat} {e : Encoding}, c.encodings[n]? = some e → e.Sound c.registries
  /-- An encoding has as many arguments as its instruction. -/
  length_args : ∀ {n : Nat} {e : Encoding} {insn : Instruction}, c.encodings[n]? = some e →
    c.instructions[e.insn]? = some insn → e.args.length = insn.args.length

variable {c c' : Catalog} {decl : InstructionDecl} {insn : Instruction} {es : List Encoding}

theorem wellFormed_empty : ({} : Catalog).WellFormed where
  registries := Registries.wellFormed_empty
  numbered := numbered_after []
  tile := rfl
  insn_eq_iff he := by simp at he
  nodup_names := List.nodup_nil
  lookup_eq_some_iff name i := by simp [lookup]
  sound_instruction hi := by simp at hi
  sound_encoding he := by simp at he
  length_args he := by simp at he

/-- Larger registries keep everything in place. -/
theorem WellFormed.grow (h : c.WellFormed) (hc : c.GrowsTo c') : c'.WellFormed := by
  obtain ⟨r, hr, rfl⟩ := hc
  exact {
    registries := h.registries.grow hr
    numbered := h.numbered.grow ⟨r, hr, rfl⟩
    tile := h.tile
    insn_eq_iff := h.insn_eq_iff
    nodup_names := h.nodup_names
    lookup_eq_some_iff := h.lookup_eq_some_iff
    sound_instruction := fun hi ↦ (h.sound_instruction hi).grow hr
    sound_encoding := fun he ↦ (h.sound_encoding he).grow hr
    length_args := h.length_args }

/-! ### Appending -/

/-- An instruction and encodings that can be appended to the catalog. -/
structure Fits (c : Catalog) (insn : Instruction) (es : List Encoding) : Prop where
  /-- The name is new. -/
  lookup_eq : c.lookup insn.name = none
  /-- The block starts behind the last encoding. -/
  first_eq : insn.first = c.encodings.size
  /-- The block ends with the new encodings. -/
  stop_eq : insn.stop = c.encodings.size + es.length
  /-- There are numbers for all encodings. -/
  stop_le : insn.stop ≤ encodingLimit
  /-- The instruction is checked. -/
  sound : insn.Sound c.registries
  /-- The encodings are checked, and belong to the instruction. -/
  passes : ∀ {k : Nat} {e : Encoding}, es[k]? = some e →
    e.Passes c.registries insn.args.length c.instructions.size (c.encodings.size + k)

/-- What a step adds can be appended. -/
theorem WellFormed.fits (h : c.WellFormed) (ha : c.Adds decl c' insn es) : c'.Fits insn es := by
  have hmodes := ModeRegistry.covers_of_union h.registries.setsCovered ha.header.modes_eq
  have hgrown := h.registries.grow ha.grows.registries
  obtain ⟨hsized, hlen⟩ := resolveSizes_ok ha.header.args_eq
  obtain ⟨r, hr, rfl⟩ := ha.grows
  exact {
    lookup_eq := ha.name_eq ▸ ha.header.lookup_eq
    first_eq := ha.first_eq
    stop_eq := ha.stop_eq
    stop_le := by
      rw [ha.stop_eq, ha.length_eq]
      exact ha.header.size_le
    sound :=
      { args_le := hlen ▸ ha.header.args_le
        wellSized := hsized
        tags := ha.tags
        tags_lt := ha.tags.lt hgrown.insnTags_inverse hgrown.insnTags_le
        modes := hmodes.grow hr.modes.core
        modes_lt := hmodes.lt h.registries.core_inverse h.registries.core_le }
    passes := ha.passes }

theorem getElem?_instructions_append_eq_some_iff {i : Nat} {insn' : Instruction} :
    (c.append insn es).instructions[i]? = some insn' ↔
      c.instructions[i]? = some insn' ∨ i = c.instructions.size ∧ insn = insn' := by
  rw [append, Array.getElem?_push]
  split
  · next hi => subst hi; simp
  · next hi => simp [hi]

theorem lookup_append (c : Catalog) (insn : Instruction) (es : List Encoding) (name : String) :
    (c.append insn es).lookup name =
      if name = insn.name then some c.instructions.size else c.lookup name :=
  lookup_cons_eq_ite c.index insn.name name c.instructions.size

theorem WellFormed.insn_eq_iff_append (h : c.WellFormed) (hf : c.Fits insn es) {n : Nat}
    {e : Encoding} (he : (c.append insn es).encodings[n]? = some e) (i : Nat) :
    e.insn = i ↔ ∃ insn', (c.append insn es).instructions[i]? = some insn' ∧
      insn'.first ≤ n ∧ n < insn'.stop := by
  simp only [getElem?_instructions_append_eq_some_iff]
  obtain he | ⟨k, rfl, hk⟩ := getElem?_encodings_append_eq_some_iff.mp he
  · -- The number of an old encoding is before the new block.
    have hn : n < insn.first := by
      rw [hf.first_eq]
      exact (Array.getElem?_eq_some_iff.mp he).1
    rw [h.insn_eq_iff he i]
    constructor
    · rintro ⟨insn', hi, hmem⟩
      exact ⟨insn', .inl hi, hmem⟩
    · rintro ⟨insn', hi | ⟨-, rfl⟩, hmem⟩
      · exact ⟨insn', hi, hmem⟩
      · omega
  · -- The number of a new encoding is behind the old blocks.
    have hlt : k < es.length := (List.getElem?_eq_some_iff.mp hk).1
    rw [(hf.passes hk).insn_eq]
    constructor
    · rintro rfl
      exact ⟨insn, .inr ⟨rfl, rfl⟩, by rw [hf.first_eq]; omega, by rw [hf.stop_eq]; omega⟩
    · rintro ⟨insn', hi | ⟨rfl, -⟩, hmem⟩
      · have hstop := h.tile.stop_le.2 insn' (Array.mem_toList_iff.mpr (Array.mem_of_getElem? hi))
        omega
      · rfl

theorem WellFormed.lookup_append_eq_some_iff (h : c.WellFormed) (hf : c.Fits insn es)
    (name : String) (i : Nat) :
    (c.append insn es).lookup name = some i ↔
      ∃ insn', (c.append insn es).instructions[i]? = some insn' ∧ insn'.name = name := by
  simp only [getElem?_instructions_append_eq_some_iff, lookup_append]
  split
  · next hname =>
    subst hname
    constructor
    · rintro ⟨⟩
      exact ⟨insn, .inr ⟨rfl, rfl⟩, rfl⟩
    · rintro ⟨insn', hi | ⟨rfl, -⟩, hname⟩
      · have hold := (h.lookup_eq_some_iff insn.name i).mpr ⟨insn', hi, hname⟩
        rw [hf.lookup_eq] at hold
        cases hold
      · rfl
  · next hname =>
    rw [h.lookup_eq_some_iff]
    constructor
    · rintro ⟨insn', hi, hname'⟩
      exact ⟨insn', .inl hi, hname'⟩
    · rintro ⟨insn', hi | ⟨-, rfl⟩, hname'⟩
      · exact ⟨insn', hi, hname'⟩
      · exact absurd hname'.symm hname

/-- Instructions that the index knows have different names. -/
theorem nodup_names_of_lookup (h : ∀ name i, c.lookup name = some i ↔
    ∃ insn, c.instructions[i]? = some insn ∧ insn.name = name) :
    (c.instructions.toList.map Instruction.name).Nodup := by
  rw [List.Nodup, List.pairwise_map, List.pairwise_iff_getElem]
  intro i j hi hj hij hname
  have hgeti := (h _ i).mpr ⟨_, Array.getElem?_eq_getElem hi, rfl⟩
  have hgetj := (h _ j).mpr ⟨_, Array.getElem?_eq_getElem hj, hname.symm⟩
  have hij' : i = j := Option.some.inj (hgeti.symm.trans hgetj)
  omega

/-- **Appending keeps a catalog well-formed.** -/
theorem WellFormed.append (h : c.WellFormed) (hf : c.Fits insn es) :
    (c.append insn es).WellFormed where
  registries := h.registries
  numbered := h.numbered.append insn (fun he ↦ (hf.passes he).number_eq) (hf.stop_eq ▸ hf.stop_le)
  tile := by
    have hle : insn.first ≤ insn.stop := by
      rw [hf.first_eq, hf.stop_eq]
      omega
    have hsize : (c.append insn es).encodings.size = insn.stop := by
      rw [encodings_append, hf.stop_eq]
      simp
    rw [hsize, Catalog.append, Array.toList_push]
    exact h.tile.concat hf.first_eq hle
  insn_eq_iff := h.insn_eq_iff_append hf
  nodup_names := nodup_names_of_lookup (h.lookup_append_eq_some_iff hf)
  lookup_eq_some_iff := h.lookup_append_eq_some_iff hf
  sound_instruction hi := by
    obtain hi | ⟨-, rfl⟩ := getElem?_instructions_append_eq_some_iff.mp hi
    · exact h.sound_instruction hi
    · exact hf.sound
  sound_encoding he := by
    obtain he | ⟨k, -, he⟩ := getElem?_encodings_append_eq_some_iff.mp he
    · exact h.sound_encoding he
    · exact (hf.passes he).sound h.registries
  length_args {n e insn'} he hi := by
    obtain he | ⟨k, -, he⟩ := getElem?_encodings_append_eq_some_iff.mp he
    · obtain ⟨owner, howner, -⟩ := (h.insn_eq_iff he e.insn).mp rfl
      have hlt := (Array.getElem?_eq_some_iff.mp howner).1
      obtain hi | ⟨hi, -⟩ := getElem?_instructions_append_eq_some_iff.mp hi
      · exact h.length_args he hi
      · omega
    · have hpasses := hf.passes he
      obtain hi | ⟨-, rfl⟩ := getElem?_instructions_append_eq_some_iff.mp hi
      · have hlt := (Array.getElem?_eq_some_iff.mp hi).1
        rw [hpasses.insn_eq] at hlt
        omega
      · exact hpasses.length_args

/-- Every step keeps a catalog well-formed, whether it succeeds or fails. -/
theorem WellFormed.step (h : c.WellFormed) (s : CatalogStep) : (s.outcome c).2.WellFormed := by
  obtain hgrows | ⟨decl, c', insn, es, hadds, hc⟩ := s.outcome_cases c
  · exact h.grow hgrows
  · rw [hc]
    exact (h.grow hadds.grows).append (h.fits hadds)

/-- Histories keep a catalog well-formed. -/
theorem WellFormed.afterFrom (h : c.WellFormed) (history : List CatalogStep) :
    (c.afterFrom history).WellFormed := by
  induction history generalizing c with
  | nil => exact h
  | cons s history ih => exact ih (h.step s)

/-- **Catalogs are well-formed**, whatever history of steps has made them. -/
theorem wellFormed_after (history : List CatalogStep) : (after history).WellFormed :=
  wellFormed_empty.afterFrom history

end Catalog

end DecodeTrie
