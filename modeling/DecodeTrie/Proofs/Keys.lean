import DecodeTrie.Proofs.Build.Routes
import DecodeTrie.Proofs.Trie.Walks

/-!
# Keys and routes

A key takes a route of an encoding exactly if it covers one of the keys that the encoding answers to
(`exists_takes_iff`). Both sides are reduced to what a site asks of a key (`Site.Matches`): the
enumeration of keys spells out every byte that the sites leave open.
-/

namespace DecodeTrie

/-! ## Keys on a route -/

namespace Key

/-- A key chooses the slot of a step in its table. -/
def Answers (k : Key) (s : Step) : Prop := ∃ k', k.choose s.kind = some (s.slot, k')

theorem takes_opcode_cons {k : Key} {b : UInt8} {r : List Step} :
    k.Takes (⟨.opcode, b.toNat⟩ :: r) ↔
      ∃ rest, k.opcode = b :: rest ∧ Takes { k with opcode := rest } r := by
  rw [Takes, choose]
  cases hk : k.opcode with
  | nil => simp
  | cons b' rest =>
    constructor
    · rintro ⟨k', hchoose, hr⟩
      obtain ⟨hb, rfl⟩ := Prod.mk.inj (Option.some.inj hchoose)
      exact ⟨rest, by rw [UInt8.toNat_inj.mp hb], hr⟩
    · rintro ⟨rest', hrest, hr⟩
      obtain ⟨rfl, rfl⟩ := List.cons.inj hrest
      exact ⟨_, rfl, hr⟩

/-- The opcode bytes of a route are the first of the key. -/
theorem takes_opcodes_append {k : Key} {bytes : List UInt8} {r : List Step} :
    k.Takes (bytes.map (fun b ↦ ⟨.opcode, b.toNat⟩) ++ r) ↔
      ∃ rest, k.opcode = bytes ++ rest ∧ Takes { k with opcode := rest } r := by
  induction bytes generalizing k with
  | nil =>
    constructor
    · exact fun h ↦ ⟨k.opcode, rfl, h⟩
    · rintro ⟨rest, hrest, hr⟩
      rw [List.nil_append] at hrest
      rwa [← hrest] at hr
  | cons b bytes ih =>
    rw [List.map_cons, List.cons_append, takes_opcode_cons]
    constructor
    · rintro ⟨rest, hrest, hr⟩
      obtain ⟨rest', hrest', hr⟩ := ih.mp hr
      exact ⟨rest', by rw [hrest, show rest = bytes ++ rest' from hrest']; rfl, hr⟩
    · rintro ⟨rest, hrest, hr⟩
      exact ⟨bytes ++ rest, hrest, ih.mpr ⟨rest, rfl, hr⟩⟩

/-- Behind the opcode bytes a key takes a route when it answers at each table. -/
theorem takes_iff_forall_answers {k : Key} {r : List Step} (hr : ∀ s ∈ r, s.kind ≠ .opcode) :
    k.Takes r ↔ ∀ s ∈ r, k.Answers s := by
  induction r with
  | nil => simp [Takes]
  | cons s r ih =>
    rw [Takes, List.forall_mem_cons, ← ih fun s' hs' ↦ hr s' (List.mem_cons_of_mem _ hs')]
    constructor
    · rintro ⟨k', hchoose, hk'⟩
      rw [eq_of_choose (hr s List.mem_cons_self) hchoose] at hk'
      exact ⟨⟨k', hchoose⟩, hk'⟩
    · rintro ⟨⟨k', hchoose⟩, hk⟩
      have hkk := eq_of_choose (hr s List.mem_cons_self) hchoose
      exact ⟨k', hchoose, by rwa [hkk]⟩

section answers

variable {k : Key}

theorem answers_prefixes_iff {p : PrefixState} :
    k.Answers ⟨.prefixes, p.slot⟩ ↔ k.prefixes = p := by
  simp only [Answers, choose, Option.some.injEq, Prod.mk.injEq, exists_and_left, exists_eq',
    and_true]
  exact ⟨PrefixState.slot_injective, congrArg _⟩

theorem answers_modrm_iff {reg : Fin 8} {m : Nat} :
    k.Answers ⟨.modrm, ModRM.slot reg m⟩ ↔
      ∃ b, k.modrm = some b ∧ ModRM.reg b = reg ∧ (ModRM.mode b).val = m := by
  simp only [Answers, choose, Option.map_eq_some_iff, Prod.mk.injEq]
  constructor
  · rintro ⟨_, b, hb, hslot, -⟩
    exact ⟨b, hb, Trie.modrm_slot_inj hslot⟩
  · rintro ⟨b, hb, rfl, rfl⟩
    exact ⟨k, b, hb, rfl, rfl⟩

theorem answers_rm_iff {r : Fin 8} :
    k.Answers ⟨.rm, r.val⟩ ↔ ∃ b, k.modrm = some b ∧ ModRM.rm b = r := by
  simp only [Answers, choose, Option.map_eq_some_iff, Prod.mk.injEq]
  constructor
  · rintro ⟨_, b, hb, hr, -⟩
    exact ⟨b, hb, Fin.ext hr⟩
  · rintro ⟨b, hb, rfl⟩
    exact ⟨k, b, hb, rfl, rfl⟩

theorem answers_rexW_iff {w : Bool} : k.Answers ⟨.rexW, w.toNat⟩ ↔ k.rexW = w := by
  simp only [Answers, choose, Option.some.injEq, Prod.mk.injEq, exists_and_left, exists_eq',
    and_true]
  cases k.rexW <;> cases w <;> decide

theorem answers_suffix_iff {b : UInt8} :
    k.Answers ⟨.suffix, b.toNat⟩ ↔ k.suffix = some b := by
  simp only [Answers, choose, Option.map_eq_some_iff, Prod.mk.injEq]
  constructor
  · rintro ⟨_, b', hb, hb', -⟩
    rw [hb, UInt8.toNat_inj.mp hb']
  · intro hb
    exact ⟨k, b, hb, rfl, rfl⟩

/-- A step that is perhaps there is answered if it is not there. -/
theorem forall_answers_toList_iff {α : Type} {o : Option α} {f : α → Step} :
    (∀ s ∈ (o.map f).toList, k.Answers s) ↔ ∀ a, o = some a → k.Answers (f a) := by
  cases o <;> simp

end answers

end Key

/-! ## What a site asks of a key -/

namespace Site

/-- What a site asks of a key. -/
structure Matches (s : Site) (k : Key) : Prop where
  /-- The opcode starts with the bytes of the site. -/
  opcode : s.opcode <+: k.opcode
  /-- The prefixes are those of the site. -/
  prefixes : ∀ p, s.prefixes = some p → k.prefixes = p
  /-- The ModRM byte has the register and a mode of the column. -/
  column : ∀ column, s.column = some column → ∃ b, k.modrm = some b ∧
    ModRM.reg b = column.reg ∧ (ModRM.mode b).val ∈ column.modes
  /-- The ModRM byte has the r/m field. -/
  rm : ∀ r, s.rm = some r → ∃ b, k.modrm = some b ∧ ModRM.rm b = r
  /-- REX.W has the value. -/
  rexW : ∀ w, s.rexW = some w → k.rexW = w
  /-- The opcode byte after ModRM is that of the site. -/
  suffix : ∀ b, s.suffix = some b → k.suffix = some b

theorem kind_ne_opcode_of_mem_tail {s : Site} {step : Step} (h : step ∈ s.tail) :
    step.kind ≠ .opcode := by
  simp only [tail, List.mem_append, Option.mem_toList, Option.map_eq_some_iff] at h
  rcases h with (⟨_, -, rfl⟩ | ⟨_, -, rfl⟩) | ⟨_, -, rfl⟩ <;> exact NodeKind.noConfusion

/-- A key takes the tables behind the opcode bytes when it answers at each of them. -/
theorem takes_route_iff {s : Site} {k : Key} {rest : List Step}
    (hrest : ∀ step ∈ rest, step.kind ≠ .opcode) :
    k.Takes (s.stem ++ rest) ↔ s.opcode <+: k.opcode ∧
      (∀ p, s.prefixes = some p → k.prefixes = p) ∧ ∀ step ∈ rest, k.Answers step := by
  have hkind : ∀ step ∈ (s.prefixes.map fun p ↦ (⟨.prefixes, p.slot⟩ : Step)).toList ++ rest,
      step.kind ≠ .opcode := by
    intro step hstep
    rcases List.mem_append.mp hstep with hstep | hstep
    · obtain ⟨p, -, rfl⟩ := Option.map_eq_some_iff.mp (Option.mem_toList.mp hstep)
      exact NodeKind.noConfusion
    · exact hrest step hstep
  -- What a key answers does not depend on its opcode bytes here.
  have hopcode (o : List UInt8) {step : Step} (hs : step.kind ≠ .opcode) :
      Key.Answers { k with opcode := o } step ↔ k.Answers step := by
    simp only [Key.Answers]
    cases hk : step.kind with
    | opcode => exact absurd hk hs
    | prefixes => simp [Key.choose]
    | rexW => simp [Key.choose]
    | modrm => simp [Key.choose]
    | regOnly => simp [Key.choose]
    | rm => simp [Key.choose]
    | suffix => simp [Key.choose]
  rw [stem, List.append_assoc, Key.takes_opcodes_append]
  constructor
  · rintro ⟨o, ho, htakes⟩
    rw [Key.takes_iff_forall_answers hkind, List.forall_mem_append,
      Key.forall_answers_toList_iff] at htakes
    refine ⟨⟨o, ho.symm⟩, fun p hp ↦ ?_, fun step hstep ↦ ?_⟩
    · exact (Key.answers_prefixes_iff (k := { k with opcode := o })).mp (htakes.1 p hp)
    · exact (hopcode o (hrest step hstep)).mp (htakes.2 step hstep)
  · rintro ⟨⟨o, ho⟩, hprefixes, hsteps⟩
    refine ⟨o, ho.symm, ?_⟩
    rw [Key.takes_iff_forall_answers hkind, List.forall_mem_append,
      Key.forall_answers_toList_iff]
    refine ⟨fun p hp ↦ Key.answers_prefixes_iff.mpr (hprefixes p hp), fun step hstep ↦ ?_⟩
    exact (hopcode o (hrest step hstep)).mpr (hsteps step hstep)

theorem answers_tail_iff {s : Site} {k : Key} :
    (∀ step ∈ s.tail, k.Answers step) ↔
      (∀ r, s.rm = some r → ∃ b, k.modrm = some b ∧ ModRM.rm b = r) ∧
        (∀ w, s.rexW = some w → k.rexW = w) ∧ ∀ b, s.suffix = some b → k.suffix = some b := by
  simp only [tail, List.forall_mem_append, Key.forall_answers_toList_iff, Key.answers_rm_iff,
    Key.answers_rexW_iff, Key.answers_suffix_iff, and_assoc]

/-- **A key takes a route of a site** exactly if the site matches it. -/
theorem exists_takes_iff {s : Site} {k : Key} : (∃ r ∈ s.routes, k.Takes r) ↔ s.Matches k := by
  have hmatches : s.Matches k ↔ s.opcode <+: k.opcode ∧
      (∀ p, s.prefixes = some p → k.prefixes = p) ∧
      (∀ column, s.column = some column → ∃ b, k.modrm = some b ∧
        ModRM.reg b = column.reg ∧ (ModRM.mode b).val ∈ column.modes) ∧
      ∀ step ∈ s.tail, k.Answers step := by
    rw [answers_tail_iff]
    exact ⟨fun ⟨h1, h2, h3, h4, h5, h6⟩ ↦ ⟨h1, h2, h3, h4, h5, h6⟩,
      fun ⟨h1, h2, h3, h4, h5, h6⟩ ↦ ⟨h1, h2, h3, h4, h5, h6⟩⟩
  rw [hmatches, routes]
  -- A site without a column has one route, and one with a column has a route for each mode.
  cases hcol : s.column with
  | none =>
    simp only [List.mem_singleton, exists_eq_left,
      takes_route_iff fun step ↦ kind_ne_opcode_of_mem_tail]
    simp
  | some column =>
    have hkind (m : Nat) : ∀ step ∈ (⟨.modrm, ModRM.slot column.reg m⟩ : Step) :: s.tail,
        step.kind ≠ .opcode := by
      intro step hstep
      rcases List.mem_cons.mp hstep with rfl | hstep
      · exact NodeKind.noConfusion
      · exact kind_ne_opcode_of_mem_tail hstep
    simp only [Option.some.injEq, forall_eq']
    constructor
    · rintro ⟨r, hr, htakes⟩
      obtain ⟨m, hm, rfl⟩ := List.mem_map.mp hr
      rw [takes_route_iff (hkind m), List.forall_mem_cons, Key.answers_modrm_iff] at htakes
      obtain ⟨ho, hp, ⟨b, hb, hreg, rfl⟩, ht⟩ := htakes
      exact ⟨ho, hp, ⟨b, hb, hreg, hm⟩, ht⟩
    · rintro ⟨ho, hp, ⟨b, hb, hreg, hm⟩, ht⟩
      refine ⟨_, List.mem_map_of_mem hm, ?_⟩
      rw [takes_route_iff (hkind _), List.forall_mem_cons, Key.answers_modrm_iff]
      exact ⟨ho, hp, ⟨b, hb, hreg, rfl⟩, ht⟩

end Site

/-! ## The keys of an encoding -/

namespace Descriptor

theorem mem_keys_iff {d : Descriptor} {flags : KeyFlags} {l : Key} :
    l ∈ d.keys flags ↔ l.opcode ∈ d.form.opcodes flags ∧ l.prefixes ∈ d.prefixStates ∧
      l.modrm ∈ d.modrms ∧ l.rexW ∈ flags.rexWs ∧ l.suffix = d.form.trailing := by
  simp only [keys_eq_flatMap_prefixStates, List.mem_flatMap, List.mem_map]
  constructor
  · rintro ⟨o, ho, p, hp, b, hb, w, hw, rfl⟩
    exact ⟨ho, hp, hb, hw, rfl⟩
  · rintro ⟨ho, hp, hb, hw, hs⟩
    exact ⟨_, ho, _, hp, _, hb, _, hw, by rw [← hs]⟩

/-- A prefix state passes some place for prefixes exactly if it is admitted. -/
theorem exists_prefixPlace_iff {d : Descriptor} {q : PrefixState} :
    (∃ place ∈ d.prefixPlaces, ∀ p, place = some p → q = p) ↔ q ∈ d.prefixStates := by
  rw [prefixPlaces]
  split
  · constructor
    · rintro ⟨place, hplace, hq⟩
      obtain ⟨p, hp, rfl⟩ := List.mem_map.mp hplace
      rwa [hq p rfl]
    · exact fun hq ↦ ⟨some q, List.mem_map_of_mem hq, fun p hp ↦ Option.some.inj hp⟩
  · next hs =>
    refine iff_of_true ⟨none, List.mem_singleton.mpr rfl, fun p hp ↦ by cases hp⟩ ?_
    exact mem_prefixStates_of_not_splits (Bool.eq_false_iff.mpr hs) q

theorem exists_mem_values_iff {f : RegField} {b : UInt8} :
    ModRM.reg b ∈ f.values ↔ f.admits b = true := by
  cases f with
  | any =>
    refine iff_of_true ?_ rfl
    rw [RegField.values]
    exact (by decide : ∀ r : Fin 8, r ∈ [0, 1, 2, 3, 4, 5, 6, 7]) _
  | only r => simp [RegField.values, RegField.admits]

theorem exists_mem_places_iff {f : ModeField} {r : Fin 8} {b : UInt8} :
    (∃ m ∈ f.places, (ModRM.mode b).val ∈ Column.modes ⟨r, m⟩) ↔ f.admits b = true := by
  have hmode := (ModRM.mode b).isLt
  have hsome (m : Fin 4) : (ModRM.mode b).val ∈ Column.modes ⟨r, some m⟩ ↔ ModRM.mode b = m := by
    rw [Column.modes, List.mem_singleton, Fin.ext_iff]
  cases f with
  | any =>
    refine iff_of_true ⟨none, List.mem_singleton.mpr rfl, ?_⟩ rfl
    exact List.mem_range.mpr hmode
  | only m => simp [ModeField.places, ModeField.admits, hsome]
  | memory =>
    simp only [ModeField.places, ModeField.admits, List.mem_cons, List.not_mem_nil, or_false,
      or_and_right, exists_or, exists_eq_left, hsome, bne_iff_ne, ne_eq]
    exact (by decide : ∀ m : Fin 4, (m = 0 ∨ m = 1 ∨ m = 2) ↔ ¬ m.val = 3) _

/-- A ModRM byte passes some column exactly if its upper fields are admitted. -/
theorem exists_column_iff {d : Descriptor} {modrm : Option UInt8} :
    (∃ place ∈ d.columns, ∀ column, place = some column → ∃ b, modrm = some b ∧
        ModRM.reg b = column.reg ∧ (ModRM.mode b).val ∈ column.modes) ↔
      ∀ f, d.regForm = some f → ∃ b, modrm = some b ∧ f.reg.admits b = true ∧
        f.mode.admits b = true := by
  rw [columns]
  cases d.regForm with
  | none => simp
  | some f =>
    simp only [List.mem_flatMap, List.mem_map, Option.some.injEq, forall_eq']
    constructor
    · rintro ⟨_, ⟨r, hr, m, hm, rfl⟩, hcolumn⟩
      obtain ⟨b, hb, hreg, hmode⟩ := hcolumn _ rfl
      refine ⟨b, hb, exists_mem_values_iff.mp ?_, exists_mem_places_iff.mp ⟨m, hm, hmode⟩⟩
      rwa [show ModRM.reg b = r from hreg]
    · rintro ⟨b, hb, hreg, hmode⟩
      obtain ⟨m, hm, hmem⟩ := exists_mem_places_iff (r := ModRM.reg b) |>.mpr hmode
      refine ⟨_, ⟨_, exists_mem_values_iff.mpr hreg, m, hm, rfl⟩, ?_⟩
      rintro column hcolumn
      cases hcolumn
      exact ⟨b, hb, rfl, hmem⟩

/-- The ModRM bytes of the keys of an encoding that asks for a field are the admitted ones. -/
theorem some_mem_modrms_iff {d : Descriptor} {b : UInt8} :
    some b ∈ d.modrms ↔ (d.regForm.isSome || d.rm.isSome) = true ∧ d.admitsModRM b = true := by
  have hall : b ∈ (List.range 256).map UInt8.ofNat :=
    List.mem_map.mpr ⟨b.toNat, List.mem_range.mpr b.toNat_lt, UInt8.ofNat_toNat⟩
  rw [modrms]
  split
  · next h =>
    rw [List.mem_map_of_injective (Option.some_injective _), List.mem_filter]
    exact ⟨fun hb ↦ ⟨h, hb.2⟩, fun hb ↦ ⟨hall, hb.2⟩⟩
  · next h => simp [h]

theorem none_mem_modrms_iff {d : Descriptor} :
    none ∈ d.modrms ↔ (d.regForm.isSome || d.rm.isSome) = false := by
  rw [modrms]
  split
  · next h => simp [h]
  · next h => simp [h]

/-- A ModRM byte covers an enumerated one exactly if its fields are admitted. -/
theorem exists_mem_modrms_iff {d : Descriptor} {modrm : Option UInt8} :
    (∃ l ∈ d.modrms, Key.Agrees l modrm) ↔
      (∀ f, d.regForm = some f → ∃ b, modrm = some b ∧ f.reg.admits b = true ∧
        f.mode.admits b = true) ∧
      ∀ r, d.rm = some r → ∃ b, modrm = some b ∧ ModRM.rm b = r := by
  have hagrees : (∃ l ∈ d.modrms, Key.Agrees l modrm) ↔ none ∈ d.modrms ∨ modrm ∈ d.modrms := by
    constructor
    · rintro ⟨l, hl, rfl | rfl⟩
      · exact .inl hl
      · exact .inr hl
    · rintro (h | h)
      · exact ⟨none, h, .inl rfl⟩
      · exact ⟨modrm, h, .inr rfl⟩
  rw [hagrees]
  cases modrm with
  | none =>
    rw [or_self, none_mem_modrms_iff]
    cases d.regForm <;> cases d.rm <;> simp
  | some b =>
    rw [none_mem_modrms_iff, some_mem_modrms_iff, admitsModRM]
    cases d.regForm <;> cases d.rm <;> simp

theorem mem_rexWs_iff {flags : KeyFlags} {w : Bool} :
    w ∈ flags.rexWs ↔ ∀ v, flags.rexW = some v → w = v := by
  rw [KeyFlags.rexWs]
  cases flags.rexW with
  | none => cases w <;> simp
  | some v => simp

/-- **Routes and keys.** A key takes a route of an encoding exactly if it covers one of its keys. -/
theorem exists_takes_iff {d : Descriptor} {flags : KeyFlags} {k : Key} :
    (∃ r ∈ d.routes flags, k.Takes r) ↔ ∃ l ∈ d.keys flags, k.Covers l := by
  have hsites : (∃ r ∈ d.routes flags, k.Takes r) ↔ ∃ s ∈ d.sites flags, s.Matches k := by
    simp only [routes, List.mem_flatMap]
    constructor
    · rintro ⟨r, ⟨s, hs, hr⟩, htakes⟩
      exact ⟨s, hs, Site.exists_takes_iff.mp ⟨r, hr, htakes⟩⟩
    · rintro ⟨s, hs, hmatches⟩
      obtain ⟨r, hr, htakes⟩ := Site.exists_takes_iff.mpr hmatches
      exact ⟨r, ⟨s, hs, hr⟩, htakes⟩
  rw [hsites]
  constructor
  · -- The listed key has the opcode and suffix of the site, and the prefixes and REX.W of the key.
    rintro ⟨s, hs, hm⟩
    obtain ⟨ho, hp, hc, hr, hw, hx⟩ := mem_sites_iff.mp hs
    obtain ⟨modrm, hmodrm, hagrees⟩ := exists_mem_modrms_iff.mpr
      ⟨exists_column_iff.mp ⟨_, hc, hm.column⟩, fun r hdr ↦ hm.rm r (hr.trans hdr)⟩
    exact ⟨⟨s.opcode, k.prefixes, modrm, k.rexW, d.form.trailing⟩,
      mem_keys_iff.mpr ⟨ho, exists_prefixPlace_iff.mp ⟨_, hp, hm.prefixes⟩, hmodrm,
        mem_rexWs_iff.mpr fun v hv ↦ hm.rexW v (hw.trans hv), rfl⟩,
      ⟨hm.opcode, rfl, hagrees, rfl, Key.agrees_iff.mpr fun x hdx ↦ hm.suffix x (hx.trans hdx)⟩⟩
  · -- The site has the opcode of the listed key, and the place and column that the key passes.
    rintro ⟨l, hl, hcovers⟩
    obtain ⟨ho, hp, hb, hw, hx⟩ := mem_keys_iff.mp hl
    rw [hcovers.prefixes] at hp
    rw [hcovers.rexW] at hw
    obtain ⟨hcol, hrm⟩ := exists_mem_modrms_iff.mp ⟨_, hb, hcovers.modrm⟩
    obtain ⟨place, hplace, hpp⟩ := exists_prefixPlace_iff.mpr hp
    obtain ⟨column, hcolumn, hcc⟩ := exists_column_iff.mpr hcol
    refine ⟨⟨l.opcode, place, column, d.rm, flags.rexW, d.form.trailing⟩,
      mem_sites_iff.mpr ⟨ho, hplace, hcolumn, rfl, rfl, rfl⟩,
      ⟨hcovers.opcode, hpp, hcc, hrm, mem_rexWs_iff.mp hw, ?_⟩⟩
    rw [← hx]
    exact Key.agrees_iff.mp hcovers.suffix

end Descriptor

end DecodeTrie
