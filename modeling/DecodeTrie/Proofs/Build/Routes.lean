import DecodeTrie.Proofs.Build.Sites
import Mathlib.Data.List.Nodup

/-!
# The routes of an encoding

The sites of an encoding are the combinations of the opcode bytes, prefix states and register
columns that it admits. Their routes go through tables of the same kinds and are different from one
another (`kinds_eq_of_mem_sites`, `nodup_routes`), so that an encoding never stands in its own way.
-/

namespace DecodeTrie

/-! ## Combinations -/

/-- Combinations with the elements of a list are different, if each tells which element it was made
with. -/
theorem nodup_flatMap_of_part {α β : Type} {l : List α} {f : α → List β} (part : β → α)
    (hl : l.Nodup) (hf : ∀ a ∈ l, (f a).Nodup) (hpart : ∀ a ∈ l, ∀ b ∈ f a, part b = a) :
    (l.flatMap f).Nodup := by
  refine List.nodup_flatMap.mpr ⟨hf, hl.pairwise_of_forall_ne fun a ha a' ha' hne b hb hb' ↦ ?_⟩
  exact hne ((hpart a ha b hb).symm.trans (hpart a' ha' b hb'))

/-! ## The parts of a site -/

theorem KeyFlags.replicas_pos (f : KeyFlags) : 0 < f.replicas := by
  rw [replicas]
  split <;> decide

namespace OpcodeForm

theorem withRegister_eq_some_iff {f : OpcodeForm} {r : Nat} {o : List UInt8} :
    f.withRegister r = some o ↔
      f.last.toNat + r < 256 ∧ o = f.leading ++ [UInt8.ofNat (f.last.toNat + r)] := by
  rw [withRegister]
  split
  · next h => simp [h, eq_comm]
  · next h => simp [h]

theorem mem_opcodes_iff {f : OpcodeForm} {flags : KeyFlags} {o : List UInt8} :
    o ∈ f.opcodes flags ↔ ∃ r, r < flags.replicas ∧ f.last.toNat + r < 256 ∧
      o = f.leading ++ [UInt8.ofNat (f.last.toNat + r)] := by
  simp only [opcodes, List.mem_filterMap, List.mem_range, withRegister_eq_some_iff]

theorem length_of_mem_opcodes {f : OpcodeForm} {flags : KeyFlags} {o : List UInt8}
    (h : o ∈ f.opcodes flags) : o.length = f.leading.length + 1 := by
  obtain ⟨r, -, -, rfl⟩ := mem_opcodes_iff.mp h
  rw [List.length_append, List.length_singleton]

/-- Different registers have different opcode bytes. -/
theorem nodup_opcodes (f : OpcodeForm) (flags : KeyFlags) : (f.opcodes flags).Nodup := by
  refine List.Nodup.filterMap (fun r r' o hr hr' ↦ ?_) List.nodup_range
  obtain ⟨hlt, rfl⟩ := withRegister_eq_some_iff.mp hr
  obtain ⟨hlt', ho⟩ := withRegister_eq_some_iff.mp hr'
  have hbyte := congrArg UInt8.toNat (List.singleton_inj.mp (List.append_cancel_left ho))
  rw [UInt8.toNat_ofNat_of_lt' hlt, UInt8.toNat_ofNat_of_lt' hlt'] at hbyte
  exact Nat.add_left_cancel hbyte

end OpcodeForm

theorem RegField.nodup_values (f : RegField) : f.values.Nodup := by
  cases f with
  | any => decide
  | only r => exact List.nodup_singleton r

theorem ModeField.nodup_places (f : ModeField) : f.places.Nodup := by
  cases f with
  | any => decide
  | only m => exact List.nodup_singleton (some m)
  | memory => decide

/-- Places of one field that take a mode in common are the same. -/
theorem ModeField.eq_of_mem_places {f : ModeField} {a b : Option (Fin 4)} {r : Fin 8} {m : Nat}
    (ha : a ∈ f.places) (hb : b ∈ f.places) (hm : m ∈ Column.modes ⟨r, a⟩)
    (hm' : m ∈ Column.modes ⟨r, b⟩) : a = b := by
  have hsome {i j : Fin 4} (hi : m ∈ Column.modes ⟨r, some i⟩)
      (hj : m ∈ Column.modes ⟨r, some j⟩) : i = j :=
    Fin.ext ((List.mem_singleton.mp hi).symm.trans (List.mem_singleton.mp hj))
  cases f with
  | any => rw [List.mem_singleton.mp ha, List.mem_singleton.mp hb]
  | only i => rw [List.mem_singleton.mp ha, List.mem_singleton.mp hb]
  | memory =>
    cases a with
    | none => simp [places] at ha
    | some i =>
      cases b with
      | none => simp [places] at hb
      | some j => rw [hsome hm hm']

namespace Descriptor

theorem nodup_prefixStates (d : Descriptor) : d.prefixStates.Nodup := by
  rcases d with ⟨o, r, _, _, _⟩
  cases o <;> cases r <;> simp [prefixStates, OpSize.states, Repeat.states]

theorem nodup_prefixPlaces (d : Descriptor) : d.prefixPlaces.Nodup := by
  rw [prefixPlaces]
  split
  · exact d.nodup_prefixStates.map (Option.some_injective _)
  · exact List.nodup_singleton _

theorem isSome_of_mem_prefixPlaces {d : Descriptor} {p : Option PrefixState}
    (h : p ∈ d.prefixPlaces) : p.isSome = d.splitsOnPrefix := by
  rw [prefixPlaces] at h
  split at h
  · next hs =>
    obtain ⟨_, -, rfl⟩ := List.mem_map.mp h
    rw [hs]
    rfl
  · next hs =>
    rw [List.mem_singleton.mp h, Bool.eq_false_iff.mpr hs]
    rfl

/-- The columns of a descriptor, by its register and mode fields. -/
theorem mem_columns_iff {d : Descriptor} {column : Option Column} :
    column ∈ d.columns ↔
      d.regForm = none ∧ column = none ∨
        ∃ f, d.regForm = some f ∧
          ∃ r ∈ f.reg.values, ∃ m ∈ f.mode.places, column = some ⟨r, m⟩ := by
  rw [columns]
  cases d.regForm with
  | none => simp
  | some f => simp [eq_comm]

theorem nodup_columns (d : Descriptor) : d.columns.Nodup := by
  rw [columns]
  split
  · exact List.nodup_singleton _
  · next f _ =>
    refine List.nodup_flatMap.mpr ⟨fun r _ ↦ f.mode.nodup_places.map fun a b hab ↦ ?_,
      f.reg.nodup_values.pairwise_of_forall_ne fun r _ r' _ hr ↦ ?_⟩
    · simpa using hab
    · intro column h h'
      obtain ⟨m, -, rfl⟩ := List.mem_map.mp h
      obtain ⟨m', -, heq⟩ := List.mem_map.mp h'
      cases heq
      exact hr rfl

theorem isSome_of_mem_columns {d : Descriptor} {column : Option Column} (h : column ∈ d.columns) :
    column.isSome = d.regForm.isSome := by
  rcases mem_columns_iff.mp h with ⟨hd, rfl⟩ | ⟨f, hd, r, -, m, -, rfl⟩ <;> rw [hd] <;> rfl

/-! ## Sites -/

theorem mem_sites_iff {d : Descriptor} {flags : KeyFlags} {s : Site} :
    s ∈ d.sites flags ↔ s.opcode ∈ d.form.opcodes flags ∧ s.prefixes ∈ d.prefixPlaces ∧
      s.column ∈ d.columns ∧ s.rm = d.rm ∧ s.rexW = flags.rexW ∧ s.suffix = d.form.trailing := by
  simp only [sites, List.mem_flatMap, List.mem_map]
  constructor
  · rintro ⟨o, ho, p, hp, column, hc, rfl⟩
    exact ⟨ho, hp, hc, rfl, rfl, rfl⟩
  · rintro ⟨ho, hp, hc, hr, hw, hs⟩
    exact ⟨_, ho, _, hp, _, hc, by rw [← hr, ← hw, ← hs]⟩

theorem opcode_ne_nil_of_mem_sites {d : Descriptor} {flags : KeyFlags} {s : Site}
    (h : s ∈ d.sites flags) : s.opcode ≠ [] := by
  have hlen := OpcodeForm.length_of_mem_opcodes (mem_sites_iff.mp h).1
  intro he
  rw [he] at hlen
  exact absurd hlen (Nat.succ_ne_zero _).symm

theorem prefixPlaces_ne_nil (d : Descriptor) : d.prefixPlaces ≠ [] := by
  rcases d with ⟨o, r, _, _, _⟩
  cases o <;> cases r <;>
    simp [prefixPlaces, splitsOnPrefix, prefixStates, OpSize.states, Repeat.states]

theorem columns_ne_nil (d : Descriptor) : d.columns ≠ [] := by
  rcases d with ⟨_, _, _, _ | ⟨reg, mode⟩, _⟩
  · exact List.cons_ne_nil none []
  · cases reg <;> cases mode <;> simp [columns, RegField.values, ModeField.places]

/-- An encoding has sites, because its own last opcode byte always fits. -/
theorem sites_ne_nil (d : Descriptor) (flags : KeyFlags) : d.sites flags ≠ [] := by
  have hopcode : d.form.leading ++ [UInt8.ofNat (d.form.last.toNat + 0)] ∈ d.form.opcodes flags :=
    OpcodeForm.mem_opcodes_iff.mpr ⟨0, flags.replicas_pos, d.form.last.toNat_lt, rfl⟩
  obtain ⟨p, hp⟩ := List.exists_mem_of_ne_nil _ d.prefixPlaces_ne_nil
  obtain ⟨column, hcolumn⟩ := List.exists_mem_of_ne_nil _ d.columns_ne_nil
  exact List.ne_nil_of_mem (a := ⟨_, p, column, d.rm, flags.rexW, d.form.trailing⟩)
    (mem_sites_iff.mpr ⟨hopcode, hp, hcolumn, rfl, rfl, rfl⟩)

theorem nodup_sites (d : Descriptor) (flags : KeyFlags) : (d.sites flags).Nodup := by
  refine nodup_flatMap_of_part Site.opcode (d.form.nodup_opcodes flags) (fun o _ ↦ ?_) ?_
  · refine nodup_flatMap_of_part Site.prefixes d.nodup_prefixPlaces (fun p _ ↦ ?_) ?_
    · exact d.nodup_columns.map fun a b hab ↦ congrArg Site.column hab
    · intro p _ s hs
      obtain ⟨_, -, rfl⟩ := List.mem_map.mp hs
      rfl
  · intro o _ s hs
    obtain ⟨_, -, hs⟩ := List.mem_flatMap.mp hs
    obtain ⟨_, -, rfl⟩ := List.mem_map.mp hs
    rfl

end Descriptor

/-! ## Kinds of tables -/

namespace Site

theorem kinds_of_mem_routes {s : Site} {r : List Step} (h : r ∈ s.routes) :
    r.map Step.kind = s.stages := by
  rw [routes] at h
  rw [stages]
  split at h
  · next hc => rw [List.mem_singleton.mp h, hc]; simp
  · next hc =>
    obtain ⟨m, -, rfl⟩ := List.mem_map.mp h
    rw [hc]
    simp

/-- The kinds of a site depend on its shape only. -/
theorem stages_congr {s s' : Site} (ho : s.opcode.length = s'.opcode.length)
    (hp : s.prefixes.isSome = s'.prefixes.isSome) (hc : s.column.isSome = s'.column.isSome)
    (ht : s.tail = s'.tail) : s.stages = s'.stages := by
  have hconst {α : Type} {o o' : Option α} {k : NodeKind} (h : o.isSome = o'.isSome) :
      (o.map fun _ ↦ k).toList = (o'.map fun _ ↦ k).toList := by
    cases o <;> cases o' <;> simp_all
  have hprefixes : (s.prefixes.map fun p ↦ (⟨.prefixes, p.slot⟩ : Step)).toList.map Step.kind =
      (s'.prefixes.map fun p ↦ (⟨.prefixes, p.slot⟩ : Step)).toList.map Step.kind := by
    cases hs : s.prefixes <;> cases hs' : s'.prefixes <;> simp_all
  rw [stages, stages, stem, stem, List.map_append, List.map_append, hprefixes, hconst hc, ht,
    List.map_map, List.map_map]
  simp only [Function.comp_def, List.map_const', ho]

theorem tail_congr {s s' : Site} (hr : s.rm = s'.rm) (hw : s.rexW = s'.rexW)
    (hs : s.suffix = s'.suffix) : s.tail = s'.tail := by
  rw [tail, tail, hr, hw, hs]

/-- A stem of known length determines the opcode bytes and the prefix state. -/
theorem eq_of_stem_eq {s s' : Site} (ho : s.opcode.length = s'.opcode.length)
    (h : s.stem = s'.stem) : s.opcode = s'.opcode ∧ s.prefixes = s'.prefixes := by
  rw [stem, stem] at h
  obtain ⟨hopcode, hprefixes⟩ := List.append_inj h (by simpa using ho)
  constructor
  · refine List.map_injective_iff.mpr (fun b b' hb ↦ ?_) hopcode
    rw [Step.mk.injEq] at hb
    exact UInt8.toNat_inj.mp hb.2
  · cases hs : s.prefixes with
    | none =>
      cases hs' : s'.prefixes with
      | none => rfl
      | some p' => rw [hs, hs'] at hprefixes; cases hprefixes
    | some p =>
      cases hs' : s'.prefixes with
      | none => rw [hs, hs'] at hprefixes; cases hprefixes
      | some p' =>
        rw [hs, hs'] at hprefixes
        rw [PrefixState.slot_injective (Step.mk.inj (List.singleton_inj.mp hprefixes)).2]

end Site

namespace Descriptor

/-- All routes of an encoding go through tables of the same kinds. -/
theorem kinds_eq_of_mem_sites {d : Descriptor} {flags : KeyFlags} {s s' : Site}
    (hs : s ∈ d.sites flags) (hs' : s' ∈ d.sites flags) {r r' : List Step} (hr : r ∈ s.routes)
    (hr' : r' ∈ s'.routes) : r.map Step.kind = r'.map Step.kind := by
  obtain ⟨ho, hp, hc, hrm, hw, hx⟩ := mem_sites_iff.mp hs
  obtain ⟨ho', hp', hc', hrm', hw', hx'⟩ := mem_sites_iff.mp hs'
  rw [Site.kinds_of_mem_routes hr, Site.kinds_of_mem_routes hr']
  refine Site.stages_congr ?_ ?_ ?_ (Site.tail_congr ?_ ?_ ?_)
  · rw [OpcodeForm.length_of_mem_opcodes ho, OpcodeForm.length_of_mem_opcodes ho']
  · rw [isSome_of_mem_prefixPlaces hp, isSome_of_mem_prefixPlaces hp']
  · rw [isSome_of_mem_columns hc, isSome_of_mem_columns hc']
  · rw [hrm, hrm']
  · rw [hw, hw']
  · rw [hx, hx']

/-- A route of an encoding belongs to one of its sites. -/
theorem site_unique {d : Descriptor} {flags : KeyFlags} {s s' : Site} (hs : s ∈ d.sites flags)
    (hs' : s' ∈ d.sites flags) {r : List Step} (hr : r ∈ s.routes) (hr' : r ∈ s'.routes) :
    s = s' := by
  obtain ⟨ho, hp, hc, hrm, hw, hx⟩ := mem_sites_iff.mp hs
  obtain ⟨ho', hp', hc', hrm', hw', hx'⟩ := mem_sites_iff.mp hs'
  have hlen : s.opcode.length = s'.opcode.length := by
    rw [OpcodeForm.length_of_mem_opcodes ho, OpcodeForm.length_of_mem_opcodes ho']
  have hstemLen : s.stem.length = s'.stem.length := by
    have hpl : (s.prefixes.map fun p ↦ (⟨.prefixes, p.slot⟩ : Step)).toList.length =
        (s'.prefixes.map fun p ↦ (⟨.prefixes, p.slot⟩ : Step)).toList.length := by
      have hpp := (isSome_of_mem_prefixPlaces hp).trans (isSome_of_mem_prefixPlaces hp').symm
      cases h : s.prefixes <;> cases h' : s'.prefixes <;> simp_all
    rw [Site.stem, Site.stem, List.length_append, List.length_append, List.length_map,
      List.length_map, hlen, hpl]
  -- Both sites have a column, or neither has, since that is decided by the descriptor.
  have hcolumn : s.column = s'.column ∧ s.stem = s'.stem := by
    rcases mem_columns_iff.mp hc with ⟨hd, hcol⟩ | ⟨f, hd, reg, -, m, hm, hcol⟩ <;>
      rcases mem_columns_iff.mp hc' with ⟨hd', hcol'⟩ | ⟨f', hd', reg', -, m', hm', hcol'⟩ <;>
      rw [hd] at hd'
    · rw [Site.routes, hcol, List.mem_singleton] at hr
      rw [Site.routes, hcol', List.mem_singleton, hr] at hr'
      exact ⟨by rw [hcol, hcol'], (List.append_inj hr' hstemLen).1⟩
    · cases hd'
    · cases hd'
    · cases hd'
      rw [Site.routes, hcol] at hr
      obtain ⟨k, hk, rfl⟩ := List.mem_map.mp hr
      rw [Site.routes, hcol'] at hr'
      obtain ⟨k', hk', heq⟩ := List.mem_map.mp hr'
      obtain ⟨hstem, hrest⟩ := List.append_inj heq.symm hstemLen
      obtain ⟨rfl, rfl⟩ := Trie.modrm_slot_inj (Step.mk.inj (List.cons.inj hrest).1).2
      rw [hcol, hcol', ModeField.eq_of_mem_places hm hm' hk hk']
      exact ⟨rfl, hstem⟩
  obtain ⟨hopcode, hprefixes⟩ := Site.eq_of_stem_eq hlen hcolumn.2
  obtain ⟨_, _, _, _, _, _⟩ := s
  obtain ⟨_, _, _, _, _, _⟩ := s'
  rw [Site.mk.injEq]
  exact ⟨hopcode, hprefixes, hcolumn.1, hrm.trans hrm'.symm, hw.trans hw'.symm, hx.trans hx'.symm⟩

/-- The routes of an encoding, in the order in which they are completed. -/
def routes (d : Descriptor) (flags : KeyFlags) : List (List Step) :=
  (d.sites flags).flatMap Site.routes

theorem nodup_routes (d : Descriptor) (flags : KeyFlags) : (d.routes flags).Nodup := by
  refine List.nodup_flatMap.mpr ⟨fun s hs ↦ ?_,
    (d.nodup_sites flags).pairwise_of_forall_ne fun s hs s' hs' hne r hr hr' ↦
      hne (site_unique hs hs' hr hr')⟩
  -- Within one site the routes differ in the mode of the column.
  rw [Site.routes]
  split
  · exact List.nodup_singleton _
  · next column _ =>
    refine List.Nodup.map (fun m m' hm ↦ ?_) ?_
    · exact (Trie.modrm_slot_inj (Step.mk.inj (List.cons.inj (List.append_cancel_left hm)).1).2).2
    · rw [Column.modes]
      split
      · exact List.nodup_singleton _
      · exact List.nodup_range

/-- An encoding does not stand in its own way. -/
theorem clash_eq_none_of_mem_routes {d : Descriptor} {flags : KeyFlags} {r r' : List Step} {n : Nat}
    (hr : r ∈ d.routes flags) (hr' : r' ∈ d.routes flags) (hne : r ≠ r') :
    Route.clash n r r' = none := by
  obtain ⟨s, hs, hr⟩ := List.mem_flatMap.mp hr
  obtain ⟨s', hs', hr'⟩ := List.mem_flatMap.mp hr'
  exact Route.clash_eq_none_of_kinds (kinds_eq_of_mem_sites hs hs' hr hr') hne

end Descriptor

end DecodeTrie
