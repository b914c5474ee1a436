import DecodeTrie.Proofs.Collapsing
import DecodeTrie.Proofs.Conflicts
import DecodeTrie.Proofs.Shape

/-!
# Rejections are justified

An encoding is rejected for what two patterns ask, and not for the way in which the trie has grown.
A duplicate is a key that both encodings list. In a conflict the opcode bytes of one encoding start
with those of the other, and the two do not go through the same sequence of tables
(`rejection_of_compile`).

Both are read off the two routes that clash. Routes which clash have the same opcode bytes as far as
both have some (`Route.prefix_of_clash`), and routes through tables of the same kinds clash only if
they are equal (`Route.occupied_of_clash`). A key that takes a route which two encodings have in
common covers a listed key of each, and these are the same key (`Descriptor.exists_mem_keys`).
-/

namespace DecodeTrie

/-! ## Clashing routes -/

namespace Route

theorem clash_self (n : Nat) (r : List Step) : clash n r r = some (.occupied n) := by
  induction r with
  | nil => rfl
  | cons s r ih => rw [clash, if_pos rfl, if_pos rfl, ih]

/-- Only an equal route occupies the last slot of a route. -/
theorem eq_of_clash_occupied {n m : Nat} {r r' : List Step}
    (h : clash n r r' = some (.occupied m)) : r = r' := by
  fun_induction clash n r r' with
  | case1 => rfl
  | case2 => cases h
  | case3 => cases h
  | case4 s r s' r' hk hs ih =>
    rw [ih h]
    cases s
    cases s'
    simp_all
  | case5 => cases h
  | case6 => cases h

/-- Routes through tables of the same kinds clash only where the slot is occupied. -/
theorem occupied_of_clash {n : Nat} {r r' : List Step} {c : Clash}
    (hk : r.map Step.kind = r'.map Step.kind) (h : clash n r r' = some c) : c = .occupied n := by
  by_cases hr : r = r'
  · rw [hr, clash_self] at h
    exact (Option.some.inj h).symm
  · rw [clash_eq_none_of_kinds hk hr] at h
    cases h

/-- The opcode bytes of one of two routes that clash start with those of the other. -/
theorem prefix_of_clash {n : Nat} {o o' : List UInt8} {rest rest' : List Step} {c : Clash}
    (h : clash n (o.map (fun b ↦ ⟨.opcode, b.toNat⟩) ++ rest)
      (o'.map (fun b ↦ ⟨.opcode, b.toNat⟩) ++ rest') = some c) : o <+: o' ∨ o' <+: o := by
  induction o generalizing o' with
  | nil => exact .inl List.nil_prefix
  | cons b o ih =>
    cases o' with
    | nil => exact .inr List.nil_prefix
    | cons b' o' =>
      rw [List.map_cons, List.cons_append, List.map_cons, List.cons_append, clash,
        if_pos rfl] at h
      split at h
      · next hb =>
        rw [UInt8.toNat_inj.mp hb, List.cons_prefix_cons, List.cons_prefix_cons]
        exact (ih h).imp (⟨rfl, ·⟩) (⟨rfl, ·⟩)
      · cases h

end Route

/-! ## Stages of an encoding -/

namespace Descriptor

/-- The tables that an encoding goes through, whatever slots it takes in them. -/
def stages (d : Descriptor) (flags : KeyFlags) : List NodeKind :=
  List.replicate d.form.dispatch.length .opcode ++
    ((if d.splitsOnPrefix then [.prefixes] else []) ++
      ((if d.regForm.isSome then [.modrm] else []) ++
        ((if d.rm.isSome then [.rm] else []) ++
          ((if flags.rexW.isSome then [.rexW] else []) ++
            if d.form.trailing.isSome then [.suffix] else []))))

/-- The routes of an encoding go through its stages. -/
theorem kinds_of_mem_routes {d : Descriptor} {flags : KeyFlags} {r : List Step}
    (hr : r ∈ d.routes flags) : r.map Step.kind = d.stages flags := by
  obtain ⟨s, hs, hr⟩ := List.mem_flatMap.mp hr
  obtain ⟨ho, hp, hc, hrm, hw, hx⟩ := mem_sites_iff.mp hs
  have htoList {α : Type} (o : Option α) (k : NodeKind) :
      (o.map fun _ ↦ k).toList = if o.isSome then [k] else [] := by
    cases o <;> rfl
  rw [Site.kinds_of_mem_routes hr, Site.stages, Site.map_kind_stem, Site.map_kind_tail,
    OpcodeForm.length_of_mem_opcodes ho, hrm, hw, hx]
  simp only [htoList, isSome_of_mem_prefixPlaces hp, isSome_of_mem_columns hc, List.append_assoc,
    stages, OpcodeForm.dispatch, List.length_append, List.length_singleton]

theorem exists_opcode_of_mem_routes {d : Descriptor} {flags : KeyFlags} {r : List Step}
    (hr : r ∈ d.routes flags) :
    ∃ o ∈ d.form.opcodes flags, ∃ rest, r = o.map (fun b ↦ ⟨.opcode, b.toNat⟩) ++ rest := by
  obtain ⟨s, hs, hr⟩ := List.mem_flatMap.mp hr
  obtain ⟨rest, rfl⟩ := Site.exists_eq_stem_append hr
  exact ⟨s.opcode, (mem_sites_iff.mp hs).1, _, List.append_assoc ..⟩

/-! ## Keys of a route -/

theorem count_opcode_stages (d : Descriptor) (flags : KeyFlags) :
    (d.stages flags).count .opcode = d.form.dispatch.length := by
  simp [stages, List.count_append, apply_ite (List.count NodeKind.opcode)]

theorem modrm_mem_stages {d : Descriptor} {flags : KeyFlags} :
    .modrm ∈ d.stages flags ↔ d.regForm.isSome = true := by
  simp [stages]

theorem rm_mem_stages {d : Descriptor} {flags : KeyFlags} :
    .rm ∈ d.stages flags ↔ d.rm.isSome = true := by
  simp [stages]

theorem suffix_mem_stages {d : Descriptor} {flags : KeyFlags} :
    .suffix ∈ d.stages flags ↔ d.form.trailing.isSome = true := by
  simp [stages]

theorem isSome_of_mem_modrms {d : Descriptor} {modrm : Option UInt8} (h : modrm ∈ d.modrms) :
    modrm.isSome = (d.regForm.isSome || d.rm.isSome) := by
  rw [modrms] at h
  split at h
  · next hfields =>
    obtain ⟨b, -, rfl⟩ := List.mem_map.mp h
    rw [hfields]
    rfl
  · next hfields =>
    rw [List.mem_singleton.mp h, Bool.eq_false_iff.mpr hfields]
    rfl

end Descriptor

/-- For every route of a site there is a key that takes it. -/
theorem Site.exists_takes {s : Site} {r : List Step} (hr : r ∈ s.routes) :
    ∃ k : Key, k.Takes r := by
  rw [routes] at hr
  split at hr
  · obtain ⟨b, -, -, hrm⟩ := ModRM.exists_byte 0 0 (s.rm.getD 0)
    rw [List.mem_singleton.mp hr]
    exact ⟨s.keyWith b, s.takes_stem_append_keyWith (fun _ ↦ kind_ne_opcode_of_mem_tail)
      (s.answers_tail_keyWith fun r hr ↦ by rw [hrm, hr, Option.getD_some])⟩
  · next column _ =>
    obtain ⟨m, hm, rfl⟩ := List.mem_map.mp hr
    obtain ⟨b, hmode, hreg, hrm⟩ := ModRM.exists_byte ⟨m, Column.lt_of_mem_modes hm⟩ column.reg
      (s.rm.getD 0)
    have htakes := s.takes_keyWith (b := b) fun r hr ↦ by rw [hrm, hr, Option.getD_some]
    rw [hmode, hreg] at htakes
    exact ⟨s.keyWith b, htakes⟩

/-- Two keys that one key covers are the same if they ask for the same bytes. -/
theorem Key.Covers.eq_of_shape {k l l' : Key} (h : k.Covers l) (h' : k.Covers l')
    (hopcode : l.opcode.length = l'.opcode.length) (hmodrm : l.modrm.isSome = l'.modrm.isSome)
    (hsuffix : l.suffix.isSome = l'.suffix.isSome) : l = l' := by
  have hagrees {a a' b : Option UInt8} (ha : Key.Agrees a b) (ha' : Key.Agrees a' b)
      (hsome : a.isSome = a'.isSome) : a = a' := by
    rcases ha with rfl | rfl <;> rcases ha' with rfl | rfl
    · rfl
    · exact (Option.isNone_iff_eq_none.mp (by simpa using hsome.symm)).symm
    · exact Option.isNone_iff_eq_none.mp (by simpa using hsome)
    · rfl
  obtain ⟨o, p, b, w, x⟩ := l
  obtain ⟨o', p', b', w', x'⟩ := l'
  rw [Key.mk.injEq]
  exact ⟨(List.prefix_of_prefix_length_le h.opcode h'.opcode (Nat.le_of_eq hopcode)).eq_of_length
      hopcode, h.prefixes.trans h'.prefixes.symm, hagrees h.modrm h'.modrm hmodrm,
    h.rexW.trans h'.rexW.symm, hagrees h.suffix h'.suffix hsuffix⟩

/-- **Encodings with a route in common** list a key in common. -/
theorem Descriptor.exists_mem_keys {d d' : Descriptor} {flags flags' : KeyFlags} {r : List Step}
    (hr : r ∈ d.routes flags) (hr' : r ∈ d'.routes flags') :
    ∃ l ∈ d.keys flags, l ∈ d'.keys flags' := by
  have hstages : d.stages flags = d'.stages flags' :=
    (kinds_of_mem_routes hr).symm.trans (kinds_of_mem_routes hr')
  obtain ⟨s, -, hs⟩ := List.mem_flatMap.mp hr
  obtain ⟨k, hk⟩ := Site.exists_takes hs
  obtain ⟨l, hl, hcovers⟩ := exists_takes_iff.mp ⟨r, hr, hk⟩
  obtain ⟨l', hl', hcovers'⟩ := exists_takes_iff.mp ⟨r, hr', hk⟩
  obtain ⟨ho, -, hb, -, hx⟩ := mem_keys_iff.mp hl
  obtain ⟨ho', -, hb', -, hx'⟩ := mem_keys_iff.mp hl'
  have hsame : l = l' := by
    refine hcovers.eq_of_shape hcovers' ?_ ?_ ?_
    · have hdispatch := d.count_opcode_stages flags
      rw [hstages, count_opcode_stages, OpcodeForm.dispatch, OpcodeForm.dispatch,
        List.length_append, List.length_append] at hdispatch
      rw [OpcodeForm.length_of_mem_opcodes ho, OpcodeForm.length_of_mem_opcodes ho']
      exact hdispatch.symm
    · rw [isSome_of_mem_modrms hb, isSome_of_mem_modrms hb', Bool.eq_iff_iff, Bool.or_eq_true,
        Bool.or_eq_true, ← modrm_mem_stages, ← rm_mem_stages, hstages, modrm_mem_stages,
        rm_mem_stages]
    · rw [hx, hx', Bool.eq_iff_iff, ← suffix_mem_stages, hstages, suffix_mem_stages]
  exact ⟨l, hl, hsame ▸ hl'⟩

/-! ## Compilation -/

/-- The encoding with a number has a descriptor, and this is what its tags say about its place. -/
def Catalog.Describes (c : Catalog) (options : Options) (n : Nat) (d : Descriptor)
    (flags : KeyFlags) : Prop :=
  ∃ e, c.encodings[n]? = some e ∧ Descriptor.parse e.opcode = .ok d ∧
    (c.steering options).flags e.tags = flags

/-- A conflict of a compilation is a clash of a route of one encoding with a route of the other. -/
theorem exists_clash_of_compile {c : Catalog} (hc : c.Numbered) {options : Options}
    {err : CompileError} {n m : Nat} (herr : compile c options = .error err)
    (hn : err.conflict? = some (n, m)) :
    ∃ d d' flags flags', c.Describes options n d flags ∧ c.Describes options m d' flags' ∧
      ∃ r ∈ d.routes flags, ∃ r' ∈ d'.routes flags', ∃ e clash,
        Route.clash m r r' = some clash ∧ err = clash.report c e := by
  obtain ⟨done, e, rest, ds, b, d, clash, hsplit, hdone, hd, -, rfl, hfirst⟩ :=
    Build.exists_firstClash_of_compile hc herr hn
  obtain ⟨rfl, rfl⟩ : e.number = n ∧ clash.other = m := by
    simpa [Clash.conflict?_report] using hn
  have hget : ∀ e' ∈ done ++ [e], c.encodings[e'.number]? = some e' := by
    intro e' he'
    refine hc.getElem?_number ?_
    rw [hsplit]
    simpa [or_assoc] using List.mem_append_left rest he'
  obtain ⟨_, r, _, hroutes, -, x, hx, hclash⟩ := hfirst
  obtain ⟨e', he', d', hd', hxe⟩ := (Build.mem_claims_of_run (c.steering options)
    (fun e' he' ↦ hget e' (List.mem_append_left _ he')) (Build.insertAll_ok hdone).1 x).mp hx
  obtain ⟨hnumber, hr'⟩ := Encoding.mem_claims_holdings.mp hxe
  have hother := Route.other_of_clash hclash
  refine ⟨d, d', _, _, ⟨e, hget e (by simp), Catalog.descriptor_eq_ok_iff.mp hd, rfl⟩,
    ⟨e', ?_, Catalog.descriptor_eq_ok_iff.mp hd', rfl⟩, r, by rw [hroutes]; simp, x.route, hr', e,
    clash, ?_, rfl⟩
  · rw [hother, hnumber]
    exact hget e' (List.mem_append_left _ he')
  · rw [hother]
    exact hclash

/-- **Rejections are justified by the encodings.** If a compilation fails with a duplicate, the two
encodings list a key in common. If it fails with a conflict, then some opcode bytes of the one start
with some opcode bytes of the other, and the encodings do not go through the same stages. -/
theorem rejection_of_compile (history : List CatalogStep) (options : Options) {err : CompileError}
    (herr : compile (Catalog.after history) options = .error err) :
    let c := Catalog.after history
    (∀ insn n pattern other m, err = .duplicateOpcode insn n pattern other m →
      ∃ d d' flags flags', c.Describes options n d flags ∧ c.Describes options m d' flags' ∧
        ∃ l ∈ d.keys flags, l ∈ d'.keys flags') ∧
    ∀ insn n pattern wanted found other m,
      err = .opcodeConflict insn n pattern wanted found other m →
      ∃ d d' flags flags', c.Describes options n d flags ∧ c.Describes options m d' flags' ∧
        (∃ o ∈ d.form.opcodes flags, ∃ o' ∈ d'.form.opcodes flags', o <+: o' ∨ o' <+: o) ∧
        d.stages flags ≠ d'.stages flags' := by
  intro c
  have hc : c.Numbered := Catalog.numbered_after history
  constructor
  · rintro insn n pattern other m rfl
    obtain ⟨d, d', flags, flags', hd, hd', r, hr, r', hr', e, clash, hclash, hreport⟩ :=
      exists_clash_of_compile hc herr rfl
    cases clash with
    | shape wanted found k => cases hreport
    | occupied k =>
      obtain rfl := Route.eq_of_clash_occupied hclash
      exact ⟨d, d', flags, flags', hd, hd', Descriptor.exists_mem_keys hr hr'⟩
  · rintro insn n pattern wanted found other m rfl
    obtain ⟨d, d', flags, flags', hd, hd', r, hr, r', hr', e, clash, hclash, hreport⟩ :=
      exists_clash_of_compile hc herr rfl
    refine ⟨d, d', flags, flags', hd, hd', ?_, fun hstages ↦ ?_⟩
    · obtain ⟨o, ho, rest, rfl⟩ := Descriptor.exists_opcode_of_mem_routes hr
      obtain ⟨o', ho', rest', rfl⟩ := Descriptor.exists_opcode_of_mem_routes hr'
      exact ⟨o, ho, o', ho', Route.prefix_of_clash hclash⟩
    · have hkinds : r.map Step.kind = r'.map Step.kind := by
        rw [Descriptor.kinds_of_mem_routes hr, Descriptor.kinds_of_mem_routes hr', hstages]
      rw [Route.occupied_of_clash hkinds hclash] at hreport
      cases hreport

/-- A catalog in which a register of the first encoding is an opcode byte that the second one extends
by another byte. -/
def extendedRegister : List CatalogStep :=
  [.add { name := "push", encodings := [{ opcode := "50", tags := ["etag_reg_base"] }] },
    .add { name := "long", encodings := [{ opcode := "53 &01" }] }]

theorem rejection_of_compile_extendedRegister :
    let c := Catalog.after extendedRegister
    let t := Catalog.after takenMode
    let conflict := CompileError.opcodeConflict "long" 1 "53 &01" (.table .opcode) .leaf "push" 0
    let duplicate := CompileError.duplicateOpcode "any" 1 "d9 /0" "register" 0
    (compile c {} = .error conflict ∧
      ∃ d d' flags flags', c.Describes {} 1 d flags ∧ c.Describes {} 0 d' flags' ∧
        (∃ o ∈ d.form.opcodes flags, ∃ o' ∈ d'.form.opcodes flags', o <+: o' ∨ o' <+: o) ∧
        d.stages flags ≠ d'.stages flags') ∧
    compile t {} = .error duplicate ∧
      ∃ d d' flags flags', t.Describes {} 1 d flags ∧ t.Describes {} 0 d' flags' ∧
        ∃ l ∈ d.keys flags, l ∈ d'.keys flags' := by
  intro c t conflict duplicate
  have hconflict : compile c {} = .error conflict := by decide +kernel
  have hduplicate : compile t {} = .error duplicate := by decide +kernel
  exact ⟨⟨hconflict, (rejection_of_compile extendedRegister {} hconflict).2 _ _ _ _ _ _ _ rfl⟩,
    hduplicate, (rejection_of_compile takenMode {} hduplicate).1 _ _ _ _ _ rfl⟩

end DecodeTrie
