import DecodeTrie.Proofs.Build.Modes
import DecodeTrie.Proofs.Decoding
import DecodeTrie.Proofs.Table.Visits

/-!
# Collapsing misses nothing

When a catalog has been compiled with ModRM tables collapsed, the ModRM tables that are left are
those with an encoding below that asks for modes. Each of them is needed: two keys come to it that
differ in the mode alone and are decoded differently (`collapse_complete`). Without collapsing, the
table has 24 words more for each ModRM table that is not left.

The two keys have a mode that the encoding admits and one that it does not. The first is decoded to
the encoding and the second is not, and both take the tables ahead of ModRM.
-/

namespace DecodeTrie

/-! ## Keys that differ in the mode -/

/-- Two keys differ in the mode field of the ModRM byte, and nowhere else. -/
def Key.DifferInMode (k k' : Key) : Prop :=
  ∃ b b', k.modrm = some b ∧ k' = { k with modrm := some b' } ∧ ModRM.mode b ≠ ModRM.mode b' ∧
    ModRM.reg b = ModRM.reg b' ∧ ModRM.rm b = ModRM.rm b'

/-- There is a ModRM byte with any three fields. -/
theorem ModRM.exists_byte (m : Fin 4) (r q : Fin 8) :
    ∃ b, mode b = m ∧ reg b = r ∧ rm b = q := by
  have hm := m.isLt
  have hr := r.isLt
  have hq := q.isLt
  have hnat : (UInt8.ofNat (64 * m.val + 8 * r.val + q.val)).toNat =
      64 * m.val + 8 * r.val + q.val := UInt8.toNat_ofNat_of_lt' (by simp only [UInt8.size]; omega)
  refine ⟨UInt8.ofNat (64 * m.val + 8 * r.val + q.val), ?_, ?_, ?_⟩ <;> apply Fin.ext <;>
    simp only [mode, reg, rm, hnat] <;> omega

namespace Site

/-- A key with what a site asks for, and with the given ModRM byte. -/
def keyWith (s : Site) (b : UInt8) : Key where
  opcode := s.opcode
  prefixes := s.prefixes.getD {}
  modrm := some b
  rexW := s.rexW.getD false
  suffix := s.suffix

theorem takes_stem_append_keyWith (s : Site) {b : UInt8} {rest : List Step}
    (hkind : ∀ step ∈ rest, step.kind ≠ .opcode)
    (h : ∀ step ∈ rest, (s.keyWith b).Answers step) : (s.keyWith b).Takes (s.stem ++ rest) := by
  rw [takes_route_iff hkind]
  exact ⟨List.prefix_rfl, fun p hp ↦ by rw [keyWith, hp, Option.getD_some], h⟩

theorem takes_stem_keyWith (s : Site) (b : UInt8) : (s.keyWith b).Takes s.stem := by
  have h := s.takes_stem_append_keyWith (b := b) (fun _ h ↦ absurd h List.not_mem_nil)
    fun _ h ↦ absurd h List.not_mem_nil
  rwa [List.append_nil] at h

/-- The key answers at the tables behind ModRM. -/
theorem answers_tail_keyWith (s : Site) {b : UInt8} (hrm : ∀ r, s.rm = some r → ModRM.rm b = r) :
    ∀ step ∈ s.tail, (s.keyWith b).Answers step := by
  rw [answers_tail_iff]
  exact ⟨fun r hr ↦ ⟨b, rfl, hrm r hr⟩, fun w hw ↦ by rw [keyWith, hw, Option.getD_some],
    fun _ hs ↦ hs⟩

/-- The key takes the route at the mode of its ModRM byte. -/
theorem takes_keyWith (s : Site) {b : UInt8} (hrm : ∀ r, s.rm = some r → ModRM.rm b = r) :
    (s.keyWith b).Takes
      (s.stem ++ ⟨.modrm, ModRM.slot (ModRM.reg b) (ModRM.mode b)⟩ :: s.tail) := by
  refine s.takes_stem_append_keyWith (fun step hstep ↦ ?_) ?_
  · rcases List.mem_cons.mp hstep with rfl | hstep
    · exact NodeKind.noConfusion
    · exact kind_ne_opcode_of_mem_tail hstep
  · rw [List.forall_mem_cons, Key.answers_modrm_iff]
    exact ⟨⟨b, rfl, rfl, rfl⟩, s.answers_tail_keyWith hrm⟩

end Site

/-! ## Tables that are needed -/

section

variable {c : Catalog} {steering : Steering} {b : Build} {held : List Holding}
  {order : List NodeId} {table : FlatTable}

/-- A key is not decoded to an encoding of which no site is at the mode of the key. -/
theorem FlatTable.lookup_ne_some (hsited : ∀ a ∈ held, a.Sited c steering)
    (hlookup : ∀ k n, table.lookup k = some n ↔
      ∃ x ∈ held.flatMap Holding.claims, x.number = n ∧ k.Takes x.route)
    {k : Key} {β : UInt8} (hk : k.modrm = some β) {n : Nat}
    (hout : ∀ a : Holding, a.Sited c steering → a.number = n →
      ∃ column, a.site.column = some column ∧ (ModRM.mode β).val ∉ column.modes) :
    table.lookup k ≠ some n := by
  intro hfound
  obtain ⟨y, hy, hnumber, htakes⟩ := (hlookup k n).mp hfound
  obtain ⟨a, ha, hya⟩ := List.mem_flatMap.mp hy
  obtain ⟨hya, hroute⟩ := Holding.mem_claims.mp hya
  obtain ⟨column, hcol, hnot⟩ := hout a (hsited a ha) (hya.symm.trans hnumber)
  obtain ⟨β', hβ', -, hmem⟩ := (Site.exists_takes_iff.mp ⟨_, hroute, htakes⟩).column column hcol
  obtain rfl : β = β' := Option.some.inj (hk.symm.trans hβ')
  exact hnot hmem

/-- **A table above an encoding that asks for modes is needed**: two keys visit it that differ in
the mode alone and are decoded differently. -/
theorem Build.Holds.exists_keys (h : Holds c b held)
    (hsited : ∀ a ∈ held, a.Sited c steering) (hwritten : b.trie.collapse.WrittenAs order table)
    (hlookup : ∀ k n, table.lookup k = some n ↔
      ∃ x ∈ held.flatMap Holding.claims, x.number = n ∧ k.Takes x.route)
    {path : List Nat} {x : NodeId} (hx : b.trie.slotAt path = .node x)
    (hkind : b.trie.kind x = .modrm) {rest : List Nat} {n : Nat}
    (hn : b.trie.slotFrom (.node x) rest = .leaf n) (hasks : c.AsksMode n) :
    ∃ k k', k.DifferInMode k' ∧ table.Visits table.root k (b.trie.collapse.refIn order x) ∧
      table.Visits table.root k' (b.trie.collapse.refIn order x) ∧
      table.lookup k ≠ table.lookup k' := by
  obtain ⟨m', hm'⟩ := Holding.exists_mode_of_asksMode steering hasks
  obtain ⟨a, ha, rfl, rfl, column, hcol, m, hm, -⟩ := h.exists_column_of_leaf hx hkind hn
  obtain ⟨β, hmode, hreg, hrm⟩ := ModRM.exists_byte ⟨m, Column.lt_of_mem_modes hm⟩ column.reg
    (a.site.rm.getD 0)
  obtain ⟨β', hmode', hreg', hrm'⟩ := ModRM.exists_byte m' column.reg (a.site.rm.getD 0)
  obtain rfl : m = (ModRM.mode β).val := by rw [hmode]
  have hclaim : (⟨a.number, a.site.stem ++ ⟨.modrm, ModRM.slot column.reg (ModRM.mode β)⟩ ::
      a.site.tail⟩ : Claim) ∈ held.flatMap Holding.claims := by
    refine List.mem_flatMap.mpr ⟨a, ha, Holding.mem_claims.mpr ⟨rfl, ?_⟩⟩
    rw [Site.routes, hcol]
    exact List.mem_map_of_mem hm
  have hvisits (β : UInt8) : table.Visits table.root (a.site.keyWith β)
      (b.trie.collapse.refIn order x) := by
    obtain ⟨y, hy, hvisits⟩ := Trie.visits_collapse hwritten h.wellLinked.closed
      a.site.noModRM_stem (List.cons_ne_nil _ _)
      (fun path v hv ↦ h.agrees.view_of_wants hclaim hv) (a.site.takes_stem_keyWith β)
    obtain rfl : y = x := Slot.node.inj (hy.symm.trans hx)
    rwa [hwritten.root_eq]
  have hfound : table.lookup (a.site.keyWith β) = some a.number := by
    refine (hlookup _ _).mpr ⟨_, hclaim, rfl, ?_⟩
    rw [← hreg]
    exact a.site.takes_keyWith fun r hr ↦ by rw [hrm, hr, Option.getD_some]
  have hmissed : table.lookup (a.site.keyWith β') ≠ some a.number :=
    FlatTable.lookup_ne_some hsited hlookup rfl (by rwa [hmode'])
  have hmodes : ModRM.mode β ≠ ModRM.mode β' := by
    intro hsame
    obtain ⟨column', hcol', hnot⟩ := hm' a (hsited a ha) rfl
    obtain rfl : column = column' := Option.some.inj (hcol.symm.trans hcol')
    rw [← hmode', ← hsame] at hnot
    exact hnot hm
  exact ⟨a.site.keyWith β, a.site.keyWith β', ⟨β, β', rfl, rfl, hmodes, hreg.trans hreg'.symm,
    hrm.trans hrm'.symm⟩, hvisits β, hvisits β', fun heq ↦ hmissed (heq ▸ hfound)⟩

end

/-! ## Compilation -/

/-- A run puts sites of the encodings on record. -/
theorem Build.sited_of_run {c : Catalog} (steering : Steering) {es : List Encoding}
    {ds : List Descriptor} (hes : ∀ e ∈ es, c.encodings[e.number]? = some e)
    (hds : List.Forall₂ (fun e d ↦ c.descriptor e = .ok d) es ds) :
    ∀ a ∈ (List.zipWith Encoding.insertion es ds).flatMap (Insertion.holdings c steering),
      a.Sited c steering := by
  intro a ha
  obtain ⟨e, he, d, hd, ha⟩ := (mem_holdings_of_run steering hes hds a).mp ha
  obtain ⟨s, hs, rfl⟩ := List.mem_map.mp ha
  exact ⟨e, d, hes e he, Catalog.descriptor_eq_ok_iff.mp hd, hs⟩

/-- What a compilation that succeeds leaves on record: the sites of the encodings. -/
theorem records_of_compile {history : List CatalogStep} {options : Options} {a : Artifacts}
    (h : compile (Catalog.after history) options = .ok a) :
    let c := Catalog.after history
    ∃ ds b held, Build.insertAll c (c.steering options) c.encodings.toList (Build.empty c) =
        .ok ds b ∧ b.trie.flatten options.collapseModRM = some a.table ∧ Build.Records c b held ∧
      (∀ a ∈ held, a.Sited c (c.steering options)) ∧
      ∀ k n, a.table.lookup k = some n ↔
        ∃ x ∈ held.flatMap Holding.claims, x.number = n ∧ k.Takes x.route := by
  intro c
  have hc : c.Numbered := Catalog.numbered_after history
  obtain ⟨ds, b, hrun, htable⟩ := run_of_compile h
  obtain ⟨hds, hlist⟩ := Build.insertAll_ok hrun
  have hrec := Build.records_of_insertList (Build.records_empty c) hlist
  rw [List.nil_append] at hrec
  have hsited := Build.sited_of_run (c.steering options) (fun e he ↦ hc.getElem?_number he) hds
  have hfit : b.trie.NumbersFit := by
    refine hrec.numbersFit (fun x hx ↦ ?_) hc.size_le
    obtain ⟨a, ha, hxa⟩ := List.mem_flatMap.mp hx
    obtain ⟨e, -, he, -⟩ := hsited a ha
    rw [(Holding.mem_claims.mp hxa).1]
    exact (Array.getElem?_eq_some_iff.mp he).1
  refine ⟨ds, b, _, hrun, htable, hrec, hsited, fun k n ↦ ?_⟩
  rw [Trie.lookup_flatten hrec.wellLinked.closed hrec.wellLinked.size_pos
    hrec.wellLinked.within_root hfit htable, hrec.agrees.walk_eq_some_iff hrec.wellLinked]

/-- What a compilation of the same encodings gives without collapsing. -/
theorem compile_without_collapse {c : Catalog} {options : Options} {ds : List Descriptor}
    {b : Build} (hrun : Build.insertAll c (c.steering options) c.encodings.toList
      (Build.empty c) = .ok ds b) (hl : b.trie.WellLinked) :
    (∀ a, compile c { options with collapseModRM := false } = .ok a →
      a.table.body.size = b.trie.words (List.range b.trie.size)) ∧
    ∀ err, compile c { options with collapseModRM := false } = .error err →
      err = .tableTooLarge (b.trie.words (List.range b.trie.size)) := by
  have hsteering : c.steering { options with collapseModRM := false } = c.steering options := rfl
  rw [compile, hsteering, hrun]
  dsimp only
  cases hflat : b.trie.flatten false with
  | none =>
    constructor
    · intro a h
      cases h
    · intro err h
      cases h
      rw [hl.size_layout]
  | some table =>
    obtain ⟨order, horder⟩ := hl.exists_writtenAs hflat
    constructor
    · intro a h
      cases h
      exact horder.size_body_eq_words_range
    · intro err h
      cases h

/-- **Collapsing misses nothing.** When a catalog has been compiled with ModRM tables collapsed, a
ModRM table is left for a node exactly if the node is a ModRM table with an encoding below that asks
for modes. Every table that is left is visited by two keys that differ in the mode alone and are
decoded differently. Without collapsing, the words are 24 more for each node that is collapsed. -/
theorem collapse_complete (steps : List CatalogStep) (options : Options) {a : Artifacts}
    (hcompile : compile (Catalog.after steps) options = .ok a)
    (hcollapse : options.collapseModRM = true) :
    let c := Catalog.after steps
    ∃ ds b order, Build.insertAll c (c.steering options) c.encodings.toList (Build.empty c) =
        .ok ds b ∧ b.trie.collapse.WrittenAs order a.table ∧
      (∀ x < b.trie.size,
        (b.trie.collapse.kind x = .modrm ↔ b.trie.kind x = .modrm ∧
          ∃ path n, b.trie.slotFrom (.node x) path = .leaf n ∧ c.AsksMode n) ∧
        (b.trie.collapse.kind x = .modrm → ∃ k k', k.DifferInMode k' ∧
          a.table.Visits a.table.root k (b.trie.collapse.refIn order x) ∧
          a.table.Visits a.table.root k' (b.trie.collapse.refIn order x) ∧
          a.table.lookup k ≠ a.table.lookup k')) ∧
      (∀ a', compile c { options with collapseModRM := false } = .ok a' →
        a'.table.body.size = a.table.body.size + 24 * b.trie.collapsible) ∧
      ∀ err, compile c { options with collapseModRM := false } = .error err →
        err = .tableTooLarge (a.table.body.size + 24 * b.trie.collapsible) := by
  intro c
  obtain ⟨ds, b, held, hrun, hflat, hrec, hsited, hlookup⟩ := records_of_compile hcompile
  rw [hcollapse] at hflat
  obtain ⟨order, hwritten⟩ := hrec.wellLinked.exists_writtenAs hflat
  refine ⟨ds, b, order, hrun, hwritten, fun x hxs ↦ ?_, ?_⟩
  · obtain ⟨path, hx⟩ := hrec.wellLinked.reached hxs
    have hleft : b.trie.collapse.kind x = .modrm ↔ b.trie.kind x = .modrm ∧
        ∃ path n, b.trie.slotFrom (.node x) path = .leaf n ∧ c.AsksMode n := by
      rw [Trie.kind_collapse_eq_modrm_iff]
      exact and_congr_right fun hkind ↦ hrec.not_ignoresMode_iff hsited hx hkind
    refine ⟨hleft, fun hmodrm ↦ ?_⟩
    obtain ⟨hkind, rest, n, hn, hasks⟩ := hleft.mp hmodrm
    exact hrec.exists_keys hsited hwritten hlookup hx hkind hn hasks
  · have hsize := hwritten.size_body_eq_words_range
    rw [Trie.collapseIf, if_pos rfl] at hsize
    rw [hsize, ← Trie.words_range_eq_collapse]
    exact compile_without_collapse hrun hrec.wellLinked

/-- A catalog with a ModRM table that looks at the mode and one that does not. -/
def someModes : List CatalogStep :=
  [.add { name := "load", encodings := [{ opcode := "8d /1 /mod_3" }, { opcode := "8b /r" }] }]

theorem collapse_complete_someModes :
    ∃ a a', compile (Catalog.after someModes) {} = .ok a ∧
      compile (Catalog.after someModes) { collapseModRM := false } = .ok a' ∧
      a'.table.body.size = a.table.body.size + 24 ∧
      ∃ k k' r, r.kind = .modrm ∧ k.DifferInMode k' ∧ a.table.Visits a.table.root k r ∧
        a.table.Visits a.table.root k' r ∧ a.table.lookup k ≠ a.table.lookup k' := by
  have htrie : (match Build.insertAll (Catalog.after someModes)
      ((Catalog.after someModes).steering {}) (Catalog.after someModes).encodings.toList
      (Build.empty (Catalog.after someModes)) with
      | .ok _ b => some (b.trie.size, b.trie.collapse.kind 1, b.trie.collapsible)
      | .error _ _ => none) = some (3, .modrm, 1) := by decide +kernel
  have hexists {r : Except CompileError Artifacts} (hr : r.isOk = true) : ∃ a, r = .ok a := by
    cases r with
    | error err => cases hr
    | ok a => exact ⟨a, rfl⟩
  have hok : (compile (Catalog.after someModes) {}).isOk = true := by decide +kernel
  have hok' : (compile (Catalog.after someModes) { collapseModRM := false }).isOk = true := by
    decide +kernel
  obtain ⟨a, h⟩ := hexists hok
  obtain ⟨a', h'⟩ := hexists hok'
  obtain ⟨ds, b, order, hrun, -, htables, hsize, -⟩ := collapse_complete someModes {} h rfl
  rw [hrun] at htrie
  obtain ⟨hcard, hkind, hcount⟩ : b.trie.size = 3 ∧ b.trie.collapse.kind 1 = .modrm ∧
      b.trie.collapsible = 1 := by simpa using htrie
  obtain ⟨k, k', hdiffer, hk, hk', hne⟩ := (htables 1 (by omega)).2 hkind
  exact ⟨a, a', h, h', by rw [hsize a' h', hcount], k, k', _, hkind, hdiffer, hk, hk', hne⟩

end DecodeTrie
