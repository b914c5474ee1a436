import DecodeTrie.Opcode.Parser
import DecodeTrie.Proofs.Build.Records
import DecodeTrie.Proofs.Build.Routes
import DecodeTrie.Proofs.Table.Lookups

/-!
# Tables that look at the mode

A ModRM table can be collapsed when its slots agree, which compares what the modes of a register
column refer to and not what is below. That this misses nothing is due to the way columns share:
modes hold the same thing unless an encoding has asked for one of them alone
(`Records.ignoresMode_of_not_pinned`), and an encoding that asks for modes stands at these only, so
that the modes which it does not admit hold something else (`Holds.not_ignoresMode`). So a ModRM
table looks at the mode exactly if some encoding below it does (`Records.not_ignoresMode_iff`).
-/

namespace DecodeTrie

/-! ## Modes that are asked for -/

/-- The encoding with a number asks for modes of ModRM. -/
def Catalog.AsksMode (c : Catalog) (n : Nat) : Prop :=
  ∃ e d f, c.encodings[n]? = some e ∧ Descriptor.parse e.opcode = .ok d ∧ d.regForm = some f ∧
    f.mode ≠ .any

/-- A field that does not admit every mode leaves one out. -/
theorem ModeField.exists_not_mem_modes {f : ModeField} (h : f ≠ .any) :
    ∃ m : Fin 4, ∀ r, ∀ place ∈ f.places, m.val ∉ Column.modes ⟨r, place⟩ := by
  cases f with
  | any => exact absurd rfl h
  | only m => exact ⟨m + 1, by revert m; decide⟩
  | memory => exact ⟨3, by decide⟩

theorem Column.lt_of_mem_modes {column : Column} {m : Nat} (h : m ∈ column.modes) : m < 4 := by
  rw [modes] at h
  split at h
  · next m' _ =>
    rw [List.mem_singleton.mp h]
    exact m'.isLt
  · exact List.mem_range.mp h

namespace Holding

/-- The site is one of those of the encoding with the number. -/
def Sited (c : Catalog) (steering : Steering) (a : Holding) : Prop :=
  ∃ e d, c.encodings[a.number]? = some e ∧ Descriptor.parse e.opcode = .ok d ∧
    a.site ∈ d.sites (steering.flags e.tags)

variable {c : Catalog} {steering : Steering} {a a' : Holding}

/-- The sites of an encoding that asks for modes are in columns, and there is a mode at which none
of them is. -/
theorem exists_mode_of_asksMode (steering : Steering) {n : Nat} (h : c.AsksMode n) :
    ∃ m : Fin 4, ∀ a : Holding, a.Sited c steering → a.number = n →
      ∃ column, a.site.column = some column ∧ m.val ∉ column.modes := by
  obtain ⟨e, d, f, he, hd, hf, hmode⟩ := h
  obtain ⟨m, hm⟩ := ModeField.exists_not_mem_modes hmode
  refine ⟨m, ?_⟩
  rintro a ⟨e', d', he', hd', hs⟩ rfl
  obtain rfl : e = e' := Option.some.inj (he.symm.trans he')
  obtain rfl : d = d' := Except.ok.inj (hd.symm.trans hd')
  rcases Descriptor.mem_columns_iff.mp (Descriptor.mem_sites_iff.mp hs).2.2.1 with
    ⟨hnone, -⟩ | ⟨f', hf', r, -, place, hplace, hcol⟩
  · rw [hf] at hnone
    cases hnone
  · obtain rfl : f = f' := Option.some.inj (hf.symm.trans hf')
    exact ⟨_, hcol, hm r place hplace⟩

/-- A site at one mode is that of an encoding that asks for modes. -/
theorem Sited.asksMode (h : a.Sited c steering) {reg : Fin 8} {m : Fin 4}
    (hcol : a.site.column = some ⟨reg, some m⟩) : c.AsksMode a.number := by
  obtain ⟨e, d, he, hd, hs⟩ := h
  rcases Descriptor.mem_columns_iff.mp (Descriptor.mem_sites_iff.mp hs).2.2.1 with
    ⟨-, hnone⟩ | ⟨f, hf, r, -, place, hplace, hsome⟩
  · rw [hcol] at hnone
    cases hnone
  · rw [hcol] at hsome
    cases hsome
    refine ⟨e, d, f, he, hd, hf, ?_⟩
    rintro hany
    rw [hany] at hplace
    cases List.mem_singleton.mp hplace

end Holding

/-! ## Where a route passes a ModRM table -/

/-- Along the path of a route something is wanted. -/
theorem Route.exists_wants {n : Nat} {r : List Step} {p q : List Nat} (h : slots r = p ++ q) :
    ∃ v, wants n r p = some v := by
  induction r generalizing p with
  | nil =>
    obtain ⟨rfl, -⟩ := List.append_eq_nil_iff.mp h.symm
    exact ⟨_, rfl⟩
  | cons s r ih =>
    cases p with
    | nil => exact ⟨_, wants_cons_nil ..⟩
    | cons i p =>
      obtain ⟨rfl, hrest⟩ := List.cons.inj h
      obtain ⟨v, hv⟩ := ih hrest
      exact ⟨v, by rw [wants_cons_cons, if_pos rfl, hv]⟩

/-- A table that a route wants is one of the route. -/
theorem Route.exists_kind_of_wants {n : Nat} {r : List Step} {path : List Nat} {k : NodeKind}
    (h : wants n r path = some (.table k)) : ∃ s ∈ r, s.kind = k := by
  induction r generalizing path with
  | nil => cases (wants_nil_eq_some_iff.mp h).2
  | cons s r ih =>
    cases path with
    | nil => exact ⟨s, List.mem_cons_self, Content.table.inj (Option.some.inj h)⟩
    | cons i path =>
      rw [wants_cons_cons] at h
      split at h
      · obtain ⟨s', hs', hk⟩ := ih h
        exact ⟨s', List.mem_cons_of_mem _ hs', hk⟩
      · cases h

/-- A route wants a table that is the only one of its kind at one place. -/
theorem Route.eq_slots_of_wants {n : Nat} {a b : List Step} {s : Step} {path : List Nat}
    (ha : ∀ x ∈ a, x.kind ≠ s.kind) (hb : ∀ x ∈ b, x.kind ≠ s.kind)
    (h : wants n (a ++ s :: b) path = some (.table s.kind)) : path = slots a := by
  induction a generalizing path with
  | nil =>
    cases path with
    | nil => rfl
    | cons i path =>
      rw [List.nil_append, wants_cons_cons] at h
      split at h
      · obtain ⟨x, hx, hk⟩ := exists_kind_of_wants h
        exact absurd hk (hb x hx)
      · cases h
  | cons x a ih =>
    rw [List.forall_mem_cons] at ha
    cases path with
    | nil => exact absurd (Content.table.inj (Option.some.inj h)) ha.1
    | cons i path =>
      rw [List.cons_append, wants_cons_cons] at h
      split at h
      · next hi => rw [hi, ih ha.2 h, slots_cons]
      · cases h

namespace Site

theorem noModRM_tail (s : Site) : Route.NoModRM s.tail :=
  Route.noModRM_of_valid (s.valid_tail (k := .modrm) (by decide)) (Nat.le_refl _)

theorem noModRM_stem (s : Site) : Route.NoModRM s.stem := by
  intro step hstep
  simp only [stem, List.mem_append, List.mem_map, Option.mem_toList,
    Option.map_eq_some_iff] at hstep
  rcases hstep with ⟨_, -, rfl⟩ | ⟨_, -, rfl⟩ <;> exact NodeKind.noConfusion

/-- A route of a site passes a ModRM table behind the stem only, in the column of the site. -/
theorem eq_stem_of_wants_modrm {s : Site} {n : Nat} {r : List Step} (hr : r ∈ s.routes)
    {c : List Nat} (h : Route.wants n r c = some (.table .modrm)) :
    c = Route.slots s.stem ∧ ∃ column, s.column = some column ∧ ∃ m ∈ column.modes,
      r = s.stem ++ ⟨.modrm, ModRM.slot column.reg m⟩ :: s.tail := by
  rw [routes] at hr
  cases hcol : s.column with
  | none =>
    rw [hcol] at hr
    rw [List.mem_singleton.mp hr] at h
    obtain ⟨step, hstep, hk⟩ := Route.exists_kind_of_wants h
    rcases List.mem_append.mp hstep with hstep | hstep
    · exact absurd hk (s.noModRM_stem step hstep)
    · exact absurd hk (s.noModRM_tail step hstep)
  | some column =>
    rw [hcol] at hr
    obtain ⟨m, hm, rfl⟩ := List.mem_map.mp hr
    exact ⟨Route.eq_slots_of_wants (s := ⟨.modrm, _⟩) s.noModRM_stem s.noModRM_tail h, column, rfl,
      m, hm, rfl⟩

end Site

/-! ## What makes a table look at the mode -/

namespace Build

variable {c : Catalog} {steering : Steering} {b : Build} {held : List Holding}

/-- A number below a ModRM table belongs to a site whose column is in the table. -/
theorem Holds.exists_column_of_leaf (h : Holds c b held) {path : List Nat} {x : NodeId}
    (hx : b.trie.slotAt path = .node x) (hkind : b.trie.kind x = .modrm) {rest : List Nat} {n : Nat}
    (hn : b.trie.slotFrom (.node x) rest = .leaf n) :
    ∃ a ∈ held, a.number = n ∧ path = Route.slots a.site.stem ∧
      ∃ column, a.site.column = some column ∧ ∃ m ∈ column.modes,
        rest = ModRM.slot column.reg m :: Route.slots a.site.tail := by
  have hview : b.trie.view (path ++ rest) = some (.leaf n) := by
    rw [Trie.view, Trie.slotAt_append, hx, hn, Trie.content_leaf]
  obtain ⟨y, hy, rfl, hslots⟩ := h.agrees.exists_claim hview
  obtain ⟨a, ha, hya⟩ := List.mem_flatMap.mp hy
  obtain ⟨hnumber, hroute⟩ := Holding.mem_claims.mp hya
  -- At the path to the table the route wants what stands there.
  obtain ⟨v, hv⟩ := Route.exists_wants (n := y.number) hslots
  have htable : b.trie.view path = some (.table .modrm) := by
    rw [Trie.view, hx, Trie.content_node, hkind]
  rw [h.agrees.view_of_wants hy hv] at htable
  rw [htable] at hv
  obtain ⟨rfl, column, hcol, m, hm, hr⟩ := Site.eq_stem_of_wants_modrm hroute hv
  refine ⟨a, ha, hnumber.symm, rfl, column, hcol, m, hm, ?_⟩
  rw [hr, Route.slots_append] at hslots
  exact (List.append_cancel_left hslots).symm

/-- **A table above an encoding that asks for modes looks at the mode.** -/
theorem Holds.not_ignoresMode (h : Holds c b held) (hsited : ∀ a ∈ held, a.Sited c steering)
    {path : List Nat} {x : NodeId} (hx : b.trie.slotAt path = .node x)
    (hkind : b.trie.kind x = .modrm) {rest : List Nat} {n : Nat}
    (hn : b.trie.slotFrom (.node x) rest = .leaf n) (hasks : c.AsksMode n) :
    ¬ (b.trie.node x).ignoresMode = true := by
  intro hignores
  obtain ⟨-, hslot⟩ := Node.ignoresMode_iff.mp hignores
  obtain ⟨m, hm⟩ := Holding.exists_mode_of_asksMode steering hasks
  obtain ⟨a, ha, rfl, -, column, hcol, m', hm', rfl⟩ := h.exists_column_of_leaf hx hkind hn
  -- The slot at a mode that is not admitted holds the same, so that the number stands there, too.
  have hm4 : m' < 4 := Column.lt_of_mem_modes hm'
  have hsame : b.trie.slot ⟨x, ModRM.slot column.reg m⟩ =
      b.trie.slot ⟨x, ModRM.slot column.reg m'⟩ :=
    (hslot column.reg m).trans (hslot column.reg ⟨m', hm4⟩).symm
  have hn' : b.trie.slotFrom (.node x)
      (ModRM.slot column.reg m :: Route.slots a.site.tail) = .leaf a.number := by
    rw [Trie.slotFrom_cons, Trie.enter_node] at hn ⊢
    rw [hsame, hn]
  obtain ⟨a', ha', hnumber, -, column', hcol', m'', hm'', hrest⟩ :=
    h.exists_column_of_leaf hx hkind hn'
  obtain ⟨-, hmode⟩ := Trie.modrm_slot_inj (List.cons.inj hrest).1
  obtain ⟨column'', hcol'', hnot⟩ := hm a' (hsited a' ha') hnumber
  obtain rfl : column' = column'' := Option.some.inj (hcol'.symm.trans hcol'')
  exact hnot (hmode ▸ hm'')

/-- Below a pinned cell stands an encoding that asks for modes. -/
theorem Holds.exists_leaf_of_pinned (h : Holds c b held) (hsited : ∀ a ∈ held, a.Sited c steering)
    {path : List Nat} {x : NodeId} (hx : b.trie.slotAt path = .node x) {reg : Fin 8} {m : Nat}
    (hpin : Holding.pins held path reg m) :
    ∃ rest n, b.trie.slotFrom (.node x) rest = .leaf n ∧ c.AsksMode n := by
  obtain ⟨a, ha, ⟨reg, mode⟩, hcol, ⟨rfl, rfl⟩, hmode⟩ := hpin
  obtain ⟨m, rfl, rfl⟩ := Option.map_eq_some_iff.mp hmode
  have hroute : a.site.stem ++ ⟨.modrm, ModRM.slot reg m⟩ :: a.site.tail ∈ a.site.routes := by
    rw [Site.routes, hcol]
    exact List.mem_map_of_mem (List.mem_singleton.mpr rfl)
  have hclaim : (⟨a.number, _⟩ : Claim) ∈ held.flatMap Holding.claims :=
    List.mem_flatMap.mpr ⟨a, ha, Holding.mem_claims.mpr ⟨rfl, hroute⟩⟩
  have hview := h.agrees.view_of_wants hclaim (Route.wants_slots _ _)
  rw [Route.slots_append, Trie.view, Trie.slotAt_append, hx, Trie.content_eq_leaf_iff] at hview
  exact ⟨_, a.number, hview, (hsited a ha).asksMode hcol⟩

/-- **A table of which no cell is pinned does not look at the mode.** -/
theorem Records.ignoresMode_of_not_pinned (h : Records c b held) {path : List Nat} {x : NodeId}
    (hx : b.trie.slotAt path = .node x) (hkind : b.trie.kind x = .modrm)
    (hfree : ∀ reg m, ¬ Holding.pins held path reg m) : (b.trie.node x).ignoresMode = true := by
  refine Node.ignoresMode_iff.mpr ⟨hkind, fun reg m ↦ ?_⟩
  have hview : b.trie.view path = some (.table .modrm) := by
    rw [Trie.view, hx, Trie.content_node, hkind]
  have halike := (h.sharing.column reg hview).alike m.isLt (by decide : 0 < 4) (hfree reg m)
    (hfree reg 0)
  rw [Trie.cellAt_eq_slot hx, Trie.cellAt_eq_slot hx] at halike
  exact halike

/-- **A ModRM table looks at the mode** exactly if an encoding below it asks for modes. -/
theorem Records.not_ignoresMode_iff (h : Records c b held)
    (hsited : ∀ a ∈ held, a.Sited c steering) {path : List Nat} {x : NodeId}
    (hx : b.trie.slotAt path = .node x) (hkind : b.trie.kind x = .modrm) :
    ¬ (b.trie.node x).ignoresMode = true ↔
      ∃ rest n, b.trie.slotFrom (.node x) rest = .leaf n ∧ c.AsksMode n := by
  constructor
  · intro hlooks
    by_contra hnone
    refine hlooks (h.ignoresMode_of_not_pinned hx hkind fun reg m hpin ↦ ?_)
    exact hnone (h.exists_leaf_of_pinned hsited hx hpin)
  · rintro ⟨rest, n, hn, hasks⟩
    exact h.not_ignoresMode hsited hx hkind hn hasks

end Build

end DecodeTrie
