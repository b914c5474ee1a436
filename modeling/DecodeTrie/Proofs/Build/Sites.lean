import DecodeTrie.Proofs.Build.Columns

/-!
# Filling sites

A site stands for one route, or for four of them when it takes every mode of a register column.
Filling a site adds what its routes want, and nothing else (`filled_of_fill`). When a site cannot be
filled, its routes are free up to one that is obstructed, by the clash that is reported, and some of
the free ones may have been completed and stay (`blocked_of_fill`). That happens in register columns
only, where the modes before the obstructed one have been filled: a route by itself is completed, or
leaves the trie as it was.
-/

namespace DecodeTrie

/-! ## The routes of a site -/

namespace Site

/-- The routes of a site, in the order in which they are completed. -/
def routes (s : Site) : List (List Step) :=
  match s.column with
  | none => [s.stem ++ s.tail]
  | some column =>
    column.modes.map fun m ↦ s.stem ++ ⟨.modrm, ModRM.slot column.reg m⟩ :: s.tail

/-- The part of a site at one mode of a register column. -/
def atMode (s : Site) (reg : Fin 8) (m : Fin 4) : Site := { s with column := some ⟨reg, some m⟩ }

theorem routes_atMode (s : Site) (reg : Fin 8) (m : Fin 4) :
    (s.atMode reg m).routes = [s.stem ++ ⟨.modrm, ModRM.slot reg m⟩ :: s.tail] := rfl

/-- Pins together with that of a site, if it takes one mode of a register column. -/
def pin (s : Site) (P : Trie.Pins) : Trie.Pins :=
  match s.column with
  | none => P
  | some column => P.add (Route.slots s.stem) column.reg column.mode

theorem exists_stem_eq {s : Site} (h : s.opcode ≠ []) :
    ∃ b : UInt8, ∃ rest, s.stem = ⟨.opcode, b.toNat⟩ :: rest ∧ Route.Valid .opcode rest ∧
      Route.NoModRM rest ∧ (Route.lastKind .opcode rest = .opcode ∨
        Route.lastKind .opcode rest = .prefixes) := by
  -- The opcode tables come first, and then perhaps a prefix table.
  have hrest (bytes : List UInt8) : ∀ rest : List Step,
      rest = bytes.map (fun b ↦ ⟨.opcode, b.toNat⟩) ++
        (s.prefixes.map fun p ↦ ⟨.prefixes, p.slot⟩).toList →
      Route.Valid .opcode rest ∧ Route.NoModRM rest ∧
        (Route.lastKind .opcode rest = .opcode ∨ Route.lastKind .opcode rest = .prefixes) := by
    induction bytes with
    | nil =>
      cases s.prefixes with
      | none =>
        rintro rest rfl
        exact ⟨trivial, fun x hx ↦ absurd hx List.not_mem_nil, .inl rfl⟩
      | some p =>
        rintro rest rfl
        have hprecedes : NodeKind.opcode.Precedes .prefixes := by decide
        refine ⟨⟨hprecedes, p.slot_lt, trivial⟩, ?_, .inr rfl⟩
        intro x hx
        rw [List.mem_singleton.mp hx]
        exact NodeKind.noConfusion
    | cons b bytes ih =>
      rintro rest rfl
      obtain ⟨hv, hm, hl⟩ := ih _ rfl
      refine ⟨⟨show NodeKind.opcode.Precedes .opcode by decide, b.toNat_lt, hv⟩, ?_, hl⟩
      intro x hx
      rcases List.mem_cons.mp hx with rfl | hx
      · exact NodeKind.noConfusion
      · exact hm x hx
  cases ho : s.opcode with
  | nil => exact absurd ho h
  | cons b bytes => exact ⟨b, _, by rw [stem, ho]; rfl, hrest bytes _ rfl⟩

theorem stem_ne_nil {s : Site} (h : s.opcode ≠ []) : s.stem ≠ [] := by
  obtain ⟨b, rest, hstem, -⟩ := exists_stem_eq h
  rw [hstem]
  exact List.cons_ne_nil _ _

/-- The tables behind ModRM follow one another in order, and behind every kind of lesser code. -/
theorem valid_tail (s : Site) {k : NodeKind} (hk : k.code < NodeKind.rm.code) :
    Route.Valid k s.tail := by
  obtain ⟨_, _, _, rm, rexW, suffix⟩ := s
  have hw (w : Bool) : w.toNat < 2 := by cases w <;> decide
  have hb (b : UInt8) : b.toNat < 256 := b.toNat_lt
  have h1 : k.Precedes .rm := .inl hk
  have h2 : k.Precedes .rexW := .inl (hk.trans (by decide))
  have h3 : k.Precedes .suffix := .inl (hk.trans (by decide))
  rcases rm with _ | r <;> rcases rexW with _ | w <;> rcases suffix with _ | b <;>
    simp [tail, Route.Valid, NodeKind.slotCount, h1, h2, h3, hw, hb,
      show NodeKind.rm.Precedes .rexW by decide, show NodeKind.rm.Precedes .suffix by decide,
      show NodeKind.rexW.Precedes .suffix by decide]

theorem routes_ne_nil (s : Site) : s.routes ≠ [] := by
  rw [routes]
  split
  · exact List.cons_ne_nil _ _
  · next column _ =>
    rw [ne_eq, List.map_eq_nil_iff, Column.modes]
    split
    · exact List.cons_ne_nil _ _
    · decide

/-- What the route of one mode wants: the tables up to ModRM, and behind the cell what the tail
wants. -/
theorem wants_cell_iff (s : Site) (reg : Fin 8) (m : Nat) {n : Nat} {path : List Nat}
    {v : Content} :
    Route.wants n (s.stem ++ ⟨.modrm, ModRM.slot reg m⟩ :: s.tail) path = some v ↔
      Route.tables (s.stem ++ [⟨.modrm, ModRM.slot reg m⟩]) path = some v ∨
        ∃ r, path = Route.slots s.stem ++ ModRM.slot reg m :: r ∧
          Route.wants n s.tail r = some v := by
  rw [List.append_cons, Route.wants_append_eq_some_iff]
  simp

/-- The routes of a site start with its stem. -/
theorem exists_eq_stem_append {s : Site} {r : List Step} (h : r ∈ s.routes) :
    ∃ rest, r = s.stem ++ rest := by
  rw [routes] at h
  split at h
  · exact ⟨_, List.mem_singleton.mp h⟩
  · obtain ⟨m, -, rfl⟩ := List.mem_map.mp h
    exact ⟨_, rfl⟩

end Site

/-! ## The stem of a site -/

namespace Trie

/-- What the stem of a site adds to a trie. -/
structure Stemmed (t : Trie) (stem : List Step) (t' : Trie) (p : Position) : Prop where
  /-- The references stay in order. -/
  wellLinked : t'.WellLinked
  /-- What stood somewhere stands there. -/
  grows : Extends t t'
  /-- The stem ends at a slot of a node. -/
  slot_lt : p.slot < (t'.kind p.node).slotCount
  /-- The last table comes before ModRM. -/
  kind_lt : (t'.kind p.node).code < NodeKind.modrm.code
  /-- One path leads to the end. -/
  leads_iff : ∀ path, t'.Leads p path ↔ path = Route.slots stem
  /-- The tables of the stem are added, and nothing else. -/
  view : ∀ path v, t'.view path = some v ↔
    t.view path = some v ∨ Route.tables stem path = some v
  /-- The slots of ModRM tables are what they were. -/
  frame : ∀ q, t'.kind q.node = .modrm → t'.slot q = t.slot q
  /-- All tables were there, or there is nothing behind the stem. -/
  same_or_empty : t' = t ∨ t'.slot p = .empty

section reach

variable {t : Trie} (h : t.WellLinked) {number : Nat} {s : Site} (hs : s.opcode ≠ [])

include h hs

theorem stemmed_of_reach {t' : Trie} {p : Position} (hok : reach number s.stem t = .ok p t') :
    Stemmed t s.stem t' p := by
  obtain ⟨b, rest, hstem, hvalid, hm, hlast⟩ := Site.exists_stem_eq hs
  rw [hstem] at hok ⊢
  have hroot : t.kind root = .opcode := h.kind_root
  have hf := followed_of_follow (p := ⟨root, b.toNat⟩) h (slotAt_nil t)
    (by rw [hroot]; exact b.toNat_lt) (by rw [hroot]; exact NodeKind.noConfusion)
    (by rw [hroot]; exact hvalid) hm hok
  have hleads (w : List Nat) : t.Leads ⟨root, b.toNat⟩ w ↔ w = [b.toNat] := by
    constructor
    · rintro ⟨q, rfl, hq⟩
      rw [h.eq_nil_of_slotAt_root hq]
      rfl
    · rintro rfl
      exact ⟨[], rfl, rfl⟩
  refine ⟨hf.wellLinked, hf.grows, hf.slot_lt, ?_, ?_, ?_, hf.frame, hf.same_or_empty⟩
  · rw [hf.kind_eq, hroot]
    rcases hlast with hl | hl <;> rw [hl] <;> decide
  · intro path
    rw [hf.leads_iff]
    simp [hleads]
  · intro path v
    rw [hf.view]
    constructor
    · rintro (hv | ⟨w, r, hw, rfl, hr⟩)
      · exact .inl hv
      · rw [(hleads w).mp hw]
        exact .inr (by simpa using hr)
    · rintro (hv | hv)
      · exact .inl hv
      · cases path with
        | nil =>
          rw [Route.tables_cons_nil] at hv
          exact .inl (by rw [← hv, Trie.view, slotAt_nil, content_node, hroot])
        | cons i path =>
          rw [Route.tables_cons_cons] at hv
          split at hv
          · next hi =>
            subst hi
            exact .inr ⟨[b.toNat], path, (hleads _).mpr rfl, rfl, hv⟩
          · cases hv

theorem obstructed_of_reach (hf : ∀ i, Fruitful t.view [i]) {e : Clash} {t' : Trie}
    (herr : reach number s.stem t = .error e t') :
    t' = t ∧ ∀ rest, Obstructed t.view [] (s.stem ++ rest) e := by
  obtain ⟨b, rest, hstem, hvalid, -, -⟩ := Site.exists_stem_eq hs
  rw [hstem] at herr ⊢
  have hroot : t.kind root = .opcode := h.kind_root
  obtain ⟨hsame, hobs⟩ := obstructed_of_follow (p := ⟨root, b.toNat⟩) h (slotAt_nil t)
    (by rw [hroot]; exact b.toNat_lt) (by rw [hroot]; exact hvalid) (hf _) herr
  exact ⟨hsame, fun rest' ↦ .step (by rw [view, slotAt_nil, content_node, hroot]) (hobs rest')⟩

end reach

namespace Stemmed

variable {t t' : Trie} {stem : List Step} {p : Position} (h : Stemmed t stem t' p)

include h

theorem exists_path : ∃ q, Route.slots stem = q ++ [p.slot] ∧ t'.slotAt q = .node p.node :=
  (h.leads_iff _).mpr rfl

theorem slotAt_eq : t'.slotAt (Route.slots stem) = t'.slot p :=
  slotAt_of_leads ((h.leads_iff _).mpr rfl)

/-- The last table of a stem is no ModRM table. -/
theorem kind_ne_modrm : t'.kind p.node ≠ .modrm := by
  intro hk
  have hlt := h.kind_lt
  rw [hk] at hlt
  exact Nat.lt_irrefl _ hlt

/-- What is done behind a stem, at its end, writes no cell. -/
theorem cellsKept (hl : t.WellLinked) {t'' : Trie} (hg : Extends t' t'')
    (hframe : ∀ q, t''.kind q.node = .modrm → q ≠ p → t''.slot q = t'.slot q) :
    CellsKept t t'' fun _ ↦ False := by
  have hstem : CellsKept t t' fun _ ↦ False := .of_extends hl h.grows fun q _ hq _ _ ↦ h.frame q hq
  have hend : CellsKept t' t'' fun _ ↦ False := by
    refine .of_extends h.wellLinked hg fun q _ hq _ _ ↦ hframe q hq ?_
    rintro rfl
    obtain ⟨w, -, hw⟩ := h.exists_path
    rw [hg.kind_eq (h.wellLinked.lt_size_of_slotAt hw)] at hq
    exact h.kind_ne_modrm hq
  exact hstem.trans hend

/-- What a stem adds stands below no path behind it. -/
theorem fruitful (hs : stem ≠ []) (hf : ∀ i, Fruitful t.view [i]) :
    Fruitful t'.view (Route.slots stem) := by
  rcases h.same_or_empty with rfl | he
  · cases stem with
    | nil => exact absurd rfl hs
    | cons s stem => exact (hf s.slot).append (Route.slots stem)
  · exact fruitful_of_none (by rw [Trie.view, h.slotAt_eq, he, content_empty])

/-- A route that is free behind a stem is free with it. -/
theorem free_append {r : List Step} (hr : Free t'.view (Route.slots stem) r) :
    Free t.view [] (stem ++ r) := by
  have hfree : Free t'.view [] (stem ++ r) := by
    refine .append (fun q v hq ↦ ?_) hr
    exact (h.view _ v).mpr (.inr hq)
  exact hfree.anti fun hv ↦ (h.view _ _).mpr (.inl hv)

/-- A stem behind which something stands was there. -/
theorem eq_of_view_ne_none (hne : t'.view (Route.slots stem) ≠ none) : t' = t := by
  rcases h.same_or_empty with rfl | he
  · rfl
  · exact absurd (by rw [Trie.view, h.slotAt_eq, he, content_empty]) hne

/-- A route that is obstructed behind a stem is obstructed with it. -/
theorem obstructed_append {r : List Step} {e : Clash}
    (hr : Obstructed t'.view (Route.slots stem) r e) : Obstructed t.view [] (stem ++ r) e := by
  obtain rfl := h.eq_of_view_ne_none hr.view_ne_none
  refine .append (fun q v hq ↦ ?_) hr
  exact (h.view _ v).mpr (.inr hq)

/-- A ModRM table behind a stem. -/
theorem ensure {number : Nat} {t'' : Trie} {x : NodeId}
    (hok : ensureTable number .modrm p t' = .ok x t'') :
    Ensured t' p .modrm t'' x ∧ ∀ path, t''.slotAt path = .node x ↔ path = Route.slots stem := by
  obtain ⟨q, -, hq⟩ := h.exists_path
  have he := ensured_of_ensureTable h.wellLinked hq h.slot_lt (.inl h.kind_lt) hok
  refine ⟨he, fun path ↦ ?_⟩
  rw [he.slotAt_iff, h.wellLinked.meets_iff_leads h.kind_ne_modrm, h.leads_iff]

/-- A stem with a ModRM table behind it is a stem. -/
theorem table {t'' : Trie} {x : NodeId} (he : Ensured t' p .modrm t'' x)
    (hpath : ∀ path, t''.slotAt path = .node x ↔ path = Route.slots stem) (i : Nat)
    (path : List Nat) (v : Content) :
    (t''.view path = some v ↔
      t.view path = some v ∨ Route.tables (stem ++ [⟨.modrm, i⟩]) path = some v) := by
  rw [he.view, h.view, Route.tables_append_eq_some_iff, or_assoc]
  refine or_congr_right (or_congr_right ?_)
  rw [← he.slotAt_iff, hpath]
  constructor
  · rintro ⟨rfl, rfl⟩
    exact ⟨[], by simp, rfl⟩
  · rintro ⟨q, rfl, hq⟩
    cases q with
    | nil => exact ⟨by simp, by simpa using hq.symm⟩
    | cons j q => simp at hq

section cell

variable {t'' : Trie} {x : NodeId} (he : Ensured t' p .modrm t'' x)
  (hpath : ∀ path, t''.slotAt path = .node x ↔ path = Route.slots stem)

include he hpath

/-- The cells of the table are what they were, or empty. -/
theorem same_or_none : t'' = t' ∨ ∀ i, t''.view (Route.slots stem ++ [i]) = none := by
  rcases he.fresh with rfl | ⟨-, -, hempty⟩
  · exact .inl rfl
  · refine .inr fun i ↦ ?_
    rw [Trie.view, slotAt_concat, (hpath _).mpr rfl, enter_node, hempty, content_empty]

theorem fruitful_cell (hs : stem ≠ []) (hf : ∀ i, Fruitful t.view [i]) (i : Nat) :
    Fruitful t''.view (Route.slots stem ++ [i]) := by
  rcases h.same_or_none he hpath with rfl | hnone
  · exact (h.fruitful hs hf).append [i]
  · exact fruitful_of_none (hnone i)

/-- A route that is free at a cell is free with the stem. -/
theorem free_cell {i : Nat} {r : List Step} (hr : Free t''.view (Route.slots stem ++ [i]) r) :
    Free t.view [] (stem ++ ⟨.modrm, i⟩ :: r) := by
  have htable := h.table he hpath i
  have hfree : Free t''.view [] (stem ++ [⟨.modrm, i⟩] ++ r) := by
    refine .append (fun q v hq ↦ (htable _ v).mpr (.inr hq)) ?_
    simpa using hr
  rw [List.append_assoc] at hfree
  exact hfree.anti fun hv ↦ (htable _ _).mpr (.inl hv)

/-- A stem with a ModRM table in which a cell holds something was there, with the table. -/
theorem eq_of_cell_ne_none {i : Nat} (hne : t''.view (Route.slots stem ++ [i]) ≠ none) :
    t'' = t := by
  rcases h.same_or_none he hpath with rfl | hnone
  · refine h.eq_of_view_ne_none ?_
    rw [Trie.view, (hpath _).mpr rfl, content_node]
    exact Option.some_ne_none _
  · exact absurd (hnone i) hne

/-- A route that is obstructed at a cell is obstructed with the stem. -/
theorem obstructed_cell {i : Nat} {r : List Step} {e : Clash}
    (hr : Obstructed t''.view (Route.slots stem ++ [i]) r e) :
    Obstructed t.view [] (stem ++ ⟨.modrm, i⟩ :: r) e := by
  rcases h.same_or_none he hpath with rfl | hnone
  · refine h.obstructed_append (.step ?_ hr)
    rw [Trie.view, (hpath _).mpr rfl, content_node, he.kind_eq]
  · exact absurd (hnone i) hr.view_ne_none

end cell

end Stemmed

end Trie

/-- Routes that are completed one after the other are free up to one that is obstructed. -/
def Blocked (view : List Nat → Option Content) (routes : List (List Step)) (e : Clash) : Prop :=
  ∃ pre r post, routes = pre ++ r :: post ∧ (∀ a ∈ pre, Free view [] a) ∧ Obstructed view [] r e

/-- If all routes are obstructed, the first one is. -/
theorem blocked_of_forall {view : List Nat → Option Content} {routes : List (List Step)} {e : Clash}
    (hne : routes ≠ []) (h : ∀ r ∈ routes, Obstructed view [] r e) : Blocked view routes e := by
  cases routes with
  | nil => exact absurd rfl hne
  | cons r post =>
    exact ⟨[], r, post, rfl, fun a ha ↦ absurd ha List.not_mem_nil, h r List.mem_cons_self⟩

/-! ## Whole sites -/

namespace Build

open Trie (Stemmed Ensured Filling)

/-- What a site adds to a trie. -/
structure Filled (t : Trie) (n : Nat) (s : Site) (t' : Trie) : Prop where
  /-- The references stay in order. -/
  wellLinked : t'.WellLinked
  /-- What the routes of the site want is added, and nothing else. -/
  view : ∀ path v, t'.view path = some v ↔
    t.view path = some v ∨ ∃ r ∈ s.routes, Route.wants n r path = some v
  /-- The routes were free. -/
  free : ∀ r ∈ s.routes, Free t.view [] r
  /-- The site is pinned if it takes one mode. -/
  sharing : ∀ {P : Trie.Pins}, t.Sharing P → t'.Sharing (s.pin P)

section fill

variable {number owner : Nat} {s : Site} {b b' : Build}

/-- The steps of filling a site. -/
theorem fill_eq :
    fill number owner s b =
      match Trie.reach number s.stem b.trie with
      | .error e t => .error e ⟨t, b.ranges⟩
      | .ok p t =>
        match s.column with
        | none => place number owner p s.tail ⟨t, b.ranges⟩
        | some column =>
          match Trie.ensureTable number .modrm p t with
          | .error e t => .error e ⟨t, b.ranges⟩
          | .ok x t =>
            match column.mode with
            | some m => placeOneMode number owner x column.reg m s.tail ⟨t, b.ranges⟩
            | none => placeEveryMode number owner x column.reg s.tail ⟨t, b.ranges⟩ := by
  simp only [fill, bind, EStateM.bind, onTrie]
  cases Trie.reach number s.stem b.trie with
  | error e t => rfl
  | ok p t =>
    cases s.column with
    | none => rfl
    | some column =>
      simp only [EStateM.bind, onTrie]
      cases Trie.ensureTable number .modrm p t with
      | error e t => rfl
      | ok x t => cases column.mode <;> rfl

/-- A column behind a stem and a ModRM table, when it is filled. -/
theorem filled_of_columnFilled {t t₁ t₂ t₃ : Trie} {p : Position} {x : NodeId} {column : Column}
    (h : t.WellLinked) (hcol : s.column = some column) (hst : Stemmed t s.stem t₁ p)
    (he : Ensured t₁ p .modrm t₂ x)
    (hpath : ∀ path, t₂.slotAt path = .node x ↔ path = Route.slots s.stem)
    (hf : Trie.ColumnFilled t₂ (Route.slots s.stem) column number s.tail t₃) :
    Filled t number s t₃ := by
  have hroutes : s.routes =
      column.modes.map fun m ↦ s.stem ++ ⟨.modrm, ModRM.slot column.reg m⟩ :: s.tail := by
    rw [Site.routes, hcol]
  have htable := hst.table he hpath
  refine ⟨hf.wellLinked, fun path v ↦ ?_, fun r hr ↦ ?_, fun {P} hP ↦ ?_⟩
  · rw [hf.view]
    constructor
    · rintro (hv | ⟨m, hm, r, rfl, hr⟩)
      · -- Tables behind the stem belong to every route of the site.
        obtain ⟨r, hr⟩ := List.exists_mem_of_ne_nil _ s.routes_ne_nil
        rw [hroutes] at hr
        obtain ⟨m, hm, rfl⟩ := List.mem_map.mp hr
        rcases (htable (ModRM.slot column.reg m) path v).mp hv with hv | hv
        · exact .inl hv
        · exact .inr ⟨_, by rw [hroutes]; exact hr, (s.wants_cell_iff _ _).mpr (.inl hv)⟩
      · exact .inr ⟨_, by rw [hroutes]; exact List.mem_map_of_mem hm,
          (s.wants_cell_iff _ _).mpr (.inr ⟨r, rfl, hr⟩)⟩
    · rintro (hv | ⟨r, hr, hv⟩)
      · exact .inl ((htable 0 path v).mpr (.inl hv))
      · rw [hroutes] at hr
        obtain ⟨m, hm, rfl⟩ := List.mem_map.mp hr
        rcases (s.wants_cell_iff _ _).mp hv with hv | ⟨q, rfl, hq⟩
        · exact .inl ((htable (ModRM.slot column.reg m) path v).mpr (.inr hv))
        · exact .inr ⟨m, hm, q, rfl, hq⟩
  · rw [hroutes] at hr
    obtain ⟨m, hm, rfl⟩ := List.mem_map.mp hr
    exact hst.free_cell he hpath (hf.free m hm)
  · -- The stem and the ModRM table write no cell.
    rw [Site.pin, hcol]
    exact hf.sharing (hP.of_kept (hst.cellsKept h he.grows fun q _ hq ↦ he.frame q hq))

/-- A number behind a stem, when it is placed. -/
theorem filled_of_placed {t t₁ t₂ : Trie} {p : Position} {q : List Nat} (h : t.WellLinked)
    (hcol : s.column = none) (hst : Stemmed t s.stem t₁ p)
    (hq : q ++ [p.slot] = Route.slots s.stem) (hfree : Free t₁.view (q ++ [p.slot]) s.tail)
    (hplaced : Trie.Placed t₁ p number s.tail t₂) : Filled t number s t₂ := by
  have hroutes : s.routes = [s.stem ++ s.tail] := by rw [Site.routes, hcol]
  have hmeets (w : List Nat) : t₁.Meets p w ↔ w = Route.slots s.stem := by
    rw [hst.wellLinked.meets_iff_leads hst.kind_ne_modrm, hst.leads_iff]
  refine ⟨hplaced.wellLinked, fun path v ↦ ?_, fun r hr ↦ ?_, fun {P} hP ↦ ?_⟩
  · rw [hplaced.view, hst.view, hroutes, or_assoc]
    simp only [List.mem_singleton, exists_eq_left, Route.wants_append_eq_some_iff, hmeets]
    refine or_congr_right (or_congr_right ?_)
    constructor
    · rintro ⟨w, r, rfl, rfl, hr⟩
      exact ⟨r, rfl, hr⟩
    · rintro ⟨r, rfl, hr⟩
      exact ⟨_, r, rfl, rfl, hr⟩
  · rw [hroutes] at hr
    rw [List.mem_singleton.mp hr]
    exact hst.free_append (by rwa [hq] at hfree)
  · rw [Site.pin, hcol]
    exact hP.of_kept (hst.cellsKept h hplaced.grows hplaced.frame)

/-- **Filling a site**, when it succeeds. -/
theorem filled_of_fill (h : b.trie.WellLinked) (hs : s.opcode ≠ [])
    (hok : fill number owner s b = .ok () b') :
    Filled b.trie number s b'.trie ∧ b'.ranges = noteRange b.ranges owner number := by
  rw [fill_eq] at hok
  cases hreach : Trie.reach number s.stem b.trie with
  | error e t => rw [hreach] at hok; cases hok
  | ok p t₁ =>
    have hst := Trie.stemmed_of_reach h hs hreach
    simp only [hreach] at hok
    cases hcol : s.column with
    | none =>
      simp only [hcol] at hok
      obtain ⟨hplace, hranges⟩ := place_eq_ok hok
      obtain ⟨q, hq, hnode⟩ := hst.exists_path
      obtain ⟨hfree, hplaced⟩ := Trie.placed_of_place hst.wellLinked hnode hst.slot_lt
        (s.valid_tail (hst.kind_lt.trans (by decide)))
        (Route.noModRM_of_valid (s.valid_tail (k := .modrm) (by decide)) (Nat.le_refl _)) hplace
      exact ⟨filled_of_placed h hcol hst hq.symm hfree hplaced, hranges⟩
    | some column =>
      simp only [hcol] at hok
      cases hens : Trie.ensureTable number .modrm p t₁ with
      | error e t => rw [hens] at hok; cases hok
      | ok x t₂ =>
        simp only [hens] at hok
        obtain ⟨he, hpath⟩ := hst.ensure hens
        have hc := (hpath _).mpr rfl
        have hvalid := s.valid_tail (k := .modrm) (by decide)
        obtain ⟨reg, mode⟩ := column
        cases mode with
        | some m =>
          obtain ⟨hf, hranges⟩ := columnFilled_of_placeOneMode (b := ⟨t₂, b.ranges⟩)
            he.wellLinked he.kind_eq hc hvalid hok
          exact ⟨filled_of_columnFilled h hcol hst he hpath hf, hranges⟩
        | none =>
          obtain ⟨hf, hranges⟩ := columnFilled_of_placeEveryMode (b := ⟨t₂, b.ranges⟩)
            he.wellLinked he.kind_eq hc hvalid hok
          exact ⟨filled_of_columnFilled h hcol hst he hpath hf, hranges⟩

/-- A column behind a stem and a ModRM table, when it cannot be filled. -/
theorem blocked_of_column {t t₁ t₂ : Trie} {p : Position} {x : NodeId} {column : Column}
    (hcol : s.column = some column) (hst : Stemmed t s.stem t₁ p)
    (he : Ensured t₁ p .modrm t₂ x)
    (hpath : ∀ path, t₂.slotAt path = .node x ↔ path = Route.slots s.stem) {e : Clash}
    {pre post : List Nat} {k : Nat} (hmodes : column.modes = pre ++ k :: post)
    (hfree : ∀ m ∈ pre,
      Free t₂.view (Route.slots s.stem ++ [ModRM.slot column.reg m]) s.tail)
    (hobs : Obstructed t₂.view (Route.slots s.stem ++ [ModRM.slot column.reg k]) s.tail e) :
    Blocked t.view s.routes e := by
  refine ⟨pre.map fun m ↦ s.stem ++ ⟨.modrm, ModRM.slot column.reg m⟩ :: s.tail, _,
    post.map fun m ↦ s.stem ++ ⟨.modrm, ModRM.slot column.reg m⟩ :: s.tail, ?_, ?_,
    hst.obstructed_cell he hpath hobs⟩
  · simp only [Site.routes, hcol, hmodes, List.map_append, List.map_cons]
  · intro a ha
    obtain ⟨m, hm, rfl⟩ := List.mem_map.mp ha
    exact hst.free_cell he hpath (hfree m hm)

/-- What a site that cannot be filled leaves behind: some of its routes, each at the one mode of a
register column that it takes. -/
structure PartlyFilled (b : Build) (n owner : Nat) (s : Site) (part : List Site) (b' : Build) :
    Prop where
  /-- The references stay in order. -/
  wellLinked : b'.trie.WellLinked
  /-- What the routes of the part want is added, and nothing else. -/
  view : ∀ path v, b'.trie.view path = some v ↔
    b.trie.view path = some v ∨ ∃ r ∈ part.flatMap Site.routes, Route.wants n r path = some v
  /-- The routes of the part are routes of the site. -/
  routes_subset : ∀ r ∈ part.flatMap Site.routes, r ∈ s.routes
  /-- They were free. -/
  free : ∀ r ∈ part.flatMap Site.routes, Free b.trie.view [] r
  /-- The number is noted for each of them. -/
  ranges_eq : b'.ranges = part.foldl (fun r _ ↦ noteRange r owner n) b.ranges

/-- A site of which nothing is filled. -/
theorem PartlyFilled.nil (hl : b'.trie.WellLinked) (hv : b'.trie.view = b.trie.view)
    (hr : b'.ranges = b.ranges) : PartlyFilled b number owner s [] b' where
  wellLinked := hl
  view path v := by simp [hv]
  routes_subset r hr := absurd hr List.not_mem_nil
  free r hr := absurd hr List.not_mem_nil
  ranges_eq := hr

/-- A register column of which the first modes have been filled. -/
theorem partlyFilled_of_filling {x : NodeId} {reg : Fin 8} {k : Nat}
    (hcol : s.column = some ⟨reg, none⟩)
    (hpath : b.trie.slotAt (Route.slots s.stem) = .node x)
    (htable : ∀ i path v, Route.tables (s.stem ++ [⟨.modrm, i⟩]) path = some v →
      b.trie.view path = some v)
    (hf : Filling b.trie (Route.slots s.stem) x reg number s.tail k b'.trie)
    (hr : b'.ranges = if k = 0 then b.ranges else noteRange b.ranges owner number) :
    ∃ part, PartlyFilled b number owner s part b' := by
  classical
  let modes := (List.finRange 4).filter fun m : Fin 4 ↦ b.trie.Done x reg k m
  have hmodes (m : Fin 4) : m ∈ modes ↔ b.trie.Done x reg k m := by simp [modes]
  have hroute {r : List Step} : r ∈ (modes.map (s.atMode reg)).flatMap Site.routes ↔
      ∃ m : Fin 4, b.trie.Done x reg k m ∧
        r = s.stem ++ ⟨.modrm, ModRM.slot reg m⟩ :: s.tail := by
    simp [Site.routes_atMode, hmodes]
  refine ⟨modes.map (s.atMode reg), hf.wellLinked, fun path v ↦ ?_, fun r hr ↦ ?_,
    fun r hr ↦ ?_, ?_⟩
  · rw [hf.view]
    constructor
    · rintro (hv | ⟨m, hm, hd, r, rfl, hr⟩)
      · exact .inl hv
      · exact .inr ⟨_, hroute.mpr ⟨⟨m, hm⟩, hd, rfl⟩,
          (s.wants_cell_iff _ _).mpr (.inr ⟨r, rfl, hr⟩)⟩
    · rintro (hv | ⟨r, hr, hv⟩)
      · exact .inl hv
      · obtain ⟨m, hd, rfl⟩ := hroute.mp hr
        rcases (s.wants_cell_iff _ _).mp hv with hv | ⟨q, rfl, hq⟩
        · exact .inl (htable _ _ _ hv)
        · exact .inr ⟨m, m.isLt, hd, q, rfl, hq⟩
  · obtain ⟨m, -, rfl⟩ := hroute.mp hr
    rw [Site.routes, hcol]
    exact List.mem_map.mpr ⟨m, List.mem_range.mpr m.isLt, rfl⟩
  · obtain ⟨m, hd, rfl⟩ := hroute.mp hr
    rw [List.append_cons]
    refine .append (fun q v hq ↦ htable _ _ _ hq) ?_
    simpa using hf.free_of_done hpath hd
  · rw [hr]
    split
    · next h0 =>
      -- Nothing is done before the first mode.
      have hnone : modes = [] := by
        refine List.filter_eq_nil_iff.mpr fun m _ ↦ ?_
        simp [Trie.Done, h0]
      rw [hnone]
      rfl
    · next h0 =>
      have hfirst : (0 : Fin 4) ∈ modes := (hmodes 0).mpr (.inl (Nat.pos_of_ne_zero h0))
      rw [noteRange_foldl]
      exact List.ne_nil_of_mem (List.mem_map_of_mem hfirst)

/-- A number behind a stem, when it cannot be placed. -/
theorem blocked_of_place {t₁ : Trie} {p : Position} (h : b.trie.WellLinked)
    (hcol : s.column = none) (hst : Stemmed b.trie s.stem t₁ p)
    (hf : Fruitful t₁.view (Route.slots s.stem)) {e : Clash}
    (herr : place number owner p s.tail ⟨t₁, b.ranges⟩ = .error e b') :
    Blocked b.trie.view s.routes e ∧ ∃ part, PartlyFilled b number owner s part b' := by
  obtain ⟨q, hq, hnode⟩ := hst.exists_path
  obtain ⟨hplace, hranges⟩ := place_eq_error herr
  obtain ⟨htrie, hobs⟩ := Trie.obstructed_of_place hst.wellLinked hnode hst.slot_lt
    (s.valid_tail (hst.kind_lt.trans (by decide))) (by rwa [← hq]) hplace
  rw [← hq] at hobs
  have hsame := hst.eq_of_view_ne_none hobs.view_ne_none
  refine ⟨blocked_of_forall s.routes_ne_nil fun r hr ↦ ?_, [],
    .nil (by rw [htrie, hsame]; exact h) (by rw [htrie, hsame]) hranges⟩
  rw [Site.routes, hcol] at hr
  rw [List.mem_singleton.mp hr]
  exact hst.obstructed_append hobs

/-- A ModRM table behind a stem, when something else is there. -/
theorem blocked_of_ensureTable {t₁ t₂ : Trie} {p : Position} {column : Column}
    (h : b.trie.WellLinked) (hcol : s.column = some column) (hst : Stemmed b.trie s.stem t₁ p)
    (hf : Fruitful t₁.view (Route.slots s.stem)) {e : Clash}
    (herr : Trie.ensureTable number .modrm p t₁ = .error e t₂) :
    Blocked b.trie.view s.routes e ∧
      ∃ part, PartlyFilled b number owner s part ⟨t₂, b.ranges⟩ := by
  obtain ⟨q, hq, hnode⟩ := hst.exists_path
  obtain ⟨rfl, hobs⟩ := Trie.obstructed_of_ensureTable hst.wellLinked hnode (by rwa [← hq]) herr
  rw [← hq] at hobs
  obtain rfl := hst.eq_of_view_ne_none (hobs ⟨.modrm, 0⟩ [] rfl).view_ne_none
  refine ⟨blocked_of_forall s.routes_ne_nil fun r hr ↦ ?_, [], .nil h rfl rfl⟩
  rw [Site.routes, hcol] at hr
  obtain ⟨m, -, rfl⟩ := List.mem_map.mp hr
  exact hst.obstructed_append (hobs _ _ rfl)

section column

variable {t₁ t₂ : Trie} {p : Position} {x : NodeId} {reg : Fin 8} {e : Clash}
  (hst : Stemmed b.trie s.stem t₁ p) (he : Ensured t₁ p .modrm t₂ x)
  (hpath : ∀ path, t₂.slotAt path = .node x ↔ path = Route.slots s.stem)
  (hf : ∀ i, Fruitful t₂.view (Route.slots s.stem ++ [i]))

include hst he hpath hf

/-- One mode of a register column, when it cannot be filled. Nothing stays. -/
theorem blocked_of_placeOneMode {m : Fin 4} (hcol : s.column = some ⟨reg, some m⟩)
    (herr : placeOneMode number owner x reg m s.tail ⟨t₂, b.ranges⟩ = .error e b') :
    Blocked b.trie.view s.routes e ∧ ∃ part, PartlyFilled b number owner s part b' := by
  have hc := (hpath _).mpr rfl
  obtain ⟨⟨htrie, hranges⟩, hobs⟩ := obstructed_of_placeOneMode (b := ⟨t₂, b.ranges⟩)
    he.wellLinked he.kind_eq hc (s.valid_tail (by decide)) (hf _) herr
  have hd : Trie.Detached t₂ _ (Trie.cell x reg m) (t₂.detach x reg m) :=
    Trie.detached_detach he.wellLinked he.kind_eq hc m.isLt
  obtain rfl := hst.eq_of_cell_ne_none he hpath hobs.view_ne_none
  refine ⟨blocked_of_column hcol hst he hpath (show _ = [] ++ m.val :: [] from rfl)
    (fun m hm ↦ absurd hm List.not_mem_nil) hobs, [], .nil ?_ ?_ hranges⟩
  · rw [htrie]
    exact hd.wellLinked
  · rw [htrie]
    exact funext hd.view

/-- All modes of a register column, when one cannot be filled. The modes before it stay. -/
theorem blocked_of_placeEveryMode (hcol : s.column = some ⟨reg, none⟩)
    (herr : placeEveryMode number owner x reg s.tail ⟨t₂, b.ranges⟩ = .error e b') :
    Blocked b.trie.view s.routes e ∧ ∃ part, PartlyFilled b number owner s part b' := by
  have hc := (hpath _).mpr rfl
  obtain ⟨k, hk, hfill, hranges, hobs⟩ := obstructed_of_placeEveryMode (b := ⟨t₂, b.ranges⟩)
    he.wellLinked he.kind_eq hc (s.valid_tail (by decide)) (fun m _ ↦ hf _) herr
  have hsame := hst.eq_of_cell_ne_none he hpath hobs.view_ne_none
  obtain ⟨pre, post, hmodes⟩ := List.append_of_mem (List.mem_range.mpr hk)
  obtain ⟨rfl, -⟩ := eq_range_of_range_eq hmodes
  refine ⟨blocked_of_column hcol hst he hpath hmodes
    (fun m hm ↦ hfill.free m (List.mem_range.mp hm)) hobs, ?_⟩
  subst hsame
  exact partlyFilled_of_filling hcol hc
    (fun i path v hv ↦ (hst.table he hpath i path v).mpr (.inr hv)) hfill hranges

end column

/-- **Filling a site**, when it fails: its routes are free up to one that is obstructed, and some of
them stay. -/
theorem blocked_of_fill (h : b.trie.WellLinked) (hs : s.opcode ≠ [])
    (hf : ∀ i, Fruitful b.trie.view [i]) {e : Clash} (herr : fill number owner s b = .error e b') :
    Blocked b.trie.view s.routes e ∧ ∃ part, PartlyFilled b number owner s part b' := by
  rw [fill_eq] at herr
  cases hreach : Trie.reach number s.stem b.trie with
  | error e' t =>
    rw [hreach] at herr
    cases herr
    obtain ⟨rfl, hobs⟩ := Trie.obstructed_of_reach h hs hf hreach
    refine ⟨blocked_of_forall s.routes_ne_nil fun r hr ↦ ?_, [], .nil h rfl rfl⟩
    obtain ⟨rest, rfl⟩ := Site.exists_eq_stem_append hr
    exact hobs rest
  | ok p t₁ =>
    have hst := Trie.stemmed_of_reach h hs hreach
    have hne := Site.stem_ne_nil hs
    simp only [hreach] at herr
    cases hcol : s.column with
    | none =>
      simp only [hcol] at herr
      exact blocked_of_place h hcol hst (hst.fruitful hne hf) herr
    | some column =>
      simp only [hcol] at herr
      cases hens : Trie.ensureTable number .modrm p t₁ with
      | error e' t =>
        rw [hens] at herr
        cases herr
        exact blocked_of_ensureTable h hcol hst (hst.fruitful hne hf) hens
      | ok x t₂ =>
        simp only [hens] at herr
        obtain ⟨he, hpath⟩ := hst.ensure hens
        have hfruit := hst.fruitful_cell he hpath hne hf
        obtain ⟨reg, mode⟩ := column
        cases mode with
        | some m => exact blocked_of_placeOneMode hst he hpath hfruit hcol herr
        | none => exact blocked_of_placeEveryMode hst he hpath hfruit hcol herr

end fill

end Build

end DecodeTrie
