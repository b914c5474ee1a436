import DecodeTrie.Proofs.Trie.Sharing

/-!
# Filling register columns

A leaf goes to one mode of a register column, or to all four. Either way, what is added is the
route behind ModRM at the modes in question, and nothing else (`ColumnFilled`), although the modes
share children: one mode gets a child of its own first, and all four are filled as often as there
are different children.

For all four modes the loop invariant is `Filling`: the route has been added at the modes that are
done and at those that share a child with one of them, and the cells that were empty hold one and
the same thing as far as they are done.
-/

namespace DecodeTrie

/-- The modes that a column takes, in the order in which they are filled. -/
def Column.modes (column : Column) : List Nat :=
  match column.mode with
  | some m => [m.val]
  | none => List.range 4

namespace Route

/-- There is no ModRM table behind one. -/
theorem noModRM_of_valid {k : NodeKind} {r : List Step} (h : Valid k r)
    (hk : NodeKind.modrm.code ≤ k.code) : NoModRM r := by
  induction r generalizing k with
  | nil => exact fun s hs ↦ absurd hs List.not_mem_nil
  | cons s r ih =>
    have hlt : k.code < s.kind.code := by
      refine h.1.code_lt ?_
      rintro rfl
      exact absurd hk (by decide)
    intro s' hs'
    rcases List.mem_cons.mp hs' with rfl | hs'
    · intro hmodrm
      rw [hmodrm] at hlt
      exact absurd hk (Nat.not_le_of_lt hlt)
    · exact ih h.2.2 (hk.trans (Nat.le_of_lt hlt)) s' hs'

end Route

namespace Trie

/-- What a leaf in a register column adds to a trie. -/
structure ColumnFilled (t : Trie) (c : List Nat) (column : Column) (n : Nat) (tail : List Step)
    (t' : Trie) : Prop where
  /-- The references stay in order. -/
  wellLinked : t'.WellLinked
  /-- What the route behind ModRM wants is added at the modes of the column. -/
  view : ∀ path v, t'.view path = some v ↔ t.view path = some v ∨ ∃ m ∈ column.modes,
    ∃ r, path = c ++ ModRM.slot column.reg m :: r ∧ Route.wants n tail r = some v
  /-- The route was free there. -/
  free : ∀ m ∈ column.modes, Free t.view (c ++ [ModRM.slot column.reg m]) tail
  /-- A mode that is taken alone is pinned. -/
  sharing : ∀ {P : Pins}, t.Sharing P → t'.Sharing (P.add c column.reg column.mode)

section cells

variable {t : Trie} (h : t.WellLinked) {x : NodeId} (hx : t.kind x = .modrm) {c : List Nat}
  (hc : t.slotAt c = .node x) {reg : Fin 8} {m : Nat}

include h hx hc

/-- The paths that meet a cell are those to the cell and to the modes that share its child. -/
theorem meets_cell_iff (hm : m < 4) (w : List Nat) :
    t.Meets (cell x reg m) w ↔ ∃ k, k < 4 ∧ w = c ++ [ModRM.slot reg k] ∧
      (k = m ∨ ∃ y, t.slot (cell x reg m) = .node y ∧ t.slot (cell x reg k) = .node y) := by
  rw [Meets, h.leads_modrm_iff (p := cell x reg m) hc hx]
  constructor
  · rintro (rfl | ⟨y, hy, hw⟩)
    · exact ⟨m, hm, rfl, .inl rfl⟩
    · obtain ⟨j, hj, hjy, rfl⟩ := (h.slotAt_eq_iff_cell hc hx hy w).mp hw
      rw [show ModRM.slot reg m % 8 = reg from cell_slot_mod x reg m] at hj
      have hlt : j < 32 := by
        have := (lt_of_slot_node hjy).2
        rwa [hx] at this
      have hcell := eq_cell (x := x) hj
      rw [hcell] at hjy
      exact ⟨j / 8, by omega, congrArg (fun p : Position ↦ c ++ [p.slot]) hcell,
        .inr ⟨y, hy, hjy⟩⟩
  · rintro ⟨k, -, rfl, rfl | ⟨y, hy, hky⟩⟩
    · exact .inl rfl
    · exact .inr ⟨y, hy, by rw [slotAt_concat, hc]; exact hky⟩

/-- A leaf behind a cell, when it is placed. -/
theorem placed_of_place_cell (hm : m < 4) {number : Nat} {tail : List Step}
    (hvalid : Route.Valid .modrm tail) {t' : Trie}
    (hok : place number (cell x reg m) tail t = .ok () t') :
    Free t.view (c ++ [ModRM.slot reg m]) tail ∧ Placed t (cell x reg m) number tail t' := by
  have hkind : t.kind (cell x reg m).node = .modrm := hx
  exact placed_of_place h hc (by rw [hkind]; exact cell_slot_lt x reg hm) (by rwa [hkind])
    (Route.noModRM_of_valid hvalid (Nat.le_refl _)) hok

/-- A leaf behind a cell, when it cannot be placed. -/
theorem obstructed_of_place_cell (hm : m < 4) {number : Nat} {tail : List Step}
    (hvalid : Route.Valid .modrm tail) (hf : Fruitful t.view (c ++ [ModRM.slot reg m]))
    {e : Clash} {t' : Trie} (herr : place number (cell x reg m) tail t = .error e t') :
    t' = t ∧ Obstructed t.view (c ++ [ModRM.slot reg m]) tail e := by
  have hkind : t.kind (cell x reg m).node = .modrm := hx
  exact obstructed_of_place h hc (by rw [hkind]; exact cell_slot_lt x reg hm) (by rwa [hkind]) hf
    herr

omit h hx in
/-- Below cells that hold the same thing the same stands. -/
theorem view_eq_of_cells {j k : Nat} (hjk : t.slot (cell x reg j) = t.slot (cell x reg k))
    (r : List Nat) :
    t.view (c ++ ModRM.slot reg j :: r) = t.view (c ++ ModRM.slot reg k :: r) := by
  rw [view, view, slotAt_append, slotAt_append, hc, slotFrom_cons, slotFrom_cons, enter_node,
    enter_node]
  exact congrArg (fun s ↦ t.content (t.slotFrom s r)) hjk

end cells

/-- The paths of two cells of a column are different, also further on. -/
theorem append_cell_inj {c r r' : List Nat} {reg : Fin 8} {j k : Nat}
    (h : c ++ ModRM.slot reg j :: r = c ++ ModRM.slot reg k :: r') : j = k ∧ r = r' := by
  obtain ⟨hs, hr⟩ := List.cons.inj (List.append_cancel_left h)
  exact ⟨(modrm_slot_inj hs).2, hr⟩

/-! ## One mode -/

section oneMode

variable {t : Trie} (h : t.WellLinked) {x : NodeId} (hx : t.kind x = .modrm) {c : List Nat}
  (hc : t.slotAt c = .node x) {reg : Fin 8} {m : Fin 4} {number : Nat} {tail : List Step}

include h hx hc

/-- The ModRM table is where it was. -/
theorem table_of_detached {p : Position} {t₁ : Trie} (hd : Detached t c p t₁) :
    t₁.kind x = .modrm ∧ t₁.slotAt c = .node x :=
  ⟨by rw [hd.kind_eq (h.lt_size_of_slotAt hc), hx],
    by rw [hd.slotAt_eq c fun r hr ↦ by simpa using congrArg List.length hr, hc]⟩

/-- A cell that has got a leaf of its own is pinned, and nothing else changes. -/
theorem sharing_of_placed {t₁ t' : Trie} (hd : Detached t c (cell x reg m) t₁)
    (hplaced : Placed t₁ (cell x reg m) number tail t')
    (hheld : t'.view (c ++ [ModRM.slot reg m]) ≠ none) {P : Pins} (hP : t.Sharing P) :
    t'.Sharing (P.add c reg (some m)) := by
  obtain ⟨-, hc₁⟩ := table_of_detached h hx hc hd
  have htable : t.view c = some (.table .modrm) := by rw [view, hc, content_node, hx]
  have hkept : CellsKept t t' (· = c ++ [ModRM.slot reg m]) := by
    refine (CellsKept.of_detached h hx hc hd).trans
      (.of_extends hd.wellLinked hplaced.grows fun q c' hq hc' hne ↦ hplaced.frame q hq ?_)
    rintro rfl
    refine hne ?_
    rw [hplaced.wellLinked.eq_of_slotAt_modrm hc' (hplaced.grows.slotAt_node hc₁) hq]
  have hother (k : Nat) (hk : k ≠ m) : t'.cellAt c reg k = t.cellAt c reg k :=
    hkept.slotAt_eq (hkept.mono htable) fun he ↦ hk (append_cell_inj he).1
  refine hP.of_column c reg hkept (fun path he ↦ ⟨m, he⟩) ?_ (fun _ _ _ ↦ .inl) ?_
  · rintro c' reg' m' (hp | ⟨⟨rfl, rfl⟩, hm'⟩)
    · exact .inl hp
    · obtain rfl : m.val = m' := Option.some.inj hm'
      exact .inr ⟨⟨rfl, rfl⟩, hheld⟩
  · have hpin := (hP.column reg htable).pin t' m (fun k _ hk ↦ hother k hk) ?_
    · convert hpin using 2 with k
      simp [Pins.add, eq_comm]
    · -- The child of the cell is its own, so no other mode holds it.
      intro k y _ hk hy hky
      rw [hother k hk, cellAt_eq_slot hc] at hky
      have hky₁ : t₁.slot (cell x reg k) = .node y := by
        rw [hd.slot_eq (h.lt_size_of_slotAt hc) (fun he ↦ hk (cell_injective he).2.2), hky]
      rw [cellAt_eq_slot (hplaced.grows.slotAt_node hc₁)] at hy
      have hm₁ := hplaced.grows.old (hd.wellLinked.lt_size hky₁) hy
      exact hk (cell_injective (hd.own hm₁ hky₁)).2.2

variable (hvalid : Route.Valid .modrm tail)

include hvalid

/-- A leaf at one mode, when the step succeeds. -/
theorem columnFilled_of_place_detach {t' : Trie}
    (hok : place number (cell x reg m) tail (t.detach x reg m) = .ok () t') :
    ColumnFilled t c ⟨reg, some m⟩ number tail t' := by
  have hd : Detached t c (cell x reg m) (t.detach x reg m) := detached_detach h hx hc m.isLt
  generalize t.detach x reg m = t₁ at hd hok
  obtain ⟨hx₁, hc₁⟩ := table_of_detached h hx hc hd
  obtain ⟨hfree, hplaced⟩ := placed_of_place_cell hd.wellLinked hx₁ hc₁ m.isLt hvalid hok
  have hmeets (w : List Nat) : t₁.Meets (cell x reg m) w ↔ w = c ++ [ModRM.slot reg m] := by
    rw [meets_cell_iff hd.wellLinked hx₁ hc₁ m.isLt]
    constructor
    · rintro ⟨k, -, rfl, rfl | ⟨y, hy, hk⟩⟩
      · rfl
      · rw [(cell_injective (hd.own hy hk)).2.2]
    · rintro rfl
      exact ⟨m, m.isLt, rfl, .inl rfl⟩
  have hview (path : List Nat) (v : Content) : t'.view path = some v ↔ t.view path = some v ∨
      ∃ m' ∈ [m.val], ∃ r, path = c ++ ModRM.slot reg m' :: r ∧
        Route.wants number tail r = some v := by
    rw [hplaced.view, hd.view]
    refine or_congr_right ?_
    simp [hmeets]
  refine ⟨hplaced.wellLinked, hview, fun m' hm' ↦ ?_, sharing_of_placed h hx hc hd hplaced ?_⟩
  · obtain rfl : m' = m := List.mem_singleton.mp hm'
    exact hfree.congr fun q ↦ hd.view _
  · obtain ⟨v, hv⟩ := Route.exists_wants_nil number tail
    rw [(hview _ v).mpr (.inr ⟨m, List.mem_singleton.mpr rfl, [], rfl, hv⟩)]
    exact Option.some_ne_none v

/-- A leaf at one mode, when the step fails: the cell has got a child of its own. -/
theorem obstructed_of_place_detach (hf : Fruitful t.view (c ++ [ModRM.slot reg m])) {e : Clash}
    {t' : Trie} (herr : place number (cell x reg m) tail (t.detach x reg m) = .error e t') :
    t' = t.detach x reg m ∧ Obstructed t.view (c ++ [ModRM.slot reg m]) tail e := by
  have hd : Detached t c (cell x reg m) (t.detach x reg m) := detached_detach h hx hc m.isLt
  generalize t.detach x reg m = t₁ at hd herr ⊢
  obtain ⟨hx₁, hc₁⟩ := table_of_detached h hx hc hd
  have hview : t₁.view = t.view := funext hd.view
  rw [← hview] at hf ⊢
  exact obstructed_of_place_cell hd.wellLinked hx₁ hc₁ m.isLt hvalid hf herr

end oneMode

/-! ## All four modes -/

/-- An earlier twin is an earlier mode that holds the same thing. -/
theorem earlierTwin_spec (t : Trie) (x : NodeId) (reg : Fin 8) {k : Nat} (hk : k < 4) :
    match earlierTwin? (t.columnSlots x reg) k with
    | some j => j < k ∧ t.slot (cell x reg j) = t.slot (cell x reg k)
    | none => ∀ j, j < k → t.slot (cell x reg j) ≠ t.slot (cell x reg k) := by
  have hget {j : Nat} (hj : j < 4) :
      (t.columnSlots x reg)[j]? = some (t.slot (cell x reg j)) := by
    rw [columnSlots, List.getElem?_map, List.getElem?_range hj, Option.map_some]
  split
  · next j hfind =>
    have hj := List.mem_range.mp (List.mem_of_find?_eq_some hfind)
    have heq := List.find?_some hfind
    rw [beq_iff_eq, hget hk, hget (hj.trans hk)] at heq
    exact ⟨hj, Option.some.inj heq⟩
  · next hfind =>
    intro j hj heq
    have hne := List.find?_eq_none.mp hfind j (List.mem_range.mpr hj)
    rw [beq_iff_eq, hget hk, hget (hj.trans hk), heq] at hne
    exact hne rfl

/-- A mode is done when it has been filled, or shares its child with such a mode. -/
def Done (t : Trie) (x : NodeId) (reg : Fin 8) (k m : Nat) : Prop :=
  m < k ∨ ∃ j y, j < k ∧ t.slot (cell x reg j) = .node y ∧ t.slot (cell x reg m) = .node y

/-- One more mode is done: itself, and the modes that share its child. -/
theorem done_succ_iff {t : Trie} {x : NodeId} {reg : Fin 8} {k m : Nat} :
    t.Done x reg (k + 1) m ↔ t.Done x reg k m ∨
      (m = k ∨ ∃ y, t.slot (cell x reg k) = .node y ∧ t.slot (cell x reg m) = .node y) := by
  rw [Done, Done]
  constructor
  · rintro (hm | ⟨j, y, hj, hjy, hmy⟩)
    · rcases Nat.lt_succ_iff_lt_or_eq.mp hm with hm | rfl
      · exact .inl (.inl hm)
      · exact .inr (.inl rfl)
    · rcases Nat.lt_succ_iff_lt_or_eq.mp hj with hj | rfl
      · exact .inl (.inr ⟨j, y, hj, hjy, hmy⟩)
      · exact .inr (.inr ⟨y, hjy, hmy⟩)
  · rintro ((hm | ⟨j, y, hj, hjy, hmy⟩) | rfl | ⟨y, hky, hmy⟩)
    · exact .inl (Nat.lt_succ_of_lt hm)
    · exact .inr ⟨j, y, Nat.lt_succ_of_lt hj, hjy, hmy⟩
    · exact .inl (Nat.lt_succ_self _)
    · exact .inr ⟨k, y, Nat.lt_succ_self _, hky, hmy⟩

/-- The modes before `k` of a register column have been filled. -/
structure Filling (t : Trie) (c : List Nat) (x : NodeId) (reg : Fin 8) (n : Nat)
    (tail : List Step) (k : Nat) (t' : Trie) : Prop where
  /-- The references stay in order. -/
  wellLinked : t'.WellLinked
  /-- What stood somewhere stands there. -/
  grows : Extends t t'
  /-- The route is added at the modes that are done. -/
  view : ∀ path v, t'.view path = some v ↔ t.view path = some v ∨ ∃ m, m < 4 ∧ t.Done x reg k m ∧
    ∃ r, path = c ++ ModRM.slot reg m :: r ∧ Route.wants n tail r = some v
  /-- Empty cells of later modes are still empty. -/
  later : ∀ m, k ≤ m → m < 4 → t.slot (cell x reg m) = .empty → t'.slot (cell x reg m) = .empty
  /-- Empty cells of earlier modes now hold the same thing. -/
  filled : ∀ j m, j < k → m < k → t.slot (cell x reg j) = .empty →
    t.slot (cell x reg m) = .empty → t'.slot (cell x reg j) = t'.slot (cell x reg m)
  /-- The other slots of ModRM tables are what they were. -/
  frame : ∀ q, t'.kind q.node = .modrm → (∀ m, m < 4 → q ≠ cell x reg m) → t'.slot q = t.slot q
  /-- The route was free at the earlier modes. -/
  free : ∀ m, m < k → Free t.view (c ++ [ModRM.slot reg m]) tail

namespace Filling

variable {t t' : Trie} (h : t.WellLinked) {x : NodeId} (hx : t.kind x = .modrm) {c : List Nat}
  (hc : t.slotAt c = .node x) {reg : Fin 8} {number k : Nat} {tail : List Step}

theorem zero (h : t.WellLinked) : Filling t c x reg number tail 0 t where
  wellLinked := h
  grows := Extends.refl t
  view path v := by
    refine ⟨.inl, fun hv ↦ hv.elim (fun hv ↦ hv) ?_⟩
    rintro ⟨m, -, hm | ⟨j, y, hj, -⟩, -⟩
    · exact absurd hm (Nat.not_lt_zero m)
    · exact absurd hj (Nat.not_lt_zero j)
  later _ _ _ he := he
  filled j _ hj := absurd hj (Nat.not_lt_zero j)
  frame _ _ _ := rfl
  free m hm := absurd hm (Nat.not_lt_zero m)

include h in
/-- A child that a cell has got in the meantime is new. -/
theorem node_iff (hf : Filling t c x reg number tail k t') (hk : k < 4) {m : Nat} :
    (∃ y, t'.slot (cell x reg k) = .node y ∧ t'.slot (cell x reg m) = .node y) ↔
      ∃ y, t.slot (cell x reg k) = .node y ∧ t.slot (cell x reg m) = .node y := by
  constructor
  · rintro ⟨y, hy, hm⟩
    have hne : t.slot (cell x reg k) ≠ .empty := by
      intro he
      rw [hf.later k (Nat.le_refl k) hk he] at hy
      cases hy
    have hy' : t.slot (cell x reg k) = .node y := by rw [← hy, hf.grows.slot_eq hne]
    exact ⟨y, hy', hf.grows.old (h.lt_size hy') hm⟩
  · rintro ⟨y, hy, hm⟩
    exact ⟨y, by rw [hf.grows.slot_eq (by rw [hy]; exact Slot.noConfusion), hy],
      by rw [hf.grows.slot_eq (by rw [hm]; exact Slot.noConfusion), hm]⟩

/-- Below a cell without an earlier twin everything is as it was. -/
theorem view_eq_of_first (hf : Filling t c x reg number tail k t')
    (hfirst : ∀ j, j < k → t.slot (cell x reg j) ≠ t.slot (cell x reg k)) (r : List Nat) :
    t'.view (c ++ ModRM.slot reg k :: r) = t.view (c ++ ModRM.slot reg k :: r) := by
  refine Option.ext fun v ↦ ?_
  rw [hf.view]
  refine ⟨fun hv ↦ hv.elim (fun hv ↦ hv) ?_, .inl⟩
  rintro ⟨m, -, hm, r', hr, -⟩
  obtain ⟨rfl, -⟩ := append_cell_inj hr
  rcases hm with hm | ⟨j, y, hj, hjy, hy⟩
  · exact absurd hm (Nat.lt_irrefl _)
  · exact absurd (hjy.trans hy.symm) (hfirst j hj)

omit h hx in
include hc in
/-- The route was free at every mode that is done. -/
theorem free_of_done (hf : Filling t c x reg number tail k t') {m : Nat} (hm : t.Done x reg k m) :
    Free t.view (c ++ [ModRM.slot reg m]) tail := by
  rcases hm with hm | ⟨j, y, hj, hjy, hmy⟩
  · exact hf.free m hm
  · exact (hf.free j hj).translate fun q ↦ by
      simpa using view_eq_of_cells hc (hjy.trans hmy.symm) q

include h hx hc

/-- A mode without an earlier twin is filled by placing the leaf. -/
theorem place (hf : Filling t c x reg number tail k t') (hk : k < 4)
    (hvalid : Route.Valid .modrm tail)
    (hfirst : ∀ j, j < k → t.slot (cell x reg j) ≠ t.slot (cell x reg k)) {t'' : Trie}
    (hok : Trie.place number (cell x reg k) tail t' = .ok () t'') :
    Filling t c x reg number tail (k + 1) t'' := by
  have hxs : x < t.size := h.lt_size_of_slotAt hc
  have hx' : t'.kind x = .modrm := by rw [hf.grows.kind_eq hxs, hx]
  have hc' : t'.slotAt c = .node x := hf.grows.slotAt_node hc
  obtain ⟨hfree, hplaced⟩ := placed_of_place_cell hf.wellLinked hx' hc' hk hvalid hok
  have hdone (m : Nat) : t.Done x reg (k + 1) m ↔ t.Done x reg k m ∨
      (m = k ∨ ∃ y, t'.slot (cell x reg k) = .node y ∧ t'.slot (cell x reg m) = .node y) := by
    rw [hf.node_iff h hk, done_succ_iff]
  have hkeep {m : Nat} (hm : m < 4) (hmk : m ≠ k) :
      t''.slot (cell x reg m) = t'.slot (cell x reg m) := by
    refine hplaced.frame _ ?_ fun he ↦ hmk (cell_injective he).2.2
    rw [show (cell x reg m).node = x from rfl,
      hplaced.grows.kind_eq (hf.wellLinked.lt_size_of_slotAt hc'), hx']
  refine ⟨hplaced.wellLinked, hf.grows.trans hplaced.grows, ?_, ?_, ?_, ?_, ?_⟩
  · intro path v
    rw [hplaced.view, hf.view, or_assoc]
    refine or_congr_right ?_
    constructor
    · rintro (⟨m, hm, hd, hr⟩ | ⟨w, r, hw, rfl, hr⟩)
      · exact ⟨m, hm, (hdone m).mpr (.inl hd), hr⟩
      · obtain ⟨m, hm, rfl, hmk⟩ := (meets_cell_iff hf.wellLinked hx' hc' hk w).mp hw
        exact ⟨m, hm, (hdone m).mpr (.inr hmk), r, by simp, hr⟩
    · rintro ⟨m, hm, hd, r, rfl, hr⟩
      rcases (hdone m).mp hd with hd | hmk
      · exact .inl ⟨m, hm, hd, r, rfl, hr⟩
      · exact .inr ⟨c ++ [ModRM.slot reg m], r,
          (meets_cell_iff hf.wellLinked hx' hc' hk _).mpr ⟨m, hm, rfl, hmk⟩, by simp, hr⟩
  · intro m hkm hm he
    rw [hkeep hm (Nat.ne_of_gt hkm), hf.later m (Nat.le_of_succ_le hkm) hm he]
  · intro j m hj hm hej hem
    -- If the new mode was empty, then no earlier one was, for that would be a twin.
    rcases Nat.lt_succ_iff_lt_or_eq.mp hj with hjk | rfl <;>
      rcases Nat.lt_succ_iff_lt_or_eq.mp hm with hmk | rfl
    · rw [hkeep (hjk.trans hk) (Nat.ne_of_lt hjk), hkeep (hmk.trans hk) (Nat.ne_of_lt hmk),
        hf.filled j m hjk hmk hej hem]
    · exact absurd (hej.trans hem.symm) (hfirst j hjk)
    · exact absurd (hem.trans hej.symm) (hfirst m hmk)
    · rfl
  · intro q hq hne
    rw [hplaced.frame q hq (hne k hk)]
    rcases Nat.lt_or_ge q.node t'.size with hlt | hge
    · exact hf.frame q (by rw [← hplaced.grows.kind_eq hlt, hq]) hne
    · rw [slot_of_size_le hge, slot_of_size_le (hf.grows.size_le.trans hge)]
  · intro m hm
    rcases Nat.lt_succ_iff_lt_or_eq.mp hm with hm | rfl
    · exact hf.free m hm
    · refine hfree.congr fun q ↦ ?_
      rw [List.append_assoc]
      exact hf.view_eq_of_first hfirst q

/-- A mode without an earlier twin at which the leaf cannot be placed is obstructed from the
beginning, and the attempt changes nothing. -/
theorem obstructed (hf : Filling t c x reg number tail k t') (hk : k < 4)
    (hvalid : Route.Valid .modrm tail)
    (hfirst : ∀ j, j < k → t.slot (cell x reg j) ≠ t.slot (cell x reg k))
    (hfruit : Fruitful t.view (c ++ [ModRM.slot reg k])) {e : Clash} {t'' : Trie}
    (herr : Trie.place number (cell x reg k) tail t' = .error e t'') :
    t'' = t' ∧ Obstructed t.view (c ++ [ModRM.slot reg k]) tail e := by
  have hx' : t'.kind x = .modrm := by rw [hf.grows.kind_eq (h.lt_size_of_slotAt hc), hx]
  have hview (r : List Nat) : t'.view (c ++ [ModRM.slot reg k] ++ r) =
      t.view (c ++ [ModRM.slot reg k] ++ r) := by
    rw [List.append_assoc]
    exact hf.view_eq_of_first hfirst r
  have hfruit' : Fruitful t'.view (c ++ [ModRM.slot reg k]) := by
    intro p kind hp
    rw [hview] at hp
    obtain ⟨q, n, hn⟩ := hfruit p kind hp
    refine ⟨q, n, ?_⟩
    rw [List.append_assoc] at hn ⊢
    exact (hview _).trans hn
  obtain ⟨hsame, hobs⟩ := obstructed_of_place_cell hf.wellLinked hx' (hf.grows.slotAt_node hc) hk
    hvalid hfruit' herr
  exact ⟨hsame, hobs.congr hview⟩

section share

variable (hf : Filling t c x reg number tail k t') (hk : k < 4) {j : Nat} (hj : j < k)
  (hjk : t.slot (cell x reg j) = t.slot (cell x reg k)) (he : t.slot (cell x reg k) = .empty)
  {t'' : Trie} (hs : Shared t' c (cell x reg k) (cell x reg j) t'')

omit h hx hc

include hf hs

/-- What stood before still stands when an empty mode shares with an earlier one. -/
theorem extends_shared (hjk : t.slot (cell x reg j) = t.slot (cell x reg k))
    (he : t.slot (cell x reg k) = .empty) : Extends t t'' where
  size_le := by rw [hs.size_eq]; exact hf.grows.size_le
  kind_eq hy := by rw [hs.kind_eq, hf.grows.kind_eq hy]
  slot_eq {p} hp := by
    rw [hs.slot_eq, if_neg, hf.grows.slot_eq hp]
    rintro rfl
    exact hp he
  old {p y} hy hp := by
    rw [hs.slot_eq] at hp
    split at hp
    · -- What the other cell holds is new, for the cell was empty.
      have hold := hf.grows.old hy hp
      rw [hjk, he] at hold
      cases hold
    · exact hf.grows.old hy hp

include hc hk hj hjk he

/-- Sharing adds the route at the mode, as it has been added at the earlier one. -/
theorem view_shared (path : List Nat) (v : Content) :
    t''.view path = some v ↔ t.view path = some v ∨ ∃ m, m < 4 ∧ t.Done x reg (k + 1) m ∧
      ∃ r, path = c ++ ModRM.slot reg m :: r ∧ Route.wants number tail r = some v := by
  have hdone (m : Nat) : t.Done x reg (k + 1) m ↔ t.Done x reg k m ∨ m = k := by
    rw [done_succ_iff, he]
    simp
  rw [hs.view, hf.view, or_assoc]
  refine or_congr_right ?_
  constructor
  · rintro (⟨m, hm, hd, hr⟩ | ⟨r, rfl, hr⟩)
    · exact ⟨m, hm, (hdone m).mpr (.inl hd), hr⟩
    · rcases (hf.view _ _).mp hr with hr | ⟨m, -, -, r', hpath, hr⟩
      · rw [show (cell x reg j).slot = ModRM.slot reg j from rfl,
          view_cell_of_empty hc (hjk.trans he)] at hr
        cases hr
      · obtain ⟨-, rfl⟩ := append_cell_inj hpath
        exact ⟨k, hk, (hdone k).mpr (.inr rfl), r, rfl, hr⟩
  · rintro ⟨m, hm, hd, r, rfl, hr⟩
    rcases (hdone m).mp hd with hd | rfl
    · exact .inl ⟨m, hm, hd, r, rfl, hr⟩
    · exact .inr ⟨r, rfl, (hf.view _ _).mpr (.inr ⟨j, hj.trans hk, .inl hj, r, rfl, hr⟩)⟩

end share

/-- An empty mode behind an empty one is filled by sharing. -/
theorem share (hf : Filling t c x reg number tail k t') (hk : k < 4) {j : Nat} (hj : j < k)
    (hjk : t.slot (cell x reg j) = t.slot (cell x reg k)) (he : t.slot (cell x reg k) = .empty) :
    Filling t c x reg number tail (k + 1)
      (t'.set (cell x reg k) (t'.slot (cell x reg j))) := by
  have hx' : t'.kind x = .modrm := by rw [hf.grows.kind_eq (h.lt_size_of_slotAt hc), hx]
  have hs := shared_set (k := j) hf.wellLinked hx' (hf.grows.slotAt_node hc) hk
    (hf.later k (Nat.le_refl k) hk he)
  generalize t'.set (cell x reg k) (t'.slot (cell x reg j)) = t'' at hs ⊢
  have hkeep {q : Position} (hq : q ≠ cell x reg k) : t''.slot q = t'.slot q := by
    rw [hs.slot_eq, if_neg hq]
  -- The new mode holds what mode `j` holds, and so do all that were empty.
  have hnew {m : Nat} (hm : m < k + 1) (hem : t.slot (cell x reg m) = .empty) :
      t''.slot (cell x reg m) = t'.slot (cell x reg j) := by
    rcases Nat.lt_succ_iff_lt_or_eq.mp hm with hmk | rfl
    · rw [hkeep fun heq ↦ Nat.ne_of_lt hmk (cell_injective heq).2.2,
        hf.filled m j hmk hj hem (hjk.trans he)]
    · rw [hs.slot_eq, if_pos rfl]
  refine ⟨hs.wellLinked, hf.extends_shared hs hjk he, hf.view_shared hc hk hj hjk he hs, ?_, ?_,
    ?_, ?_⟩
  · intro m hkm hm hem
    rw [hkeep fun heq ↦ Nat.ne_of_gt hkm (cell_injective heq).2.2,
      hf.later m (Nat.le_of_succ_le hkm) hm hem]
  · intro i m hi hm hei hem
    rw [hnew hi hei, hnew hm hem]
  · intro q hq hne
    rw [hkeep (hne k hk), hf.frame q (by rw [← hs.kind_eq, hq]) hne]
  · intro m hm
    rcases Nat.lt_succ_iff_lt_or_eq.mp hm with hm | rfl
    · exact hf.free m hm
    · have hempty := view_cell_of_empty hc he []
      cases tail with
      | nil => exact hempty
      | cons s r => exact .inl hempty

omit h hx in
/-- A mode that shares its child with an earlier one is filled with it. -/
theorem same (hf : Filling t c x reg number tail k t') (hk : k < 4) {j : Nat} (hj : j < k)
    (hjk : t.slot (cell x reg j) = t.slot (cell x reg k)) (he : t.slot (cell x reg k) ≠ .empty) :
    Filling t c x reg number tail (k + 1)
      (t'.set (cell x reg k) (t'.slot (cell x reg j))) := by
  have hview := view_eq_of_cells hc hjk
  have hfree : Free t.view (c ++ [ModRM.slot reg k]) tail :=
    (hf.free j hj).translate fun q ↦ by simpa using hview q
  have hset : t'.set (cell x reg k) (t'.slot (cell x reg j)) = t' := by
    have hslot : t'.slot (cell x reg j) = t'.slot (cell x reg k) := by
      rw [hf.grows.slot_eq he, hf.grows.slot_eq (by rwa [hjk]), hjk]
    rw [hslot, set_slot_self]
  rw [hset]
  -- A leaf is no free place, so the two modes hold a node.
  obtain ⟨y, hy⟩ : ∃ y, t.slot (cell x reg k) = .node y := by
    cases hs : t.slot (cell x reg k) with
    | empty => exact absurd hs he
    | node y => exact ⟨y, rfl⟩
    | leaf n =>
      have hleaf : t.view (c ++ [ModRM.slot reg k]) = some (.leaf n) := by
        rw [Trie.view, slotAt_concat, hc]
        exact content_eq_leaf_iff.mpr hs
      cases tail with
      | nil => rw [show t.view (c ++ [ModRM.slot reg k]) = none from hfree] at hleaf; cases hleaf
      | cons s r => rcases hfree with hn | ⟨hn, -⟩ <;> rw [hn] at hleaf <;> cases hleaf
  have hdone (m : Nat) : t.Done x reg (k + 1) m ↔ t.Done x reg k m := by
    refine done_succ_iff.trans (or_iff_left_of_imp ?_)
    rintro (rfl | ⟨z, hkz, hmz⟩)
    · exact .inr ⟨j, y, hj, hjk.trans hy, hy⟩
    · exact .inr ⟨j, z, hj, hjk.trans hkz, hmz⟩
  refine ⟨hf.wellLinked, hf.grows, ?_, ?_, ?_, hf.frame, ?_⟩
  · intro path v
    rw [hf.view]
    simp only [hdone]
  · intro m hkm hm hem
    exact hf.later m (Nat.le_of_succ_le hkm) hm hem
  · intro i m hi hm hei hem
    rcases Nat.lt_succ_iff_lt_or_eq.mp hi with hi | rfl
    · rcases Nat.lt_succ_iff_lt_or_eq.mp hm with hm | rfl
      · exact hf.filled i m hi hm hei hem
      · exact absurd hem he
    · exact absurd hei he
  · intro m hm
    rcases Nat.lt_succ_iff_lt_or_eq.mp hm with hm | rfl
    · exact hf.free m hm
    · exact hfree

/-- Columns share as before when all modes of one are filled. -/
theorem sharing (hf : Filling t c x reg number tail 4 t') {P : Pins} (hP : t.Sharing P) :
    t'.Sharing (P.add c reg none) := by
  have hc' : t'.slotAt c = .node x := hf.grows.slotAt_node hc
  have hkept : CellsKept t t' fun path ↦ ∃ m, path = c ++ [ModRM.slot reg m] := by
    refine .of_extends h hf.grows fun q c' hq hc' hne ↦ hf.frame q hq ?_
    rintro m - rfl
    refine hne ⟨m, ?_⟩
    rw [hf.wellLinked.eq_of_slotAt_modrm hc' (hf.grows.slotAt_node hc) hq]
    rfl
  refine hP.of_column c reg hkept (fun _ he ↦ he) ?_ (fun _ _ _ ↦ .inl) ?_
  · rintro c' reg' m (hp | ⟨-, hm⟩)
    · exact .inl hp
    · cases hm
  · have hcol := (hP.column reg (by rw [Trie.view, hc, content_node, hx])).fill t' ?_ ?_ ?_ ?_
    · have hpins : P.add c reg none c reg = P c reg := by
        funext k
        simp [Pins.add]
      exact hpins ▸ hcol
    · intro k _ hp he
      exact hP.held hp (by rw [Trie.view]; exact content_eq_none_iff.mpr he)
    · intro k _ he
      rw [cellAt_eq_slot hc] at he
      rw [cellAt_eq_slot hc, cellAt_eq_slot hc', hf.grows.slot_eq he]
    · intro j k hj hk hej hek
      rw [cellAt_eq_slot hc] at hej hek
      rw [cellAt_eq_slot hc', cellAt_eq_slot hc', hf.filled j k hj hk hej hek]
    · intro j k y _ _ hej hy hky
      rw [cellAt_eq_slot hc] at hej hky
      rw [cellAt_eq_slot hc'] at hy
      rw [hf.grows.old (h.lt_size hky) hy] at hej
      cases hej

/-- When all modes are filled, the column is. -/
theorem columnFilled (hf : Filling t c x reg number tail 4 t') :
    ColumnFilled t c ⟨reg, none⟩ number tail t' := by
  have hmodes (m : Nat) : m ∈ Column.modes ⟨reg, none⟩ ↔ m < 4 := List.mem_range
  refine ⟨hf.wellLinked, fun path v ↦ ?_, fun m hm ↦ hf.free m ((hmodes m).mp hm),
    hf.sharing h hx hc⟩
  rw [hf.view]
  refine or_congr_right ?_
  constructor
  · rintro ⟨m, hm, -, hr⟩
    exact ⟨m, (hmodes m).mpr hm, hr⟩
  · rintro ⟨m, hm, hr⟩
    exact ⟨m, (hmodes m).mp hm, .inl ((hmodes m).mp hm), hr⟩

end Filling

end Trie

end DecodeTrie
