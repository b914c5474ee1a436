import DecodeTrie.Proofs.Trie.Cells

/-!
# Which modes share a child

The arena of a trie depends on the order of insertions, but what its register columns share does
not. A cell is *pinned* when an encoding has asked for its mode alone. The modes of a column that
are not pinned hold the same thing, and the child of a pinned cell is its own. `Sharing` states this
for all columns, as an invariant that every step of an insertion preserves: steps outside register
columns by `Sharing.of_kept`, the others by `ColumnShares.pin` and `ColumnShares.fill`.
-/

namespace DecodeTrie.Trie

/-- Which cells are pinned: the path to a ModRM table, a register and a mode. -/
abbrev Pins := List Nat → Fin 8 → Nat → Prop

/-- Pins together with those of one more column: the cell of the mode, if there is one. -/
def Pins.add (P : Pins) (c : List Nat) (reg : Fin 8) (mode : Option (Fin 4)) : Pins :=
  fun c' reg' m ↦ P c' reg' m ∨ (c' = c ∧ reg' = reg) ∧ mode.map Fin.val = some m

/-- What a cell holds, by the path to its ModRM table. -/
def cellAt (t : Trie) (c : List Nat) (reg : Fin 8) (m : Nat) : Slot :=
  t.slotAt (c ++ [ModRM.slot reg m])

theorem cellAt_eq_slot {t : Trie} {c : List Nat} {x : NodeId} (hc : t.slotAt c = .node x)
    (reg : Fin 8) (m : Nat) : t.cellAt c reg m = t.slot (cell x reg m) := by
  rw [cellAt, slotAt_concat, hc]
  rfl

/-- The pinned modes of a column have children of their own, and the others share. -/
structure ColumnShares (t : Trie) (c : List Nat) (reg : Fin 8) (pinned : Nat → Prop) : Prop where
  /-- Modes that are not pinned hold the same thing. -/
  alike : ∀ {j k : Nat}, j < 4 → k < 4 → ¬ pinned j → ¬ pinned k →
    t.cellAt c reg j = t.cellAt c reg k
  /-- The child of a pinned mode is its own. -/
  own : ∀ {j k : Nat} {y : NodeId}, j < 4 → k < 4 → pinned j → j ≠ k →
    t.cellAt c reg j = .node y → t.cellAt c reg k ≠ .node y

/-- **The sharing invariant.** -/
structure Sharing (t : Trie) (P : Pins) : Prop where
  /-- The columns of all ModRM tables share by the pins. -/
  column : ∀ {c : List Nat} (reg : Fin 8), t.view c = some (.table .modrm) →
    t.ColumnShares c reg (P c reg)
  /-- Something stands at a pinned cell. -/
  held : ∀ {c : List Nat} {reg : Fin 8} {m : Nat}, P c reg m →
    t.view (c ++ [ModRM.slot reg m]) ≠ none

theorem sharing_empty : empty.Sharing fun _ _ _ ↦ False where
  column {c} reg hc := by
    have hslot (p : Position) : empty.slot p = .empty := by
      by_contra hp
      have hlt : p.node < 1 := (lt_of_slot_ne_empty hp).1
      rw [slot, show p.node = 0 from Nat.lt_one_iff.mp hlt] at hp
      exact hp (Node.slot_new _ _)
    have hcell (m : Nat) : empty.cellAt c reg m = .empty := by
      rw [cellAt, slotAt_concat]
      cases empty.slotAt c with
      | node x => exact hslot _
      | empty => rfl
      | leaf n => rfl
    exact ⟨fun _ _ _ _ ↦ by rw [hcell, hcell], fun _ _ hp ↦ hp.elim⟩
  held hp := hp.elim

/-- Equivalent pins may stand for one another. -/
theorem Sharing.congr {t : Trie} {P Q : Pins} (h : t.Sharing P)
    (hPQ : ∀ c reg m, P c reg m ↔ Q c reg m) : t.Sharing Q := by
  obtain rfl : P = Q := by
    funext c reg m
    exact propext (hPQ c reg m)
  exact h

/-! ## Cells that a step keeps -/

/-- What stands somewhere stands there after a step, and the slots of ModRM tables are what they
were, except at some paths. -/
structure CellsKept (t t' : Trie) (E : List Nat → Prop) : Prop where
  /-- What stood somewhere stands there. -/
  mono : ∀ {path : List Nat} {v : Content}, t.view path = some v → t'.view path = some v
  /-- The slots of ModRM tables hold what they held. -/
  slotAt_eq : ∀ {c : List Nat} {i : Nat}, t'.view c = some (.table .modrm) → ¬ E (c ++ [i]) →
    t'.slotAt (c ++ [i]) = t.slotAt (c ++ [i])

namespace CellsKept

variable {t t' t'' : Trie} {E : List Nat → Prop}

/-- A ModRM table was there, or there was nothing. -/
theorem table_or_none (h : CellsKept t t' E) {c : List Nat}
    (hc : t'.view c = some (.table .modrm)) :
    t.view c = some (.table .modrm) ∨ t.view c = none := by
  cases hv : t.view c with
  | none => exact .inr rfl
  | some v => exact .inl (by rw [← hc, h.mono hv])

theorem trans (h : CellsKept t t' E) (h' : CellsKept t' t'' E) : CellsKept t t'' E where
  mono hv := h'.mono (h.mono hv)
  slotAt_eq {c i} hc hE := by
    rw [h'.slotAt_eq hc hE]
    rcases h'.table_or_none hc with hc' | hc'
    · exact h.slotAt_eq hc' hE
    · -- The table is new, so that nothing stood in its slots.
      have hnone : t.view c = none := by
        cases hv : t.view c with
        | none => rfl
        | some v => rw [h.mono hv] at hc'; cases hc'
      have hempty {u : Trie} (hu : u.view c = none) : u.slotAt (c ++ [i]) = .empty :=
        content_eq_none_iff.mp (view_append_of_none hu [i])
      rw [hempty hc', hempty hnone]

/-- Extending a trie keeps the slots of ModRM tables that are not written. -/
theorem of_extends (h : t.WellLinked) (hg : Extends t t')
    (hE : ∀ q c, t'.kind q.node = .modrm → t'.slotAt c = .node q.node → ¬ E (c ++ [q.slot]) →
      t'.slot q = t.slot q) : CellsKept t t' E where
  mono hv := hg.view_eq h hv
  slotAt_eq {c i} hc hEc := by
    obtain ⟨x, hx, hk⟩ := content_eq_table_iff.mp hc
    have hslot := hE ⟨x, i⟩ c hk hx hEc
    rw [slotAt_concat, slotAt_concat, hx, enter_node, hslot]
    rcases Nat.lt_or_ge x t.size with hlt | hge
    · rw [hg.slotAt_old hlt hx, enter_node]
    · -- Nothing stood at the path of a new table.
      have hempty : t.slotAt c = .empty := by
        by_contra hne
        have hold := hg.slotAt_eq hne
        rw [hx] at hold
        exact absurd (h.lt_size_of_slotAt hold.symm) (Nat.not_lt_of_le hge)
      rw [hempty, enter_empty, slot_of_size_le hge]

/-- Giving a cell a child of its own keeps the slots of ModRM tables, but for the cell. -/
theorem of_detached (h : t.WellLinked) {x : NodeId} {c : List Nat} {p : Position}
    (hx : t.kind x = .modrm) (hc : t.slotAt c = .node x)
    (hd : Detached t c p t') : CellsKept t t' (· = c ++ [p.slot]) where
  mono hv := by rw [hd.view, hv]
  slotAt_eq {c' i} hc' hE := by
    refine hd.slotAt_eq _ fun r hr ↦ ?_
    -- A path behind the cell ends at no ModRM table.
    cases r using List.reverseRecOn with
    | nil => exact hE hr
    | append_singleton r j =>
      rw [← List.cons_append, ← List.append_assoc] at hr
      obtain ⟨rfl, -⟩ := List.append_inj' hr rfl
      rw [hd.view] at hc'
      obtain ⟨y, hy, hk⟩ := content_eq_table_iff.mp hc'
      rw [slotAt_append, hc] at hy
      have := h.code_lt_of_slotFrom (by rw [hx]; decide) hy
      rw [hk, hx] at this
      exact Nat.lt_irrefl _ this

end CellsKept

/-! ## Columns of which no cell is written -/

theorem ColumnShares.of_kept {t t' : Trie} {E : List Nat → Prop} {c : List Nat} {reg : Fin 8}
    {pinned : Nat → Prop} (hk : CellsKept t t' E) (hc : t'.view c = some (.table .modrm))
    (hE : ∀ m, m < 4 → ¬ E (c ++ [ModRM.slot reg m]))
    (h : t.view c = some (.table .modrm) → t.ColumnShares c reg pinned) :
    t'.ColumnShares c reg pinned := by
  have hcell {m : Nat} (hm : m < 4) : t'.cellAt c reg m = t.cellAt c reg m :=
    hk.slotAt_eq hc (hE m hm)
  rcases hk.table_or_none hc with hc | hc
  · refine ⟨fun hj hk' hpj hpk ↦ ?_, fun hj hk' hpj hjk ↦ ?_⟩
    · rw [hcell hj, hcell hk', (h hc).alike hj hk' hpj hpk]
    · rw [hcell hj, hcell hk']
      exact (h hc).own hj hk' hpj hjk
  · have hempty (m : Nat) : t.cellAt c reg m = .empty :=
      content_eq_none_iff.mp (view_append_of_none hc [_])
    refine ⟨fun hj hk' _ _ ↦ by rw [hcell hj, hcell hk', hempty, hempty], fun hj _ _ _ hy ↦ ?_⟩
    rw [hcell hj, hempty] at hy
    cases hy

/-- A step that writes no cell preserves the invariant. -/
theorem Sharing.of_kept {t t' : Trie} {P : Pins} (h : t.Sharing P)
    (hk : CellsKept t t' fun _ ↦ False) : t'.Sharing P where
  column reg hc := .of_kept hk hc (fun _ _ ↦ id) (h.column reg)
  held {c reg m} hp := by
    cases hv : t.view (c ++ [ModRM.slot reg m]) with
    | none => exact absurd hv (h.held hp)
    | some v => rw [hk.mono hv]; exact Option.some_ne_none v

/-! ## Columns with written cells -/

namespace ColumnShares

variable {t : Trie} {c : List Nat} {reg : Fin 8} {pinned : Nat → Prop}

/-- Writing to a cell that has a child of its own pins the cell. -/
theorem pin (h : t.ColumnShares c reg pinned) (t' : Trie) (m : Nat)
    (hother : ∀ k, k < 4 → k ≠ m → t'.cellAt c reg k = t.cellAt c reg k)
    (hown : ∀ k y, k < 4 → k ≠ m → t'.cellAt c reg m = .node y → t'.cellAt c reg k ≠ .node y) :
    t'.ColumnShares c reg fun k ↦ pinned k ∨ k = m where
  alike {j k} hj hk hpj hpk := by
    obtain ⟨hpj, hjm⟩ := not_or.mp hpj
    obtain ⟨hpk, hkm⟩ := not_or.mp hpk
    rw [hother j hj hjm, hother k hk hkm, h.alike hj hk hpj hpk]
  own {j k y} hj hk hpj hjk hy := by
    by_cases hjm : j = m
    · subst hjm
      exact hown k y hk (Ne.symm hjk) hy
    · by_cases hkm : k = m
      · subst hkm
        intro hy'
        exact hown j y hj hjm hy' hy
      · rw [hother j hj hjm] at hy
        rw [hother k hk hkm]
        exact h.own hj hk (hpj.resolve_right hjm) hjk hy

/-- Filling the empty cells of a column with the same thing pins nothing. -/
theorem fill (h : t.ColumnShares c reg pinned) (t' : Trie)
    (hheld : ∀ k, k < 4 → pinned k → t.cellAt c reg k ≠ .empty)
    (hkept : ∀ k, k < 4 → t.cellAt c reg k ≠ .empty → t'.cellAt c reg k = t.cellAt c reg k)
    (hfilled : ∀ j k, j < 4 → k < 4 → t.cellAt c reg j = .empty → t.cellAt c reg k = .empty →
      t'.cellAt c reg j = t'.cellAt c reg k)
    (hfresh : ∀ j k y, j < 4 → k < 4 → t.cellAt c reg j = .empty → t'.cellAt c reg j = .node y →
      t.cellAt c reg k ≠ .node y) : t'.ColumnShares c reg pinned where
  alike {j k} hj hk hpj hpk := by
    have hjk := h.alike hj hk hpj hpk
    by_cases he : t.cellAt c reg j = .empty
    · exact hfilled j k hj hk he (hjk ▸ he)
    · rw [hkept j hj he, hkept k hk (hjk ▸ he), hjk]
  own {j k y} hj hk hpj hjk hy := by
    rw [hkept j hj (hheld j hj hpj)] at hy
    by_cases he : t.cellAt c reg k = .empty
    · intro hy'
      exact hfresh k j y hk hj he hy' hy
    · rw [hkept k hk he]
      exact h.own hj hk hpj hjk hy

end ColumnShares

/-- A step that writes to cells of one column only preserves the invariant if it does so for this
column. -/
theorem Sharing.of_column {t t' : Trie} {P Q : Pins} (h : t.Sharing P) (c : List Nat) (reg : Fin 8)
    {E : List Nat → Prop} (hk : CellsKept t t' E)
    (hE : ∀ path, E path → ∃ m, path = c ++ [ModRM.slot reg m])
    (hP : ∀ c' reg' m, Q c' reg' m → P c' reg' m ∨
      (c' = c ∧ reg' = reg) ∧ t'.view (c' ++ [ModRM.slot reg' m]) ≠ none)
    (hQ : ∀ c' reg' m, P c' reg' m → Q c' reg' m)
    (hcol : t'.ColumnShares c reg (Q c reg)) : t'.Sharing Q where
  column {c'} reg' hc' := by
    by_cases hsame : c' = c ∧ reg' = reg
    · obtain ⟨rfl, rfl⟩ := hsame
      exact hcol
    · have hpins : Q c' reg' = P c' reg' := by
        funext m
        exact propext ⟨fun hq ↦ (hP c' reg' m hq).resolve_right fun hs ↦ hsame hs.1, hQ c' reg' m⟩
      rw [hpins]
      refine .of_kept hk hc' (fun m _ hEm ↦ hsame ?_) (h.column reg')
      obtain ⟨m', hm'⟩ := hE _ hEm
      obtain ⟨rfl, hs⟩ := List.append_inj' hm' rfl
      exact ⟨rfl, (modrm_slot_inj (List.singleton_inj.mp hs)).1⟩
  held {c' reg' m} hq := by
    rcases hP c' reg' m hq with hp | ⟨-, hv⟩
    · cases hv : t.view (c' ++ [ModRM.slot reg' m]) with
      | none => exact absurd hv (h.held hp)
      | some v => rw [hk.mono hv]; exact Option.some_ne_none v
    · exact hv

end DecodeTrie.Trie
