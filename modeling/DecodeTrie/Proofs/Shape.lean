import DecodeTrie.Proofs.Build.Clashes
import DecodeTrie.Proofs.Build.Histories
import DecodeTrie.Proofs.Table.Layouts
import DecodeTrie.Proofs.Trie.Walks

/-!
# The shape of a trie

Whatever insertions have been made, and whether they have succeeded or failed in the middle, the
trie has the shape that `Trie.WellShaped` states: no reference leaves it and no node is lost, the
tables on a path come in the order of the parts of an instruction, nodes are shared within one
register column only, and below every node but the root stands a number (`wellShaped_after`).

References are in order by the invariant of the single steps (`Trie.WellLinked`). The order of the
tables and the numbers below them come from what the build holds: a node stands on the route of a
claim, whose tables are those of a site (`Site.inOrder_stages`), and the claim has its number at the
end.

So a conflict with a table always finds a number below the table, and never has to name the number
of the encoding that is inserted in its place.
-/

namespace DecodeTrie

/-! ## The order of the tables on a path -/

/-- The order of the tables on a path: one to three opcode tables, and then at most one each of the
prefix, ModRM, r/m, REX.W and suffix tables. A suffix table stands behind two opcode tables only. -/
def NodeKind.InOrder (kinds : List NodeKind) : Prop :=
  ∃ n rest, kinds = List.replicate n .opcode ++ rest ∧ 1 ≤ n ∧ n ≤ 3 ∧
    rest.Sublist [.prefixes, .modrm, .rm, .rexW, .suffix] ∧ (.suffix ∈ rest → n = 2)

/-- The beginning of a path has its tables in order as well. -/
theorem NodeKind.InOrder.of_append {a b : List NodeKind} (h : InOrder (a ++ b)) (ha : a ≠ []) :
    InOrder a := by
  obtain ⟨n, rest, heq, hpos, hle, hsub, hsuffix⟩ := h
  rcases List.append_eq_append_iff.mp heq with ⟨c, hc, -⟩ | ⟨c, hc, hrest⟩
  · -- The beginning ends among the opcode tables.
    obtain ⟨hlen, ha', -⟩ := List.append_eq_replicate_iff.mp hc.symm
    refine ⟨a.length, [], by rw [List.append_nil]; exact ha', List.length_pos_iff.mpr ha, ?_,
      List.nil_sublist _, fun hs ↦ absurd hs List.not_mem_nil⟩
    omega
  · subst hrest
    exact ⟨n, c, hc, hpos, hle, (List.sublist_append_left c b).trans hsub,
      fun hs ↦ hsuffix (List.mem_append_left _ hs)⟩

/-- There are seven tables at most, and three of them at most are opcode tables. -/
theorem NodeKind.InOrder.length_le {kinds : List NodeKind} (h : InOrder kinds) :
    kinds.length ≤ 7 ∧ kinds.count .opcode ≤ 3 := by
  obtain ⟨n, rest, rfl, hpos, hle, hsub, hsuffix⟩ := h
  have hlen : rest.length ≤ 5 := hsub.length_le
  have hnone : rest.count .opcode = 0 := Nat.le_zero.mp (hsub.count_le .opcode)
  rw [List.length_append, List.length_replicate, List.count_append, List.count_replicate_self,
    hnone]
  refine ⟨?_, hle⟩
  -- Of all five kinds of tables the last one stands behind two opcode tables only.
  rcases Nat.lt_or_ge rest.length 5 with hlt | hge
  · omega
  · have hall := hsub.eq_of_length_le hge
    have htwo := hsuffix (by rw [hall]; decide)
    omega

theorem OpcodeForm.length_leading_le (f : OpcodeForm) : f.leading.length ≤ 2 := by
  cases f with
  | oneByte p x => cases x <;> simp [leading]
  | twoByte p x => cases x <;> simp [leading]
  | threeDNow b => simp [leading]

theorem OpcodeForm.length_leading_of_trailing {f : OpcodeForm} (h : f.trailing ≠ none) :
    f.leading.length = 1 := by
  cases f with
  | oneByte p x => exact absurd rfl h
  | twoByte p x => exact absurd rfl h
  | threeDNow b => rfl

namespace Site

theorem map_kind_stem (s : Site) : s.stem.map Step.kind =
    List.replicate s.opcode.length .opcode ++
      (s.prefixes.map fun _ ↦ NodeKind.prefixes).toList := by
  rw [stem, List.map_append, List.map_map]
  congr 1
  · exact List.map_const' ..
  · cases s.prefixes <;> rfl

theorem map_kind_tail (s : Site) : s.tail.map Step.kind =
    (s.rm.map fun _ ↦ NodeKind.rm).toList ++ (s.rexW.map fun _ ↦ NodeKind.rexW).toList ++
      (s.suffix.map fun _ ↦ NodeKind.suffix).toList := by
  rw [tail]
  cases s.rm <;> cases s.rexW <;> cases s.suffix <;> rfl

/-- The tables of a site of an encoding are in order. -/
theorem inOrder_stages {d : Descriptor} {flags : KeyFlags} {s : Site} (hs : s ∈ d.sites flags) :
    NodeKind.InOrder s.stages := by
  obtain ⟨ho, -, -, -, -, hx⟩ := Descriptor.mem_sites_iff.mp hs
  have hlen := OpcodeForm.length_of_mem_opcodes ho
  have hle := d.form.length_leading_le
  have hone {α : Type} (o : Option α) (k : NodeKind) : (o.map fun _ ↦ k).toList.Sublist [k] := by
    cases o with
    | none => exact List.nil_sublist _
    | some a => exact List.Sublist.refl _
  refine ⟨s.opcode.length, (s.prefixes.map fun _ ↦ NodeKind.prefixes).toList ++
    ((s.column.map fun _ ↦ NodeKind.modrm).toList ++ s.tail.map Step.kind), ?_, ?_, ?_, ?_, ?_⟩
  · rw [stages, map_kind_stem, List.append_assoc, List.append_assoc]
  · omega
  · omega
  · rw [map_kind_tail]
    exact (hone _ _).append ((hone _ _).append (((hone _ _).append (hone _ _)).append (hone _ _)))
  · intro hmem
    -- Only the 3DNow! form has an opcode byte after ModRM.
    have hsome : d.form.trailing ≠ none := by
      rw [← hx]
      intro hnone
      rw [map_kind_tail, hnone] at hmem
      cases s.prefixes <;> cases s.column <;> cases s.rm <;> cases s.rexW <;> simp at hmem
    rw [hlen, OpcodeForm.length_leading_of_trailing hsome]

end Site

/-! ## The tables on a path of a trie -/

namespace Trie

/-- The kinds of the nodes on a path that starts at what a slot refers to. -/
def kindsFrom (t : Trie) : Slot → List Nat → List NodeKind
  | .node x, [] => [t.kind x]
  | .node x, i :: path => t.kind x :: t.kindsFrom (t.slot ⟨x, i⟩) path
  | _, _ => []

/-- The kinds of the nodes on a path from the root. -/
def kindsAt (t : Trie) (path : List Nat) : List NodeKind := t.kindsFrom (.node root) path

theorem kindsFrom_node_ne_nil (t : Trie) (x : NodeId) (path : List Nat) :
    t.kindsFrom (.node x) path ≠ [] := by
  cases path <;> exact List.cons_ne_nil _ _

/-- A path that goes on to one more node has the kind of that node at its end. -/
theorem kindsFrom_concat {t : Trie} {s : Slot} {path : List Nat} {x y : NodeId} {i : Nat}
    (hx : t.slotFrom s path = .node x) (hy : t.slot ⟨x, i⟩ = .node y) :
    t.kindsFrom s (path ++ [i]) = t.kindsFrom s path ++ [t.kind y] := by
  induction path generalizing s with
  | nil =>
    rw [slotFrom_nil] at hx
    rw [List.nil_append, hx, kindsFrom, kindsFrom, hy, kindsFrom, List.singleton_append]
  | cons j path ih =>
    rw [slotFrom_cons] at hx
    cases s with
    | empty => rw [enter_empty, slotFrom_empty] at hx; cases hx
    | leaf n => rw [enter_leaf, slotFrom_empty] at hx; cases hx
    | node z =>
      rw [enter_node] at hx
      rw [List.cons_append, kindsFrom, kindsFrom, ih hx, List.cons_append]

/-- On a route that stands in a trie, the tables are those of the route. -/
theorem Stands.kindsFrom_prefix {t : Trie} {x : NodeId} {n : Nat} {r : List Step} {path : List Nat}
    {k : NodeKind} (h : t.Stands x n r) (hk : Route.wants n r path = some (.table k)) :
    t.kindsFrom (.node x) path <+: r.map Step.kind := by
  induction path generalizing x r with
  | nil =>
    cases r with
    | nil => exact absurd h not_stands_nil
    | cons s r =>
      rw [kindsFrom, ← (stands_cons_iff.mp h).1]
      exact ⟨r.map Step.kind, rfl⟩
  | cons i path ih =>
    cases r with
    | nil => exact absurd h not_stands_nil
    | cons s r =>
      obtain ⟨hkind, hrest⟩ := stands_cons_iff.mp h
      rw [Route.wants_cons_cons] at hk
      split at hk
      · next hi =>
        rcases hrest with ⟨rfl, -⟩ | ⟨y, hy, hr⟩
        · cases (Route.wants_nil_eq_some_iff.mp hk).2
        · rw [kindsFrom, hi, hy, ← hkind, List.map_cons, List.cons_prefix_cons]
          exact ⟨rfl, ih hr hk⟩
      · cases hk

/-- **The shape of a trie.** -/
structure WellShaped (t : Trie) : Prop where
  /-- References are to nodes of the trie. -/
  closed : ∀ p j, t.slot p = .node j → j < t.size
  /-- Every node is reached from the root. -/
  reached : ∀ j, j < t.size → ∃ path, t.slotAt path = .node j
  /-- The tables on a path from the root are in order. -/
  inOrder : ∀ path j, t.slotAt path = .node j → NodeKind.InOrder (t.kindsAt path)
  /-- No path leads from a node to itself. -/
  acyclic : ∀ j i path, t.slotFrom (.node j) (i :: path) ≠ .node j
  /-- A node that is referred to twice is referred to from modes of one register column only. -/
  shared : ∀ j p q, p ≠ q → t.slot p = .node j → t.slot q = .node j → ∃ x reg, t.kind x = .modrm ∧
    ∀ r, t.slot r = .node j → ∃ m < 4, r = cell x reg m
  /-- Below every node but the root stands a number, and the search for the first one finds it. -/
  fruitful : ∀ j, j < t.size → j ≠ root → ∃ m path, t.firstLeaf j = some m ∧
    t.slotFrom (.node j) path = .leaf m

namespace WellLinked

variable {t : Trie} (h : t.WellLinked)

include h

theorem not_circular (x : NodeId) (i : Nat) (path : List Nat) :
    t.slotFrom (.node x) (i :: path) ≠ .node x := by
  rcases Nat.lt_or_ge x t.size with hx | hx
  · obtain ⟨q, hq⟩ := h.reached hx
    exact (h.within_size hq).not_circular i path
  · rw [slotFrom_cons, enter_node, slot_of_size_le hx, slotFrom_empty]
    exact Slot.noConfusion

/-- Only modes of one register column share a node. -/
theorem exists_column_of_shared {j : NodeId} {p q : Position} (hpq : p ≠ q)
    (hp : t.slot p = .node j) (hq : t.slot q = .node j) :
    ∃ x reg, t.kind x = .modrm ∧ ∀ r, t.slot r = .node j → ∃ m < 4, r = cell x reg m := by
  obtain ⟨x, i⟩ := p
  obtain ⟨y, k⟩ := q
  obtain ⟨hxy, hsib⟩ := h.unique hp hq
  obtain rfl : x = y := hxy
  have hx : t.kind x = .modrm := (hsib.resolve_left fun hik ↦ hpq (by rw [show i = k from hik])).1
  refine ⟨x, ⟨i % 8, Nat.mod_lt _ (by decide)⟩, hx, fun r hr ↦ ?_⟩
  obtain ⟨z, l⟩ := r
  obtain ⟨hzx, hsib⟩ := h.unique hr hp
  obtain rfl : z = x := hzx
  have hl : l < 32 := by
    have hlt := (lt_of_slot_node hr).2
    rwa [show t.kind z = .modrm from hx] at hlt
  have hmod : l % 8 = i % 8 := by
    rcases hsib with hli | ⟨-, hli⟩
    · rw [show l = i from hli]
    · exact hli
  exact ⟨l / 8, by omega, eq_cell hmod⟩

end WellLinked

end Trie

/-! ## The shape of the trie of a build -/

namespace Build

open Trie (WellShaped)

section

variable {c : Catalog} {steering : Steering} {history : List Insertion} {b : Build}
  {held : List Holding} (h : Holds c b held)

include h

/-- A node stands on the route of a claim, so the tables on the way to it are in order. -/
theorem Holds.inOrder (hleft : ∀ a ∈ held, ∃ i ∈ history, i.Leaves c steering a) {path : List Nat}
    {x : NodeId} (hx : b.trie.slotAt path = .node x) : NodeKind.InOrder (b.trie.kindsAt path) := by
  have hview : b.trie.view path = some (.table (b.trie.kind x)) := by
    rw [Trie.view, hx, Trie.content_node]
  rcases (h.view _ _).mp hview with ⟨rfl, -⟩ | ⟨a, ha, hv⟩
  · refine ⟨1, [], ?_, Nat.le_refl _, by decide, List.nil_sublist _,
      fun hs ↦ absurd hs List.not_mem_nil⟩
    rw [Trie.kindsAt, Trie.kindsFrom, h.wellLinked.kind_root]
    rfl
  · have hstands : b.trie.Stands Trie.root a.number a.route :=
      fun path v hv ↦ h.agrees.view_of_wants ha hv
    obtain ⟨rest, hrest⟩ := hstands.kindsFrom_prefix hv
    obtain ⟨i, -, e, -, -, hr⟩ := exists_insertion_of_mem_claims hleft ha
    obtain ⟨s, hs, hrs⟩ := List.mem_flatMap.mp hr
    have hstages := Site.inOrder_stages hs
    rw [← Site.kinds_of_mem_routes hrs, ← hrest] at hstages
    exact hstages.of_append (Trie.kindsFrom_node_ne_nil _ _ _)

/-- Below every node but the root stands a number. -/
theorem Holds.exists_firstLeaf {x : NodeId} (hx : x < b.trie.size) (hroot : x ≠ Trie.root) :
    ∃ m path, b.trie.firstLeaf x = some m ∧ b.trie.slotFrom (.node x) path = .leaf m := by
  obtain ⟨path, hpath⟩ := h.wellLinked.reached hx
  cases path with
  | nil =>
    cases hpath
    exact absurd rfl hroot
  | cons i path =>
    have hview : b.trie.view (i :: path) = some (.table (b.trie.kind x)) := by
      rw [Trie.view, hpath, Trie.content_node]
    obtain ⟨m, q, hm, hq⟩ := h.wellLinked.exists_firstLeaf hpath (h.fruitful i path _ hview)
    rw [Trie.view, Trie.slotAt_append, hpath, Trie.content_eq_leaf_iff] at hq
    exact ⟨m, q, hm, hq⟩

theorem Holds.wellShaped (hleft : ∀ a ∈ held, ∃ i ∈ history, i.Leaves c steering a) :
    b.trie.WellShaped where
  closed _ _ hj := h.wellLinked.lt_size hj
  reached _ hj := h.wellLinked.reached hj
  inOrder _ _ hx := h.inOrder hleft hx
  acyclic := h.wellLinked.not_circular
  shared _ _ _ hpq hp hq := h.wellLinked.exists_column_of_shared hpq hp hq
  fruitful _ hx hroot := h.exists_firstLeaf hx hroot

end

/-- A conflict with a table names the first number below the table. -/
theorem exists_firstLeaf_of_conflict {c : Catalog} {steering : Steering} {i : Insertion}
    {b b' : Build} {held : List Holding} (h : Holds c b' held) {insn opcode otherInsn : String}
    {number other : Nat} {wanted : Shape} {k : NodeKind}
    (herr : insert c steering i.number i.descriptor b =
      .error (.opcodeConflict insn number opcode wanted (.table k) otherInsn other) b') :
    wanted ≠ .table k ∧ ∃ p x, b'.trie.slot p = .node x ∧ b'.trie.kind x = k ∧
      b'.trie.firstLeaf x = some other := by
  rw [insert] at herr
  split at herr
  · rcases seen_of_insertEncoding herr with ⟨_, _, heq⟩ | ⟨clash, heq, hseen⟩
    · cases heq
    · cases clash with
      | occupied m => cases heq
      | shape w f m =>
        cases heq
        obtain ⟨hne, p, x, hp, hx, hm⟩ := hseen
        refine ⟨hne, p, x, hp, hx, ?_⟩
        -- The table is not the root, so there is a number below it.
        obtain ⟨m, -, hfirst, -⟩ :=
          h.exists_firstLeaf (h.wellLinked.lt_size hp) (h.wellLinked.ne_root hp)
        rw [hfirst, Option.getD_some] at hm
        rw [hfirst, hm]
  · cases herr

end Build

/-- **Every trie is well shaped**, after any history of insertions, failing ones included. When an
insertion fails because there is a table where something else is wanted, the trie that it leaves
behind has such a table, and the error names the first number below it. -/
theorem wellShaped_after (steps : List CatalogStep) (options : Options)
    (history : List Insertion) :
    let c := Catalog.after steps
    let steering := c.steering options
    let b := Build.after c steering history
    b.trie.WellShaped ∧
      ∀ (i : Insertion) err after,
        Build.insert c steering i.number i.descriptor b = .error err after →
        ∀ insn number opcode wanted k otherInsn other,
          err = .opcodeConflict insn number opcode wanted (.table k) otherInsn other →
            wanted ≠ .table k ∧ ∃ p x, after.trie.slot p = .node x ∧ after.trie.kind x = k ∧
              after.trie.firstLeaf x = some other := by
  intro c steering b
  obtain ⟨held, hheld, hleft⟩ := Build.exists_holds c steering history
  refine ⟨hheld.wellShaped hleft, fun i err after herr insn number opcode wanted k otherInsn other
    heq ↦ ?_⟩
  subst heq
  obtain ⟨part, hafter, -, -⟩ := hheld.of_insert_error herr
  exact Build.exists_firstLeaf_of_conflict hafter herr

theorem wellShaped_after_takenMode :
    let c := Catalog.after takenMode
    let steering := c.steering {}
    let b := Build.after c steering [takeLastMode, takeEveryMode]
    let i : Insertion := ⟨0, .optional, .optional, .oneByte 0xd9 none, none, none⟩
    let err : CompileError :=
      .opcodeConflict "register" 0 "d9 /0 /mod_3" .leaf (.table .modrm) "any" 1
    ¬ Build.Accepts c steering [takeLastMode, takeEveryMode] ∧ b.trie.WellShaped ∧
      ∃ after, Build.insert c steering i.number i.descriptor b = .error err after ∧
        ∃ p x, after.trie.slot p = .node x ∧ after.trie.kind x = .modrm ∧
          after.trie.firstLeaf x = some 1 := by
  intro c steering b i err
  have hfails : ¬ Build.Accepts c steering [takeLastMode, takeEveryMode] := by decide +kernel
  have herr : (i.outcome c steering b).1 = .error err := by decide +kernel
  obtain ⟨hshaped, hconflict⟩ := wellShaped_after takenMode {} [takeLastMode, takeEveryMode]
  obtain ⟨after, hins⟩ :
      ∃ after, Build.insert c steering i.number i.descriptor b = .error err after := by
    rw [Insertion.outcome] at herr
    split at herr
    · cases herr
    · next hins => exact ⟨_, Except.error.inj herr ▸ hins⟩
  exact ⟨hfails, hshaped, after, hins, (hconflict i err after hins _ _ _ _ _ _ _ rfl).2⟩

end DecodeTrie
