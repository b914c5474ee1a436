import DecodeTrie.Proofs.Decoding
import DecodeTrie.Proofs.Emission
import DecodeTrie.Proofs.Shape
import DecodeTrie.Proofs.Table.Traces
import DecodeTrie.Proofs.Table.Visits

/-!
# Look-ups come to an end

In a compiled table every look-up ends, after seven tables at the latest, and never at a word that
stands for nothing (`trace_of_compile`). So a key is decoded to nothing only because a slot is empty
or because it lacks a byte that a table asks for.

The loop itself has no measure. The bound is that of the paths in a trie, whose tables are in order
(`NodeKind.InOrder`): a look-up goes from run to run as a walk goes from node to node
(`Trie.WrittenAs.step_refIn`), and where ModRM tables have been collapsed, a register table stands
in the place of a ModRM table (`NodeKind.expand`).
-/

namespace DecodeTrie

/-! ## The order of the tables, collapsed or not -/

namespace NodeKind

/-- The kind of table in whose place a table of this kind can stand: register tables are made of
ModRM tables only. -/
def expand : NodeKind → NodeKind
  | regOnly => modrm
  | k => k

theorem expand_of_ne {k : NodeKind} (h : k ≠ regOnly) : k.expand = k := by
  cases k with
  | regOnly => exact absurd rfl h
  | opcode => rfl
  | prefixes => rfl
  | modrm => rfl
  | rm => rfl
  | rexW => rfl
  | suffix => rfl

theorem expand_eq_opcode_iff {k : NodeKind} : k.expand = opcode ↔ k = opcode := by
  cases k <;> simp [expand]

theorem count_opcode_map_expand {α : Type} (kind : α → NodeKind) (l : List α) :
    (l.map fun x ↦ (kind x).expand).count opcode = (l.map kind).count opcode := by
  simp only [List.count, List.countP_map]
  refine List.countP_congr fun x _ ↦ ?_
  simp only [Function.comp_apply, beq_iff_eq, expand_eq_opcode_iff]

/-- No register table is in order. -/
theorem InOrder.not_mem_regOnly {kinds : List NodeKind} (h : InOrder kinds) : regOnly ∉ kinds := by
  obtain ⟨n, rest, rfl, -, -, hsub, -⟩ := h
  intro hmem
  rcases List.mem_append.mp hmem with hmem | hmem
  · cases List.eq_of_mem_replicate hmem
  · exact absurd (hsub.subset hmem) (by decide)

end NodeKind

namespace Trie

theorem expand_kind_collapseIf {t : Trie} {x : NodeId} (h : t.kind x ≠ .regOnly)
    (collapse : Bool) : ((t.collapseIf collapse).kind x).expand = t.kind x := by
  cases collapse with
  | false => exact NodeKind.expand_of_ne h
  | true =>
    rw [collapseIf, if_pos rfl, kind, node_collapse]
    by_cases hx : (t.node x).ignoresMode = true
    · rw [Node.collapse_of_ignoresMode hx]
      exact (Node.ignoresMode_iff.mp hx).1.symm
    · rw [Node.collapse_of_not_ignoresMode hx]
      exact NodeKind.expand_of_ne h

/-! ## The turns of a look-up -/

/-- A path from the root of a trie that is written out ends within the trie. -/
theorem WrittenAs.lt_size_of_slotAt {t : Trie} {order : List NodeId} {table : FlatTable}
    (h : t.WrittenAs order table) (hclosed : t.Closed) {path : List Nat} {x : NodeId}
    (hx : t.slotAt path = .node x) : x < t.size := by
  refine hclosed.slotFrom_lt (fun y hy ↦ ?_) hx
  cases hy
  exact h.mem_iff.mp (List.mem_of_getLast? h.root_last)

/-- **A turn of a look-up** at the run of a node: it is the end, and not at a word that stands for
nothing, or it goes on to the run of a node that the node refers to. -/
theorem WrittenAs.step_refIn {t : Trie} {order : List NodeId} {table : FlatTable}
    (h : t.WrittenAs order table) (hclosed : t.Closed) {x : NodeId} (hx : x < t.size)
    (hfit : ∀ i n, t.slot ⟨x, i⟩ = .leaf n → n < invalidWord.toNat) (k : Key) :
    (∃ e, table.step ⟨t.refIn order x, k⟩ = .inl e ∧ e ≠ .malformed) ∨
      ∃ i y k', t.slot ⟨x, i⟩ = .node y ∧
        table.step ⟨t.refIn order x, k⟩ = .inr ⟨t.refIn order y, k'⟩ := by
  rcases hchoose : k.choose (t.kind x) with _ | ⟨i, k'⟩
  · have hlacks : k.Lacks (t.kind x) := Key.choose_eq_none_iff.mp hchoose
    exact .inl ⟨.lacking, FlatTable.step_eq_inl_iff.mpr hlacks, FlatTable.Ending.noConfusion⟩
  · have hentry := h.entry_eq hclosed hx (Key.lt_slotCount_of_choose hchoose) (hfit i)
    rcases hs : t.slot ⟨x, i⟩ with _ | n | y <;> rw [hs] at hentry
    · exact .inl ⟨.empty, FlatTable.step_eq_inl_iff.mpr ⟨i, k', hchoose, hentry⟩,
        FlatTable.Ending.noConfusion⟩
    · exact .inl ⟨.found n, FlatTable.step_eq_inl_iff.mpr ⟨i, k', hchoose, hentry⟩,
        FlatTable.Ending.noConfusion⟩
    · exact .inr ⟨i, y, k', hs, FlatTable.step_eq_inr_iff.mpr ⟨i, hchoose, hentry⟩⟩

section

variable {t : Trie} (hshape : t.WellShaped) (hfit : t.NumbersFit) {collapse : Bool}
  {order : List NodeId} {table : FlatTable}
  (h : (t.collapseIf collapse).WrittenAs order table)

include hshape hfit h

/-- **The trace of a look-up** from the run of a node on. The kinds of its tables continue those of
a path to the node, and all of them are in order. -/
theorem exists_trace {bound : Nat} {x : NodeId} (hb : (t.collapseIf collapse).Within bound x)
    {path : List Nat} (hx : (t.collapseIf collapse).slotAt path = .node x) {kinds : List NodeKind}
    (hkinds : t.kindsAt path = kinds ++ [t.kind x]) (k : Key) :
    ∃ visits ending, table.Trace ⟨(t.collapseIf collapse).refIn order x, k⟩ visits ending ∧
      ending ≠ .malformed ∧
        NodeKind.InOrder (kinds ++ visits.map fun v ↦ v.table.kind.expand) := by
  -- The look-up goes as deep as the trie does below the node.
  induction bound generalizing x path kinds k with
  | zero => exact hb.elim
  | succ bound ih =>
    have hclosed : (t.collapseIf collapse).Closed :=
      Trie.Closed.collapseIf (fun {p j} hj ↦ hshape.closed p j hj) collapse
    have hx' : t.slotAt path = .node x := slotAt_of_slotAt_collapseIf hx Slot.noConfusion
    have horder : NodeKind.InOrder (kinds ++ [t.kind x]) := hkinds ▸ hshape.inOrder path x hx'
    have hkind : ((t.collapseIf collapse).kind x).expand = t.kind x := by
      refine expand_kind_collapseIf (fun hreg ↦ horder.not_mem_regOnly ?_) collapse
      rw [hreg]
      exact List.mem_append_right _ (List.mem_singleton.mpr rfl)
    have hfits (i n : Nat) (hn : (t.collapseIf collapse).slot ⟨x, i⟩ = .leaf n) :
        n < invalidWord.toNat := by
      have hpath : (t.collapseIf collapse).slotAt (path ++ [i]) = .leaf n := by
        rw [slotAt_concat, hx, enter_node, hn]
      exact hfit (path ++ [i]) n (slotAt_of_slotAt_collapseIf hpath Slot.noConfusion)
    rcases h.step_refIn hclosed (h.lt_size_of_slotAt hclosed hx) hfits k with
      ⟨e, hstep, he⟩ | ⟨i, y, k', hy, hstep⟩
    · refine ⟨_, e, .last hstep, he, ?_⟩
      rw [List.map_singleton, refIn, hkind]
      exact horder
    · have hy' : (t.collapseIf collapse).slotAt (path ++ [i]) = .node y := by
        rw [slotAt_concat, hx, enter_node, hy]
      have hkinds' : t.kindsAt (path ++ [i]) = (kinds ++ [t.kind x]) ++ [t.kind y] := by
        rw [kindsAt, kindsFrom_concat hx' (slot_of_slot_collapseIf hy Slot.noConfusion),
          ← kindsAt, hkinds]
      obtain ⟨visits, ending, htrace, hending, hinOrder⟩ := ih (hb i y hy) hy' hkinds' k'
      refine ⟨_, ending, .next hstep htrace, hending, ?_⟩
      rw [List.map_cons, refIn, hkind]
      rwa [List.append_assoc] at hinOrder

end

end Trie

/-! ## Compiled tables -/

/-- The trie behind a compiled table is one that a history of insertions has made. -/
theorem exists_history_of_compile {c : Catalog} {options : Options} {a : Artifacts}
    (h : compile c options = .ok a) :
    ∃ history, (Build.after c (c.steering options) history).trie.flatten options.collapseModRM =
      some a.table := by
  obtain ⟨ds, b, hrun, htable⟩ := run_of_compile h
  obtain ⟨-, hlist⟩ := Build.insertAll_ok hrun
  exact ⟨_, by rw [Build.after, Build.afterFrom_of_insertList hlist, htable]⟩

/-- **Every look-up in a flattened trie comes to an end**, and not at a word that stands for
nothing. The tables on its way are in order, with ModRM tables in the place of register tables. -/
theorem Build.Holds.exists_trace {c : Catalog} (hc : c.Numbered) {steering : Steering}
    {history : List Insertion} {b : Build} {held : List Holding} (h : Holds c b held)
    (hleft : ∀ a ∈ held, ∃ i ∈ history, i.Leaves c steering a) {collapse : Bool}
    {table : FlatTable} (hflat : b.trie.flatten collapse = some table) (k : Key) :
    ∃ visits ending, table.Trace ⟨table.root, k⟩ visits ending ∧ ending ≠ .malformed ∧
      NodeKind.InOrder (visits.map fun v ↦ v.table.kind.expand) := by
  obtain ⟨order, hwritten⟩ := h.wellLinked.exists_writtenAs hflat
  have hfit := h.numbersFit (fun x hx ↦ number_lt_of_mem_claims hc hleft hx) hc.size_le
  rw [hwritten.root_eq]
  exact Trie.exists_trace (h.wellShaped hleft) hfit hwritten
    (h.wellLinked.within_root.collapseIf collapse) (Trie.slotAt_nil _)
    (List.nil_append [b.trie.kind Trie.root]).symm k

namespace FlatTable.Trace

variable {t : FlatTable} {v w : Visit} {visits : List Visit} {ending : Ending}

/-- On a trace that does not end at a malformed word, every word that is chosen can be read. -/
theorem exists_entry (h : t.Trace v visits ending) (hending : ending ≠ .malformed)
    (hw : w ∈ visits) {i : Nat} {k : Key} (hchoose : w.choose = some (i, k)) :
    ∃ e, t.entry w.table i = some e := by
  cases hentry : t.entry w.table i with
  | some e => exact ⟨e, rfl⟩
  | none =>
    have hstep : t.step w = .inl .malformed := step_eq_inl_iff.mpr ⟨i, k, hchoose, hentry⟩
    exact absurd (h.eq_of_step hw hstep).symm hending

/-- A look-up that finds nothing has come to an empty slot, or lacked a byte. -/
theorem exists_last_of_lookup_eq_none {k : Key} (h : t.Trace ⟨t.root, k⟩ visits ending)
    (hending : ending ≠ .malformed) (hnone : t.lookup k = none) :
    ∃ w, visits.getLast? = some w ∧
      (w.Lacks ∨ ∃ i k', w.choose = some (i, k') ∧ t.entry w.table i = some .invalid) := by
  obtain ⟨w, hw, hstep⟩ := h.exists_getLast
  rw [step_eq_inl_iff] at hstep
  refine ⟨w, hw, ?_⟩
  cases ending with
  | found n => rw [h.lookup_eq] at hnone; cases hnone
  | empty => exact .inr hstep
  | lacking => exact .inl hstep
  | malformed => exact absurd rfl hending

end FlatTable.Trace

/-- **Every look-up in a compiled table comes to an end**, after seven tables at the latest, and by
then it has used three bytes of the opcode at most. At every table on its way the key chooses a slot
of the table, unless it lacks the byte to choose by, and the word in the slot can be read. So a
look-up finds nothing only because the last of these tables has an empty slot for the key, or asks
for a byte that the key lacks. -/
theorem trace_of_compile (steps : List CatalogStep) (options : Options) {a : Artifacts}
    (h : compile (Catalog.after steps) options = .ok a) (k : Key) :
    ∃ visits ending, a.table.Trace ⟨a.table.root, k⟩ visits ending ∧ visits.length ≤ 7 ∧
      (∀ bound ≥ 7, a.table.lookupWithin bound a.table.root k = a.table.lookup k) ∧
      (∀ n, a.table.lookup k = some n ↔ ending = .found n) ∧
      (∀ v ∈ visits, v.Lacks ∨ ∃ i k' used, v.choose = some (i, k') ∧
        i < v.table.kind.slotCount ∧ (∃ e, a.table.entry v.table i = some e) ∧
        k.opcode = used ++ k'.opcode ∧ used.length ≤ 3) ∧
      (a.table.lookup k = none → ∃ v, visits.getLast? = some v ∧
        (v.Lacks ∨ ∃ i k', v.choose = some (i, k') ∧ a.table.entry v.table i = some .invalid)) := by
  have hc : (Catalog.after steps).Numbered := Catalog.numbered_after steps
  obtain ⟨history, hflat⟩ := exists_history_of_compile h
  obtain ⟨held, hheld, hleft⟩ := Build.exists_holds _ _ history
  obtain ⟨visits, ending, htrace, hending, horder⟩ := hheld.exists_trace hc hleft hflat k
  obtain ⟨hlen, hcount⟩ := horder.length_le
  rw [List.length_map] at hlen
  rw [NodeKind.count_opcode_map_expand] at hcount
  refine ⟨visits, ending, htrace, hlen, fun bound hbound ↦ ?_, fun n ↦ ?_, fun v hv ↦ ?_,
    htrace.exists_last_of_lookup_eq_none hending⟩
  · rw [htrace.lookup_eq]
    exact htrace.lookupWithin_eq (hlen.trans hbound)
  · rw [htrace.lookup_eq, FlatTable.Ending.number?_eq_some_iff]
  · cases hchoose : v.choose with
    | none => exact .inl (Key.choose_eq_none_iff.mp hchoose)
    | some c =>
      obtain ⟨i, k'⟩ := c
      obtain ⟨used, hused, hle⟩ := htrace.exists_used hv hchoose
      exact .inr ⟨i, k', used, rfl, Key.lt_slotCount_of_choose hchoose,
        htrace.exists_entry hending hv hchoose, hused, hle.trans hcount⟩

/-- A catalog whose one encoding stands behind seven tables. -/
def sevenTables : List CatalogStep :=
  [.add { name := "movsxd", encodings :=
    [{ opcode := "66 0f 38 &00 /r /mod_3 /rm_1", tags := ["etag_like_movsxd"] }] }]

theorem trace_of_compile_sevenTables :
    let k : Key := ⟨[0x0f, 0x38, 0x00, 0x90], ⟨true, .none⟩, some 0xd1, true, none⟩
    ∃ a visits, compile (Catalog.after sevenTables) {} = .ok a ∧
      a.table.Trace ⟨a.table.root, k⟩ visits (.found 0) ∧ visits.length = 7 := by
  intro k
  have hk : (compile (Catalog.after sevenTables) {}).toOption.map (fun a ↦
      (a.table.lookup k, a.table.lookupWithin 6 a.table.root k)) = some (some 0, none) := by
    decide +kernel
  cases h : compile (Catalog.after sevenTables) {} with
  | error err => rw [h] at hk; cases hk
  | ok a =>
    rw [h] at hk
    obtain ⟨hlookup, hsix⟩ := Prod.mk.inj (Option.some.inj hk)
    obtain ⟨visits, ending, htrace, hlen, -, hfound, -⟩ := trace_of_compile sevenTables {} h k
    obtain rfl := (hfound 0).mp hlookup
    refine ⟨a, visits, rfl, htrace, Nat.le_antisymm hlen ?_⟩
    -- Six tables are not enough.
    by_contra hlt
    rw [htrace.lookupWithin_eq (Nat.le_of_lt_succ (Nat.lt_of_not_le hlt))] at hsix
    cases hsix

end DecodeTrie
