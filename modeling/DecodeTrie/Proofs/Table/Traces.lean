import DecodeTrie.Table.Lookup
import Mathlib.Data.List.Infix
import Mathlib.Data.List.Perm.Subperm
import Mathlib.Data.List.ProdSigma

/-!
# Traces of look-ups

A look-up is a loop over tables: at each one the key chooses a slot, and the word in the slot ends
the loop or names the next table (`FlatTable.step`). `FlatTable.Trace` is this loop without a bound,
with the tables that it visits and the way in which it ends. Among words that were read back the
loop can run in circles; then there is no trace.

A visit decides everything behind it. So no visit is made twice on a trace (`Trace.nodup`), and
since a visit is one of finitely many pairs of a table and a rest of the opcode, the bound of
`lookup` is never in the way: a look-up gives what the loop gives (`Trace.lookup_eq`), and it gives
a number only if the loop does (`lookup_eq_some_iff`).
-/

namespace DecodeTrie

/-! ## What a choice leaves of a key -/

namespace Key

/-- The key lacks the byte that a table dispatches on. -/
def Lacks (k : Key) : NodeKind → Prop
  | .opcode => k.opcode = []
  | .prefixes => False
  | .modrm => k.modrm = none
  | .regOnly => k.modrm = none
  | .rm => k.modrm = none
  | .rexW => False
  | .suffix => k.suffix = none

/-- A key chooses no slot only if it lacks the byte to choose by. -/
theorem choose_eq_none_iff {k : Key} {kind : NodeKind} : k.choose kind = none ↔ k.Lacks kind := by
  cases kind with
  | opcode =>
    rw [choose, Lacks]
    cases k.opcode <;> simp
  | prefixes => simp [choose, Lacks]
  | modrm => simp [choose, Lacks]
  | regOnly => simp [choose, Lacks]
  | rm => simp [choose, Lacks]
  | rexW => simp [choose, Lacks]
  | suffix => simp [choose, Lacks]

/-- A choice takes one byte off the opcode in an opcode table, and nothing in any other. -/
theorem exists_used_of_choose {k k' : Key} {kind : NodeKind} {i : Nat}
    (h : k.choose kind = some (i, k')) :
    ∃ used, k.opcode = used ++ k'.opcode ∧ used.length = [kind].count .opcode ∧
      k' = { k with opcode := k'.opcode } := by
  by_cases hkind : kind = .opcode
  · subst hkind
    rw [choose] at h
    cases hk : k.opcode with
    | nil => rw [hk] at h; cases h
    | cons b rest => rw [hk] at h; cases h; exact ⟨[b], rfl, rfl, rfl⟩
  · obtain rfl := eq_of_choose hkind h
    exact ⟨[], rfl, by rw [List.count_singleton, if_neg (by simpa using hkind)]; rfl, rfl⟩

end Key

namespace FlatTable

/-! ## Visits -/

/-- A table that a look-up visits, with what is left of the key there. -/
structure Visit where
  /-- The table. -/
  table : TableRef
  /-- The key, without the opcode bytes that have been used. -/
  key : Key
deriving DecidableEq, Repr

/-- The slot that the key chooses, and the key that goes on from there. -/
def Visit.choose (v : Visit) : Option (Nat × Key) := v.key.choose v.table.kind

/-- The key lacks the byte that the table dispatches on. -/
def Visit.Lacks (v : Visit) : Prop := v.key.Lacks v.table.kind

/-- How a look-up ends. -/
inductive Ending
  /-- The slot holds an encoding number. -/
  | found (number : Nat)
  /-- The slot stands for no encoding. -/
  | empty
  /-- The key lacks the byte that the table dispatches on. -/
  | lacking
  /-- The slot is outside the table or the words, or its word stands for nothing. -/
  | malformed
deriving DecidableEq, Repr

/-- What a look-up gives that ends in this way. -/
def Ending.number? : Ending → Option Nat
  | found n => some n
  | _ => none

theorem Ending.number?_eq_some_iff {e : Ending} {n : Nat} : e.number? = some n ↔ e = found n := by
  cases e <;> simp [number?]

variable {t : FlatTable} {v w : Visit} {vs : List Visit} {e : Ending}

/-- One turn of a look-up: it ends, or goes on to another table. -/
def step (t : FlatTable) (v : Visit) : Ending ⊕ Visit :=
  match v.choose with
  | none => .inl .lacking
  | some (i, k) =>
    match t.entry v.table i with
    | none => .inl .malformed
    | some .invalid => .inl .empty
    | some (.encoding n) => .inl (.found n)
    | some (.table r) => .inr ⟨r, k⟩

/-- What there is at a visit with which a look-up ends. -/
def EndsAt (t : FlatTable) (v : Visit) : Ending → Prop
  | .found n => ∃ i k, v.choose = some (i, k) ∧ t.entry v.table i = some (.encoding n)
  | .empty => ∃ i k, v.choose = some (i, k) ∧ t.entry v.table i = some .invalid
  | .lacking => v.Lacks
  | .malformed => ∃ i k, v.choose = some (i, k) ∧ t.entry v.table i = none

theorem step_eq_inl_iff : t.step v = .inl e ↔ t.EndsAt v e := by
  rw [step]
  cases hchoose : v.choose with
  | none =>
    have hlacks : v.Lacks := Key.choose_eq_none_iff.mp hchoose
    cases e <;> simp [EndsAt, hchoose, hlacks]
  | some c =>
    obtain ⟨i, k⟩ := c
    have hlacks : ¬ v.Lacks := by
      intro h
      rw [Visit.choose, Key.choose_eq_none_iff.mpr h] at hchoose
      cases hchoose
    rcases h : t.entry v.table i with _ | _ | _ | _ <;> cases e <;>
      simp [EndsAt, hchoose, hlacks, h]

theorem step_eq_inr_iff : t.step v = .inr w ↔
    ∃ i, v.choose = some (i, w.key) ∧ t.entry v.table i = some (.table w.table) := by
  rw [step]
  cases v.choose with
  | none => simp
  | some c =>
    obtain ⟨i, k⟩ := c
    obtain ⟨r, k'⟩ := w
    rcases h : t.entry v.table i with _ | _ | _ | _ <;> simp [h, and_comm, eq_comm]

/-- One turn of the bounded loop. -/
theorem lookupWithin_succ (t : FlatTable) (bound : Nat) (v : Visit) :
    t.lookupWithin (bound + 1) v.table v.key =
      match t.step v with
      | .inl e => e.number?
      | .inr w => t.lookupWithin bound w.table w.key := by
  rw [lookupWithin, step, Visit.choose]
  cases v.key.choose v.table.kind with
  | none => rfl
  | some c => rcases h : t.entry v.table c.1 with _ | _ | _ | _ <;> simp [h, Ending.number?]

/-! ## Traces -/

/-- **The loop of a look-up**, from one visit on: all visits, in their order, and how it ends. -/
inductive Trace (t : FlatTable) : Visit → List Visit → Ending → Prop
  /-- The look-up ends here. -/
  | last {v : Visit} {e : Ending} (h : t.step v = .inl e) : Trace t v [v] e
  /-- The look-up goes on. -/
  | next {v w : Visit} {vs : List Visit} {e : Ending} (h : t.step v = .inr w)
    (hrest : Trace t w vs e) : Trace t v (v :: vs) e

namespace Trace

/-- A trace starts at its visit. -/
theorem exists_eq_cons (h : t.Trace v vs e) : ∃ rest, vs = v :: rest := by
  cases h with
  | last h => exact ⟨[], rfl⟩
  | next h hrest => exact ⟨_, rfl⟩

/-- **A visit has one trace.** -/
theorem unique {vs' : List Visit} {e' : Ending} (h : t.Trace v vs e) (h' : t.Trace v vs' e') :
    vs = vs' ∧ e = e' := by
  induction h generalizing vs' with
  | last h =>
    cases h' with
    | last h' => rw [h] at h'; cases h'; exact ⟨rfl, rfl⟩
    | next h' hrest' => rw [h] at h'; cases h'
  | next h hrest ih =>
    cases h' with
    | last h' => rw [h] at h'; cases h'
    | next h' hrest' =>
      rw [h] at h'
      cases h'
      obtain ⟨rfl, rfl⟩ := ih hrest'
      exact ⟨rfl, rfl⟩

/-- The trace of a visit on a trace is the rest of it. -/
theorem of_append {us ws : List Visit} (h : t.Trace v (us ++ w :: ws) e) :
    t.Trace w (w :: ws) e := by
  induction us generalizing v with
  | nil =>
    obtain ⟨rest, hrest⟩ := h.exists_eq_cons
    obtain ⟨rfl, -⟩ := List.cons.inj hrest
    exact h
  | cons u us ih =>
    rw [List.cons_append] at h
    generalize hrest : us ++ w :: ws = rest at h
    cases h with
    | last h => exact absurd hrest (by simp)
    | next h hrest' => exact ih (hrest ▸ hrest')

/-- **No visit is made twice**, because the look-up would go round for ever. -/
theorem nodup (h : t.Trace v vs e) : vs.Nodup := by
  induction h with
  | last h => exact List.pairwise_singleton _ _
  | @next v w vs e h hrest ih =>
    refine List.nodup_cons.mpr ⟨fun hmem ↦ ?_, ih⟩
    obtain ⟨us, ws, rfl⟩ := List.append_of_mem hmem
    have heq := (hrest.of_append.unique (.next h hrest)).1
    have hlen := congrArg List.length heq
    rw [List.length_cons, List.length_cons, List.length_append, List.length_cons] at hlen
    omega

/-- What the bounded loop gives, when its bound covers the visits. -/
theorem lookupWithin_eq (h : t.Trace v vs e) {bound : Nat} (hb : vs.length ≤ bound) :
    t.lookupWithin bound v.table v.key = e.number? := by
  induction h generalizing bound with
  | last h =>
    obtain ⟨bound, rfl⟩ := Nat.exists_eq_add_of_le' hb
    rw [List.length_singleton, lookupWithin_succ, h]
  | next h hrest ih =>
    rw [List.length_cons] at hb
    obtain ⟨bound, rfl⟩ := Nat.exists_eq_add_of_le' (Nat.le_of_add_left_le hb)
    rw [lookupWithin_succ, h]
    exact ih (Nat.le_of_add_le_add_right hb)

/-- The last visit shows how the look-up ends. -/
theorem exists_getLast (h : t.Trace v vs e) :
    ∃ w, vs.getLast? = some w ∧ t.step w = .inl e := by
  induction h with
  | last h => exact ⟨_, rfl, h⟩
  | next h hrest ih =>
    obtain ⟨rest, rfl⟩ := hrest.exists_eq_cons
    obtain ⟨u, hu, hstep⟩ := ih
    exact ⟨u, by rw [List.getLast?_cons_cons, hu], hstep⟩

/-- Only the last visit can end the look-up. -/
theorem eq_of_step (h : t.Trace v vs e) (hw : w ∈ vs) {e' : Ending} (hstep : t.step w = .inl e') :
    e' = e := by
  obtain ⟨us, ws, rfl⟩ := List.append_of_mem hw
  exact ((Trace.last hstep).unique h.of_append).2

/-- The opcode bytes that have been used at a choice are as many as opcode tables have been
visited. -/
theorem exists_used (h : t.Trace v vs e) {i : Nat} {k : Key} (hw : w ∈ vs)
    (hchoose : w.choose = some (i, k)) :
    ∃ used, v.key.opcode = used ++ k.opcode ∧
      used.length ≤ (vs.map fun u ↦ u.table.kind).count .opcode := by
  induction h with
  | last h =>
    rw [List.mem_singleton] at hw
    subst hw
    obtain ⟨used, hused, hlen, -⟩ := Key.exists_used_of_choose hchoose
    exact ⟨used, hused, Nat.le_of_eq hlen⟩
  | @next v u vs e h hrest ih =>
    have hcount : ((v :: vs).map fun u ↦ u.table.kind).count .opcode =
        [v.table.kind].count .opcode + (vs.map fun u ↦ u.table.kind).count .opcode := by
      rw [List.map_cons, ← List.singleton_append, List.count_append]
    rw [hcount]
    rcases List.mem_cons.mp hw with rfl | hw
    · obtain ⟨used, hused, hlen, -⟩ := Key.exists_used_of_choose hchoose
      exact ⟨used, hused, hlen ▸ Nat.le_add_right _ _⟩
    · obtain ⟨j, hstep, -⟩ := step_eq_inr_iff.mp h
      obtain ⟨first, hfirst, hlen, -⟩ := Key.exists_used_of_choose hstep
      obtain ⟨used, hused, hle⟩ := ih hw
      refine ⟨first ++ used, by rw [hfirst, hused, List.append_assoc], ?_⟩
      rw [List.length_append, hlen]
      exact Nat.add_le_add_left hle _

end Trace

/-! ## The bound -/

/-- The tables that words refer to. -/
def refs (t : FlatTable) : List TableRef :=
  t.body.toList.filterMap fun w ↦
    match Entry.unpack w with
    | some (.table r) => some r
    | _ => none

theorem mem_refs_of_entry {r r' : TableRef} {i : Nat} (h : t.entry r i = some (.table r')) :
    r' ∈ t.refs := by
  rw [entry] at h
  split at h
  · obtain ⟨w, hw, hunpack⟩ := Option.bind_eq_some_iff.mp h
    refine List.mem_filterMap.mpr ⟨w, ?_, by rw [hunpack]⟩
    exact Array.mem_toList_iff.mpr (Array.mem_of_getElem? hw)
  · cases h

/-- The visits that can be made: a table, and an end of the opcode. -/
def possibleVisits (t : FlatTable) (k : Key) : List Visit :=
  ((t.root :: t.refs) ×ˢ k.opcode.tails).map fun p ↦ ⟨p.1, { k with opcode := p.2 }⟩

theorem length_possibleVisits (t : FlatTable) (k : Key) :
    (t.possibleVisits k).length ≤ (t.body.size + 1) * (k.opcode.length + 1) := by
  rw [possibleVisits, List.length_map, List.length_product, List.length_tails, List.length_cons]
  refine Nat.mul_le_mul_right _ (Nat.succ_le_succ ?_)
  exact (List.length_filterMap_le _ _).trans (Nat.le_of_eq t.body.length_toList)

/-- A visit that can be made leads to visits that can be made. -/
theorem Trace.subset_possibleVisits {k : Key} (h : t.Trace v vs e) (hv : v ∈ t.possibleVisits k) :
    vs ⊆ t.possibleVisits k := by
  induction h with
  | last h => exact List.cons_subset.mpr ⟨hv, List.nil_subset _⟩
  | @next v w vs e h hrest ih =>
    refine List.cons_subset.mpr ⟨hv, ih ?_⟩
    obtain ⟨i, hchoose, hentry⟩ := step_eq_inr_iff.mp h
    obtain ⟨⟨r, o⟩, hp, rfl⟩ := List.mem_map.mp hv
    obtain ⟨used, hused, -, hkey⟩ := Key.exists_used_of_choose hchoose
    have ho : o <:+ k.opcode := (List.mem_tails _ _).mp (List.pair_mem_product.mp hp).2
    refine List.mem_map.mpr ⟨(w.table, w.key.opcode), List.pair_mem_product.mpr ⟨?_, ?_⟩, ?_⟩
    · exact List.mem_cons_of_mem _ (mem_refs_of_entry hentry)
    · exact (List.mem_tails _ _).mpr (List.IsSuffix.trans ⟨used, hused.symm⟩ ho)
    · obtain ⟨r', k'⟩ := w
      rw [Visit.mk.injEq]
      exact ⟨rfl, hkey.symm⟩

/-- **The bound of a look-up** exceeds the number of visits, if they come to an end. -/
theorem Trace.length_lt_visitBound {k : Key} (h : t.Trace ⟨t.root, k⟩ vs e) :
    vs.length < t.visitBound k := by
  have hroot : ⟨t.root, k⟩ ∈ t.possibleVisits k :=
    List.mem_map.mpr ⟨(t.root, k.opcode), List.pair_mem_product.mpr ⟨List.mem_cons_self,
      (List.mem_tails _ _).mpr List.suffix_rfl⟩, rfl⟩
  have hle := (List.subperm_of_subset h.nodup (h.subset_possibleVisits hroot)).length_le
  exact Nat.lt_succ_of_le (hle.trans (t.length_possibleVisits k))

/-- **A look-up gives what its loop gives.** -/
theorem Trace.lookup_eq {k : Key} (h : t.Trace ⟨t.root, k⟩ vs e) : t.lookup k = e.number? :=
  h.lookupWithin_eq (Nat.le_of_lt h.length_lt_visitBound)

/-- The bounded loop gives a number only if the loop ends with it. -/
theorem exists_trace_of_lookupWithin {bound n : Nat}
    (h : t.lookupWithin bound v.table v.key = some n) : ∃ vs, t.Trace v vs (.found n) := by
  induction bound generalizing v with
  | zero => cases h
  | succ bound ih =>
    rw [lookupWithin_succ] at h
    cases hstep : t.step v with
    | inl e =>
      rw [hstep] at h
      rw [Ending.number?_eq_some_iff.mp h] at hstep
      exact ⟨[v], .last hstep⟩
    | inr w =>
      rw [hstep] at h
      obtain ⟨vs, hvs⟩ := ih h
      exact ⟨v :: vs, .next hstep hvs⟩

/-- **A look-up gives a number** exactly if its loop ends with that number. -/
theorem lookup_eq_some_iff {k : Key} {n : Nat} :
    t.lookup k = some n ↔ ∃ vs, t.Trace ⟨t.root, k⟩ vs (.found n) :=
  ⟨fun h ↦ exists_trace_of_lookupWithin (v := ⟨t.root, k⟩) h, fun ⟨_, h⟩ ↦ h.lookup_eq⟩

end FlatTable

end DecodeTrie
