import DecodeTrie.Proofs.Trie.Claims
import DecodeTrie.Proofs.Trie.Links
import DecodeTrie.Trie.Walk

/-!
# Walks and routes

A key takes a route when it chooses the slots of the route in the tables of the route. A walk ends
at a number exactly if the key takes a route that stands in the trie with this number at its end
(`walkWithin_eq_some_iff`). In a trie that agrees with claims, such a route is that of a claim
(`Agrees.walk_eq_some_iff`).

The bound on a walk is there to make it end. `Reads` is the walk without one, and where references
do not run in circles the two agree (`walkWithin_eq_iff_reads`).
-/

namespace DecodeTrie

/-! ## Walks without a bound -/

namespace Trie

/-- What a key reads from a node on. At each node the key chooses a slot by the kind of the node;
the number in the slot is what it reads, and a node in the slot is where it goes on. It reads
nothing from an empty slot, and nothing where it lacks the byte to choose by. -/
inductive Reads (t : Trie) : NodeId → Key → Option Nat → Prop
  /-- The key lacks the byte that the node dispatches on. -/
  | lacking {x : NodeId} {k : Key} (h : k.choose (t.kind x) = none) : Reads t x k none
  /-- The slot is empty. -/
  | empty {x : NodeId} {k k' : Key} {i : Nat} (h : k.choose (t.kind x) = some (i, k'))
    (hs : t.slot ⟨x, i⟩ = .empty) : Reads t x k none
  /-- The slot holds a number. -/
  | leaf {x : NodeId} {k k' : Key} {i n : Nat} (h : k.choose (t.kind x) = some (i, k'))
    (hs : t.slot ⟨x, i⟩ = .leaf n) : Reads t x k (some n)
  /-- The slot refers to a node. -/
  | node {x y : NodeId} {k k' : Key} {i : Nat} {r : Option Nat}
    (h : k.choose (t.kind x) = some (i, k')) (hs : t.slot ⟨x, i⟩ = .node y) (hr : Reads t y k' r) :
    Reads t x k r

/-- A key reads what a walk gives. -/
theorem reads_walkWithin {t : Trie} {bound : Nat} {x : NodeId} (hb : t.Within bound x) (k : Key) :
    t.Reads x k (t.walkWithin bound x k) := by
  induction bound generalizing x k with
  | zero => exact hb.elim
  | succ bound ih =>
    rw [walkWithin]
    cases hchoose : k.choose (t.kind x) with
    | none => exact .lacking hchoose
    | some c =>
      obtain ⟨i, k'⟩ := c
      have hslot : (t.node x).slot i = t.slot ⟨x, i⟩ := rfl
      cases hs : t.slot ⟨x, i⟩ with
      | empty => simpa only [hslot, hs] using Reads.empty hchoose hs
      | leaf n => simpa only [hslot, hs] using Reads.leaf hchoose hs
      | node y => simpa only [hslot, hs] using Reads.node hchoose hs (ih (hb i y hs) k')

/-- A key reads one thing only. -/
theorem Reads.unique {t : Trie} {x : NodeId} {k : Key} {r r' : Option Nat} (h : t.Reads x k r)
    (h' : t.Reads x k r') : r = r' := by
  induction h generalizing r' with
  | lacking hk => cases h' <;> simp_all
  | empty hk hs => cases h' <;> simp_all
  | leaf hk hs => cases h' <;> simp_all
  | node hk hs _ ih =>
    cases h' with
    | lacking hk' => simp_all
    | empty hk' hs' => simp_all
    | leaf hk' hs' => simp_all
    | node hk' hs' hr' =>
      rw [hk] at hk'
      cases hk'
      rw [hs] at hs'
      cases hs'
      exact ih hr'

/-- **A walk gives what the key reads**, where its bound covers all paths. -/
theorem walkWithin_eq_iff_reads {t : Trie} {bound : Nat} {x : NodeId} (hb : t.Within bound x)
    {k : Key} {r : Option Nat} : t.walkWithin bound x k = r ↔ t.Reads x k r := by
  constructor
  · rintro rfl
    exact reads_walkWithin hb k
  · exact (reads_walkWithin hb k).unique

end Trie

/-! ## Keys that take a route -/

/-- A key chooses the slots of a route, one after the other. -/
def Key.Takes : Key → List Step → Prop
  | _, [] => True
  | k, s :: r => ∃ k', k.choose s.kind = some (s.slot, k') ∧ k'.Takes r

namespace Trie

/-- A route stands below a node, with a number at its end. -/
def Stands (t : Trie) (x : NodeId) (n : Nat) (r : List Step) : Prop :=
  ∀ path v, Route.wants n r path = some v → t.viewFrom (.node x) path = some v

theorem not_stands_nil {t : Trie} {x : NodeId} {n : Nat} : ¬ t.Stands x n [] := by
  intro h
  have := h [] _ rfl
  rw [viewFrom, slotFrom_nil, content_node] at this
  cases this

/-- A route stands below a node when its first table is the node, and the rest stands in the slot.
-/
theorem stands_cons_iff {t : Trie} {x : NodeId} {n : Nat} {s : Step} {r : List Step} :
    t.Stands x n (s :: r) ↔ s.kind = t.kind x ∧
      (r = [] ∧ t.slot ⟨x, s.slot⟩ = .leaf n ∨
        ∃ y, t.slot ⟨x, s.slot⟩ = .node y ∧ t.Stands y n r) := by
  have hview (path : List Nat) :
      t.viewFrom (.node x) (s.slot :: path) = t.viewFrom (t.slot ⟨x, s.slot⟩) path := rfl
  constructor
  · intro h
    have hkind := h [] _ (Route.wants_cons_nil ..)
    rw [viewFrom, slotFrom_nil, content_node] at hkind
    refine ⟨(Content.table.inj (Option.some.inj hkind)).symm, ?_⟩
    have hrest (path : List Nat) (v : Content) (hv : Route.wants n r path = some v) :
        t.viewFrom (t.slot ⟨x, s.slot⟩) path = some v := by
      rw [← hview]
      exact h _ v (by rw [Route.wants_cons_cons, if_pos rfl, hv])
    cases r with
    | nil => exact .inl ⟨rfl, content_eq_leaf_iff.mp (hrest [] _ rfl)⟩
    | cons s' r =>
      obtain ⟨y, hy, -⟩ := content_eq_table_iff.mp (hrest [] _ (Route.wants_cons_nil ..))
      rw [slotFrom_nil] at hy
      refine .inr ⟨y, hy, fun path v hv ↦ ?_⟩
      rw [← hy]
      exact hrest path v hv
  · rintro ⟨hkind, hrest⟩ path v hv
    cases path with
    | nil =>
      rw [Route.wants_cons_nil, hkind] at hv
      rw [viewFrom, slotFrom_nil, content_node, hv]
    | cons i path =>
      rw [Route.wants_cons_cons] at hv
      split at hv
      · next hi =>
        subst hi
        rw [hview]
        rcases hrest with ⟨rfl, hleaf⟩ | ⟨y, hy, hr⟩
        · obtain ⟨rfl, rfl⟩ := Route.wants_nil_eq_some_iff.mp hv
          rw [hleaf]
          rfl
        · rw [hy]
          exact hr path v hv
      · cases hv

/-- **Where a walk ends.** -/
theorem walkWithin_eq_some_iff {t : Trie} {bound : Nat} {x : NodeId} (hb : t.Within bound x)
    {k : Key} {n : Nat} :
    t.walkWithin bound x k = some n ↔ ∃ r, k.Takes r ∧ t.Stands x n r := by
  induction bound generalizing x k with
  | zero => exact hb.elim
  | succ bound ih =>
    have hstep : t.walkWithin (bound + 1) x k = some n ↔
        ∃ i k', k.choose (t.kind x) = some (i, k') ∧ (t.slot ⟨x, i⟩ = .leaf n ∨
          ∃ y, t.slot ⟨x, i⟩ = .node y ∧ t.walkWithin bound y k' = some n) := by
      rw [walkWithin]
      cases k.choose (t.kind x) with
      | none => simp
      | some c =>
        obtain ⟨i, k'⟩ := c
        simp only [slot, Option.some.injEq, Prod.mk.injEq]
        cases hs : (t.node x).slot i <;> simp [hs]
    rw [hstep]
    constructor
    · rintro ⟨i, k', hchoose, hleaf | ⟨y, hy, hwalk⟩⟩
      · exact ⟨[⟨t.kind x, i⟩], ⟨k', hchoose, trivial⟩,
          stands_cons_iff.mpr ⟨rfl, .inl ⟨rfl, hleaf⟩⟩⟩
      · obtain ⟨r, hr, hs⟩ := (ih (hb i y hy)).mp hwalk
        exact ⟨⟨t.kind x, i⟩ :: r, ⟨k', hchoose, hr⟩,
          stands_cons_iff.mpr ⟨rfl, .inr ⟨y, hy, hs⟩⟩⟩
    · rintro ⟨r, hr, hs⟩
      cases r with
      | nil => exact absurd hs not_stands_nil
      | cons s r =>
        obtain ⟨k', hchoose, hr⟩ := hr
        obtain ⟨hkind, hrest⟩ := stands_cons_iff.mp hs
        rw [hkind] at hchoose
        refine ⟨s.slot, k', hchoose, ?_⟩
        rcases hrest with ⟨rfl, hleaf⟩ | ⟨y, hy, hs⟩
        · exact .inl hleaf
        · exact .inr ⟨y, hy, (ih (hb _ y hy)).mpr ⟨r, hr, hs⟩⟩

end Trie

/-! ## Claims -/

/-- Routes with the same slots clash if they are different at all. -/
theorem Route.slots_ne_of_clash_eq_none {n : Nat} {r r' : List Step} (h : clash n r r' = none) :
    slots r ≠ slots r' := by
  fun_induction clash n r r' with
  | case1 => cases h
  | case2 => cases h
  | case3 => cases h
  | case4 s r s' r' hk hs ih => exact fun he ↦ ih h (List.cons.inj he).2
  | case5 s r s' r' hk hs => exact fun he ↦ hs (List.cons.inj he).1
  | case6 => cases h

/-- **A walk ends at a claim** that the key takes, in a trie that agrees with claims. -/
theorem Agrees.walk_eq_some_iff {t : Trie} (hl : t.WellLinked) {claims : List Claim}
    (h : Agrees t.view claims) {k : Key} {n : Nat} :
    t.walk k = some n ↔ ∃ x ∈ claims, x.number = n ∧ k.Takes x.route := by
  rw [Trie.walk, Trie.walkWithin_eq_some_iff hl.within_root]
  constructor
  · rintro ⟨r, hr, hs⟩
    obtain ⟨x, hx, hn, hslots⟩ := h.exists_claim (hs _ _ (Route.wants_slots n r))
    refine ⟨x, hx, hn, ?_⟩
    -- The claim has the same slots as the route that was taken, and both stand in the trie.
    rcases Route.eq_or_clash_eq_none [] (fun _ _ hv ↦ h.view_of_wants hx hv)
      (fun path v hv ↦ hs path v hv) with hroute | hclash
    · rwa [hroute]
    · exact absurd hslots (Route.slots_ne_of_clash_eq_none hclash)
  · rintro ⟨x, hx, rfl, hr⟩
    exact ⟨x.route, hr, fun path v hv ↦ h.view_of_wants hx hv⟩

end DecodeTrie
