import DecodeTrie.Proofs.Trie.Copying
import DecodeTrie.Proofs.Trie.Visits
import DecodeTrie.Proofs.Trie.Writing
import DecodeTrie.Trie.Placement

/-!
# Copies stand apart

The nodes of a copy are the new ones, and no old node refers to them (`IsCopy.below_iff`,
`IsCopy.apart`).

That a copy stands apart is a property that lasts. `Later` are the tries that come from the one with
the copy, as long as what is outside the copy comes to refer to the copy itself only, and not to the
nodes below it. By induction on how a later trie has come about, the copy is entered at its topmost
node only, and none of the old nodes is below it (`Later.apart`). Placing a number leads from later
tries to later tries, whether it is below the copy or elsewhere (`keeps_place`).
-/

namespace DecodeTrie.Trie

/-! ## Slots after a write -/

/-- After a write a slot holds what it held, or it is the one that has been written. -/
theorem slot_set_eq_or (t : Trie) (p : Position) (s : Slot) (q : Position) :
    (t.set p s).slot q = t.slot q ∨ q = p ∧ (t.set p s).slot q = s := by
  rcases p with ⟨x, i⟩
  rcases q with ⟨y, j⟩
  simp only [slot, node_set, Position.mk.injEq]
  split
  · next hx =>
    rw [Node.slot_set]
    split
    · next hi => exact .inr ⟨⟨hx.1.symm, hi.1.symm⟩, rfl⟩
    · exact .inl rfl
  · exact .inl rfl

theorem slot_set_of_ne {t : Trie} {p q : Position} (h : q ≠ p) (s : Slot) :
    (t.set p s).slot q = t.slot q :=
  (slot_set_eq_or t p s q).resolve_right fun hq ↦ h hq.1

/-! ## What happens to a trie with a copy -/

/-- A node and all nodes below it are not among the first `old` ones, and nothing else refers to
them. -/
def Unlinked (t : Trie) (old : Nat) (x : NodeId) : Prop :=
  ∀ y, t.Below x y → old ≤ y ∧ y < t.size ∧ ∀ p, t.slot p = .node y → t.Below x p.node

/-- What a slot may hold outside a copy: of the nodes of the copy it refers to the topmost one only.
-/
def Avoids (t : Trie) (copy : NodeId) (s : Slot) : Prop :=
  ∀ j, s = .node j → j < t.size ∧ (t.Below copy j → j = copy)

/-- The tries that come from one where the node `copy` has been appended to `old` nodes. Nodes are
appended, and slots are written, in any order. -/
inductive Later (old : Nat) (copy : NodeId) (start : Trie) : Trie → Prop
  /-- Nothing has happened yet. -/
  | start : Later old copy start start
  /-- A node is appended. -/
  | append {t : Trie} (h : Later old copy start t) (n : Node) (hn : ∀ i, t.Avoids copy (n.slot i)) :
    Later old copy start (t.push n)
  /-- A slot elsewhere is written, perhaps with a reference to the copy. -/
  | outside {t : Trie} (h : Later old copy start t) (p : Position) (s : Slot)
    (hp : ¬ t.Below copy p.node) (hs : t.Avoids copy s) : Later old copy start (t.set p s)
  /-- A slot below the copy is written. What it has referred to is below the copy still, and what
  it refers to now was there already or comes from nowhere else. -/
  | inside {t : Trie} (h : Later old copy start t) (p : Position) (s : Slot)
    (hp : t.Below copy p.node) (hkeep : ∀ j, t.slot p = .node j → (t.set p s).Below copy j)
    (hs : ∀ j, s = .node j → t.Below copy j ∨ t.Unlinked old j) : Later old copy start (t.set p s)

/-- A copy stands apart from the old nodes, and is entered at its topmost node only. -/
structure Apart (old : Nat) (copy : NodeId) (t : Trie) : Prop where
  /-- References are to nodes of the trie. -/
  closed : t.Closed
  /-- No old node is lost. -/
  old_le : old ≤ t.size
  /-- The copy is a node. -/
  copy_lt : copy < t.size
  /-- What is outside the copy refers to its topmost node only. -/
  entered : t.EnteredAt copy
  /-- The old nodes are outside the copy. -/
  not_below : ∀ {x : NodeId}, x < old → ¬ t.Below copy x

namespace Apart

variable {t : Trie} {old : Nat} {copy : NodeId} (h : t.Apart old copy)

include h

/-- The nodes of the copy are nodes of the trie. -/
theorem lt_size {x : NodeId} (hx : t.Below copy x) : x < t.size :=
  hx.induction (fun _ _ _ hj ↦ h.closed hj) h.copy_lt

/-- Nothing changes below the copy when a node is appended. -/
theorem below_push (n : Node) (x : NodeId) : (t.push n).Below copy x ↔ t.Below copy x :=
  below_congr (fun p hp ↦ by rw [slot_push, if_neg (Nat.ne_of_lt (h.lt_size hp))]) x

theorem append (n : Node) (hn : ∀ i, t.Avoids copy (n.slot i)) : (t.push n).Apart old copy where
  closed := h.closed.push fun i j hj ↦ (hn i j hj).1
  old_le := by rw [size_push]; exact Nat.le_succ_of_le h.old_le
  copy_lt := by rw [size_push]; exact Nat.lt_succ_of_lt h.copy_lt
  entered p j hj hbelow hp := by
    rw [h.below_push] at hbelow hp
    rw [slot_push] at hj
    split at hj
    · exact (hn _ j hj).2 hbelow
    · exact h.entered hj hbelow hp
  not_below hx := by
    rw [h.below_push]
    exact h.not_below hx

omit h in
/-- Nothing changes below the copy when a slot outside it is written. -/
theorem below_set_outside {p : Position} (hp : ¬ t.Below copy p.node) (s : Slot) (x : NodeId) :
    (t.set p s).Below copy x ↔ t.Below copy x :=
  below_congr (fun q hq ↦ slot_set_of_ne (fun hqp ↦ hp (by rwa [hqp] at hq)) s) x

theorem outside (p : Position) (s : Slot) (hp : ¬ t.Below copy p.node) (hs : t.Avoids copy s) :
    (t.set p s).Apart old copy where
  closed q j hj := by
    rw [size_set]
    rcases slot_set_eq_or t p s q with hq | ⟨-, hq⟩ <;> rw [hq] at hj
    · exact h.closed hj
    · exact (hs j hj).1
  old_le := by rw [size_set]; exact h.old_le
  copy_lt := by rw [size_set]; exact h.copy_lt
  entered q j hj hbelow hqnode := by
    rw [below_set_outside hp] at hbelow hqnode
    rcases slot_set_eq_or t p s q with hq | ⟨-, hq⟩ <;> rw [hq] at hj
    · exact h.entered hj hbelow hqnode
    · exact (hs j hj).2 hbelow
  not_below hx := by
    rw [below_set_outside hp]
    exact h.not_below hx

section inside

variable {p : Position} {s : Slot} (hp : t.Below copy p.node)
  (hkeep : ∀ j, t.slot p = .node j → (t.set p s).Below copy j)
  (hs : ∀ j, s = .node j → t.Below copy j ∨ t.Unlinked old j)

omit h in
include hkeep in
/-- What was below a node of the copy is below the copy still when a slot there is written. -/
theorem below_set_of_below {x y : NodeId} (hx : (t.set p s).Below copy x) (hy : t.Below x y) :
    (t.set p s).Below copy y := by
  refine hy.induction (fun q j hq hj ↦ ?_) hx
  by_cases hqp : q = p
  · exact hkeep j (by rw [← hqp, hj])
  · exact hq.slot (by rw [slot_set_of_ne hqp, hj])

omit h in
include hs in
/-- Below the copy is, after a write there, what was there before, and what has been put there. -/
theorem below_or_of_below_set {x : NodeId} (hx : (t.set p s).Below copy x) :
    t.Below copy x ∨ ∃ j, t.Unlinked old j ∧ (t.set p s).Below copy j ∧ t.Below j x := by
  refine (hx.induction (P := fun x ↦ (t.set p s).Below copy x ∧ (t.Below copy x ∨ ∃ j,
    t.Unlinked old j ∧ (t.set p s).Below copy j ∧ t.Below j x)) (fun q y hq hy ↦ ?_)
    ⟨.refl _ copy, .inl (.refl t copy)⟩).2
  have hset : (t.set p s).Below copy y := hq.1.slot hy
  refine ⟨hset, ?_⟩
  rcases slot_set_eq_or t p s q with hslot | ⟨-, hslot⟩ <;> rw [hslot] at hy
  · exact hq.2.imp (fun hq ↦ hq.slot hy) fun ⟨j, hj, hset, hq⟩ ↦ ⟨j, hj, hset, hq.slot hy⟩
  · exact (hs y hy).imp_right fun hy' ↦ ⟨y, hy', hset, .refl t y⟩

include hp hkeep hs in
theorem inside : (t.set p s).Apart old copy where
  closed q j hj := by
    rw [size_set]
    rcases slot_set_eq_or t p s q with hq | ⟨-, hq⟩ <;> rw [hq] at hj
    · exact h.closed hj
    · rcases hs j hj with hbelow | hnew
      · exact h.lt_size hbelow
      · exact (hnew j (.refl t j)).2.1
  old_le := by rw [size_set]; exact h.old_le
  copy_lt := by rw [size_set]; exact h.copy_lt
  entered q j hj hbelow hq := by
    have hcopy : (t.set p s).Below copy copy := .refl _ copy
    have hqp : q ≠ p := by
      rintro rfl
      exact hq (below_set_of_below hkeep hcopy hp)
    rw [slot_set_of_ne hqp] at hj
    rcases below_or_of_below_set hs hbelow with hbelow | ⟨x, hx, hset, hbelow⟩
    · exact h.entered hj hbelow fun hq' ↦ hq (below_set_of_below hkeep hcopy hq')
    · -- What refers to the nodes that have been put below the copy is one of them.
      exact absurd (below_set_of_below hkeep hset ((hx j hbelow).2.2 q hj)) hq
  not_below {x} hx hbelow := by
    rcases below_or_of_below_set hs hbelow with hbelow | ⟨j, hj, -, hbelow⟩
    · exact h.not_below hx hbelow
    · exact absurd hx (Nat.not_lt_of_le (hj x hbelow).1)

end inside

end Apart

/-- **A copy stays apart**, whatever happens to the trie. -/
theorem Later.apart {start t : Trie} {old : Nat} {copy : NodeId} (h : Later old copy start t)
    (hstart : start.Apart old copy) : t.Apart old copy := by
  induction h with
  | start => exact hstart
  | append _ n hn ih => exact ih.append n hn
  | outside _ p s hp hs ih => exact ih.outside p s hp hs
  | inside _ p s hp hkeep hs ih => exact ih.inside hp hkeep hs

/-! ## What insertions do to a trie with a copy -/

/-- The trie behind a step, whether the step fails or not. -/
def behind {α : Type} : EStateM.Result Clash Trie α → Trie
  | .ok _ t => t
  | .error _ t => t

/-- The trie behind a step has a property if the trie before it has. -/
def Keeps {α : Type} (P : Trie → Prop) (f : EStateM Clash Trie α) : Prop :=
  ∀ t, P t → P (behind (f t))

namespace Keeps

variable {α β : Type} {P : Trie → Prop}

theorem pure (a : α) : Keeps P (pure a : EStateM Clash Trie α) := fun _ ht ↦ ht

theorem bind {f : EStateM Clash Trie α} {g : α → EStateM Clash Trie β} (hf : Keeps P f)
    (hg : ∀ a, Keeps P (g a)) : Keeps P (f >>= g) := by
  intro t ht
  have hbehind := hf t ht
  simp only [Bind.bind, EStateM.bind]
  split
  · next a t' hrun =>
    rw [hrun] at hbehind
    exact hg a t' hbehind
  · next c t' hrun =>
    rw [hrun] at hbehind
    exact hbehind

end Keeps

/-- A new table without contents is referred to from nowhere. -/
theorem unlinked_push_new {t : Trie} {old : Nat} (hc : t.Closed) (hold : old ≤ t.size)
    (kind : NodeKind) : (t.push (Node.new kind)).Unlinked old t.size := by
  intro y hy
  have hnew : y = t.size := by
    refine hy.induction (P := (· = t.size)) (fun p j hp hj ↦ ?_) rfl
    rw [slot_push_new, slot_of_size_le (Nat.le_of_eq hp.symm)] at hj
    cases hj
  subst hnew
  refine ⟨hold, by rw [size_push]; exact Nat.lt_succ_self _, fun p hp ↦ ?_⟩
  rw [slot_push_new] at hp
  exact absurd (hc hp) (Nat.lt_irrefl _)

section

variable {start t : Trie} {old : Nat} {copy : NodeId} (hstart : start.Apart old copy)

/-- A number is put into an empty slot, wherever it is. -/
theorem Later.setLeaf (h : Later old copy start t) {p : Position} (he : t.slot p = .empty)
    (n : Nat) : Later old copy start (t.set p (.leaf n)) := by
  by_cases hp : t.Below copy p.node
  · refine .inside h p _ hp (fun j hj ↦ ?_) fun j hj ↦ ?_
    · rw [he] at hj
      cases hj
    · cases hj
  · refine .outside h p _ hp fun j hj ↦ ?_
    cases hj

include hstart

/-- A slot outside the copy comes to refer to it. -/
theorem Later.link (h : Later old copy start t) {p : Position} (hp : ¬ t.Below copy p.node) :
    Later old copy start (t.set p (.node copy)) := by
  refine .outside h p _ hp fun j hj ↦ ?_
  cases hj
  exact ⟨(h.apart hstart).copy_lt, fun _ ↦ rfl⟩

/-- A table is created in an empty slot, wherever it is. -/
theorem Later.addTable (h : Later old copy start t) {p : Position} (he : t.slot p = .empty)
    (kind : NodeKind) : Later old copy start (t.addTable p kind) := by
  have hapart : t.Apart old copy := h.apart hstart
  have hpush : Later old copy start (t.push (Node.new kind)) := by
    refine .append h _ fun i j hj ↦ ?_
    rw [Node.slot_new] at hj
    cases hj
  by_cases hp : t.Below copy p.node
  · refine .inside hpush p _ ((hapart.below_push _ _).mpr hp) (fun j hj ↦ ?_) fun j hj ↦ ?_
    · rw [slot_push_new, he] at hj
      cases hj
    · cases hj
      exact .inr (unlinked_push_new hapart.closed hapart.old_le kind)
  · refine .outside hpush p _ (by rwa [hapart.below_push]) fun j hj ↦ ?_
    cases hj
    refine ⟨by rw [size_push]; exact Nat.lt_succ_self _, fun hbelow ↦ ?_⟩
    rw [hapart.below_push] at hbelow
    exact absurd (hapart.lt_size hbelow) (Nat.lt_irrefl _)

theorem keeps_ensureTable (number : Nat) (kind : NodeKind) (p : Position) :
    Keeps (Later old copy start) (ensureTable number kind p) := by
  intro t h
  rw [ensureTable]
  split
  · next he => exact h.addTable hstart he kind
  · exact h
  · dsimp only
    split <;> exact h

omit hstart in
theorem keeps_putLeaf (number : Nat) (p : Position) :
    Keeps (Later old copy start) (putLeaf number p) := by
  intro t h
  rw [putLeaf]
  split
  · next he => exact h.setLeaf he number
  · exact h
  · exact h

theorem keeps_follow (number : Nat) (p : Position) (steps : List Step) :
    Keeps (Later old copy start) (follow number p steps) := by
  induction steps generalizing p with
  | nil => exact .pure p
  | cons s steps ih => exact (keeps_ensureTable hstart number s.kind p).bind fun x ↦ ih ⟨x, s.slot⟩

/-- **Placing a number** below a copy or elsewhere is among what may happen to a trie with a copy. -/
theorem keeps_place (number : Nat) (p : Position) (steps : List Step) :
    Keeps (Later old copy start) (place number p steps) :=
  (keeps_follow hstart number p steps).bind fun q ↦ keeps_putLeaf number q

end

/-! ## The nodes of a copy -/

namespace IsCopy

variable {t t' : Trie} {id copy : NodeId} (h : IsCopy t t' id copy)

include h

/-- The nodes of the copy are the new ones. -/
theorem below_iff (x : NodeId) : t'.Below copy x ↔ t.size ≤ x ∧ x < t'.size := by
  constructor
  · intro hx
    refine hx.induction (P := fun x ↦ t.size ≤ x ∧ x < t'.size) (fun p j hp hj ↦ ?_) ?_
    · obtain ⟨hle, hlt, -⟩ := h.inner hp.1 hj
      exact ⟨hle, hlt.trans hp.2⟩
    · rw [h.size_eq]
      exact ⟨h.size_le, Nat.lt_succ_self _⟩
  · -- A new node is referred to from a later one, until the last one is the copy.
    rintro ⟨hle, hlt⟩
    rw [h.size_eq] at hlt
    induction hd : copy - x using Nat.strong_induction_on generalizing x with
    | _ d ih =>
      rcases Nat.lt_succ_iff_lt_or_eq.mp hlt with hlt' | rfl
      · obtain ⟨p, hp, hj⟩ := h.referred hle hlt'
        have hpx : x < p.node := (h.inner hp hj).2.1
        have hpc : p.node < copy + 1 := by
          rw [← h.size_eq]
          exact (lt_of_slot_node hj).1
        have hcloser : copy - p.node < d := by
          rw [← hd]
          exact Nat.sub_lt_sub_left hlt' hpx
        exact (ih _ hcloser p.node hp hpc rfl).slot hj
      · exact .refl t' x

/-- What is below the old nodes is old. -/
theorem lt_size_of_below (hc : t.Closed) {x y : NodeId} (hx : x < t.size) (hy : t'.Below x y) :
    y < t.size :=
  hy.induction (P := (· < t.size)) (fun p j hp hj ↦ hc (p := p) (by rwa [← h.appends.slot_eq hp]))
    hx

/-- The paths below a new node are along earlier ones. -/
theorem within {bound : Nat} {x : NodeId} (hx : t.size ≤ x) (hb : x < bound) :
    t'.Within bound x := by
  induction bound generalizing x with
  | zero => exact absurd hb (Nat.not_lt_zero x)
  | succ bound ih =>
    intro i y hy
    obtain ⟨hle, hlt, -⟩ := h.inner (p := ⟨x, i⟩) hx hy
    exact ih hle (Nat.lt_of_lt_of_le hlt (Nat.le_of_lt_succ hb))

/-- Nothing is shared with the old nodes. -/
theorem apart (hc : t.Closed) : t'.Apart t.size copy where
  closed p j hj := by
    rcases h.old_or_new hj with ⟨-, hj'⟩ | hp
    · exact Nat.lt_of_lt_of_le (hc hj') h.appends.size_le
    · exact (h.inner hp hj).2.1.trans (lt_of_slot_node hj).1
  old_le := h.appends.size_le
  copy_lt := by rw [h.size_eq]; exact Nat.lt_succ_self _
  entered p j hj hbelow hp := by
    rw [h.below_iff] at hbelow hp
    have hold : p.node < t.size :=
      Nat.lt_of_not_le fun hle ↦ hp ⟨hle, (lt_of_slot_node hj).1⟩
    rw [h.appends.slot_eq hold] at hj
    exact absurd (hc hj) (Nat.not_lt_of_le hbelow.1)
  not_below hx hbelow := absurd hx (Nat.not_lt_of_le ((h.below_iff _).mp hbelow).1)

end IsCopy

end DecodeTrie.Trie
