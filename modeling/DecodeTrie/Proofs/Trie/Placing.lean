import DecodeTrie.Proofs.Trie.Claims
import DecodeTrie.Proofs.Trie.Leaves
import DecodeTrie.Proofs.Trie.Writing

/-!
# Following a path and placing a number

What the steps of an insertion do to a trie whose references are in order. There are two
specifications for each step. If it succeeds, it adds to what stood in the trie exactly what the
route wants, at every path that meets the position (`ensured_of_ensureTable`, `followed_of_follow`,
`placed_of_putLeaf`, `placed_of_place`). If it fails, the trie is what it was, and something
obstructs the route (`obstructed_of_ensureTable` and so on).
-/

namespace DecodeTrie

namespace Route

/-- The tables of a route may stand below a table of the given kind, and its slots are slots of its
tables. -/
def Valid : NodeKind → List Step → Prop
  | _, [] => True
  | k, s :: r => k.Precedes s.kind ∧ s.slot < s.kind.slotCount ∧ Valid s.kind r

/-- The kind of the last table of a route below a table of the given kind. -/
def lastKind : NodeKind → List Step → NodeKind
  | k, [] => k
  | _, s :: r => lastKind s.kind r

/-- A route without ModRM tables. -/
def NoModRM (r : List Step) : Prop := ∀ s ∈ r, s.kind ≠ .modrm

/-- **What a step adds**, put together: the table at the paths to its start, and what the rest of
the route adds at the paths that go on through its slot. -/
theorem added_cons_iff {start next : List Nat → Prop} {s : Step}
    (hnext : ∀ w, next w ↔ ∃ w', start w' ∧ w = w' ++ [s.slot])
    {wanted rest : List Nat → Option Content} (hnil : wanted [] = some (.table s.kind))
    (hcons : ∀ i path, wanted (i :: path) = if i = s.slot then rest path else none)
    {path : List Nat} {v : Content} :
    (start path ∧ v = .table s.kind ∨ ∃ w r, next w ∧ path = w ++ r ∧ rest r = some v) ↔
      ∃ w r, start w ∧ path = w ++ r ∧ wanted r = some v := by
  constructor
  · rintro (⟨hw, rfl⟩ | ⟨w, r, hw, rfl, hr⟩)
    · exact ⟨path, [], hw, by simp, hnil⟩
    · obtain ⟨w', hw', rfl⟩ := (hnext w).mp hw
      exact ⟨w', s.slot :: r, hw', by simp, by rw [hcons, if_pos rfl, hr]⟩
  · rintro ⟨w, r, hw, rfl, hr⟩
    cases r with
    | nil =>
      rw [hnil, Option.some.injEq] at hr
      exact .inl ⟨by simpa using hw, hr.symm⟩
    | cons i r =>
      rw [hcons] at hr
      split at hr
      · next hi =>
        subst hi
        exact .inr ⟨w ++ [s.slot], r, (hnext _).mpr ⟨w, hw, rfl⟩, by simp, hr⟩
      · cases hr

end Route

namespace Trie

/-- A path meets a position when it leads there, or to the node that the position refers to. -/
def Meets (t : Trie) (p : Position) (path : List Nat) : Prop :=
  t.Leads p path ∨ ∃ y, t.slot p = .node y ∧ t.slotAt path = .node y

theorem meets_iff_leads_of_empty {t : Trie} {p : Position} (hp : t.slot p = .empty)
    (path : List Nat) : t.Meets p path ↔ t.Leads p path := by
  constructor
  · rintro (hl | ⟨y, hy, -⟩)
    · exact hl
    · rw [hp] at hy
      cases hy
  · exact .inl

theorem meets_iff_of_node {t : Trie} {p : Position} {y : NodeId} (hp : t.slot p = .node y)
    (path : List Nat) : t.Meets p path ↔ t.slotAt path = .node y := by
  constructor
  · rintro (hl | ⟨z, hz, hpath⟩)
    · rw [slotAt_of_leads hl, hp]
    · rw [hp] at hz
      cases hz
      exact hpath
  · exact fun h ↦ .inr ⟨y, hp, h⟩

/-- Outside ModRM tables a path that meets a position leads there. -/
theorem WellLinked.meets_iff_leads {t : Trie} (h : t.WellLinked) {p : Position}
    (hp : t.kind p.node ≠ .modrm) (path : List Nat) : t.Meets p path ↔ t.Leads p path := by
  cases hs : t.slot p with
  | empty => exact meets_iff_leads_of_empty hs path
  | leaf n =>
    constructor
    · rintro (hl | ⟨y, hy, -⟩)
      · exact hl
      · rw [hs] at hy
        cases hy
    · exact .inl
  | node y => rw [meets_iff_of_node hs, h.slotAt_eq_iff_leads hs hp]

/-! ## Tables on the way -/

/-- What a table at a position adds to a trie. -/
structure Ensured (t : Trie) (p : Position) (kind : NodeKind) (t' : Trie) (id : NodeId) :
    Prop where
  /-- The references stay in order. -/
  wellLinked : t'.WellLinked
  /-- What stood somewhere stands there. -/
  grows : Extends t t'
  /-- The table is in the position. -/
  slot_eq : t'.slot p = .node id
  /-- It is of the kind. -/
  kind_eq : t'.kind id = kind
  /-- Other slots are what they were. -/
  frame : ∀ q, q ≠ p → t'.slot q = t.slot q
  /-- The paths to the table are those that meet the position. -/
  slotAt_iff : ∀ path, t'.slotAt path = .node id ↔ t.Meets p path
  /-- Nothing but the table is added. -/
  view : ∀ path v, t'.view path = some v ↔ t.view path = some v ∨ t.Meets p path ∧ v = .table kind
  /-- The table was there, or is new, behind all others and without contents. -/
  fresh : t' = t ∨ t.slot p = .empty ∧ id = t.size ∧ ∀ i, t'.slot ⟨id, i⟩ = .empty

section ensureTable

variable {t : Trie} (h : t.WellLinked) {p : Position} {q : List Nat}
  (hq : t.slotAt q = .node p.node) {number : Nat} {kind : NodeKind}

include h hq

/-- **A table at a position**, when the step succeeds. -/
theorem ensured_of_ensureTable (hs : p.slot < (t.kind p.node).slotCount)
    (hk : (t.kind p.node).Precedes kind) {id : NodeId} {t' : Trie}
    (hok : ensureTable number kind p t = .ok id t') : Ensured t p kind t' id := by
  have hp : p.node < t.size := h.lt_size_of_slotAt hq
  rw [ensureTable] at hok
  split at hok
  · next he =>
    cases hok
    have he : t.slot p = .empty := he
    exact {
      wellLinked := h.addTable hp hs he hk
      grows := extends_addTable hp hs he
      slot_eq := by rw [← addTable, slot_addTable hp hs, if_pos rfl]
      kind_eq := by rw [← addTable, kind_addTable, if_pos rfl]
      frame := fun r hr ↦ by rw [← addTable, slot_addTable hp hs, if_neg hr]
      slotAt_iff := fun path ↦ by
        rw [meets_iff_leads_of_empty he, ← addTable, slotAt_addTable_eq_iff hp hs he h]
      view := fun path v ↦ by
        rw [meets_iff_leads_of_empty he, ← addTable, view_addTable hp hs he h]
      fresh := .inr ⟨he, rfl, slot_addTable_size hp hs he⟩ }
  · cases hok
  · next id' hid =>
    dsimp only at hok
    split at hok
    · next hkind =>
      -- The table was there, and nothing is added to the trie.
      cases hok
      exact {
        wellLinked := h
        grows := Extends.refl t
        slot_eq := hid
        kind_eq := hkind
        frame := fun _ _ ↦ rfl
        slotAt_iff := fun path ↦ (meets_iff_of_node hid path).symm
        view := fun path v ↦ by
          rw [meets_iff_of_node hid]
          refine ⟨.inl, fun hv ↦ hv.elim (fun hv ↦ hv) ?_⟩
          rintro ⟨hpath, rfl⟩
          rw [Trie.view, hpath, content_node, hkind]
        fresh := .inl rfl }
    · cases hok

/-- A table at a position, when the step fails. -/
theorem obstructed_of_ensureTable (hf : Fruitful t.view (q ++ [p.slot])) {c : Clash} {t' : Trie}
    (herr : ensureTable number kind p t = .error c t') :
    t' = t ∧ ∀ s r, s.kind = kind → Obstructed t.view (q ++ [p.slot]) (s :: r) c := by
  have hslot : t.slotAt (q ++ [p.slot]) = t.slot p := by rw [slotAt_concat, hq, enter_node]
  rw [ensureTable] at herr
  split at herr
  · cases herr
  · next other hl =>
    cases herr
    refine ⟨rfl, ?_⟩
    rintro s r rfl
    exact .atLeaf (by rw [view, hslot, hl, content_leaf])
  · next id hid =>
    dsimp only at herr
    split at herr
    · cases herr
    · next hkind =>
      rw [hid] at hslot
      have hview : t.view (q ++ [p.slot]) = some (.table (t.kind id)) := by
        rw [view, hslot, content_node]
      -- There is a number below the table, so the search for one does not fall back.
      obtain ⟨m, r, hm, hr⟩ := h.exists_firstLeaf hslot (by simpa [hview] using hf [])
      cases herr
      refine ⟨rfl, ?_⟩
      rintro s steps rfl
      rw [hm]
      exact .otherKind hview hkind hr

end ensureTable

/-! ## The number at the end -/

/-- What a number at the end of a route adds to a trie. -/
structure Placed (t : Trie) (p : Position) (n : Nat) (steps : List Step) (t' : Trie) : Prop where
  /-- The references stay in order. -/
  wellLinked : t'.WellLinked
  /-- What stood somewhere stands there. -/
  grows : Extends t t'
  /-- What the route wants is added at the paths that meet the position, and nothing else. -/
  view : ∀ path v, t'.view path = some v ↔
    t.view path = some v ∨ ∃ w r, t.Meets p w ∧ path = w ++ r ∧ Route.wants n steps r = some v
  /-- The other slots of ModRM tables are what they were. -/
  frame : ∀ q, t'.kind q.node = .modrm → q ≠ p → t'.slot q = t.slot q

section putLeaf

variable {t : Trie} (h : t.WellLinked) {p : Position} {q : List Nat}
  (hq : t.slotAt q = .node p.node) {number : Nat}

include h hq

/-- **A number at a position**, when the step succeeds. -/
theorem placed_of_putLeaf (hs : p.slot < (t.kind p.node).slotCount) {t' : Trie}
    (hok : putLeaf number p t = .ok () t') :
    t.slot p = .empty ∧ Placed t p number [] t' := by
  have hp : p.node < t.size := h.lt_size_of_slotAt hq
  rw [putLeaf] at hok
  split at hok
  · next he =>
    cases hok
    have he : t.slot p = .empty := he
    refine ⟨he, h.setLeaf hp hs he number, extends_setLeaf hp hs he number, ?_, ?_⟩
    · intro path v
      rw [view_setLeaf hp hs he]
      simp [meets_iff_leads_of_empty he]
    · intro r _ hr
      rw [slot_set hp hs, if_neg hr]
  · cases hok
  · cases hok

/-- A number at a position, when the step fails. -/
theorem obstructed_of_putLeaf (hf : Fruitful t.view (q ++ [p.slot])) {c : Clash} {t' : Trie}
    (herr : putLeaf number p t = .error c t') :
    t' = t ∧ Obstructed t.view (q ++ [p.slot]) [] c := by
  have hslot : t.slotAt (q ++ [p.slot]) = t.slot p := by rw [slotAt_concat, hq, enter_node]
  rw [putLeaf] at herr
  split at herr
  · cases herr
  · next other hl =>
    cases herr
    exact ⟨rfl, .occupied (by rw [view, hslot, hl, content_leaf])⟩
  · next id hid =>
    rw [hid] at hslot
    have hview : t.view (q ++ [p.slot]) = some (.table (t.kind id)) := by
      rw [view, hslot, content_node]
    obtain ⟨m, r, hm, hr⟩ := h.exists_firstLeaf hslot (by simpa [hview] using hf [])
    cases herr
    refine ⟨rfl, ?_⟩
    rw [hm]
    exact .atTable hview hr

end putLeaf

/-! ## Whole routes -/

theorem follow_cons (number : Nat) (p : Position) (s : Step) (r : List Step) (t : Trie) :
    follow number p (s :: r) t =
      match ensureTable number s.kind p t with
      | .ok id t' => follow number ⟨id, s.slot⟩ r t'
      | .error c t' => .error c t' := by
  simp only [follow, bind, EStateM.bind]
  cases ensureTable number s.kind p t <;> rfl

/-- What following a route from a position adds to a trie. -/
structure Followed (t : Trie) (p : Position) (steps : List Step) (t' : Trie) (p' : Position) :
    Prop where
  /-- The references stay in order. -/
  wellLinked : t'.WellLinked
  /-- What stood somewhere stands there. -/
  grows : Extends t t'
  /-- The route ends at a slot of a node. -/
  slot_lt : p'.slot < (t'.kind p'.node).slotCount
  /-- The last table is of the kind that the route says. -/
  kind_eq : t'.kind p'.node = Route.lastKind (t.kind p.node) steps
  /-- The paths to the end are those to the start, prolonged by the route. -/
  leads_iff : ∀ path, t'.Leads p' path ↔ ∃ w, t.Leads p w ∧ path = w ++ Route.slots steps
  /-- The tables of the route are added at the paths to the start, and nothing else. -/
  view : ∀ path v, t'.view path = some v ↔
    t.view path = some v ∨ ∃ w r, t.Leads p w ∧ path = w ++ r ∧ Route.tables steps r = some v
  /-- The slots of ModRM tables are what they were. -/
  frame : ∀ q, t'.kind q.node = .modrm → t'.slot q = t.slot q
  /-- Behind an empty position there is nothing. -/
  slot_empty : t.slot p = .empty → t'.slot p' = .empty
  /-- All tables were there, or the route ends in an empty slot. -/
  same_or_empty : t' = t ∨ t'.slot p' = .empty

theorem Followed.nil {t : Trie} (h : t.WellLinked) {p : Position}
    (hs : p.slot < (t.kind p.node).slotCount) : Followed t p [] t p where
  wellLinked := h
  grows := Extends.refl t
  slot_lt := hs
  kind_eq := rfl
  leads_iff path := by simp
  view path v := by simp
  frame _ _ := rfl
  slot_empty := id
  same_or_empty := .inl rfl

/-- A table on the way, and then the rest of the way. -/
theorem Followed.cons {t t₁ t' : Trie} {p p' : Position} {s : Step} {r : List Step} {id : NodeId}
    (h : t.WellLinked) (hp : t.kind p.node ≠ .modrm) (hlt : p.node < t.size)
    (h₁ : Ensured t p s.kind t₁ id)
    (h' : Followed t₁ ⟨id, s.slot⟩ r t' p') : Followed t p (s :: r) t' p' := by
  have hslotAt (w : List Nat) : t₁.slotAt w = .node id ↔ t.Leads p w := by
    rw [h₁.slotAt_iff, h.meets_iff_leads hp]
  have hleads (w : List Nat) :
      t₁.Leads ⟨id, s.slot⟩ w ↔ ∃ w', t.Leads p w' ∧ w = w' ++ [s.slot] := by
    constructor
    · rintro ⟨w', rfl, hw⟩
      exact ⟨w', (hslotAt w').mp hw, rfl⟩
    · rintro ⟨w', hw, rfl⟩
      exact ⟨w', rfl, (hslotAt w').mpr hw⟩
  refine ⟨h'.wellLinked, h₁.grows.trans h'.grows, h'.slot_lt, ?_, ?_, ?_, ?_, ?_, ?_⟩
  · rw [h'.kind_eq, show (⟨id, s.slot⟩ : Position).node = id from rfl, h₁.kind_eq]
    rfl
  · intro path
    rw [h'.leads_iff, Route.slots_cons]
    constructor
    · rintro ⟨w, hw, rfl⟩
      obtain ⟨w', hw', rfl⟩ := (hleads w).mp hw
      exact ⟨w', hw', by simp⟩
    · rintro ⟨w, hw, rfl⟩
      exact ⟨w ++ [s.slot], (hleads _).mpr ⟨w, hw, rfl⟩, by simp⟩
  · intro path v
    rw [h'.view, h₁.view, h.meets_iff_leads hp, or_assoc]
    exact or_congr_right (Route.added_cons_iff hleads (Route.tables_cons_nil s r)
      (Route.tables_cons_cons s r))
  · intro q hq
    -- The new table is not put into a ModRM table, for the position is not in one.
    rw [h'.frame q hq]
    refine h₁.frame q ?_
    rintro rfl
    rw [h'.grows.kind_eq (Nat.lt_of_lt_of_le hlt h₁.grows.size_le),
      h₁.grows.kind_eq hlt] at hq
    exact hp hq
  · intro he
    refine h'.slot_empty ?_
    rcases h₁.fresh with rfl | ⟨-, -, hempty⟩
    · rw [h₁.slot_eq] at he
      cases he
    · exact hempty _
  · rcases h₁.fresh with rfl | ⟨-, -, hempty⟩
    · exact h'.same_or_empty
    · exact .inr (h'.slot_empty (hempty _))

section follow

variable {number : Nat} {steps : List Step}

/-- **Following a route**, when it succeeds. -/
theorem followed_of_follow {t t' : Trie} {p p' : Position} {q : List Nat} (h : t.WellLinked)
    (hq : t.slotAt q = .node p.node) (hs : p.slot < (t.kind p.node).slotCount)
    (hp : t.kind p.node ≠ .modrm) (hvalid : Route.Valid (t.kind p.node) steps)
    (hm : Route.NoModRM steps) (hok : follow number p steps t = .ok p' t') :
    Followed t p steps t' p' := by
  induction steps generalizing t p q with
  | nil =>
    cases hok
    exact Followed.nil h hs
  | cons s r ih =>
    rw [follow_cons] at hok
    split at hok
    · next id t₁ he =>
      have h₁ := ensured_of_ensureTable h hq hs hvalid.1 he
      have hsm := hm s List.mem_cons_self
      refine .cons h hp (h.lt_size_of_slotAt hq) h₁ ?_
      have hpath : t₁.slotAt (q ++ [p.slot]) = .node id :=
        (h₁.slotAt_iff _).mpr (.inl ⟨q, rfl, hq⟩)
      refine ih h₁.wellLinked hpath ?_ ?_ ?_ (fun x hx ↦ hm x (List.mem_cons_of_mem _ hx)) hok
      · rw [h₁.kind_eq]; exact hvalid.2.1
      · rw [h₁.kind_eq]; exact hsm
      · rw [h₁.kind_eq]; exact hvalid.2.2
    · cases hok

/-- Following a route, when it fails: nothing has been created before, since behind a new table
there is nothing that could be in the way. -/
theorem obstructed_of_follow {t t' : Trie} {p : Position} {q : List Nat} {c : Clash}
    (h : t.WellLinked) (hq : t.slotAt q = .node p.node)
    (hs : p.slot < (t.kind p.node).slotCount) (hvalid : Route.Valid (t.kind p.node) steps)
    (hf : Fruitful t.view (q ++ [p.slot])) (herr : follow number p steps t = .error c t') :
    t' = t ∧ ∀ rest, Obstructed t.view (q ++ [p.slot]) (steps ++ rest) c := by
  induction steps generalizing t p q with
  | nil => cases herr
  | cons s r ih =>
    rw [follow_cons] at herr
    split at herr
    · next id t₁ he =>
      have h₁ := ensured_of_ensureTable h hq hs hvalid.1 he
      have hpath : t₁.slotAt (q ++ [p.slot]) = .node id :=
        (h₁.slotAt_iff _).mpr (.inl ⟨q, rfl, hq⟩)
      have hslot : (⟨id, s.slot⟩ : Position).slot < (t₁.kind id).slotCount := by
        rw [h₁.kind_eq]; exact hvalid.2.1
      have hvalid' : Route.Valid (t₁.kind id) r := by rw [h₁.kind_eq]; exact hvalid.2.2
      rcases h₁.fresh with rfl | ⟨-, -, hempty⟩
      · obtain ⟨rfl, hobs⟩ := ih h₁.wellLinked hpath hslot hvalid' (hf.append _) herr
        refine ⟨rfl, fun rest ↦ .step ?_ (hobs rest)⟩
        rw [view, hpath, content_node, h₁.kind_eq]
      · have hnone : t₁.view (q ++ [p.slot] ++ [s.slot]) = none := by
          rw [view, slotAt_concat, hpath, enter_node, hempty, content_empty]
        obtain ⟨-, hobs⟩ := ih h₁.wellLinked hpath hslot hvalid' (fruitful_of_none hnone) herr
        exact absurd hnone (hobs []).view_ne_none
    · next c' t₁ he =>
      cases herr
      obtain ⟨rfl, hobs⟩ := obstructed_of_ensureTable h hq hf he
      exact ⟨rfl, fun rest ↦ hobs s (r ++ rest) rfl⟩

end follow

theorem place_cons (number : Nat) (p : Position) (s : Step) (r : List Step) (t : Trie) :
    place number p (s :: r) t =
      match ensureTable number s.kind p t with
      | .ok id t' => place number ⟨id, s.slot⟩ r t'
      | .error c t' => .error c t' := by
  simp only [place, follow, bind, EStateM.bind]
  cases ensureTable number s.kind p t <;> rfl

/-- A table on the way, and then the rest of the way. The position may be a cell of a ModRM table
that shares its child; then the route is added at all cells that share it. -/
theorem Placed.cons {t t₁ t' : Trie} {p : Position} {n : Nat} {s : Step} {r : List Step}
    {id : NodeId} (hs : s.kind ≠ .modrm) (h₁ : Ensured t p s.kind t₁ id)
    (h' : Placed t₁ ⟨id, s.slot⟩ n r t') : Placed t p n (s :: r) t' := by
  have hmeets (w : List Nat) :
      t₁.Meets ⟨id, s.slot⟩ w ↔ ∃ w', t.Meets p w' ∧ w = w' ++ [s.slot] := by
    rw [h₁.wellLinked.meets_iff_leads (by rw [h₁.kind_eq]; exact hs)]
    constructor
    · rintro ⟨w', rfl, hw⟩
      exact ⟨w', (h₁.slotAt_iff w').mp hw, rfl⟩
    · rintro ⟨w', hw, rfl⟩
      exact ⟨w', rfl, (h₁.slotAt_iff w').mpr hw⟩
  have hid : id < t₁.size := h₁.wellLinked.lt_size h₁.slot_eq
  refine ⟨h'.wellLinked, h₁.grows.trans h'.grows, ?_, ?_⟩
  · intro path v
    rw [h'.view, h₁.view, or_assoc]
    exact or_congr_right (Route.added_cons_iff hmeets (Route.wants_cons_nil n s r)
      (Route.wants_cons_cons n s r))
  · intro q hq hqp
    rw [h'.frame q hq, h₁.frame q hqp]
    rintro rfl
    rw [h'.grows.kind_eq hid, h₁.kind_eq] at hq
    exact hs hq

section place

variable {number : Nat} {steps : List Step}

/-- **Placing a number at the end of a route**, when it succeeds: the route was free. -/
theorem placed_of_place {t t' : Trie} {p : Position} {q : List Nat} (h : t.WellLinked)
    (hq : t.slotAt q = .node p.node) (hs : p.slot < (t.kind p.node).slotCount)
    (hvalid : Route.Valid (t.kind p.node) steps) (hm : Route.NoModRM steps)
    (hok : place number p steps t = .ok () t') :
    Free t.view (q ++ [p.slot]) steps ∧ Placed t p number steps t' := by
  have hslot : t.slotAt (q ++ [p.slot]) = t.slot p := by rw [slotAt_concat, hq, enter_node]
  induction steps generalizing t p q with
  | nil =>
    obtain ⟨he, hplaced⟩ := placed_of_putLeaf h hq hs hok
    exact ⟨by rw [Free, view, hslot, he, content_empty], hplaced⟩
  | cons s r ih =>
    rw [place_cons] at hok
    split at hok
    · next id t₁ he =>
      have h₁ := ensured_of_ensureTable h hq hs hvalid.1 he
      have hsm := hm s List.mem_cons_self
      have hpath : t₁.slotAt (q ++ [p.slot]) = .node id :=
        (h₁.slotAt_iff _).mpr (.inl ⟨q, rfl, hq⟩)
      obtain ⟨hfree, hplaced⟩ := ih h₁.wellLinked hpath (by rw [h₁.kind_eq]; exact hvalid.2.1)
        (by rw [h₁.kind_eq]; exact hvalid.2.2) (fun x hx ↦ hm x (List.mem_cons_of_mem _ hx)) hok
        (by rw [slotAt_concat, hpath, enter_node])
      refine ⟨?_, .cons hsm h₁ hplaced⟩
      rcases h₁.fresh with rfl | ⟨he, -, -⟩
      · exact .inr ⟨by rw [view, hpath, content_node, h₁.kind_eq], hfree⟩
      · exact .inl (by rw [view, hslot, he, content_empty])
    · cases hok

/-- Placing a number at the end of a route, when it fails: the trie is what it was. -/
theorem obstructed_of_place {t t' : Trie} {p : Position} {q : List Nat} {c : Clash}
    (h : t.WellLinked) (hq : t.slotAt q = .node p.node)
    (hs : p.slot < (t.kind p.node).slotCount) (hvalid : Route.Valid (t.kind p.node) steps)
    (hf : Fruitful t.view (q ++ [p.slot])) (herr : place number p steps t = .error c t') :
    t' = t ∧ Obstructed t.view (q ++ [p.slot]) steps c := by
  induction steps generalizing t p q with
  | nil => exact obstructed_of_putLeaf h hq hf herr
  | cons s r ih =>
    rw [place_cons] at herr
    split at herr
    · next id t₁ he =>
      have h₁ := ensured_of_ensureTable h hq hs hvalid.1 he
      have hpath : t₁.slotAt (q ++ [p.slot]) = .node id :=
        (h₁.slotAt_iff _).mpr (.inl ⟨q, rfl, hq⟩)
      have hslot : (⟨id, s.slot⟩ : Position).slot < (t₁.kind id).slotCount := by
        rw [h₁.kind_eq]; exact hvalid.2.1
      have hvalid' : Route.Valid (t₁.kind id) r := by rw [h₁.kind_eq]; exact hvalid.2.2
      rcases h₁.fresh with rfl | ⟨-, -, hempty⟩
      · obtain ⟨rfl, hobs⟩ := ih h₁.wellLinked hpath hslot hvalid' (hf.append _) herr
        exact ⟨rfl, .step (by rw [view, hpath, content_node, h₁.kind_eq]) hobs⟩
      · -- The table is new, so nothing stands behind it that could be in the way.
        have hnone : t₁.view (q ++ [p.slot] ++ [s.slot]) = none := by
          rw [view, slotAt_concat, hpath, enter_node, hempty, content_empty]
        obtain ⟨-, hobs⟩ := ih h₁.wellLinked hpath hslot hvalid' (fruitful_of_none hnone) herr
        exact absurd hnone hobs.view_ne_none
    · next c' t₁ he =>
      cases herr
      obtain ⟨rfl, hobs⟩ := obstructed_of_ensureTable h hq hf he
      exact ⟨rfl, hobs s r rfl⟩

end place

end Trie

end DecodeTrie
