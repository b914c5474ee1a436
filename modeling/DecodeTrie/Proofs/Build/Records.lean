import DecodeTrie.Proofs.Build.Sites

/-!
# What a build has recorded

What a build holds is decided by the sites that have been filled in it: what stands in the trie is
what the claims of these sites want, and the ranges are those of their numbers (`Holds`). A further
site is filled if its routes clash with no claim on record (`Holds.concat`). When it cannot be
filled, what it leaves behind is on record as sites for single modes (`Holds.exists_part`), so that
builds in which insertions have failed hold sites as well.

When every site has been filled, the build is determined up to the numbers of its nodes, because its
columns then share by the pins of the sites. `Records` adds this to `Holds`.

The claims on record agree with one another (`Holds.compatible`), because they agree with the trie.
-/

namespace DecodeTrie

/-- A site that has been filled. -/
structure Holding where
  /-- The number that is placed. -/
  number : Nat
  /-- The instruction that owns the number. -/
  owner : Nat
  /-- The site. -/
  site : Site
deriving DecidableEq, Repr

namespace Holding

/-- The claims of a site. -/
def claims (a : Holding) : List Claim := a.site.routes.map (Claim.mk a.number)

/-- The pins of some sites. -/
def pins (held : List Holding) : Trie.Pins := fun c reg m ↦
  ∃ a ∈ held, ∃ column, a.site.column = some column ∧
    (c = Route.slots a.site.stem ∧ reg = column.reg) ∧ column.mode.map Fin.val = some m

/-- The ranges of the numbers of some sites. -/
def ranges (c : Catalog) (held : List Holding) : Array (Option EncodingRange) :=
  held.foldl (fun r a ↦ Build.noteRange r a.owner a.number) (Build.empty c).ranges

theorem mem_claims {a : Holding} {x : Claim} :
    x ∈ a.claims ↔ x.number = a.number ∧ x.route ∈ a.site.routes := by
  rw [claims, List.mem_map]
  constructor
  · rintro ⟨r, hr, rfl⟩
    exact ⟨rfl, hr⟩
  · rintro ⟨hn, hr⟩
    exact ⟨x.route, hr, by rw [← hn]⟩

/-- The claims of the sites of one number. -/
theorem mem_claims_map {n owner : Nat} {part : List Site} {x : Claim} :
    x ∈ (part.map (Holding.mk n owner)).flatMap claims ↔
      x.number = n ∧ x.route ∈ part.flatMap Site.routes := by
  simp only [List.mem_flatMap, List.mem_map]
  constructor
  · rintro ⟨_, ⟨s, hs, rfl⟩, hx⟩
    obtain ⟨hn, hr⟩ := mem_claims.mp hx
    exact ⟨hn, s, hs, hr⟩
  · rintro ⟨hn, s, hs, hr⟩
    exact ⟨_, ⟨s, hs, rfl⟩, mem_claims.mpr ⟨hn, hr⟩⟩

/-- Routes that are clear of a record are clear of its beginning. -/
theorem clear_left {held part : List Holding} {routes : List (List Step)}
    (h : Clear ((held ++ part).flatMap claims) routes) : Clear (held.flatMap claims) routes := by
  rw [List.flatMap_append] at h
  exact (clear_append_iff.mp h).1

theorem pins_concat (held : List Holding) (a : Holding) (c : List Nat) (reg : Fin 8) (m : Nat) :
    a.site.pin (pins held) c reg m ↔ pins (held ++ [a]) c reg m := by
  have hsplit : pins (held ++ [a]) c reg m ↔ pins held c reg m ∨
      ∃ column, a.site.column = some column ∧
        (c = Route.slots a.site.stem ∧ reg = column.reg) ∧ column.mode.map Fin.val = some m := by
    simp only [pins, List.mem_append, List.mem_singleton, or_and_right, exists_or,
      exists_eq_left]
  rw [hsplit, Site.pin]
  cases a.site.column with
  | none => simp
  | some column => simp [Trie.Pins.add]

theorem ranges_append (c : Catalog) (held part : List Holding) :
    ranges c (held ++ part) =
      part.foldl (fun r a ↦ Build.noteRange r a.owner a.number) (ranges c held) :=
  List.foldl_append

/-- The ranges do not depend on the order of the sites. -/
theorem ranges_perm (c : Catalog) {held held' : List Holding} (h : held.Perm held') :
    ranges c held = ranges c held' :=
  h.foldl_eq' (fun a _ b _ r ↦ Build.noteRange_comm r a.owner a.number b.owner b.number) _

end Holding

/-! ## Records -/

namespace Build

/-- **What a build holds.** -/
structure Holds (c : Catalog) (b : Build) (held : List Holding) : Prop where
  /-- The references are in order. -/
  wellLinked : b.trie.WellLinked
  /-- Beside the root stands what the claims want, and nothing else. -/
  view : ∀ path v, b.trie.view path = some v ↔
    path = [] ∧ v = .table .opcode ∨ ∃ a ∈ held.flatMap Holding.claims, a.wants path = some v
  /-- The ranges are those of the numbers. -/
  ranges_eq : b.ranges = Holding.ranges c held

/-- **What a build has recorded**, when all its sites have been filled whole. -/
structure Records (c : Catalog) (b : Build) (held : List Holding) : Prop
    extends Holds c b held where
  /-- Columns share by the pins. -/
  sharing : b.trie.Sharing (Holding.pins held)

theorem records_empty (c : Catalog) : Records c (empty c) [] where
  wellLinked := Trie.wellLinked_empty
  view path v := by
    simp only [List.flatMap_nil, List.not_mem_nil, false_and, exists_false, or_false]
    cases path with
    | nil => simp [empty, Trie.view, show Trie.empty.kind Trie.root = .opcode from rfl, eq_comm]
    | cons i path =>
      have hempty : (empty c).trie.slot ⟨Trie.root, i⟩ = .empty := Node.slot_new _ _
      simp [Trie.view, Trie.slotAt, hempty]
  sharing := Trie.sharing_empty.congr fun c reg m ↦ by simp [Holding.pins]
  ranges_eq := rfl

theorem holds_empty (c : Catalog) : Holds c (empty c) [] := (records_empty c).toHolds

namespace Holds

variable {c : Catalog} {b : Build} {held : List Holding} (h : Holds c b held)

include h

/-- The trie agrees with the claims. -/
theorem agrees : Agrees b.trie.view (held.flatMap Holding.claims) where
  view_of_wants ha hv := (h.view _ _).mpr (.inr ⟨_, ha, hv⟩)
  exists_claim {path n} hv := by
    rcases (h.view _ _).mp hv with ⟨-, hv⟩ | ⟨a, ha, hv⟩
    · cases hv
    · obtain ⟨rfl, rfl⟩ := Route.wants_eq_leaf_iff.mp hv
      exact ⟨a, ha, rfl, rfl⟩

/-- A number in a slot of the trie is that of a claim on record. -/
theorem exists_claim_of_slot {p : Position} {n : Nat} (hp : b.trie.slot p = .leaf n) :
    ∃ x ∈ held.flatMap Holding.claims, x.number = n := by
  obtain ⟨path, hpath⟩ :=
    h.wellLinked.reached (Trie.lt_of_slot_ne_empty (hp.trans_ne Slot.noConfusion)).1
  have hview : b.trie.view (path ++ [p.slot]) = some (.leaf n) := by
    rw [Trie.view, Trie.slotAt_concat, hpath, Trie.enter_node, hp, Trie.content_leaf]
  obtain ⟨x, hx, hn, -⟩ := h.agrees.exists_claim hview
  exact ⟨x, hx, hn⟩

/-- Below every table stands a number. -/
theorem fruitful (i : Nat) : Fruitful b.trie.view [i] := by
  intro p k hv
  rcases (h.view _ _).mp hv with ⟨hp, -⟩ | ⟨a, ha, hv⟩
  · exact absurd hp (List.cons_ne_nil _ _)
  · obtain ⟨q, hq⟩ := Route.exists_slots_of_wants hv
    refine ⟨q, a.number, (h.view _ _).mpr (.inr ⟨a, ha, ?_⟩)⟩
    rw [← hq]
    exact Route.wants_slots _ _

/-- The routes on record are equal, or clash nowhere. -/
theorem compatible {x y : Claim} (hx : x ∈ held.flatMap Holding.claims)
    (hy : y ∈ held.flatMap Holding.claims) :
    x.route = y.route ∨ Route.clash y.number x.route y.route = none :=
  Route.eq_or_clash_eq_none [] (fun _ _ hp ↦ h.agrees.view_of_wants hx hp)
    fun _ _ hp ↦ h.agrees.view_of_wants hy hp

/-- Further sites are on record when what their routes want has been added and their number is
noted. -/
theorem append {n owner : Nat} {part : List Site} {b' : Build} (hl : b'.trie.WellLinked)
    (hv : ∀ path v, b'.trie.view path = some v ↔
      b.trie.view path = some v ∨ ∃ r ∈ part.flatMap Site.routes, Route.wants n r path = some v)
    (hr : b'.ranges = part.foldl (fun r _ ↦ noteRange r owner n) b.ranges) :
    Holds c b' (held ++ part.map (Holding.mk n owner)) where
  wellLinked := hl
  view path v := by
    rw [hv, h.view, or_assoc]
    refine or_congr_right ?_
    simp only [List.flatMap_append, List.mem_append, or_and_right, exists_or]
    refine or_congr_right ⟨?_, ?_⟩
    · rintro ⟨r, hr, hv⟩
      exact ⟨⟨n, r⟩, Holding.mem_claims_map.mpr ⟨rfl, hr⟩, hv⟩
    · rintro ⟨x, hx, hwants⟩
      obtain ⟨rfl, hroute⟩ := Holding.mem_claims_map.mp hx
      exact ⟨x.route, hroute, hwants⟩
  ranges_eq := by rw [hr, h.ranges_eq, Holding.ranges_append, List.foldl_map]

/-- **A further site**, when it is filled: its routes are clear of the record. -/
theorem concat {a : Holding} (ha : a.site.opcode ≠ []) {b' : Build}
    (hok : fill a.number a.owner a.site b = .ok () b') :
    Holds c b' (held ++ [a]) ∧ Clear (held.flatMap Holding.claims) a.site.routes := by
  obtain ⟨hf, hranges⟩ := filled_of_fill h.wellLinked ha hok
  have hview (path : List Nat) (v : Content) : b'.trie.view path = some v ↔
      b.trie.view path = some v ∨ ∃ r ∈ [a.site].flatMap Site.routes,
        Route.wants a.number r path = some v := by
    rw [hf.view, List.flatMap_singleton]
  exact ⟨h.append hf.wellLinked hview hranges, h.agrees.clear_of_free hf.free⟩

/-- A further site, when it cannot be filled: the clash is the first one of its routes with the
record. -/
theorem firstClash {a : Holding} (ha : a.site.opcode ≠ []) {b' : Build} {e : Clash}
    (herr : fill a.number a.owner a.site b = .error e b') :
    FirstClash (held.flatMap Holding.claims) a.site.routes e := by
  obtain ⟨pre, r, post, hr, hfree, hobs⟩ := (blocked_of_fill h.wellLinked ha h.fruitful herr).1
  exact ⟨pre, r, post, hr, h.agrees.clear_of_free hfree, h.agrees.exists_clash_of_obstructed hobs⟩

/-- **What a site leaves behind** that cannot be filled: a part of it, whose routes are clear of the
record. -/
theorem exists_part {a : Holding} (ha : a.site.opcode ≠ []) {b' : Build} {e : Clash}
    (herr : fill a.number a.owner a.site b = .error e b') :
    ∃ part : List Site, Holds c b' (held ++ part.map (Holding.mk a.number a.owner)) ∧
      Clear (held.flatMap Holding.claims) (part.flatMap Site.routes) ∧
      ∀ r ∈ part.flatMap Site.routes, r ∈ a.site.routes := by
  obtain ⟨part, hp⟩ := (blocked_of_fill h.wellLinked ha h.fruitful herr).2
  exact ⟨part, h.append hp.wellLinked hp.view hp.ranges_eq, h.agrees.clear_of_free hp.free,
    hp.routes_subset⟩

end Holds

/-- A further site on a record, when it is filled. -/
theorem Records.concat {c : Catalog} {b b' : Build} {held : List Holding} (h : Records c b held)
    {a : Holding} (ha : a.site.opcode ≠ []) (hok : fill a.number a.owner a.site b = .ok () b') :
    Records c b' (held ++ [a]) := by
  have hf := (filled_of_fill h.wellLinked ha hok).1
  exact ⟨(h.toHolds.concat ha hok).1, (hf.sharing h.sharing).congr (Holding.pins_concat held a)⟩

end Build

end DecodeTrie
