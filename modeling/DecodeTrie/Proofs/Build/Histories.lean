import DecodeTrie.Compile
import DecodeTrie.Proofs.Build.Insertions
import DecodeTrie.Proofs.Catalog.Numbering

/-!
# What histories leave behind

An insertion puts sites on record, whether it succeeds or not. When it succeeds, these are the sites
of the encoding; when it fails, they are those that had been filled before and parts of the failing
one; and when the register numbers do not fit, or the encoding is unknown, there are none
(`Holds.exists_of_outcome`). So after any history a build holds sites that its insertions have left
behind (`exists_holds`).

This is the one invariant of builds in which insertions may have failed.
-/

namespace DecodeTrie

/-- The insertion can leave a site behind: the number and the owner are those of its encoding, and
the routes are routes of its encoding. -/
def Insertion.Leaves (c : Catalog) (steering : Steering) (i : Insertion) (a : Holding) : Prop :=
  ∃ e, c.encodings[i.number]? = some e ∧ a.number = e.number ∧ a.owner = e.insn ∧
    ∀ r ∈ a.site.routes, r ∈ i.descriptor.routes (steering.flags e.tags)

namespace Build

section

variable {c : Catalog} {steering : Steering} {b b' : Build} {held : List Holding}

/-- The routes of parts of a site are left behind by the insertion that fills the site. -/
theorem leaves_of_routes {i : Insertion} {e : Encoding} (he : c.encodings[i.number]? = some e)
    {part : List Site}
    (h : ∀ r ∈ part.flatMap Site.routes, r ∈ i.descriptor.routes (steering.flags e.tags)) :
    ∀ a ∈ part.map (Holding.mk e.number e.insn), i.Leaves c steering a := by
  intro a ha
  obtain ⟨s, hs, rfl⟩ := List.mem_map.mp ha
  exact ⟨e, he, rfl, rfl, fun r hr ↦ h r (List.mem_flatMap.mpr ⟨s, hs, hr⟩)⟩

/-- **An insertion that succeeds** puts its sites on record, and they are clear of what was
there. -/
theorem Holds.of_insert_ok (h : Holds c b held) {i : Insertion}
    (hok : insert c steering i.number i.descriptor b = .ok () b') :
    Holds c b' (held ++ i.holdings c steering) ∧
      Clear (held.flatMap Holding.claims)
        ((i.holdings c steering).flatMap fun a ↦ a.site.routes) := by
  obtain ⟨e, he, hins⟩ := insertEncoding_of_insert_ok hok
  obtain ⟨hholds, hclear⟩ := h.of_forM_ok (forM_of_insertEncoding_ok hins).2
  have hroutes : (e.holdings i.descriptor (steering.flags e.tags)).flatMap (fun a ↦ a.site.routes) =
      i.descriptor.routes (steering.flags e.tags) := List.flatMap_map ..
  simp only [Insertion.holdings, he, hroutes]
  exact ⟨hholds, hclear⟩

/-- The sites of an insertion that succeeds are left behind by it. -/
theorem leaves_of_insert_ok {i : Insertion}
    (hok : insert c steering i.number i.descriptor b = .ok () b') :
    ∀ a ∈ i.holdings c steering, i.Leaves c steering a := by
  obtain ⟨e, he, -⟩ := insertEncoding_of_insert_ok hok
  simp only [Insertion.holdings, he]
  exact leaves_of_routes he fun r hr ↦ hr

/-- **An insertion that fails** puts a part of its sites on record, which is clear of what was
there. -/
theorem Holds.of_insert_error (h : Holds c b held) {i : Insertion} {err : CompileError}
    (herr : insert c steering i.number i.descriptor b = .error err b') :
    ∃ part, Holds c b' (held ++ part) ∧ (∀ a ∈ part, i.Leaves c steering a) ∧
      Clear (held.flatMap Holding.claims) (part.flatMap fun a ↦ a.site.routes) := by
  have hnone : ∃ part, Holds c b (held ++ part) ∧ (∀ a ∈ part, i.Leaves c steering a) ∧
      Clear (held.flatMap Holding.claims) (part.flatMap fun a ↦ a.site.routes) :=
    ⟨[], by rwa [List.append_nil], fun a ha ↦ absurd ha List.not_mem_nil,
      fun r hr ↦ absurd hr List.not_mem_nil⟩
  rw [insert] at herr
  split at herr
  · next e he =>
    rcases forM_of_insertEncoding_error herr with ⟨-, -, rfl⟩ | ⟨-, clash, -, hloop⟩
    · exact hnone
    · obtain ⟨-, part, hpart, hclear, hroutes⟩ := h.of_forM_error hloop
      refine ⟨_, hpart, leaves_of_routes he hroutes, ?_⟩
      rw [List.flatMap_map]
      exact hclear
  · cases herr
    exact hnone

/-- What an insertion leaves behind, whatever its outcome. -/
theorem Holds.exists_of_outcome (h : Holds c b held) (steering : Steering) (i : Insertion) :
    ∃ part, Holds c (i.outcome c steering b).2 (held ++ part) ∧
      ∀ a ∈ part, i.Leaves c steering a := by
  cases hins : insert c steering i.number i.descriptor b with
  | ok u b' =>
    rw [Insertion.outcome, hins]
    exact ⟨i.holdings c steering, (h.of_insert_ok hins).1, leaves_of_insert_ok hins⟩
  | error err b' =>
    rw [Insertion.outcome, hins]
    obtain ⟨part, hpart, hleaves, -⟩ := h.of_insert_error hins
    exact ⟨part, hpart, hleaves⟩

end

/-- **After any history** a build holds sites that the insertions have left behind. -/
theorem exists_holds (c : Catalog) (steering : Steering) (history : List Insertion) :
    ∃ held, Holds c (after c steering history) held ∧
      ∀ a ∈ held, ∃ i ∈ history, i.Leaves c steering a := by
  induction history using List.reverseRecOn with
  | nil => exact ⟨[], holds_empty c, fun a ha ↦ absurd ha List.not_mem_nil⟩
  | append_singleton history i ih =>
    obtain ⟨held, hheld, hleft⟩ := ih
    obtain ⟨part, hpart, hleaves⟩ := hheld.exists_of_outcome steering i
    refine ⟨held ++ part, by rw [after_concat]; exact hpart, fun a ha ↦ ?_⟩
    rcases List.mem_append.mp ha with ha | ha
    · obtain ⟨j, hj, hja⟩ := hleft a ha
      exact ⟨j, List.mem_append_left _ hj, hja⟩
    · exact ⟨i, List.mem_append_right _ (List.mem_singleton.mpr rfl), hleaves a ha⟩

/-- The claims on record belong to insertions: the number is that of an encoding of the catalog, and
the route is a route of the encoding. -/
theorem exists_insertion_of_mem_claims {c : Catalog} {steering : Steering}
    {history : List Insertion} {held : List Holding}
    (hleft : ∀ a ∈ held, ∃ i ∈ history, i.Leaves c steering a) {x : Claim}
    (hx : x ∈ held.flatMap Holding.claims) :
    ∃ i ∈ history, ∃ e, c.encodings[i.number]? = some e ∧ x.number = e.number ∧
      x.route ∈ i.descriptor.routes (steering.flags e.tags) := by
  obtain ⟨a, ha, hxa⟩ := List.mem_flatMap.mp hx
  obtain ⟨hn, hr⟩ := Holding.mem_claims.mp hxa
  obtain ⟨i, hi, e, he, hae, -, hroutes⟩ := hleft a ha
  exact ⟨i, hi, e, he, hn.trans hae, hroutes _ hr⟩

/-- The numbers in a build of a catalog are numbers of its encodings. -/
theorem number_lt_of_mem_claims {c : Catalog} (hc : c.Numbered) {steering : Steering}
    {history : List Insertion} {held : List Holding}
    (hleft : ∀ a ∈ held, ∃ i ∈ history, i.Leaves c steering a) {x : Claim}
    (hx : x ∈ held.flatMap Holding.claims) : x.number < c.encodings.size := by
  obtain ⟨i, -, e, he, hn, -⟩ := exists_insertion_of_mem_claims hleft hx
  rw [hn, hc.number_eq he]
  exact (Array.getElem?_eq_some_iff.mp he).1

end Build

/-! ## A history with a failing insertion -/

/-- A catalog whose second encoding takes all modes of a register column in which the first one has
taken the last mode. -/
def takenMode : List CatalogStep :=
  [.add { name := "register", encodings := [{ opcode := "d9 /0 /mod_3" }] },
    .add { name := "any", encodings := [{ opcode := "d9 /0" }] }]

/-- The insertion of the first encoding of `takenMode`. -/
def takeLastMode : Insertion :=
  ⟨0, .optional, .optional, .oneByte 0xd9 none,
    some ⟨.only ⟨0, by decide⟩, .only ⟨3, by decide⟩⟩, none⟩

/-- The insertion of the second encoding of `takenMode`. Behind the first one it fails at the last
mode, when it has placed leaves at the others. -/
def takeEveryMode : Insertion :=
  ⟨1, .optional, .optional, .oneByte 0xd9 none, some ⟨.only ⟨0, by decide⟩, .any⟩, none⟩

example :
    (Catalog.after takenMode).encodings.toList.map
        (fun e ↦ (Descriptor.parse e.opcode).toOption.map (Insertion.mk e.number)) =
      [some takeLastMode, some takeEveryMode] := by
  decide +kernel

end DecodeTrie
