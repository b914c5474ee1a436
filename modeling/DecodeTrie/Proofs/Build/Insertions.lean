import DecodeTrie.Proofs.Build.Records
import DecodeTrie.Proofs.Build.Routes

/-!
# Inserting encodings

Inserting an encoding fills its sites. It succeeds exactly if its register numbers fit behind the
opcode byte and its routes are clear of the claims on record (`insert_ok`, `exists_insert_ok`); then
its sites are on record. Otherwise the error is the first clash of its routes, in the order in which
they are completed, with a claim that was on record before (`insertEncoding_error`): an encoding
clashes with no claim of its own. What a failing insertion leaves behind is on record as well, as
parts of its sites (`Holds.of_forM_error`).

So a whole list of insertions succeeds exactly if every encoding fits and the routes of any two
encodings are compatible (`insertList_ok_iff`).
-/

namespace DecodeTrie

/-! ## Encodings -/

/-- The register numbers of an encoding fit behind its opcode byte. -/
def Descriptor.Fits (d : Descriptor) (flags : KeyFlags) : Prop :=
  d.form.last.toNat + flags.replicas ≤ 256

/-- The sites of an encoding, as they are filled. -/
def Encoding.holdings (e : Encoding) (d : Descriptor) (flags : KeyFlags) : List Holding :=
  (d.sites flags).map (Holding.mk e.number e.insn)

theorem Encoding.mem_claims_holdings {e : Encoding} {d : Descriptor} {flags : KeyFlags}
    {x : Claim} :
    x ∈ (e.holdings d flags).flatMap Holding.claims ↔
      x.number = e.number ∧ x.route ∈ d.routes flags :=
  Holding.mem_claims_map

namespace Build

section insertEncoding

variable {c : Catalog} {steering : Steering} {e : Encoding} {d : Descriptor} {flags : KeyFlags}
  {b b' : Build} {held : List Holding}

/-- The sites that are done are on record, and clear of what was there before. -/
theorem holds_step {done rest : List Site} {s : Site} {b₁ b₂ : Build}
    (hl : d.sites flags = done ++ s :: rest)
    (hI : Holds c b₁ (held ++ done.map (Holding.mk e.number e.insn)) ∧
      Clear (held.flatMap Holding.claims) (done.flatMap Site.routes))
    (hok : fill e.number e.insn s b₁ = .ok () b₂) :
    Holds c b₂ (held ++ (done ++ [s]).map (Holding.mk e.number e.insn)) ∧
      Clear (held.flatMap Holding.claims) ((done ++ [s]).flatMap Site.routes) := by
  have hs : s ∈ d.sites flags := by rw [hl]; simp
  obtain ⟨hholds, hclear⟩ := hI.1.concat (a := ⟨e.number, e.insn, s⟩)
    (Descriptor.opcode_ne_nil_of_mem_sites hs) hok
  constructor
  · simpa using hholds
  · rw [List.flatMap_append, List.flatMap_singleton]
    exact hI.2.append (Holding.clear_left hclear)

/-- Filling the sites of an encoding, when it succeeds, puts them on record. -/
theorem Holds.of_forM_ok (h : Holds c b held)
    (hok : (d.sites flags).forM (fill e.number e.insn) b = .ok () b') :
    Holds c b' (held ++ e.holdings d flags) ∧
      Clear (held.flatMap Holding.claims) (d.routes flags) :=
  forM_ok (I := fun done b₁ ↦ Holds c b₁ (held ++ done.map (Holding.mk e.number e.insn)) ∧
      Clear (held.flatMap Holding.claims) (done.flatMap Site.routes))
    (fun hl hI hok ↦ holds_step hl hI hok)
    ⟨by simpa using h, fun r hr ↦ absurd hr List.not_mem_nil⟩ hok

/-- The sites of an encoding are on a record that had whole sites before. -/
theorem Records.of_forM_ok (h : Records c b held)
    (hok : (d.sites flags).forM (fill e.number e.insn) b = .ok () b') :
    Records c b' (held ++ e.holdings d flags) := by
  refine forM_ok (I := fun done b₁ ↦ Records c b₁ (held ++ done.map (Holding.mk e.number e.insn)))
    (fun {done s rest b₁ b₂} hl hI hok ↦ ?_) (by simpa using h) hok
  have hs : s ∈ d.sites flags := by rw [hl]; simp
  simpa using hI.concat (a := ⟨e.number, e.insn, s⟩)
    (Descriptor.opcode_ne_nil_of_mem_sites hs) hok

/-- The first clash of a site, when the sites before it have been clear of a record, is the first
clash of the encoding with that record. With the sites before it it cannot clash. -/
theorem firstClash_of_site {done rest : List Site} {s : Site} {clash : Clash}
    (hl : d.sites flags = done ++ s :: rest)
    (hclear : Clear (held.flatMap Holding.claims) (done.flatMap Site.routes))
    (hs : FirstClash
      ((held ++ done.map (Holding.mk e.number e.insn)).flatMap Holding.claims) s.routes clash) :
    FirstClash (held.flatMap Holding.claims) (d.routes flags) clash := by
  obtain ⟨pre, r, post, hr, hpre, x, hx, hclash⟩ := hs
  have hroutes : d.routes flags =
      (done.flatMap Site.routes ++ pre) ++ r :: (post ++ rest.flatMap Site.routes) := by
    simp [Descriptor.routes, hl, hr]
  refine ⟨_, r, _, hroutes, hclear.append (Holding.clear_left hpre), x, ?_, hclash⟩
  rw [List.flatMap_append] at hx
  rcases List.mem_append.mp hx with hx | hx
  · exact hx
  · -- A claim of its own does not clash, for it is another route.
    have hxr := (Holding.mem_claims_map.mp hx).2
    have hnodup := d.nodup_routes flags
    rw [hroutes] at hnodup
    have hne : r ≠ x.route := by
      rintro rfl
      exact (List.nodup_append.mp hnodup).2.2 _ (List.mem_append_left _ hxr) _
        List.mem_cons_self rfl
    have hmem : r ∈ d.routes flags ∧ x.route ∈ d.routes flags := by simp [hroutes, hxr]
    rw [Descriptor.clash_eq_none_of_mem_routes hmem.1 hmem.2 hne] at hclash
    cases hclash

/-- Filling the sites of an encoding, when it fails: the clash is the first one with a claim that
was on record before. The sites before the failing one stay, and a part of that one. -/
theorem Holds.of_forM_error (h : Holds c b held) {clash : Clash}
    (herr : (d.sites flags).forM (fill e.number e.insn) b = .error clash b') :
    FirstClash (held.flatMap Holding.claims) (d.routes flags) clash ∧
      ∃ part : List Site, Holds c b' (held ++ part.map (Holding.mk e.number e.insn)) ∧
        Clear (held.flatMap Holding.claims) (part.flatMap Site.routes) ∧
        ∀ r ∈ part.flatMap Site.routes, r ∈ d.routes flags := by
  obtain ⟨done, s, rest, b₁, hl, ⟨hholds, hclear⟩, hs⟩ := forM_error (I := fun done b₁ ↦
    Holds c b₁ (held ++ done.map (Holding.mk e.number e.insn)) ∧
      Clear (held.flatMap Holding.claims) (done.flatMap Site.routes))
    (fun hl hI hok ↦ holds_step hl hI hok)
    ⟨by simpa using h, fun r hr ↦ absurd hr List.not_mem_nil⟩ herr
  have hne : s.opcode ≠ [] := Descriptor.opcode_ne_nil_of_mem_sites (d := d) (by rw [hl]; simp)
  refine ⟨firstClash_of_site hl hclear (hholds.firstClash (a := ⟨e.number, e.insn, s⟩) hne hs), ?_⟩
  obtain ⟨part, hpart, hpartClear, hsub⟩ :=
    hholds.exists_part (a := ⟨e.number, e.insn, s⟩) hne hs
  refine ⟨done ++ part, by simpa using hpart, ?_, fun r hr ↦ ?_⟩
  · rw [List.flatMap_append]
    exact hclear.append (Holding.clear_left hpartClear)
  · rw [Descriptor.routes, hl, List.flatMap_append, List.flatMap_cons]
    rw [List.flatMap_append] at hr
    rcases List.mem_append.mp hr with hr | hr
    · exact List.mem_append_left _ hr
    · exact List.mem_append_right _ (List.mem_append_left _ (hsub r hr))

/-- An insertion that succeeds has filled the sites of the encoding. -/
theorem forM_of_insertEncoding_ok (hok : insertEncoding c steering e d b = .ok () b') :
    d.Fits (steering.flags e.tags) ∧
      (d.sites (steering.flags e.tags)).forM (fill e.number e.insn) b = .ok () b' := by
  rw [insertEncoding] at hok
  split at hok
  · cases hok
  · next hfits =>
    split at hok
    · next hloop =>
      cases hok
      exact ⟨Nat.le_of_not_lt hfits, hloop⟩
    · cases hok

/-- An insertion that fails has changed nothing, because the register numbers do not fit, or it has
failed to fill the sites of the encoding. -/
theorem forM_of_insertEncoding_error {err : CompileError}
    (herr : insertEncoding c steering e d b = .error err b') :
    (¬ d.Fits (steering.flags e.tags) ∧
        err = .registerBaseOverflow (c.insnName e.insn) e.opcode ∧ b' = b) ∨
      d.Fits (steering.flags e.tags) ∧ ∃ clash, err = Clash.report c e clash ∧
        (d.sites (steering.flags e.tags)).forM (fill e.number e.insn) b = .error clash b' := by
  rw [insertEncoding] at herr
  split at herr
  · next hfits =>
    cases herr
    exact .inl ⟨Nat.not_le_of_lt hfits, rfl, rfl⟩
  · next hfits =>
    split at herr
    · cases herr
    · next clash _ hloop =>
      cases herr
      exact .inr ⟨Nat.le_of_not_lt hfits, clash, rfl, hloop⟩

/-- **Inserting an encoding**, when it succeeds. -/
theorem insertEncoding_ok (h : Records c b held)
    (hok : insertEncoding c steering e d b = .ok () b') :
    d.Fits (steering.flags e.tags) ∧
      Clear (held.flatMap Holding.claims) (d.routes (steering.flags e.tags)) ∧
      Records c b' (held ++ e.holdings d (steering.flags e.tags)) := by
  obtain ⟨hfits, hloop⟩ := forM_of_insertEncoding_ok hok
  exact ⟨hfits, (h.toHolds.of_forM_ok hloop).2, h.of_forM_ok hloop⟩

/-- **Inserting an encoding**, when it fails: the register numbers do not fit, or the error is the
first clash with a claim that was on record before. -/
theorem insertEncoding_error (h : Records c b held) {err : CompileError}
    (herr : insertEncoding c steering e d b = .error err b') :
    ¬ d.Fits (steering.flags e.tags) ∧
        err = .registerBaseOverflow (c.insnName e.insn) e.opcode ∨
      d.Fits (steering.flags e.tags) ∧ ∃ clash, err = Clash.report c e clash ∧
        FirstClash (held.flatMap Holding.claims) (d.routes (steering.flags e.tags)) clash := by
  rcases forM_of_insertEncoding_error herr with ⟨hno, rfl, -⟩ | ⟨hfits, clash, rfl, hloop⟩
  · exact .inl ⟨hno, rfl⟩
  · exact .inr ⟨hfits, clash, rfl, (h.toHolds.of_forM_error hloop).1⟩

end insertEncoding

end Build

/-! ## Lists of insertions -/

namespace Insertion

section

variable (c : Catalog) (steering : Steering)

/-- The insertion is of an encoding of the catalog, and its register numbers fit. -/
def Admissible (i : Insertion) : Prop :=
  ∃ e, c.encodings[i.number]? = some e ∧ i.descriptor.Fits (steering.flags e.tags)

/-- The routes of an insertion. -/
def routes (i : Insertion) : List (List Step) :=
  match c.encodings[i.number]? with
  | some e => i.descriptor.routes (steering.flags e.tags)
  | none => []

/-- The sites of an insertion, as they are filled. -/
def holdings (i : Insertion) : List Holding :=
  match c.encodings[i.number]? with
  | some e => e.holdings i.descriptor (steering.flags e.tags)
  | none => []

/-- No route of one insertion clashes with a route of another. -/
def Compatible (i j : Insertion) : Prop :=
  ∀ r ∈ i.routes c steering, ∀ r' ∈ j.routes c steering, Route.clash 0 r r' = none

end

variable {c : Catalog} {steering : Steering} {i j : Insertion}

theorem mem_routes_of_mem_claims {x : Claim}
    (h : x ∈ (i.holdings c steering).flatMap Holding.claims) : x.route ∈ i.routes c steering := by
  rw [holdings] at h
  rw [routes]
  split at h
  · next he => exact (Encoding.mem_claims_holdings.mp h).2
  · exact absurd h List.not_mem_nil

theorem exists_claim_of_mem_routes {r : List Step} (h : r ∈ i.routes c steering) :
    ∃ x ∈ (i.holdings c steering).flatMap Holding.claims, x.route = r := by
  rw [routes] at h
  rw [holdings]
  split at h
  · next e he => exact ⟨⟨e.number, r⟩, Encoding.mem_claims_holdings.mpr ⟨rfl, h⟩, rfl⟩
  · exact absurd h List.not_mem_nil

/-- Compatibility is clearness of the claims that the earlier insertion makes. -/
theorem compatible_iff_clear :
    Compatible c steering i j ↔
      Clear ((i.holdings c steering).flatMap Holding.claims) (j.routes c steering) := by
  constructor
  · intro h r hr x hx
    exact Route.clash_eq_none_comm (h _ (mem_routes_of_mem_claims hx) r hr)
  · intro h r hr r' hr'
    obtain ⟨x, hx, rfl⟩ := exists_claim_of_mem_routes hr
    exact Route.clash_eq_none_comm (h r' hr' x hx)

theorem Compatible.symm (h : Compatible c steering i j) : Compatible c steering j i :=
  fun r hr r' hr' ↦ Route.clash_eq_none_comm (h r' hr' r hr)

end Insertion

namespace Build

variable {c : Catalog} {steering : Steering} {b b' : Build} {held : List Holding}

/-- An insertion that succeeds is of an encoding of the catalog. -/
theorem insertEncoding_of_insert_ok {i : Insertion}
    (hok : insert c steering i.number i.descriptor b = .ok () b') :
    ∃ e, c.encodings[i.number]? = some e ∧
      insertEncoding c steering e i.descriptor b = .ok () b' := by
  rw [insert] at hok
  split at hok
  · next e he => exact ⟨e, he, hok⟩
  · cases hok

/-- One insertion of a list, when it succeeds. -/
theorem insert_ok (h : Records c b held) {i : Insertion}
    (hok : insert c steering i.number i.descriptor b = .ok () b') :
    i.Admissible c steering ∧ Clear (held.flatMap Holding.claims) (i.routes c steering) ∧
      Records c b' (held ++ i.holdings c steering) := by
  obtain ⟨e, he, hins⟩ := insertEncoding_of_insert_ok hok
  obtain ⟨hfits, hclear, hrec⟩ := insertEncoding_ok h hins
  rw [Insertion.routes, Insertion.holdings, he]
  exact ⟨⟨e, he, hfits⟩, hclear, hrec⟩

/-- An insertion that fits and is clear of the claims on record succeeds. -/
theorem exists_insert_ok (h : Records c b held) {i : Insertion} (ha : i.Admissible c steering)
    (hclear : Clear (held.flatMap Holding.claims) (i.routes c steering)) :
    ∃ b', insert c steering i.number i.descriptor b = .ok () b' := by
  obtain ⟨e, he, hfits⟩ := ha
  rw [Insertion.routes, he] at hclear
  simp only [insert, he]
  cases hins : insertEncoding c steering e i.descriptor b with
  | ok u b' => exact ⟨b', rfl⟩
  | error err b' =>
    rcases insertEncoding_error h hins with ⟨hno, -⟩ | ⟨-, clash, -, hfirst⟩
    · exact absurd hfits hno
    · exact absurd hclear hfirst.not_clear

theorem insertList_cons_ok {i : Insertion} {history : List Insertion} :
    insertList c steering (i :: history) b = .ok () b' ↔
      ∃ b₁, insert c steering i.number i.descriptor b = .ok () b₁ ∧
        insertList c steering history b₁ = .ok () b' := by
  rw [insertList]
  cases hins : insert c steering i.number i.descriptor b with
  | ok u b₁ => simp [hins]
  | error e b₁ => simp [hins]

/-- **A list of insertions that succeeds** puts its sites on record. -/
theorem records_of_insertList {history : List Insertion} (h : Records c b held)
    (hok : insertList c steering history b = .ok () b') :
    Records c b' (held ++ history.flatMap (Insertion.holdings c steering)) := by
  induction history generalizing b held with
  | nil =>
    cases hok
    simpa using h
  | cons i history ih =>
    obtain ⟨b₁, hi, hok⟩ := insertList_cons_ok.mp hok
    simpa using ih (insert_ok h hi).2.2 hok

/-- **When a list of insertions succeeds**: every one is admissible and clear of the claims on
record, and any two are compatible. -/
theorem insertList_ok_iff {history : List Insertion} (h : Records c b held) :
    (∃ b', insertList c steering history b = .ok () b') ↔
      (∀ i ∈ history, i.Admissible c steering ∧
        Clear (held.flatMap Holding.claims) (i.routes c steering)) ∧
      history.Pairwise (Insertion.Compatible c steering) := by
  induction history generalizing b held with
  | nil => exact ⟨fun _ ↦ ⟨fun i hi ↦ absurd hi List.not_mem_nil, .nil⟩, fun _ ↦ ⟨b, rfl⟩⟩
  | cons i history ih =>
    rw [List.forall_mem_cons, List.pairwise_cons]
    constructor
    · rintro ⟨b', hok⟩
      obtain ⟨b₁, hi, hok⟩ := insertList_cons_ok.mp hok
      obtain ⟨ha, hclear, hrec⟩ := insert_ok h hi
      obtain ⟨hall, hpair⟩ := (ih hrec).mp ⟨b', hok⟩
      rw [List.flatMap_append] at hall
      refine ⟨⟨⟨ha, hclear⟩, fun j hj ↦ ⟨(hall j hj).1, ?_⟩⟩, fun j hj ↦ ?_, hpair⟩
      · exact (clear_append_iff.mp (hall j hj).2).1
      · exact Insertion.compatible_iff_clear.mpr (clear_append_iff.mp (hall j hj).2).2
    · rintro ⟨⟨⟨ha, hclear⟩, hall⟩, hcompat, hpair⟩
      obtain ⟨b₁, hi⟩ := exists_insert_ok h ha hclear
      have hrec := (insert_ok h hi).2.2
      -- The later ones are clear of what was on record and of what has just been added.
      have hnext : ∀ j ∈ history, j.Admissible c steering ∧ Clear
          ((held ++ i.holdings c steering).flatMap Holding.claims) (j.routes c steering) := by
        intro j hj
        rw [List.flatMap_append]
        exact ⟨(hall j hj).1, clear_append_iff.mpr
          ⟨(hall j hj).2, Insertion.compatible_iff_clear.mp (hcompat j hj)⟩⟩
      obtain ⟨b', hok⟩ := (ih hrec).mpr ⟨hnext, hpair⟩
      exact ⟨b', insertList_cons_ok.mpr ⟨b₁, hi, hok⟩⟩

/-- A list of insertions into a fresh build succeeds at every step. -/
def Accepts (c : Catalog) (steering : Steering) (history : List Insertion) : Prop :=
  ∃ b, insertList c steering history (empty c) = .ok () b

instance (c : Catalog) (steering : Steering) (history : List Insertion) :
    Decidable (Accepts c steering history) :=
  match h : insertList c steering history (empty c) with
  | .ok _ b => isTrue ⟨b, h⟩
  | .error _ _ => isFalse fun ⟨_, hok⟩ ↦ by cases h.symm.trans hok

theorem accepts_iff {history : List Insertion} :
    Accepts c steering history ↔ (∀ i ∈ history, i.Admissible c steering) ∧
      history.Pairwise (Insertion.Compatible c steering) := by
  rw [Accepts, insertList_ok_iff (records_empty c)]
  refine and_congr_left' (forall₂_congr fun i _ ↦ and_iff_left ?_)
  exact fun r _ x hx ↦ absurd hx List.not_mem_nil

end Build

end DecodeTrie
