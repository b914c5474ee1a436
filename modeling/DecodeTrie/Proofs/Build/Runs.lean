import DecodeTrie.Compile
import DecodeTrie.Proofs.Build.Insertions
import DecodeTrie.Proofs.Catalog.Numbering

/-!
# The run of a compilation

`Build.insertAll` reads and inserts the encodings of a catalog one after the other. When it
succeeds, it is a list of insertions that succeeds (`insertAll_ok`); when it fails, it has succeeded
for the encodings before the failing one (`insertAll_error`).
-/

namespace DecodeTrie

/-- The insertion of an encoding under a descriptor. -/
def Encoding.insertion (e : Encoding) (d : Descriptor) : Insertion := ⟨e.number, d⟩

namespace Build

variable {c : Catalog} {steering : Steering} {b b' : Build}

theorem insertAll_cons (e : Encoding) (es : List Encoding) :
    insertAll c steering (e :: es) b =
      match c.descriptor e with
      | .error err => .error err b
      | .ok d =>
        match insert c steering e.number d b with
        | .error err b => .error err b
        | .ok _ b =>
          match insertAll c steering es b with
          | .error err b => .error err b
          | .ok ds b => .ok (d :: ds) b := rfl

/-- **A run that succeeds** has read every pattern and is a list of insertions. -/
theorem insertAll_ok {es : List Encoding} {ds : List Descriptor}
    (h : insertAll c steering es b = .ok ds b') :
    List.Forall₂ (fun e d ↦ c.descriptor e = .ok d) es ds ∧
      insertList c steering (List.zipWith Encoding.insertion es ds) b = .ok () b' := by
  induction es generalizing b ds with
  | nil =>
    cases h
    exact ⟨.nil, rfl⟩
  | cons e es ih =>
    rw [insertAll_cons] at h
    split at h
    · cases h
    · next d hd =>
      split at h
      · cases h
      · next b₁ hins =>
        split at h
        · cases h
        · next ds' b₂ hrest =>
          cases h
          obtain ⟨hds, hlist⟩ := ih hrest
          exact ⟨.cons hd hds, insertList_cons_ok.mpr ⟨b₁, hins, hlist⟩⟩

/-- **A run that fails** has succeeded up to the failing encoding. -/
theorem insertAll_error {es : List Encoding} {err : CompileError}
    (h : insertAll c steering es b = .error err b') :
    ∃ done e rest ds b₁, es = done ++ e :: rest ∧ insertAll c steering done b = .ok ds b₁ ∧
      (c.descriptor e = .error err ∨
        ∃ d, c.descriptor e = .ok d ∧ insert c steering e.number d b₁ = .error err b') := by
  induction es generalizing b with
  | nil => cases h
  | cons e es ih =>
    rw [insertAll_cons] at h
    split at h
    · next hd =>
      cases h
      exact ⟨[], e, es, [], _, rfl, rfl, .inl hd⟩
    · next d hd =>
      split at h
      · next hins =>
        cases h
        exact ⟨[], e, es, [], b, rfl, rfl, .inr ⟨d, hd, hins⟩⟩
      · next b₁ hins =>
        split at h
        · next hrest =>
          cases h
          obtain ⟨done, e', rest, ds, b₂, rfl, hdone, hfail⟩ := ih hrest
          refine ⟨e :: done, e', rest, d :: ds, b₂, rfl, ?_, hfail⟩
          simp only [insertAll_cons, hd, hins, hdone]
        · cases h

/-! ## What a run has put on record -/

/-- The sites on record after a run, by the encodings that they belong to. -/
theorem mem_holdings_of_run {c : Catalog} (steering : Steering) {es : List Encoding}
    {ds : List Descriptor} (hes : ∀ e ∈ es, c.encodings[e.number]? = some e)
    (hds : List.Forall₂ (fun e d ↦ c.descriptor e = .ok d) es ds) (a : Holding) :
    a ∈ (List.zipWith Encoding.insertion es ds).flatMap (Insertion.holdings c steering) ↔
      ∃ e ∈ es, ∃ d, c.descriptor e = .ok d ∧ a ∈ e.holdings d (steering.flags e.tags) := by
  induction hds with
  | nil => simp
  | @cons e d es ds hd hds ih =>
    have hholdings : (e.insertion d).holdings c steering =
        e.holdings d (steering.flags e.tags) := by
      rw [Insertion.holdings, Encoding.insertion, hes e List.mem_cons_self]
    rw [List.zipWith_cons_cons, List.flatMap_cons, List.mem_append, hholdings,
      ih fun e he ↦ hes e (List.mem_cons_of_mem _ he), List.exists_mem_cons_iff]
    refine or_congr_left ⟨fun ha ↦ ⟨d, hd, ha⟩, ?_⟩
    rintro ⟨d', hd', ha⟩
    rw [hd] at hd'
    cases hd'
    exact ha

/-- The claims on record after a run, by the encodings that made them. -/
theorem mem_claims_of_run {c : Catalog} (steering : Steering) {es : List Encoding}
    {ds : List Descriptor} (hes : ∀ e ∈ es, c.encodings[e.number]? = some e)
    (hds : List.Forall₂ (fun e d ↦ c.descriptor e = .ok d) es ds) (x : Claim) :
    x ∈ ((List.zipWith Encoding.insertion es ds).flatMap (Insertion.holdings c steering)).flatMap
        Holding.claims ↔
      ∃ e ∈ es, ∃ d, c.descriptor e = .ok d ∧
        x ∈ (e.holdings d (steering.flags e.tags)).flatMap Holding.claims := by
  simp only [List.mem_flatMap (f := Holding.claims), mem_holdings_of_run steering hes hds]
  constructor
  · rintro ⟨a, ⟨e, he, d, hd, ha⟩, hx⟩
    exact ⟨e, he, d, hd, a, ha, hx⟩
  · rintro ⟨e, he, d, hd, a, ha, hx⟩
    exact ⟨a, ⟨e, he, d, hd, ha⟩, hx⟩

/-- A run that succeeds has read the pattern of every encoding. -/
theorem exists_descriptor_of_run {c : Catalog} {es : List Encoding} {ds : List Descriptor}
    (hds : List.Forall₂ (fun e d ↦ c.descriptor e = .ok d) es ds) {e : Encoding} (he : e ∈ es) :
    ∃ d, c.descriptor e = .ok d := by
  obtain ⟨i, hi, rfl⟩ := List.mem_iff_getElem.mp he
  exact ⟨_, hds.get hi (hds.length_eq ▸ hi)⟩

theorem mem_insertions_of_run {c : Catalog} {es : List Encoding} {ds : List Descriptor}
    (hds : List.Forall₂ (fun e d ↦ c.descriptor e = .ok d) es ds) {e : Encoding} (he : e ∈ es)
    {d : Descriptor} (hd : c.descriptor e = .ok d) :
    e.insertion d ∈ List.zipWith Encoding.insertion es ds := by
  induction hds with
  | nil => exact absurd he List.not_mem_nil
  | @cons e' d' es ds hd' _ ih =>
    rw [List.zipWith_cons_cons]
    rcases List.mem_cons.mp he with rfl | he
    · rw [hd] at hd'
      cases hd'
      exact List.mem_cons_self
    · exact List.mem_cons_of_mem _ (ih he)

end Build

end DecodeTrie
