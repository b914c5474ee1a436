import DecodeTrie.Proofs.Build.Runs

/-!
# Conflicts

Whether an encoding clashes is decided by its routes and the claims on record, one claim at a time.
So conflicts are pairwise: a list of insertions succeeds if every two of them do
(`accepts_iff_pairwise`). And a conflict names a pair that conflicts by itself: inserted alone into
a fresh build, the two encodings give the same error (`compile_conflict`). The second part needs
that a route clashes in one way only with all claims of one number (`Route.clash_unique`), for the
claim that the error was read off in the whole run need not be the one in the small build.
-/

namespace DecodeTrie

namespace Build

/-- **Conflicts are pairwise.** A list of insertions into a fresh build succeeds at every step
exactly if each of them alone does, and any two of them do. For two insertions the order does not
matter. -/
theorem accepts_iff_pairwise (c : Catalog) (options : Options) (history : List Insertion) :
    (Accepts c (c.steering options) history ↔
      (∀ i ∈ history, Accepts c (c.steering options) [i]) ∧
        history.Pairwise fun i j ↦ Accepts c (c.steering options) [i, j]) ∧
      ∀ i j, Accepts c (c.steering options) [i, j] ↔ Accepts c (c.steering options) [j, i] := by
  have hsingle (i : Insertion) :
      Accepts c (c.steering options) [i] ↔ i.Admissible c (c.steering options) := by
    rw [accepts_iff]
    simp
  have hpair (i j : Insertion) : Accepts c (c.steering options) [i, j] ↔
      (i.Admissible c (c.steering options) ∧ j.Admissible c (c.steering options)) ∧
        Insertion.Compatible c (c.steering options) i j := by
    rw [accepts_iff]
    simp
  constructor
  · rw [accepts_iff]
    simp only [hsingle, hpair]
    constructor
    · rintro ⟨hall, hcompat⟩
      exact ⟨hall, hcompat.imp_of_mem fun hi hj hij ↦ ⟨⟨hall _ hi, hall _ hj⟩, hij⟩⟩
    · rintro ⟨hall, hpairs⟩
      exact ⟨hall, hpairs.imp fun hij ↦ hij.2⟩
  · intro i j
    rw [hpair, hpair]
    exact ⟨fun ⟨⟨hi, hj⟩, hij⟩ ↦ ⟨⟨hj, hi⟩, hij.symm⟩, fun ⟨⟨hj, hi⟩, hji⟩ ↦ ⟨⟨hi, hj⟩, hji.symm⟩⟩

end Build

/-! ## The pair that a conflict names -/

theorem Catalog.ownerName_of_getElem? {c : Catalog} {n : Nat} {e : Encoding}
    (h : c.encodings[n]? = some e) : c.ownerName n = c.insnName e.insn := by
  rw [ownerName, h]

/-- The encodings that a conflict names: the one that failed, and the one in its way. -/
def CompileError.conflict? : CompileError → Option (Nat × Nat)
  | .duplicateOpcode _ number _ _ other => some (number, other)
  | .opcodeConflict _ number _ _ _ _ other => some (number, other)
  | _ => none

/-- The names of instructions that a conflict gives for the two encodings. -/
def CompileError.conflictOwners? : CompileError → Option (String × String)
  | .duplicateOpcode insn _ _ otherInsn _ => some (insn, otherInsn)
  | .opcodeConflict insn _ _ _ _ otherInsn _ => some (insn, otherInsn)
  | _ => none

theorem Clash.conflict?_report (c : Catalog) (e : Encoding) (clash : Clash) :
    (clash.report c e).conflict? = some (e.number, clash.other) := by
  cases clash <;> rfl

theorem Clash.conflictOwners?_report (c : Catalog) (e : Encoding) (clash : Clash) :
    (clash.report c e).conflictOwners? = some (c.insnName e.insn, c.ownerName clash.other) := by
  cases clash <;> rfl

/-- **The first clash is the same** with fewer claims, of one number and compatible with one
another, as long as a claim that the first clash is with is among them. -/
theorem FirstClash.eq_of_subset {claims claims' : List Claim} {routes : List (List Step)}
    {e e' : Clash} (h : FirstClash claims routes e) (h' : FirstClash claims' routes e')
    (hsub : ∀ x ∈ claims', x ∈ claims) (hmem : ∀ x ∈ claims, x.number = e.other → x ∈ claims')
    (hone : ∀ x ∈ claims', x.number = e.other)
    (hcompat : ∀ x ∈ claims', ∀ y ∈ claims',
      x.route = y.route ∨ Route.clash y.number x.route y.route = none) : e = e' := by
  obtain ⟨pre, r, post, hr, hpre, x, hx, hclash⟩ := h
  obtain ⟨pre', r', post', hr', hpre', x', hx', hclash'⟩ := h'
  have hxn : x.number = e.other := (Route.other_of_clash hclash).symm
  have hxm := hmem x hx hxn
  -- Neither route comes before the other, because what comes before is clear.
  have hrr : r = r' := by
    rcases List.append_eq_append_iff.mp (hr.symm.trans hr') with ⟨a, ha, hrest⟩ | ⟨a, ha, hrest⟩
    · cases a with
      | nil => exact (List.cons.inj hrest).1
      | cons y a =>
        obtain ⟨rfl, -⟩ := List.cons.inj hrest
        rw [hpre' r (by rw [ha]; simp) x hxm] at hclash
        cases hclash
    · cases a with
      | nil => exact (List.cons.inj hrest).1.symm
      | cons y a =>
        obtain ⟨rfl, -⟩ := List.cons.inj hrest
        rw [hpre r' (by rw [ha]; simp) x' (hsub x' hx')] at hclash'
        cases hclash'
  subst hrr
  rw [hxn] at hclash
  rw [hone x' hx'] at hclash'
  exact Route.clash_unique hclash hclash' (hcompat x hxm x' hx')

namespace Build

/-- What a compilation that fails with a conflict stopped at. -/
theorem exists_firstClash_of_compile {c : Catalog} (hc : c.Numbered) {options : Options}
    {err : CompileError} {pair : Nat × Nat} (herr : compile c options = .error err)
    (hn : err.conflict? = some pair) :
    ∃ done e rest ds b d clash, c.encodings.toList = done ++ e :: rest ∧
      insertAll c (c.steering options) done (empty c) = .ok ds b ∧ c.descriptor e = .ok d ∧
      d.Fits ((c.steering options).flags e.tags) ∧ err = clash.report c e ∧
      FirstClash (((List.zipWith Encoding.insertion done ds).flatMap
        (Insertion.holdings c (c.steering options))).flatMap Holding.claims)
        (d.routes ((c.steering options).flags e.tags)) clash := by
  have hrun : ∃ b', insertAll c (c.steering options) c.encodings.toList (empty c) =
      .error err b' := by
    rw [compile] at herr
    split at herr
    · next b' hall => cases herr; exact ⟨b', hall⟩
    · split at herr
      · cases herr; cases hn
      · cases herr
  obtain ⟨b', hrun⟩ := hrun
  obtain ⟨done, e, rest, ds, b, hsplit, hdone, hfail⟩ := insertAll_error hrun
  have hrec := records_of_insertList (records_empty c) (insertAll_ok hdone).2
  rcases hfail with hd | ⟨d, hd, hins⟩
  · -- A malformed pattern is no conflict.
    rw [Catalog.descriptor] at hd
    split at hd
    · cases hd
    · cases hd; cases hn
  · have he : c.encodings[e.number]? = some e := hc.getElem?_number (by rw [hsplit]; simp)
    rw [insert, he] at hins
    rcases insertEncoding_error hrec hins with ⟨-, rfl⟩ | ⟨hfits, clash, rfl, hfirst⟩
    · cases hn
    · exact ⟨done, e, rest, ds, b, d, clash, hsplit, hdone, hd, hfits, rfl, hfirst⟩

/-- The encoding whose claim is in the way causes the first clash all alone. -/
theorem exists_insert_error_of_firstClash {c : Catalog} {steering : Steering} {claims : List Claim}
    {em e : Encoding} {dm d : Descriptor} {clash : Clash}
    (hm : c.encodings[em.number]? = some em) (he : c.encodings[e.number]? = some e)
    (hadm : (em.insertion dm).Admissible c steering)
    (hfits : d.Fits (steering.flags e.tags))
    (hfirst : FirstClash claims (d.routes (steering.flags e.tags)) clash)
    (hnumber : em.number = clash.other)
    (hclaims : ∀ x, x ∈ (em.holdings dm (steering.flags em.tags)).flatMap Holding.claims ↔
      x ∈ claims ∧ x.number = em.number) :
    ∃ b b', insert c steering em.number dm (empty c) = .ok () b ∧
      insert c steering e.number d b = .error (clash.report c e) b' := by
  obtain ⟨b, hb⟩ := exists_insert_ok (records_empty c) hadm
    (fun r _ x hx ↦ absurd hx List.not_mem_nil)
  have hrec := (insert_ok (records_empty c) hb).2.2
  rw [List.nil_append, Insertion.holdings, Encoding.insertion, hm] at hrec
  have hinsert : insert c steering e.number d b = insertEncoding c steering e d b := by
    rw [insert, he]
  cases hb' : insertEncoding c steering e d b with
  | ok u b' =>
    have hclear := (insertEncoding_ok hrec hb').2.1
    obtain ⟨pre, r, post, hr, -, x, hx, hclash⟩ := hfirst
    have hxm := (hclaims x).mpr ⟨hx, (Route.other_of_clash hclash).symm.trans hnumber.symm⟩
    rw [hclear r (by rw [hr]; simp) x hxm] at hclash
    cases hclash
  | error err' b' =>
    refine ⟨b, b', hb, ?_⟩
    rw [hinsert, hb']
    rcases insertEncoding_error hrec hb' with ⟨hno, -⟩ | ⟨-, clash', rfl, hfirst'⟩
    · exact absurd hfits hno
    · -- The claims of the small build are those that belong to its number.
      rw [hfirst.eq_of_subset hfirst' (fun x hx ↦ ((hclaims x).mp hx).1)
        (fun x hx hxn ↦ (hclaims x).mpr ⟨hx, hxn.trans hnumber.symm⟩)
        (fun x hx ↦ ((hclaims x).mp hx).2.trans hnumber)
        (fun x hx y hy ↦ hrec.compatible hx hy)]

end Build

/-- **Conflicts blame the right pair.** When a compilation fails with a conflict that names encoding
`n` and encoding `m`, then `m` comes before `n`, everything before `n` has been read and inserted
without error, the names are those of the owners, and a fresh build into which only `m` and then `n`
are inserted accepts `m` and rejects `n` with the same error. -/
theorem compile_conflict (history : List CatalogStep) (options : Options) {err : CompileError}
    {n m : Nat} (herr : compile (Catalog.after history) options = .error err)
    (hn : err.conflict? = some (n, m)) :
    let c := Catalog.after history
    let steering := c.steering options
    m < n ∧
      (∃ ds b, Build.insertAll c steering (c.encodings.toList.take n) (Build.empty c) = .ok ds b ∧
        ds.length = n) ∧
      err.conflictOwners? = some (c.ownerName n, c.ownerName m) ∧
      ∃ em en dm dn b b', c.encodings[m]? = some em ∧ c.encodings[n]? = some en ∧
        c.descriptor em = .ok dm ∧ c.descriptor en = .ok dn ∧
        Build.insert c steering m dm (Build.empty c) = .ok () b ∧
        Build.insert c steering n dn b = .error err b' := by
  intro c steering
  have hnum : c.Numbered := Catalog.numbered_after history
  obtain ⟨done, e, rest, ds, b₁, d, clash, hsplit, hdone, hd, hfits, rfl, hfirst⟩ :=
    Build.exists_firstClash_of_compile hnum herr hn
  rw [Clash.conflict?_report] at hn
  obtain ⟨rfl, rfl⟩ : e.number = n ∧ clash.other = m := by simpa using hn
  obtain ⟨hlen, hlt⟩ := hnum.of_split hsplit
  have hget : ∀ e' ∈ done ++ [e], c.encodings[e'.number]? = some e' := by
    intro e' he'
    refine hnum.getElem?_number ?_
    rw [hsplit]
    simpa [or_assoc] using List.mem_append_left rest he'
  have hge := hget e (by simp)
  obtain ⟨hds, hlist⟩ := Build.insertAll_ok hdone
  have hmem := Build.mem_claims_of_run steering
    (fun e' he' ↦ hget e' (List.mem_append_left _ he')) hds
  -- The claim in the way belongs to one of the encodings before.
  obtain ⟨_, _, _, _, _, x, hx, hclash⟩ := id hfirst
  obtain ⟨em, hem, dm, hdm, hxm⟩ := (hmem x).mp hx
  have hm : em.number = clash.other :=
    (Encoding.mem_claims_holdings.mp hxm).1.symm.trans (Route.other_of_clash hclash).symm
  have hgm := hget em (List.mem_append_left _ hem)
  have hadm := (Build.accepts_iff.mp ⟨b₁, hlist⟩).1 _ (Build.mem_insertions_of_run hds hem hdm)
  obtain ⟨b, b', hb, hb'⟩ := Build.exists_insert_error_of_firstClash hgm hge hadm hfits hfirst hm
    fun y ↦ by
      rw [hmem]
      constructor
      · exact fun hy ↦ ⟨⟨em, hem, dm, hdm, hy⟩, (Encoding.mem_claims_holdings.mp hy).1⟩
      · rintro ⟨⟨e', he', d', hd', hy⟩, hyn⟩
        have hsame := hget e' (List.mem_append_left _ he')
        rw [← (Encoding.mem_claims_holdings.mp hy).1, hyn, hgm] at hsame
        cases hsame
        rw [hdm] at hd'
        cases hd'
        exact hy
  rw [← hm]
  refine ⟨by rw [hlen]; exact hlt em hem, ⟨ds, b₁, ?_, ?_⟩, ?_, em, e, dm, d, b, b', hgm, hge, hdm,
    hd, hb, hb'⟩
  · rw [hlen, hsplit, List.take_left, hdone]
  · rw [hlen, hds.length_eq]
  · rw [Clash.conflictOwners?_report, Catalog.ownerName_of_getElem? hge, hm]

/-- A catalog in which an encoding wants a leaf where an earlier one, not the first, has split its
opcode on ModRM. -/
def splitOpcode : List CatalogStep :=
  [.add { name := "nop", encodings := [{ opcode := "90" }] },
    .add { name := "inc", encodings := [{ opcode := "fe /0" }] },
    .add { name := "plain", encodings := [{ opcode := "fe" }] }]

theorem compile_conflict_splitOpcode :
    let c := Catalog.after splitOpcode
    let steering := c.steering {}
    let err := CompileError.opcodeConflict "plain" 2 "fe" .leaf (.table .modrm) "inc" 1
    compile c {} = .error err ∧ ∃ dm dn b b',
      Build.insert c steering 1 dm (Build.empty c) = .ok () b ∧
        Build.insert c steering 2 dn b = .error err b' := by
  intro c steering err
  have herr : compile c {} = .error err := by decide +kernel
  obtain ⟨-, -, -, _, _, dm, dn, b, b', -, -, -, -, hb, hb'⟩ :=
    compile_conflict splitOpcode {} (n := 2) (m := 1) herr rfl
  exact ⟨herr, dm, dn, b, b', hb, hb'⟩

end DecodeTrie
