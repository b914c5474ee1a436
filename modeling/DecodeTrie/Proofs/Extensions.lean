import DecodeTrie.Proofs.Table.Traces

/-!
# Keys with more input

Extra input never changes an answer (`lookup_of_covers`). A key that covers another one has more
bytes behind its opcode, and bytes where the other has none. Wherever the other key can choose a
slot, it chooses the same slot, and covers what is left of the other (`Key.Covers.exists_choose`).
So it comes to the same tables, and the look-up ends for it as it does for the other
(`FlatTable.Trace.of_covers`), unless it ends because the other one lacks a byte.

Nothing is asked of the words. They can be those of a compiled table or any others, with references
in circles, references out of the words, and tables in any order.
-/

namespace DecodeTrie

namespace Key

/-- A slot that is chosen by a byte is chosen by each byte that agrees with it. -/
theorem Agrees.choose_eq {o o' : Option UInt8} (h : Agrees o o') {slot : UInt8 → Nat} {i : Nat}
    {k k' l : Key} (hchoose : o.map (fun b ↦ (slot b, k)) = some (i, l)) :
    o'.map (fun b ↦ (slot b, k')) = some (i, k') := by
  obtain ⟨b, hb, heq⟩ := Option.map_eq_some_iff.mp hchoose
  cases heq
  rw [agrees_iff.mp h b hb, Option.map_some]

/-- **A key that covers another one makes its choices**, and covers what is left of it. -/
theorem Covers.exists_choose {k k' l : Key} {kind : NodeKind} {i : Nat} (h : k'.Covers k)
    (hchoose : k.choose kind = some (i, l)) :
    ∃ l', k'.choose kind = some (i, l') ∧ l'.Covers l := by
  by_cases hkind : kind = .opcode
  · -- The next byte of the opcode is the same, and what follows it goes on as before.
    subst hkind
    obtain ⟨more, hmore⟩ := h.opcode
    rw [choose] at hchoose
    cases hk : k.opcode with
    | nil => rw [hk] at hchoose; cases hchoose
    | cons b rest =>
      rw [hk] at hchoose hmore
      cases hchoose
      refine ⟨{ k' with opcode := rest ++ more }, ?_, ?_⟩
      · rw [choose, ← hmore, List.cons_append]
      · exact ⟨⟨more, rfl⟩, h.prefixes, h.modrm, h.rexW, h.suffix⟩
  · obtain rfl := eq_of_choose hkind hchoose
    refine ⟨k', ?_, h⟩
    cases kind with
    | opcode => exact absurd rfl hkind
    | prefixes => cases hchoose; rw [choose, h.prefixes]
    | modrm => exact h.modrm.choose_eq hchoose
    | regOnly => exact h.modrm.choose_eq hchoose
    | rm => exact h.modrm.choose_eq hchoose
    | rexW => cases hchoose; rw [choose, h.rexW]
    | suffix => exact h.suffix.choose_eq hchoose

end Key

namespace FlatTable

variable {t : FlatTable} {r : TableRef} {k k' : Key}

/-- A turn of a look-up that goes on to another table goes on to it for more input too. -/
theorem exists_step_of_covers (h : k'.Covers k) {w : Visit} (hstep : t.step ⟨r, k⟩ = .inr w) :
    ∃ l', t.step ⟨r, k'⟩ = .inr ⟨w.table, l'⟩ ∧ l'.Covers w.key := by
  obtain ⟨i, hchoose, hentry⟩ := step_eq_inr_iff.mp hstep
  obtain ⟨l', hchoose', hcovers⟩ := h.exists_choose hchoose
  exact ⟨l', step_eq_inr_iff.mpr ⟨i, hchoose', hentry⟩, hcovers⟩

/-- A turn with which a look-up ends is its end for more input too, unless a byte is lacking. -/
theorem step_eq_of_covers (h : k'.Covers k) {e : Ending} (hstep : t.step ⟨r, k⟩ = .inl e)
    (he : e ≠ .lacking) : t.step ⟨r, k'⟩ = .inl e := by
  have hsame {x : Option Entry} : (∃ i l, k.choose r.kind = some (i, l) ∧ t.entry r i = x) →
      ∃ i l', k'.choose r.kind = some (i, l') ∧ t.entry r i = x := by
    rintro ⟨i, l, hchoose, hentry⟩
    obtain ⟨l', hchoose', -⟩ := h.exists_choose hchoose
    exact ⟨i, l', hchoose', hentry⟩
  rw [step_eq_inl_iff] at hstep ⊢
  cases e with
  | found n => exact hsame hstep
  | empty => exact hsame hstep
  | lacking => exact absurd rfl he
  | malformed => exact hsame hstep

/-- **More input comes to the same tables**, and to the same end, unless a byte was lacking. -/
theorem Trace.of_covers {visits : List Visit} {e : Ending} (h : t.Trace ⟨r, k⟩ visits e)
    (he : e ≠ .lacking) (hc : k'.Covers k) :
    ∃ visits', t.Trace ⟨r, k'⟩ visits' e ∧ visits'.map Visit.table = visits.map Visit.table := by
  generalize hv : (⟨r, k⟩ : Visit) = v at h
  induction h generalizing r k k' with
  | last hstep =>
    subst hv
    exact ⟨[⟨r, k'⟩], .last (step_eq_of_covers hc hstep he), rfl⟩
  | @next v w visits e hstep _ ih =>
    subst hv
    obtain ⟨l', hstep', hcovers⟩ := exists_step_of_covers hc hstep
    obtain ⟨visits', htrace, htables⟩ := ih he hcovers rfl
    exact ⟨⟨r, k'⟩ :: visits', .next hstep' htrace, by rw [List.map_cons, List.map_cons, htables]⟩

/-- **Extra input never changes an answer**, in any table whatsoever. -/
theorem lookup_of_covers (t : FlatTable) {k k' : Key} {n : Nat} (h : t.lookup k = some n)
    (hc : k'.Covers k) : t.lookup k' = some n := by
  obtain ⟨visits, htrace⟩ := lookup_eq_some_iff.mp h
  obtain ⟨visits', htrace', -⟩ := htrace.of_covers Ending.noConfusion hc
  exact lookup_eq_some_iff.mpr ⟨visits', htrace'⟩

/-- Canonical words that no compilation writes: the root is a REX.W table whose second slot refers
to the root, an opcode table stands below an r/m table, most slots of both are outside the words,
and one word has the code of no kind. -/
def strayWords : List UInt32 := [0x06000000, 0x05000002, 0x06000000, 0x01000003, 0x08000000, 7]

theorem lookup_of_covers_strayWords :
    let k : Key := { opcode := [0x01], modrm := some 0xc8 }
    let k' : Key := { opcode := [0x01, 0x90], modrm := some 0xc8, suffix := some 0x0c }
    ∃ t, ofCanonical strayWords = some t ∧ t.lookup k = some 7 ∧ k'.Covers k ∧
      t.lookup k' = some 7 := by
  intro k k'
  have hk : (ofCanonical strayWords).map (fun t ↦ t.lookup k) = some (some 7) := by decide +kernel
  have hcovers : k'.Covers k := ⟨⟨[0x90], rfl⟩, rfl, .inr rfl, rfl, .inl rfl⟩
  obtain ⟨t, ht, hlookup⟩ := Option.map_eq_some_iff.mp hk
  exact ⟨t, ht, hlookup, hcovers, lookup_of_covers t hlookup hcovers⟩

end FlatTable

end DecodeTrie
