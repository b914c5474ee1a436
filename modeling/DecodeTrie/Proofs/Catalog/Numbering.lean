import DecodeTrie.Proofs.Catalog.Steps
import Mathlib.Data.List.Induction

/-!
# The numbers of encodings

However a catalog has been built, its encodings are numbered by their positions, below the word
that stands for no encoding (`numbered_after`). Only a successful `add` changes the encodings; all
other steps, and all failing ones, keep them.
-/

namespace DecodeTrie

namespace Catalog

/-- The encodings of a catalog are numbered by their positions, and table words can hold the
numbers. -/
structure Numbered (c : Catalog) : Prop where
  /-- An encoding is at the position of its number. -/
  number_eq : ∀ {n : Nat} {e : Encoding}, c.encodings[n]? = some e → e.number = n
  /-- There are no more encodings than numbers. -/
  size_le : c.encodings.size ≤ encodingLimit

/-- An encoding is looked up by its number. -/
theorem Numbered.getElem?_number {c : Catalog} (h : c.Numbered) {e : Encoding}
    (he : e ∈ c.encodings.toList) : c.encodings[e.number]? = some e := by
  obtain ⟨n, hn⟩ := List.mem_iff_getElem?.mp he
  rw [Array.getElem?_toList] at hn
  rw [h.number_eq hn, hn]

/-- The encodings before one have the lesser numbers. -/
theorem Numbered.of_split {c : Catalog} (h : c.Numbered) {done rest : List Encoding} {e : Encoding}
    (hsplit : c.encodings.toList = done ++ e :: rest) :
    e.number = done.length ∧ ∀ e' ∈ done, e'.number < done.length := by
  have hget {n : Nat} {e' : Encoding} (hn : (done ++ e :: rest)[n]? = some e') : e'.number = n := by
    rw [← hsplit, Array.getElem?_toList] at hn
    exact h.number_eq hn
  refine ⟨hget (by simp), fun e' he' ↦ ?_⟩
  obtain ⟨n, hn⟩ := List.mem_iff_getElem?.mp he'
  have hlt := (List.getElem?_eq_some_iff.mp hn).1
  rw [hget (n := n) (by rw [List.getElem?_append_left hlt, hn])]
  exact hlt

theorem encodings_append (c : Catalog) (insn : Instruction) (es : List Encoding) :
    (c.append insn es).encodings = c.encodings ++ es.toArray :=
  Array.ext' (by simp [Catalog.append])

/-- The encodings when an instruction has been appended: the old ones, and then the new ones. -/
theorem getElem?_encodings_append_eq_some_iff {c : Catalog} {insn : Instruction}
    {es : List Encoding} {n : Nat} {e : Encoding} :
    (c.append insn es).encodings[n]? = some e ↔
      c.encodings[n]? = some e ∨ ∃ k, n = c.encodings.size + k ∧ es[k]? = some e := by
  rw [encodings_append, Array.getElem?_append]
  split
  · next hn =>
    refine ⟨.inl, ?_⟩
    rintro (he | ⟨k, rfl, -⟩)
    · exact he
    · omega
  · next hn =>
    rw [List.getElem?_toArray]
    constructor
    · intro he
      exact .inr ⟨n - c.encodings.size, by omega, he⟩
    · rintro (he | ⟨k, rfl, he⟩)
      · exact absurd (Array.getElem?_eq_some_iff.mp he).1 hn
      · rwa [Nat.add_sub_cancel_left]

/-- Larger registries do not change the numbers. -/
theorem Numbered.grow {c c' : Catalog} (h : c.Numbered) (hc : c.GrowsTo c') : c'.Numbered := by
  obtain ⟨r, -, rfl⟩ := hc
  exact ⟨h.number_eq, h.size_le⟩

theorem Numbered.append {c : Catalog} (h : c.Numbered) (insn : Instruction) {es : List Encoding}
    (hes : ∀ {k e}, es[k]? = some e → e.number = c.encodings.size + k)
    (hlen : c.encodings.size + es.length ≤ encodingLimit) : (c.append insn es).Numbered where
  number_eq {n e} he := by
    obtain he | ⟨k, rfl, hk⟩ := getElem?_encodings_append_eq_some_iff.mp he
    · exact h.number_eq he
    · exact hes hk
  size_le := by
    rw [encodings_append]
    simpa using hlen

/-- Every step keeps the numbers in order. -/
theorem Numbered.step {c : Catalog} (h : c.Numbered) (s : CatalogStep) :
    (s.outcome c).2.Numbered := by
  obtain hgrows | ⟨decl, c', insn, es, hadds, hc⟩ := s.outcome_cases c
  · exact h.grow hgrows
  · rw [hc]
    have hsize := hadds.encodings_eq
    refine (h.grow hadds.grows).append insn (fun he ↦ ?_) ?_
    · rw [hsize, (hadds.passes he).number_eq]
    · rw [hsize, hadds.length_eq]
      exact hadds.header.size_le

/-- **Numbers are positions**, in every catalog that a history of steps has made. -/
theorem numbered_after (history : List CatalogStep) : (after history).Numbered := by
  induction history using List.reverseRecOn with
  | nil => exact ⟨fun he ↦ absurd he (by simp), Nat.zero_le _⟩
  | append_singleton history s ih =>
    rw [after_concat]
    exact ih.step s

end Catalog

end DecodeTrie
