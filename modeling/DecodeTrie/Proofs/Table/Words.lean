import DecodeTrie.Table.Entry

/-!
# Words read back

A word stands for what was packed into it, as long as that fits: an encoding number below the word
that stands for no encoding, or an offset of 24 bits. Conversely, what a word stands for fits, and
packing it gives the word back, so that reading and packing are inverse to each other
(`Entry.unpack_eq_some_iff`). Only words whose upper 8 bits are 8 or more stand for nothing.
-/

namespace DecodeTrie

namespace Entry

/-- The entry fits into a word. -/
def Fits : Entry → Prop
  | invalid => True
  | encoding n => n < invalidWord.toNat
  | table r => r.offset < offsetLimit

theorem toNat_pack_table {r : TableRef} (h : r.offset < offsetLimit) :
    r.pack.toNat = r.kind.code * offsetLimit + r.offset := by
  have hcode := r.kind.code_lt
  -- The offset has no bits where the code stands, so that both can be added.
  have hor : r.kind.code <<< offsetBits ||| r.offset = r.kind.code * offsetLimit + r.offset := by
    rw [← Nat.shiftLeft_add_eq_or_of_lt (by simpa [offsetLimit, Nat.one_shiftLeft] using h),
      Nat.shiftLeft_eq, offsetLimit, Nat.one_shiftLeft]
  have hlimit : offsetLimit = 16777216 := rfl
  rw [TableRef.pack, hor]
  refine UInt32.toNat_ofNat_of_lt' ?_
  rw [UInt32.size, hlimit]
  rw [hlimit] at h
  omega

/-- **Words read back** as what was packed into them. -/
theorem unpack_pack {e : Entry} (h : e.Fits) : unpack e.pack = some e := by
  have hlimit : offsetLimit = 16777216 := rfl
  cases e with
  | invalid => rfl
  | encoding n =>
    have hn : n < 16777215 := h
    have hnat : (UInt32.ofNat n).toNat = n :=
      UInt32.toNat_ofNat_of_lt' (by rw [UInt32.size]; omega)
    have hne : UInt32.ofNat n ≠ invalidWord := by
      intro he
      rw [he] at hnat
      exact absurd (hnat.symm ▸ h : n < n) (Nat.lt_irrefl n)
    rw [pack, unpack, hnat, if_pos, if_neg hne]
    -- A number is below the code bits, which tells it from a table.
    rw [Nat.shiftRight_eq_div_pow, Nat.div_eq_of_lt]
    exact Nat.lt_trans hn (by decide)
  | table r =>
    have hr : r.offset < 16777216 := h
    have hnat := toNat_pack_table h
    have hcode : r.pack.toNat >>> offsetBits = r.kind.code := by
      rw [Nat.shiftRight_eq_div_pow, hnat, show 2 ^ offsetBits = offsetLimit from rfl, hlimit]
      omega
    have hoffset : r.pack.toNat % offsetLimit = r.offset := by
      rw [hnat, hlimit]
      omega
    have hpos := r.kind.one_le_code
    rw [pack, unpack, hcode, if_neg (by omega), NodeKind.ofCode?_code, hoffset]
    rfl

/-- The words that stand for nothing are those whose kind bits are no code and not 0. -/
theorem unpack_eq_none_iff {w : UInt32} : unpack w = none ↔ 8 ≤ w.toNat >>> offsetBits := by
  rw [unpack]
  split
  · next hzero => simp [hzero]
  · next hzero =>
    rw [Option.map_eq_none_iff, NodeKind.ofCode?_eq_none_iff]
    exact or_iff_right hzero

/-- What a word stands for fits into a word, and packing it gives that word. -/
theorem pack_of_unpack {w : UInt32} {e : Entry} (h : unpack w = some e) :
    e.Fits ∧ e.pack = w := by
  have hdiv : w.toNat >>> offsetBits = w.toNat / 16777216 := Nat.shiftRight_eq_div_pow _ _
  rw [unpack] at h
  split at h
  · next hzero =>
    rw [hdiv] at hzero
    split at h
    · next hw =>
      cases h
      exact ⟨trivial, hw.symm⟩
    · next hw =>
      cases h
      have hinvalid : invalidWord.toNat = 16777215 := rfl
      have hne : w.toNat ≠ invalidWord.toNat := fun heq ↦ hw (UInt32.toNat_inj.mp heq)
      have hfits : w.toNat < invalidWord.toNat := by omega
      exact ⟨hfits, UInt32.ofNat_toNat⟩
  · obtain ⟨k, hk, rfl⟩ := Option.map_eq_some_iff.mp h
    have hfits : w.toNat % offsetLimit < offsetLimit := Nat.mod_lt _ (by decide)
    refine ⟨hfits, UInt32.toNat_inj.mp ?_⟩
    rw [pack, toNat_pack_table hfits, NodeKind.code_of_ofCode? hk, hdiv]
    exact Nat.div_add_mod' _ _

/-- **Packing and reading are inverse to each other.** -/
theorem unpack_eq_some_iff {w : UInt32} {e : Entry} : unpack w = some e ↔ e.Fits ∧ e.pack = w := by
  refine ⟨pack_of_unpack, ?_⟩
  rintro ⟨hfits, rfl⟩
  exact unpack_pack hfits

end Entry

end DecodeTrie
