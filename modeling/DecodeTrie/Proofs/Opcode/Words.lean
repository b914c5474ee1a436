import DecodeTrie.Opcode.Token
import Mathlib.Tactic.IntervalCases

/-!
# The words of opcode patterns

Which words denote which tokens, as a relation with one rule for each form of a word. The reader
tries the forms one after the other, and some begin alike (`/r` and `/rm_0`, `/mod_m` and `/mod_0`,
`nofx` and a byte); that it denotes a token exactly if one of the rules does (`read_eq_ok_iff`) says
that the order in which it tries them does not matter.
-/

namespace DecodeTrie

/-! ## Digits -/

/-- The character is the hexadecimal digit of value `v`, in either case. -/
def IsHexDigit (c : Char) (v : Nat) : Prop :=
  "0123456789abcdef".toList[v]? = some c ∨ "0123456789ABCDEF".toList[v]? = some c

/-- The characters are one or two hexadecimal digits, of a byte. -/
inductive IsHexByte : List Char → UInt8 → Prop
  /-- One digit. -/
  | one {c : Char} {v : Nat} (hc : IsHexDigit c v) : IsHexByte [c] (UInt8.ofNat v)
  /-- Two digits. -/
  | two {c d : Char} {hi lo : Nat} (hc : IsHexDigit c hi) (hd : IsHexDigit d lo) :
    IsHexByte [c, d] (UInt8.ofNat (16 * hi + lo))

/-- A character in a range of codes is one of its characters. -/
theorem Char.exists_ofNat {c : Char} {a b : Nat} (h : a ≤ c.toNat ∧ c.toNat ≤ b) :
    ∃ n, a ≤ n ∧ n ≤ b ∧ c = Char.ofNat n :=
  ⟨c.toNat, h.1, h.2, (Char.ofNat_toNat c).symm⟩

theorem Text.hexDigit?_eq_some_iff {c : Char} {v : Nat} :
    Text.hexDigit? c = some v ↔ IsHexDigit c v := by
  constructor
  · intro h
    rw [hexDigit?] at h
    split at h
    · next hc =>
      obtain ⟨n, hlo, hhi, rfl⟩ := Char.exists_ofNat hc
      interval_cases n <;> cases h <;> exact .inl rfl
    · split at h
      · next hc =>
        obtain ⟨n, hlo, hhi, rfl⟩ := Char.exists_ofNat hc
        interval_cases n <;> cases h <;> exact .inl rfl
      · split at h
        · next hc =>
          obtain ⟨n, hlo, hhi, rfl⟩ := Char.exists_ofNat hc
          interval_cases n <;> cases h <;> exact .inr rfl
        · cases h
  · intro h
    have hv : v < 16 := by
      rcases h with h | h <;> exact (List.getElem?_eq_some_iff.mp h).1
    interval_cases v <;> rcases h with h | h <;> cases h <;> rfl

theorem Text.hexByte?_eq_some_iff {w : List Char} {b : UInt8} :
    Text.hexByte? w = some b ↔ IsHexByte w b := by
  constructor
  · intro h
    match w with
    | [] => cases h
    | [c] =>
      obtain ⟨v, hv, rfl⟩ := Option.map_eq_some_iff.mp h
      exact .one (hexDigit?_eq_some_iff.mp hv)
    | [c, d] =>
      simp only [hexByte?] at h
      split at h
      · next hi lo hc hd =>
        cases h
        exact .two (hexDigit?_eq_some_iff.mp hc) (hexDigit?_eq_some_iff.mp hd)
      · cases h
    | _ :: _ :: _ :: _ => cases h
  · rintro (hc | ⟨hc, hd⟩)
    · rw [hexByte?, hexDigit?_eq_some_iff.mpr hc]
      rfl
    · simp only [hexByte?, hexDigit?_eq_some_iff.mpr hc, hexDigit?_eq_some_iff.mpr hd]

namespace Token

theorem digit?_eq_some_iff {bound : Nat} (hb : bound ≤ 10) {w : List Char} {r : Fin bound} :
    digit? bound w = some r ↔ w = [Nat.digitChar r] := by
  constructor
  · intro h
    match w with
    | [] => cases h
    | [c] =>
      rw [digit?] at h
      split at h
      · next hc =>
        cases h
        obtain ⟨n, hlo, hhi, rfl⟩ := Char.exists_ofNat (c := c) (a := 48) (b := 57) (by omega)
        interval_cases n <;> rfl
      · cases h
    | _ :: _ :: _ => cases h
  · rintro rfl
    exact digit?_digitChar hb r

/-! ## Words -/

/-- **The words of a token.** -/
inductive Spelled : List Char → Token → Prop
  /-- The escape is the byte `0f`. -/
  | escape {w : List Char} (hw : IsHexByte w 0x0f) : Spelled w .escape
  /-- The operand-size prefix is the byte `66`. -/
  | opSize {w : List Char} (hw : IsHexByte w 0x66) : Spelled w (.opSize true)
  /-- It is forbidden by a word of its own. -/
  | noOpSize : Spelled ['n', 'o', '6', '6'] (.opSize false)
  /-- One repeat prefix is the byte `f2`. -/
  | repF2 {w : List Char} (hw : IsHexByte w 0xf2) : Spelled w (.rep .f2)
  /-- The other repeat prefix is the byte `f3`. -/
  | repF3 {w : List Char} (hw : IsHexByte w 0xf3) : Spelled w (.rep .f3)
  /-- Both are forbidden by one word. -/
  | noRep : Spelled ['n', 'o', 'f', 'x'] (.rep .none)
  /-- Every other byte is an opcode byte. -/
  | opcode {w : List Char} {b : UInt8} (hw : IsHexByte w b)
    (hb : b ∉ [0x0f, 0x66, 0xf2, 0xf3]) : Spelled w (.opcode b)
  /-- An extra byte follows `&`. -/
  | extra {w : List Char} {b : UInt8} (hw : IsHexByte w b) : Spelled ('&' :: w) (.extra b)
  /-- A register field for an operand. -/
  | anyReg : Spelled ['/', 'r'] (.reg .any)
  /-- A register field that extends the opcode. -/
  | reg (r : Fin 8) : Spelled ['/', Nat.digitChar r] (.reg (.only r))
  /-- The memory modes. -/
  | memory : Spelled ['/', 'm', 'o', 'd', '_', 'm'] .memory
  /-- One mode. -/
  | mode (m : Fin 4) : Spelled ['/', 'm', 'o', 'd', '_', Nat.digitChar m] (.mode m)
  /-- One r/m value. -/
  | rm (r : Fin 8) : Spelled ['/', 'r', 'm', '_', Nat.digitChar r] (.rm r)

/-- A byte is not spelled as a word of another form. -/
theorem read_of_isHexByte {w : List Char} {b : UInt8} (hw : IsHexByte w b) :
    read w = .ok (ofByte b) := by
  have hfirst {c : Char} {v : Nat} (hc : IsHexDigit c v) : c ≠ '&' ∧ c ≠ '/' := by
    refine ⟨?_, ?_⟩ <;> rintro rfl <;> cases Text.hexDigit?_eq_some_iff.mpr hc
  have hhex := Text.hexByte?_eq_some_iff.mpr hw
  cases hw with
  | one hc =>
    obtain ⟨amp, slash⟩ := hfirst hc
    rw [read]
    · rw [hhex]
    all_goals simp [amp, slash]
  | two hc hd =>
    obtain ⟨amp, slash⟩ := hfirst hc
    rw [read]
    · rw [hhex]
    all_goals simp [amp, slash]

/-- A byte that is neither an escape nor a prefix is an opcode byte. -/
theorem ofByte_eq_opcode {b : UInt8} (h : b ∉ [0x0f, 0x66, 0xf2, 0xf3]) : ofByte b = opcode b := by
  simp only [List.mem_cons, List.not_mem_nil, or_false, not_or] at h
  rw [ofByte, if_neg h.1, if_neg h.2.1, if_neg h.2.2.1, if_neg h.2.2.2]

theorem read_of_spelled {w : List Char} {t : Token} (h : Spelled w t) : read w = .ok t := by
  cases h with
  | escape hw => exact read_of_isHexByte hw
  | opSize hw => exact read_of_isHexByte hw
  | noOpSize => rfl
  | repF2 hw => exact read_of_isHexByte hw
  | repF3 hw => exact read_of_isHexByte hw
  | noRep => rfl
  | opcode hw hb => rw [read_of_isHexByte hw, ofByte_eq_opcode hb]
  | extra hw => rw [read, Text.hexByte?_eq_some_iff.mpr hw]
  | anyReg => rfl
  | reg r => exact read_chars (t := .reg (.only r)) fun b hb ↦ by cases hb
  | memory => rfl
  | mode m => exact read_chars (t := .mode m) fun b hb ↦ by cases hb
  | rm r => exact read_chars (t := .rm r) fun b hb ↦ by cases hb

theorem spelled_ofByte {w : List Char} {b : UInt8} (hw : IsHexByte w b) :
    Spelled w (ofByte b) := by
  rw [ofByte]
  split
  · next hb => exact .escape (hb ▸ hw)
  · next h0f =>
    split
    · next hb => exact .opSize (hb ▸ hw)
    · next h66 =>
      split
      · next hb => exact .repF2 (hb ▸ hw)
      · next hf2 =>
        split
        · next hb => exact .repF3 (hb ▸ hw)
        · next hf3 => exact .opcode hw (by simp [h0f, h66, hf2, hf3])

theorem spelled_of_read {w : List Char} {t : Token} (h : read w = .ok t) : Spelled w t := by
  unfold read at h
  split at h
  · cases h; exact .noRep
  · cases h; exact .noOpSize
  · cases h; exact .anyReg
  · cases h; exact .memory
  · split at h
    · next hb => cases h; exact .extra (Text.hexByte?_eq_some_iff.mp hb)
    · cases h
  · split at h
    · next hm => cases h; rw [(digit?_eq_some_iff (by decide)).mp hm]; exact .mode _
    · cases h
  · split at h
    · next hr => cases h; rw [(digit?_eq_some_iff (by decide)).mp hr]; exact .rm _
    · cases h
  · split at h
    · next hr => cases h; rw [(digit?_eq_some_iff (by decide)).mp hr]; exact .reg _
    · cases h
  · split at h
    · next hb => cases h; exact spelled_ofByte (Text.hexByte?_eq_some_iff.mp hb)
    · split at h <;> cases h

/-- **Reading a word** gives the token that it is a word of. -/
theorem read_eq_ok_iff {w : List Char} {t : Token} : read w = .ok t ↔ Spelled w t :=
  ⟨spelled_of_read, read_of_spelled⟩

end Token

end DecodeTrie
