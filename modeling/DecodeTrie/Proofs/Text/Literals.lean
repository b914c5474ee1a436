import DecodeTrie.Text.Quoted

/-!
# Literals

The digits that are written for a number in base 16 are lower-case digits, and they denote the
number, also when they are padded with zeros (`isHexLiteral_paddedHexLiteral`). None of the literals
that are written for numbers and texts contains a line break, not even the quoted literal of a text
with line breaks (`oneLine_quoted`).
-/

namespace DecodeTrie.Text

/-! ## Hexadecimal literals -/

/-- The lower-case hexadecimal digits, in the order of their values. -/
def hexAlphabet : List Char := "0123456789abcdef".toList

/-- The number that hexadecimal digits denote. -/
def hexValue (digits : List Char) : Nat :=
  digits.foldl (fun value d ↦ 16 * value + hexAlphabet.idxOf d) 0

theorem digitChar_mem_hexAlphabet {n : Nat} (h : n < 16) : Nat.digitChar n ∈ hexAlphabet := by
  revert h; revert n; decide

theorem idxOf_digitChar {n : Nat} (h : n < 16) : hexAlphabet.idxOf (Nat.digitChar n) = n := by
  revert h; revert n; decide

theorem hexDigits_of_lt {n : Nat} (h : n < 16) : hexDigits n = [Nat.digitChar n] :=
  Nat.toDigits_of_lt_base h

theorem hexDigits_of_le {n : Nat} (h : 16 ≤ n) :
    hexDigits n = hexDigits (n / 16) ++ [Nat.digitChar (n % 16)] :=
  Nat.toDigits_of_base_le (by decide) h

theorem mem_hexAlphabet_of_mem_hexDigits {n : Nat} {d : Char} (h : d ∈ hexDigits n) :
    d ∈ hexAlphabet := by
  induction n using Nat.strongRecOn with
  | ind n ih =>
    by_cases hn : n < 16
    · rw [hexDigits_of_lt hn, List.mem_singleton] at h
      exact h ▸ digitChar_mem_hexAlphabet hn
    · rw [hexDigits_of_le (Nat.le_of_not_lt hn), List.mem_append, List.mem_singleton] at h
      obtain h | rfl := h
      · exact ih (n / 16) (by omega) h
      · exact digitChar_mem_hexAlphabet (Nat.mod_lt n (by decide))

theorem hexValue_concat (digits : List Char) (d : Char) :
    hexValue (digits ++ [d]) = 16 * hexValue digits + hexAlphabet.idxOf d := by
  rw [hexValue, List.foldl_append]
  rfl

/-- The digits that are written for a number denote it. -/
theorem hexValue_hexDigits (n : Nat) : hexValue (hexDigits n) = n := by
  induction n using Nat.strongRecOn with
  | ind n ih =>
    by_cases hn : n < 16
    · rw [hexDigits_of_lt hn, hexValue, List.foldl_cons, List.foldl_nil, idxOf_digitChar hn]
      omega
    · rw [hexDigits_of_le (Nat.le_of_not_lt hn), hexValue_concat, ih (n / 16) (by omega),
        idxOf_digitChar (Nat.mod_lt n (by decide))]
      omega

theorem hexValue_replicate_append (k : Nat) (digits : List Char) :
    hexValue (List.replicate k '0' ++ digits) = hexValue digits := by
  induction k with
  | zero => rfl
  | succ k ih => exact ih

/-- A text is the literal of a number: `0x`, and so many lower-case digits that denote it. -/
def IsHexLiteral (width n : Nat) (s : String) : Prop :=
  ∃ digits, s = "0x" ++ String.ofList digits ∧ digits.length = width ∧ digits ⊆ hexAlphabet ∧
    hexValue digits = n

/-- **A number is written as its literal** with as many digits as are asked for, if that many are
enough. -/
theorem isHexLiteral_paddedHexLiteral {width n : Nat} (h : (hexDigits n).length ≤ width) :
    IsHexLiteral width n (paddedHexLiteral width n) := by
  refine ⟨(hexDigits n).leftpad width '0', rfl, ?_, ?_, ?_⟩
  · rw [List.length_leftpad, Nat.max_eq_left h]
  · intro d hd
    obtain hzero | hdigit := List.mem_append.mp hd
    · rw [List.eq_of_mem_replicate hzero]
      decide
    · exact mem_hexAlphabet_of_mem_hexDigits hdigit
  · rw [List.leftpad, hexValue_replicate_append, hexValue_hexDigits]

/-! ## Literals without line breaks -/

/-- A text has no line break. -/
def OneLine (s : String) : Prop := '\n' ∉ s.toList

instance : DecidablePred OneLine := fun s ↦ inferInstanceAs (Decidable ('\n' ∉ s.toList))

@[simp] theorem oneLine_append {s t : String} : OneLine (s ++ t) ↔ OneLine s ∧ OneLine t := by
  simp [OneLine]

@[simp] theorem oneLine_ofList {cs : List Char} : OneLine (String.ofList cs) ↔ '\n' ∉ cs := by
  simp [OneLine]

theorem oneLine_intercalate {separator : String} (hsep : OneLine separator) {parts : List String}
    (h : ∀ part ∈ parts, OneLine part) : OneLine (separator.intercalate parts) := by
  induction parts with
  | nil => simp [OneLine]
  | cons part parts ih =>
    obtain ⟨hpart, hparts⟩ := List.forall_mem_cons.mp h
    cases parts with
    | nil => rwa [String.intercalate_singleton]
    | cons part' parts =>
      rw [String.intercalate_cons_cons, oneLine_append, oneLine_append]
      exact ⟨⟨hpart, hsep⟩, ih hparts⟩

theorem newline_not_mem_hexDigits (n : Nat) : '\n' ∉ hexDigits n := fun h ↦
  absurd (mem_hexAlphabet_of_mem_hexDigits h) (by decide)

@[simp] theorem oneLine_hexLiteral (n : Nat) : OneLine (hexLiteral n) := by
  simp +decide [hexLiteral, newline_not_mem_hexDigits]

@[simp] theorem oneLine_paddedHexLiteral (width n : Nat) : OneLine (paddedHexLiteral width n) := by
  simp +decide [paddedHexLiteral, List.leftpad, newline_not_mem_hexDigits]

@[simp] theorem oneLine_repr (n : Nat) : OneLine n.repr := by
  rw [OneLine, Nat.toList_repr]
  exact fun h ↦ absurd (Nat.isDigit_of_mem_toDigits (by decide) (by decide) h) (by decide)

@[simp] theorem oneLine_toString_int (n : Int) : OneLine (toString n) := by
  cases n with
  | ofNat n => exact oneLine_repr n
  | negSucc n => exact oneLine_append.mpr ⟨by decide, oneLine_repr (n + 1)⟩

theorem newline_not_mem_escapeChar (c : Char) : '\n' ∉ escapeChar c := by
  by_cases hc : c = '\n'
  · subst hc
    decide
  · simp only [escapeChar]
    repeat' split
    -- Only a printable character stands for itself, and that one is not a line break.
    all_goals simp [newline_not_mem_hexDigits, Ne.symm hc]

@[simp] theorem oneLine_quoted (s : String) : OneLine (quoted s) := by
  simp +decide [quoted, newline_not_mem_escapeChar]

end DecodeTrie.Text
