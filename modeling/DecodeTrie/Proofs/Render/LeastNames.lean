import DecodeTrie.Proofs.Render.Names

/-!
# Claims give the least free name

A claim tries the name that is asked for, then the name with 2 behind it, then with 3, and so on,
until it comes to one that no claim has given. `Search` is this loop without a bound. It ends, for
the candidates differ from each other and only finitely many names have been given, and it ends at
the first candidate that is free (`search_freeName`). This holds of any claims, made with any
prefixes and classes, also when a name with a number behind it has been asked for as it stands
(`leastFree_of_claimAll`).

The number of the loop is not limited. By the bound in `LeastFree` the loop takes no number above
`given.length + 1`, so that the number that comes next, at most `given.length + 2`, is a signed
integer of 32 bits while fewer than `2 ^ 31 - 2` names have been given.
-/

namespace DecodeTrie.Render

/-! ## What is asked for -/

/-- How a character of a symbol stands in the name of a constant. -/
inductive StandsAs : Char → Char → Prop
  /-- A small letter stands as its capital. -/
  | small {c d : Char} (hc : c.isLower) (hd : d.toNat + 32 = c.toNat) : StandsAs c d
  /-- A capital or a digit stands as it is. -/
  | kept {c : Char} (hc : c.isUpper ∨ c.isDigit) : StandsAs c c
  /-- Any other character stands as an underscore. -/
  | other {c : Char} (hc : ¬ c.isAlphanum) : StandsAs c '_'

/-- A capital is 32 below its small letter. -/
theorem toNat_toUpper {c : Char} (h : 'a'.val ≤ c.val ∧ c.val ≤ 'z'.val) :
    c.toUpper.toNat + 32 = c.toNat := by
  have hupper := (Eq.refl c.toUpper).trans (dif_pos h)
  have hval := congrArg Char.val hupper
  have hdiff : ('A'.val - 'a'.val).toNat = 2 ^ 32 - 32 := by decide
  have ha : 'a'.val.toNat = 97 := by decide
  have hle := UInt32.le_iff_toNat_le.mp h.1
  have hlt := c.val.toNat_lt
  rw [← Char.toNat_val, ← Char.toNat_val, hval, UInt32.toNat_add, hdiff]
  omega

theorem isLower_iff {c : Char} : c.isLower ↔ 'a'.val ≤ c.val ∧ c.val ≤ 'z'.val := by
  have h : c.isLower = (decide (c.val ≥ 'a'.val) && decide (c.val ≤ 'z'.val)) := rfl
  simp [h]

theorem isAlphanum_iff {c : Char} : c.isAlphanum ↔ (c.isUpper ∨ c.isDigit) ∨ c.isLower := by
  have h : c.isAlphanum = ((c.isUpper || c.isLower) || c.isDigit) := rfl
  rw [h, Bool.or_eq_true, Bool.or_eq_true, or_right_comm]

/-- Capitals and digits come before the small letters. -/
theorem not_isLower {c : Char} (h : c.isUpper ∨ c.isDigit) : ¬ c.isLower := by
  have hupper : c.isUpper = decide (c.val ≥ 'A'.val ∧ c.val ≤ 'Z'.val) := rfl
  have hdigit : c.isDigit = (decide (c.val ≥ '0'.val) && decide (c.val ≤ '9'.val)) := rfl
  have hz : c.val.toNat ≤ 90 := by
    rcases h with h | h
    · rw [hupper, decide_eq_true_iff] at h
      exact UInt32.le_iff_toNat_le.mp h.2
    · rw [hdigit, Bool.and_eq_true, decide_eq_true_iff, decide_eq_true_iff] at h
      exact Nat.le_trans (UInt32.le_iff_toNat_le.mp h.2) (by decide)
  intro hlower
  have ha : 97 ≤ c.val.toNat := UInt32.le_iff_toNat_le.mp (isLower_iff.mp hlower).1
  omega

theorem toUpper_eq_self {c : Char} (h : c.isUpper ∨ c.isDigit) : c.toUpper = c :=
  dif_neg (isLower_iff.not.mp (not_isLower h))

theorem standsAs_iff {c d : Char} : StandsAs c d ↔ d = nameChar c := by
  rw [nameChar]
  constructor
  · rintro (⟨hc, hd⟩ | hc | hc)
    · rw [if_pos (isAlphanum_iff.mpr (.inr hc))]
      have hupper := toNat_toUpper (isLower_iff.mp hc)
      exact Char.toNat_inj.mp (by omega)
    · rw [if_pos (isAlphanum_iff.mpr (.inl hc)), toUpper_eq_self hc]
    · rw [if_neg hc]
  · rintro rfl
    split
    · next hc =>
      rcases isAlphanum_iff.mp hc with hc | hc
      · rw [toUpper_eq_self hc]
        exact .kept hc
      · exact .small hc (toNat_toUpper (isLower_iff.mp hc))
    · next hc => exact .other hc

/-- The name that a request asks for: behind the prefix, the name of the symbol as it stands in
names of constants, with the class in front of it unless it starts with the class. -/
def NameRequest.AsksFor (r : NameRequest) (base : String) : Prop :=
  ∃ ident, List.Forall₂ StandsAs r.raw.toList ident ∧
    (r.cls.toList <+: ident ∧ base = r.symbolPrefix ++ String.ofList ident ∨
      ¬ r.cls.toList <+: ident ∧ base = r.symbolPrefix ++ r.cls ++ String.ofList ident)

theorem NameRequest.asksFor_iff {r : NameRequest} {base : String} :
    r.AsksFor base ↔ base = baseName r.symbolPrefix r.cls r.raw := by
  have hident (ident : List Char) :
      List.Forall₂ StandsAs r.raw.toList ident ↔ ident = r.raw.toList.map nameChar := by
    have hstands : StandsAs = fun c d ↦ nameChar c = d :=
      funext₂ fun c d ↦ propext (standsAs_iff.trans eq_comm)
    rw [hstands, ← List.forall₂_map_left_iff (R := (· = ·)), List.forall₂_eq_eq_eq, eq_comm]
  simp only [AsksFor, hident, exists_eq_left, baseName, constantName, List.isPrefixOf_iff_prefix]
  split
  · next h => simp [h]
  · next h => simp [h, String.append_assoc]

/-! ## The loop -/

/-- A name with a number behind it. -/
def numbered (base : String) (k : Nat) : String := base ++ "_" ++ toString k

/-- **The loop of a claim**, with the name that is tried and the number that comes next: a name
that no claim has given is what it ends with, and behind another one it goes on with the next
number. -/
inductive Search (given : List String) (base : String) : String → Nat → String → Prop
  /-- The name is free. -/
  | free {name : String} {k : Nat} (h : name ∉ given) : Search given base name k name
  /-- The name has been given. -/
  | next {name found : String} {k : Nat} (h : name ∈ given)
    (hrest : Search given base (numbered base k) (k + 1) found) : Search given base name k found

/-- The loop ends with one name only. -/
theorem Search.unique {given : List String} {base name found found' : String} {k : Nat}
    (h : Search given base name k found) (h' : Search given base name k found') :
    found = found' := by
  induction h with
  | free hfree =>
    cases h' with
    | free _ => rfl
    | next hgiven _ => exact absurd hgiven hfree
  | next hgiven _ ih =>
    cases h' with
    | free hfree => exact absurd hgiven hfree
    | next _ hrest => exact ih hrest

/-- The loop passes over candidates that have been given, and ends at one that has not. -/
theorem search_candidate {given : List String} {base : String} {m n : Nat} (hmn : m ≤ n)
    (hgiven : ∀ i, m ≤ i → i < n → candidate base i ∈ given)
    (hfree : candidate base n ∉ given) :
    Search given base (candidate base m) (m + 2) (candidate base n) := by
  induction hd : n - m generalizing m with
  | zero =>
    obtain rfl : m = n := by omega
    exact .free hfree
  | succ d ih =>
    have hlt : m < n := by omega
    exact .next (hgiven m (Nat.le_refl m) hlt)
      (ih hlt (fun i hi ↦ hgiven i (Nat.le_of_succ_le hi)) (by omega))

/-- **The loop ends**, with the name that a claim chooses. -/
theorem search_freeName (given : Names) (base : String) :
    Search given base base 2 (freeName given base) := by
  obtain ⟨n, -, hname, hfree, hbefore⟩ := exists_freeName_eq_first given base
  rw [hname]
  exact search_candidate (Nat.zero_le n) (fun i _ hi ↦ hbefore i hi) hfree

/-! ## The least free name -/

/-- A name is the first that is free: it has not been given, and it is what was asked for, unless
that has been given; then it has a number behind it, and with every smaller number from 2 on it has
been given. The number is at most one more than the number of names that have been given. -/
def LeastFree (given : List String) (base name : String) : Prop :=
  name ∉ given ∧ (name = base ∨ base ∈ given ∧ ∃ k, 2 ≤ k ∧ k ≤ given.length + 1 ∧
    name = numbered base k ∧ ∀ j, 2 ≤ j → j < k → numbered base j ∈ given)

theorem leastFree_freeName (given : Names) (base : String) :
    LeastFree given base (freeName given base) := by
  obtain ⟨n, hle, hname, hfree, hbefore⟩ := exists_freeName_eq_first given base
  rw [hname]
  refine ⟨hfree, ?_⟩
  cases n with
  | zero => exact .inl rfl
  | succ n =>
    refine .inr ⟨hbefore 0 (Nat.succ_pos n), n + 2, Nat.le_add_left 2 n, by omega, rfl,
      fun j hj hjk ↦ ?_⟩
    obtain ⟨i, rfl⟩ := Nat.exists_eq_add_of_le' hj
    exact hbefore (i + 1) (by omega)

/-! ## Any claims -/

theorem claimAll_cons (r : NameRequest) (requests : List NameRequest) (taken : Names) :
    claimAll (r :: requests) taken =
      let name := freeName taken (baseName r.symbolPrefix r.cls r.raw)
      (name :: (claimAll requests (name :: taken)).1, (claimAll requests (name :: taken)).2) := rfl

/-- The claimed names are those that have been given, the last one first. -/
theorem claimAll_snd (requests : List NameRequest) (taken : Names) :
    (claimAll requests taken).2 = (claimAll requests taken).1.reverse ++ taken := by
  induction requests generalizing taken with
  | nil => rfl
  | cons r requests ih => simp [claimAll_cons, ih]

/-- Which name is free does not depend on the order of the claims. -/
theorem freeName_reverse (taken : Names) (base : String) :
    freeName taken.reverse base = freeName taken base := by
  simp [freeName]

/-- A further claim gives the free name among those that are claimed by then. -/
theorem claimAll_concat (requests : List NameRequest) (r : NameRequest) (taken : Names) :
    (claimAll (requests ++ [r]) taken).1 = (claimAll requests taken).1 ++
      [freeName (claimAll requests taken).2 (baseName r.symbolPrefix r.cls r.raw)] := by
  induction requests generalizing taken with
  | nil => rfl
  | cons r' requests ih => simp [claimAll_cons, ih]

/-- **Every claim ends with the least free name**, behind any other claims. The names that have been
given before are kept, the loop ends, and in no other way than with the name that is given; and this
is the name that was asked for, or the first of those with a number behind it, which no claim has
given before. -/
theorem leastFree_of_claimAll (before : List NameRequest) (r : NameRequest) :
    let given := (claimAll before []).1
    ∃ base name, (∀ b, r.AsksFor b ↔ b = base) ∧
      (claimAll (before ++ [r]) []).1 = given ++ [name] ∧
      (∀ found, Search given base base 2 found ↔ found = name) ∧ LeastFree given base name := by
  intro given
  have hname : (claimAll (before ++ [r]) []).1 =
      given ++ [freeName given (baseName r.symbolPrefix r.cls r.raw)] := by
    rw [claimAll_concat, claimAll_snd, List.append_nil, freeName_reverse]
  have hsearch := search_freeName given (baseName r.symbolPrefix r.cls r.raw)
  refine ⟨_, _, fun b ↦ NameRequest.asksFor_iff, hname, fun found ↦ ?_, leastFree_freeName given _⟩
  exact ⟨fun h ↦ h.unique hsearch, fun h ↦ h ▸ hsearch⟩

example :
    (claimAll [⟨"", "INSN_", "a"⟩, ⟨"", "INSN_", "a_2"⟩, ⟨"", "INSN_", "a"⟩] []).1 =
      ["INSN_A", "INSN_A_2", "INSN_A_3"] := by
  decide +kernel

end DecodeTrie.Render
