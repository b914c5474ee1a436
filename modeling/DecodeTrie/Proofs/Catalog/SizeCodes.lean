import DecodeTrie.Catalog.Argument
import Mathlib.Data.List.Basic

/-!
# Codes of sizes

An argument whose size is not a number of bytes has the size of the first argument that is written
with the same text. Sizes are resolved one after the other, and a reference is searched for among
the arguments that are resolved already, where only the first of its kind still carries its text.
All the same each argument comes out as its place among the texts of all sizes says
(`resolveSizes_cases`). So the code of a size is the number of bytes, or it gives the place where
the text of the size comes first (`code_cases`).
-/

namespace DecodeTrie

/-! ## Written sizes -/

/-- The size is written as a `B` and the decimal digits of a number. -/
def WritesBytes (size : String) (bytes : Nat) : Prop :=
  ∃ digits : List Char, size.toList = 'B' :: digits ∧ digits ≠ [] ∧
    (∀ c ∈ digits, c.isDigit = true) ∧ Nat.ofDigitChars 10 digits 0 = bytes

/-- The size is written as a number of bytes that no fixed size can have. -/
def OutOfRange (size : String) : Prop :=
  ∃ bytes, WritesBytes size bytes ∧ ¬ (1 ≤ bytes ∧ bytes ≤ 127)

section

variable {size size' : String} {bytes : Nat}

theorem fixedNumber?_eq_some_iff : fixedNumber? size = some bytes ↔ WritesBytes size bytes := by
  constructor
  · intro h
    rw [fixedNumber?] at h
    split at h
    · next digits hsize =>
      obtain ⟨hdigits, hbytes⟩ := Option.ite_none_right_eq_some.mp h
      rw [Bool.and_eq_true, List.all_eq_true] at hdigits
      exact ⟨digits, hsize, by simpa using hdigits.1, hdigits.2, Option.some.inj hbytes⟩
    · cases h
  · rintro ⟨digits, hsize, hne, hdigits, rfl⟩
    rw [fixedNumber?, hsize]
    exact if_pos (by simpa [hne] using hdigits)

theorem fixedNumber?_eq_none_iff : fixedNumber? size = none ↔ ¬ ∃ bytes, WritesBytes size bytes := by
  simp only [← fixedNumber?_eq_some_iff, ← Option.isSome_iff_exists, Option.not_isSome_iff_eq_none]

theorem WritesBytes.le_of_not_outOfRange (h : WritesBytes size bytes) (hout : ¬ OutOfRange size) :
    1 ≤ bytes ∧ bytes ≤ 127 :=
  not_not.mp fun hbytes ↦ hout ⟨bytes, h, hbytes⟩

theorem isFixedSize_iff : isFixedSize bytes = true ↔ 1 ≤ bytes ∧ bytes ≤ 127 := by
  rw [isFixedSize, Bool.and_eq_true, decide_eq_true_eq, decide_eq_true_eq]

/-! ## Resolved sizes -/

variable {sizes : List String} {index : Nat}

/-- The size of the argument at a place among the texts of all sizes: a number of bytes, or that of
the first argument with the same text. -/
def resolvedSize (sizes : List String) (index : Nat) (size : String) : ArgSize :=
  match fixedNumber? size with
  | some bytes => .fixed bytes
  | none => if sizes.idxOf size = index then .sizeClass size else .sameAs (sizes.idxOf size)

theorem resolvedSize_of_fixed (h : fixedNumber? size = some bytes) :
    resolvedSize sizes index size = .fixed bytes := by
  rw [resolvedSize, h]

theorem resolvedSize_of_class (h : fixedNumber? size = none) :
    resolvedSize sizes index size =
      if sizes.idxOf size = index then .sizeClass size else .sameAs (sizes.idxOf size) := by
  rw [resolvedSize, h]

theorem resolvedSize_eq_fixed_iff :
    resolvedSize sizes index size = .fixed bytes ↔ WritesBytes size bytes := by
  rw [← fixedNumber?_eq_some_iff]
  rcases h : fixedNumber? size with _ | bytes'
  · rw [resolvedSize_of_class h]
    grind
  · simp [resolvedSize_of_fixed h]

/-- A size class is defined where its text comes first. -/
theorem resolvedSize_eq_sizeClass_iff :
    resolvedSize sizes index size = .sizeClass size' ↔
      fixedNumber? size = none ∧ size = size' ∧ sizes.idxOf size = index := by
  rcases h : fixedNumber? size with _ | bytes
  · rw [resolvedSize_of_class h]
    split
    · next hindex => simp [hindex]
    · next hindex => simp [hindex]
  · simp [resolvedSize_of_fixed h]

/-- A size class is referred to from everywhere else. -/
theorem resolvedSize_eq_sameAs_iff {j : Nat} :
    resolvedSize sizes index size = .sameAs j ↔
      fixedNumber? size = none ∧ sizes.idxOf size = j ∧ j ≠ index := by
  rcases h : fixedNumber? size with _ | bytes
  · rw [resolvedSize_of_class h]
    grind
  · simp [resolvedSize_of_fixed h]

/-- The code of a fixed size is its number of bytes. -/
theorem code_resolvedSize_of_fixed (h : fixedNumber? size = some bytes) :
    (resolvedSize sizes index size).code index = bytes := by
  rw [resolvedSize_of_fixed h, ArgSize.code]

/-- The code of any other size gives the place where its text comes first. -/
theorem code_resolvedSize_of_class (h : fixedNumber? size = none) :
    (resolvedSize sizes index size).code index = -(sizes.idxOf size + 1 : Int) := by
  rw [resolvedSize_of_class h]
  split
  · next hindex => rw [ArgSize.code, hindex]
  · rw [ArgSize.code]

end

/-! ## All arguments -/

section

variable {insn size : String} {sizes rest : List String} {decls done : List ArgDecl}

/-- Arguments as the texts of all sizes say. -/
def resolvedArguments (sizes : List String) (decls : List ArgDecl) : List Argument :=
  decls.mapIdx fun i d ↦ ⟨d.name, resolvedSize sizes i d.size⟩

theorem getElem?_resolvedArguments_eq_some_iff {i : Nat} {a : Argument} :
    (resolvedArguments sizes decls)[i]? = some a ↔
      ∃ d, decls[i]? = some d ∧ a = ⟨d.name, resolvedSize sizes i d.size⟩ := by
  rw [resolvedArguments, List.getElem?_mapIdx, Option.map_eq_some_iff]
  simp only [eq_comm]

theorem length_resolvedArguments : (resolvedArguments sizes decls).length = decls.length :=
  List.length_mapIdx

/-- The argument to refer to is found, among those that are resolved, where its text comes first. -/
theorem findIdx?_resolvedArguments (hsizes : sizes = done.map ArgDecl.size ++ rest)
    (h : fixedNumber? size = none) (hmem : size ∈ done.map ArgDecl.size) :
    (resolvedArguments sizes done).findIdx? (fun a ↦ a.size == .sizeClass size) =
      some (sizes.idxOf size) := by
  have hidx : sizes.idxOf size = (done.map ArgDecl.size).idxOf size := by
    rw [hsizes, List.idxOf_append_of_mem hmem]
  have hfirst : (done.map ArgDecl.size)[sizes.idxOf size]? = some size := by
    rw [hidx, List.getElem?_idxOf hmem]
  rw [List.getElem?_map, Option.map_eq_some_iff] at hfirst
  obtain ⟨d, hd, rfl⟩ := hfirst
  have hget : (resolvedArguments sizes done)[sizes.idxOf d.size]? =
      some ⟨d.name, resolvedSize sizes (sizes.idxOf d.size) d.size⟩ :=
    getElem?_resolvedArguments_eq_some_iff.mpr ⟨d, hd, rfl⟩
  obtain ⟨hlt, ha⟩ := List.getElem?_eq_some_iff.mp hget
  rw [List.findIdx?_eq_some_iff_getElem]
  refine ⟨hlt, ?_, fun k hk hclass ↦ ?_⟩
  · rw [ha, beq_iff_eq, resolvedSize_eq_sizeClass_iff]
    exact ⟨h, rfl, rfl⟩
  · -- An earlier argument of that kind would be where the text comes first.
    obtain ⟨d', -, ha'⟩ := getElem?_resolvedArguments_eq_some_iff.mp (List.getElem?_eq_getElem
      (Nat.lt_trans hk hlt))
    rw [ha', beq_iff_eq, resolvedSize_eq_sizeClass_iff] at hclass
    obtain ⟨-, hsize, hk'⟩ := hclass
    rw [hsize] at hk'
    omega

/-- Before its text has come, no argument is there to refer to. -/
theorem findIdx?_resolvedArguments_eq_none (hmem : size ∉ done.map ArgDecl.size) :
    (resolvedArguments sizes done).findIdx? (fun a ↦ a.size == .sizeClass size) = none := by
  rw [List.findIdx?_eq_none_iff]
  intro a ha
  obtain ⟨i, hi⟩ := List.mem_iff_getElem?.mp ha
  obtain ⟨d, hd, rfl⟩ := getElem?_resolvedArguments_eq_some_iff.mp hi
  rw [beq_eq_false_iff_ne]
  intro hclass
  obtain ⟨-, hsize, -⟩ := resolvedSize_eq_sizeClass_iff.mp hclass
  exact hmem (hsize ▸ List.mem_map_of_mem (List.mem_of_getElem? hd))

/-- A size that is not out of range is resolved as the texts of all sizes say. -/
theorem resolveSize_resolvedArguments (hsizes : sizes = done.map ArgDecl.size ++ size :: rest)
    (h : ¬ OutOfRange size) :
    resolveSize (resolvedArguments sizes done) size =
      .ok (resolvedSize sizes done.length size) := by
  rw [resolveSize]
  rcases hnum : fixedNumber? size with _ | bytes
  · rw [resolvedSize_of_class hnum]
    by_cases hmem : size ∈ done.map ArgDecl.size
    · have hlt : sizes.idxOf size < done.length := by
        rw [hsizes, List.idxOf_append_of_mem hmem, ← List.length_map ArgDecl.size]
        exact List.idxOf_lt_length_of_mem hmem
      rw [if_neg (Nat.ne_of_lt hlt)]
      simp only [findIdx?_resolvedArguments hsizes hnum hmem]
    · have hidx : sizes.idxOf size = done.length := by
        rw [hsizes, List.idxOf_append_of_notMem hmem, List.idxOf_cons_self, List.length_map]
        rfl
      rw [if_pos hidx]
      simp only [findIdx?_resolvedArguments_eq_none hmem]
  · have hfits : isFixedSize bytes = true :=
      isFixedSize_iff.mpr ((fixedNumber?_eq_some_iff.mp hnum).le_of_not_outOfRange h)
    rw [resolvedSize_of_fixed hnum]
    exact if_pos hfits

/-- A size that is out of range is refused. -/
theorem resolveSize_of_outOfRange {earlier : List Argument} (h : OutOfRange size) :
    resolveSize earlier size = .error (.fixedSize size) := by
  obtain ⟨bytes, hbytes, hrange⟩ := h
  rw [resolveSize, fixedNumber?_eq_some_iff.mpr hbytes]
  exact if_neg (mt isFixedSize_iff.mp hrange)

/-- Behind resolved arguments, the others are resolved in the same way up to the first size that is
out of range. -/
theorem resolveSizesFrom_cases (insn : String) (done : List ArgDecl)
    (hsizes : sizes = (done ++ decls).map ArgDecl.size) :
    ((∀ d ∈ decls, ¬ OutOfRange d.size) ∧
      resolveSizesFrom insn (resolvedArguments sizes done) decls =
        .ok (resolvedArguments sizes (done ++ decls))) ∨
    ∃ before d rest, decls = before ++ d :: rest ∧ (∀ d' ∈ before, ¬ OutOfRange d'.size) ∧
      OutOfRange d.size ∧
      resolveSizesFrom insn (resolvedArguments sizes done) decls =
        .error (.invalidArgument insn (done.length + before.length) (.fixedSize d.size)) := by
  induction decls generalizing done with
  | nil => exact .inl ⟨List.forall_mem_nil _, by rw [List.append_nil]; rfl⟩
  | cons d ds ih =>
    rw [resolveSizesFrom]
    by_cases hd : OutOfRange d.size
    · refine .inr ⟨[], d, ds, rfl, List.forall_mem_nil _, hd, ?_⟩
      simp only [resolveSize_of_outOfRange hd, length_resolvedArguments, List.length_nil,
        Nat.add_zero]
    · have hsplit : sizes = done.map ArgDecl.size ++ d.size :: ds.map ArgDecl.size := by
        rw [hsizes, List.map_append, List.map_cons]
      have hnext : resolvedArguments sizes done ++
          [⟨d.name, resolvedSize sizes done.length d.size⟩] =
            resolvedArguments sizes (done ++ [d]) := List.mapIdx_concat.symm
      simp only [resolveSize_resolvedArguments hsplit hd, hnext]
      rw [List.append_cons done d ds] at hsizes ⊢
      obtain ⟨hds, hok⟩ | ⟨before, d', rest, rfl, hbefore, hd', herror⟩ := ih _ hsizes
      · exact .inl ⟨List.forall_mem_cons.mpr ⟨hd, hds⟩, hok⟩
      · refine .inr ⟨d :: before, d', rest, rfl, List.forall_mem_cons.mpr ⟨hd, hbefore⟩, hd', ?_⟩
        rw [herror, List.length_append, List.length_singleton, List.length_cons, Nat.add_assoc,
          Nat.add_comm 1]

/-- **Resolving sizes.** Either no size is out of range, and the arguments are as the texts of all
sizes say, or the first size that is out of range is refused. -/
theorem resolveSizes_cases (insn : String) (decls : List ArgDecl) :
    ((∀ d ∈ decls, ¬ OutOfRange d.size) ∧ resolveSizes insn decls =
      .ok (resolvedArguments (decls.map ArgDecl.size) decls)) ∨
    ∃ before d rest, decls = before ++ d :: rest ∧ (∀ d' ∈ before, ¬ OutOfRange d'.size) ∧
      OutOfRange d.size ∧
      resolveSizes insn decls = .error (.invalidArgument insn before.length (.fixedSize d.size)) := by
  have h := resolveSizesFrom_cases insn [] (Eq.refl (decls.map ArgDecl.size))
  simpa [resolveSizes, resolvedArguments] using h

/-! ## Codes -/

/-- The codes of the sizes of arguments say how the sizes have been declared. -/
structure SizesDecode (decls : List ArgDecl) (args : List Argument) : Prop where
  /-- The arguments are the declared ones. -/
  names_eq : args.map Argument.name = decls.map ArgDecl.name
  /-- No code is 0. -/
  code_ne_zero : ∀ {i : Nat} {a : Argument}, args[i]? = some a → a.size.code i ≠ 0
  /-- The positive codes are those of the sizes that are written as 1 to 127 bytes. -/
  code_pos_iff : ∀ {i : Nat} {d : ArgDecl} {a : Argument}, decls[i]? = some d → args[i]? = some a →
    (0 < a.size.code i ↔ ∃ bytes, WritesBytes d.size bytes ∧ 1 ≤ bytes ∧ bytes ≤ 127)
  /-- The code of a size that is written as a number of bytes is that number. -/
  code_eq : ∀ {i : Nat} {d : ArgDecl} {a : Argument} {bytes : Nat}, decls[i]? = some d →
    args[i]? = some a → WritesBytes d.size bytes → a.size.code i = bytes
  /-- A negative code gives the first argument with the same text, and that argument defines the
  size class. -/
  code_neg : ∀ {i : Nat} {d : ArgDecl} {a : Argument}, decls[i]? = some d → args[i]? = some a →
    a.size.code i < 0 → ∃ (j : Nat) (a' : Argument), a.size.code i = -(j + 1 : Int) ∧
      args[j]? = some a' ∧ a'.size = .sizeClass d.size ∧
      (∃ d', decls[j]? = some d' ∧ d'.size = d.size) ∧
      ∀ k < j, ∀ d', decls[k]? = some d' → d'.size ≠ d.size
  /-- Codes are equal if and only if the sizes are written as the same number of bytes, or both are
  size classes with the same text. -/
  code_eq_iff : ∀ {i j : Nat} {d d' : ArgDecl} {a a' : Argument}, decls[i]? = some d →
    args[i]? = some a → decls[j]? = some d' → args[j]? = some a' →
    (a.size.code i = a'.size.code j ↔
      (∃ bytes, WritesBytes d.size bytes ∧ WritesBytes d'.size bytes) ∨
        (¬ ∃ bytes, WritesBytes d.size bytes) ∧ d.size = d'.size)
  /-- The codes of as many arguments as an instruction can have fit a signed byte. -/
  code_fits : decls.length ≤ maxArguments → ∀ {i : Nat} {a : Argument}, args[i]? = some a →
    -4 ≤ a.size.code i ∧ a.size.code i ≤ 127

variable {i : Nat} {d : ArgDecl} {a : Argument}

/-- The text of a size comes first at the place of an argument that has it, and not behind that of
any other. -/
theorem exists_first (hd : decls[i]? = some d) :
    (decls.map ArgDecl.size).idxOf d.size ≤ i ∧
      (∃ d', decls[(decls.map ArgDecl.size).idxOf d.size]? = some d' ∧ d'.size = d.size) ∧
      ∀ k < (decls.map ArgDecl.size).idxOf d.size, ∀ d', decls[k]? = some d' →
        d'.size ≠ d.size := by
  have hmem : d.size ∈ decls.map ArgDecl.size := List.mem_map_of_mem (List.mem_of_getElem? hd)
  have hbefore : ∀ k < (decls.map ArgDecl.size).idxOf d.size, ∀ d', decls[k]? = some d' →
      d'.size ≠ d.size := by
    intro k hk d' hd' heq
    have hlt : k < (decls.map ArgDecl.size).length :=
      Nat.lt_trans hk (List.idxOf_lt_length_of_mem hmem)
    have hne : ((decls.map ArgDecl.size)[k] == d.size) = false := List.not_of_lt_findIdx hk
    rw [List.getElem_map, beq_eq_false_iff_ne] at hne
    obtain ⟨_, hget⟩ := List.getElem?_eq_some_iff.mp hd'
    exact hne (hget ▸ heq)
  have hfirst := List.getElem?_idxOf hmem
  rw [List.getElem?_map, Option.map_eq_some_iff] at hfirst
  exact ⟨Nat.le_of_not_lt fun hlt ↦ hbefore i hlt d hd rfl, hfirst, hbefore⟩

/-- What codes there are: the number of bytes, or the place where the text comes first. -/
theorem code_cases (h : ∀ d ∈ decls, ¬ OutOfRange d.size) (hd : decls[i]? = some d)
    (ha : (resolvedArguments (decls.map ArgDecl.size) decls)[i]? = some a) :
    (∃ bytes, WritesBytes d.size bytes ∧ (1 ≤ bytes ∧ bytes ≤ 127) ∧ a.size.code i = bytes) ∨
    (¬ ∃ bytes, WritesBytes d.size bytes) ∧
      a.size.code i = -((decls.map ArgDecl.size).idxOf d.size + 1 : Int) := by
  obtain ⟨d', hd', rfl⟩ := getElem?_resolvedArguments_eq_some_iff.mp ha
  obtain rfl := Option.some.inj (hd.symm.trans hd')
  rcases hnum : fixedNumber? d.size with _ | bytes
  · exact .inr ⟨fixedNumber?_eq_none_iff.mp hnum, code_resolvedSize_of_class hnum⟩
  · have hbytes : WritesBytes d.size bytes := fixedNumber?_eq_some_iff.mp hnum
    have hrange := hbytes.le_of_not_outOfRange (h d (List.mem_of_getElem? hd))
    exact .inl ⟨bytes, hbytes, hrange, code_resolvedSize_of_fixed hnum⟩

/-- A size is written as one number only. -/
theorem WritesBytes.unique {bytes bytes' : Nat} (h : WritesBytes size bytes)
    (h' : WritesBytes size bytes') : bytes = bytes' :=
  Option.some.inj
    ((fixedNumber?_eq_some_iff.mpr h).symm.trans (fixedNumber?_eq_some_iff.mpr h'))

theorem sizesDecode_resolvedArguments (h : ∀ d ∈ decls, ¬ OutOfRange d.size) :
    SizesDecode decls (resolvedArguments (decls.map ArgDecl.size) decls) where
  names_eq := by
    refine List.ext_getElem? fun i ↦ ?_
    rw [resolvedArguments, List.getElem?_map, List.getElem?_mapIdx, Option.map_map, List.getElem?_map]
    rfl
  code_ne_zero ha := by
    obtain ⟨d, hd, -⟩ := getElem?_resolvedArguments_eq_some_iff.mp ha
    obtain ⟨bytes, -, hrange, hcode⟩ | ⟨-, hcode⟩ := code_cases h hd ha <;> omega
  code_pos_iff hd ha := by
    obtain ⟨bytes, hbytes, hrange, hcode⟩ | ⟨hclass, hcode⟩ := code_cases h hd ha
    · exact iff_of_true (by omega) ⟨bytes, hbytes, hrange⟩
    · exact iff_of_false (by omega) fun ⟨bytes, hbytes, _⟩ ↦ hclass ⟨bytes, hbytes⟩
  code_eq hd ha hwrites := by
    obtain ⟨bytes, hbytes, -, hcode⟩ | ⟨hclass, -⟩ := code_cases h hd ha
    · rw [hcode, hbytes.unique hwrites]
    · exact absurd ⟨_, hwrites⟩ hclass
  code_neg {i d a} hd ha hneg := by
    obtain ⟨bytes, -, hrange, hcode⟩ | ⟨hclass, hcode⟩ := code_cases h hd ha
    · omega
    · obtain ⟨-, ⟨d', hd', hsize⟩, hbefore⟩ := exists_first hd
      refine ⟨_, _, hcode, getElem?_resolvedArguments_eq_some_iff.mpr ⟨d', hd', rfl⟩, ?_,
        ⟨d', hd', hsize⟩, hbefore⟩
      rw [hsize]
      exact resolvedSize_eq_sizeClass_iff.mpr ⟨fixedNumber?_eq_none_iff.mpr hclass, rfl, rfl⟩
  code_eq_iff {i j d d' a a'} hd ha hd' ha' := by
    obtain ⟨bytes, hbytes, hrange, hcode⟩ | ⟨hclass, hcode⟩ := code_cases h hd ha
    · obtain ⟨bytes', hbytes', hrange', hcode'⟩ | ⟨hclass', hcode'⟩ := code_cases h hd' ha'
      · rw [hcode, hcode', Int.ofNat_inj]
        refine ⟨fun heq ↦ .inl ⟨bytes, hbytes, heq ▸ hbytes'⟩, ?_⟩
        rintro (⟨b, hb, hb'⟩ | ⟨hclass, -⟩)
        · exact (hbytes.unique hb).trans (hb'.unique hbytes')
        · exact absurd ⟨bytes, hbytes⟩ hclass
      · refine iff_of_false (by omega) ?_
        rintro (⟨b, -, hb'⟩ | ⟨hclass, -⟩)
        · exact hclass' ⟨b, hb'⟩
        · exact hclass ⟨bytes, hbytes⟩
    · obtain ⟨bytes', hbytes', hrange', hcode'⟩ | ⟨hclass', hcode'⟩ := code_cases h hd' ha'
      · refine iff_of_false (by omega) ?_
        rintro (⟨b, hb, -⟩ | ⟨-, heq⟩)
        · exact hclass ⟨b, hb⟩
        · exact hclass ⟨bytes', heq ▸ hbytes'⟩
      · have hmem : d.size ∈ decls.map ArgDecl.size :=
          List.mem_map_of_mem (List.mem_of_getElem? hd)
        have hplace : a.size.code i = a'.size.code j ↔ d.size = d'.size := by
          rw [hcode, hcode', ← List.idxOf_inj hmem]
          omega
        rw [hplace]
        refine ⟨fun heq ↦ .inr ⟨hclass, heq⟩, ?_⟩
        rintro (⟨b, hb, -⟩ | ⟨-, heq⟩)
        · exact absurd ⟨b, hb⟩ hclass
        · exact heq
  code_fits hlength := by
    intro i a ha
    obtain ⟨d, hd, -⟩ := getElem?_resolvedArguments_eq_some_iff.mp ha
    obtain ⟨bytes, -, hrange, hcode⟩ | ⟨-, hcode⟩ := code_cases h hd ha
    · omega
    · have hle := (exists_first hd).1
      obtain ⟨hlt, -⟩ := List.getElem?_eq_some_iff.mp hd
      rw [maxArguments] at hlength
      omega

/-- **Size codes decode.** The codes of the arguments that an instruction gets say how the sizes
have been declared (`SizesDecode`). The declarations are refused if and only if some size is written
as a number of bytes that no fixed size can have, and then for the first such size. -/
theorem sizesDecode_resolveSizes (insn : String) (decls : List ArgDecl) :
    (∀ args, resolveSizes insn decls = .ok args → SizesDecode decls args) ∧
    ((∃ e, resolveSizes insn decls = .error e) ↔ ∃ d ∈ decls, OutOfRange d.size) ∧
    ∀ e, resolveSizes insn decls = .error e → ∃ before d rest, decls = before ++ d :: rest ∧
      (∀ d' ∈ before, ¬ OutOfRange d'.size) ∧ OutOfRange d.size ∧
      e = .invalidArgument insn before.length (.fixedSize d.size) := by
  obtain ⟨hfit, hok⟩ | ⟨before, d, rest, hsplit, hbefore, hd, herror⟩ :=
    resolveSizes_cases insn decls
  · rw [hok]
    refine ⟨fun args hargs ↦ ?_, iff_of_false (by simp) ?_, fun e he ↦ ?_⟩
    · obtain rfl := Except.ok.inj hargs
      exact sizesDecode_resolvedArguments hfit
    · rintro ⟨d, hd, hout⟩
      exact hfit d hd hout
    · cases he
  · rw [herror]
    refine ⟨fun args hargs ↦ ?_, iff_of_true ⟨_, rfl⟩ ⟨d, by simp [hsplit], hd⟩, fun e he ↦ ?_⟩
    · cases hargs
    · exact ⟨before, d, rest, hsplit, hbefore, hd, (Except.error.inj he).symm⟩

/-- Leading zeros count for nothing, and what only looks like a number of bytes is a size class. -/
def mixedSizes : List ArgDecl := [⟨"to", "osz"⟩, ⟨"from", "B016"⟩, ⟨"count", "osz"⟩, ⟨"by", "B+1"⟩]

theorem sizesDecode_resolveSizes_mixedSizes :
    (∃ args, resolveSizes "shift" mixedSizes = .ok args ∧
      args.zipIdx.map (fun a ↦ a.1.size.code a.2) = [-1, 16, -1, -4] ∧
      SizesDecode mixedSizes args) ∧
    ∃ e, resolveSizes "shift" (mixedSizes ++ [⟨"last", "B0128"⟩]) = .error e ∧
      ∃ d ∈ mixedSizes ++ [⟨"last", "B0128"⟩], OutOfRange d.size := by
  have hok : resolveSizes "shift" mixedSizes = .ok [⟨"to", .sizeClass "osz"⟩,
      ⟨"from", .fixed 16⟩, ⟨"count", .sameAs 0⟩, ⟨"by", .sizeClass "B+1"⟩] := by decide
  have herror : resolveSizes "shift" (mixedSizes ++ [⟨"last", "B0128"⟩]) =
      .error (.invalidArgument "shift" 4 (.fixedSize "B0128")) := by decide
  exact ⟨⟨_, hok, by decide, (sizesDecode_resolveSizes "shift" mixedSizes).1 _ hok⟩, _, herror,
    (sizesDecode_resolveSizes "shift" _).2.1.mp ⟨_, herror⟩⟩

end

end DecodeTrie
