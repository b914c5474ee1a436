import DecodeTrie.Proofs.Catalog.SizeCodes

/-!
# Checked arguments

What the checks of arguments let through: fixed sizes of 1 to 127 bytes, references only to an
earlier argument that defines a size class (`WellSized`), and literals of at most 127. There are as
many checked arguments as declared ones.
-/

namespace DecodeTrie

/-! ## Sizes -/

variable {insn : String} {args : List Argument}

/-- Fixed sizes fit, and the other sizes refer to earlier arguments that define a size class. -/
structure WellSized (args : List Argument) : Prop where
  /-- A fixed size is 1 to 127 bytes. -/
  fixed : ∀ {i : Nat} {a : Argument} {bytes : Nat}, args[i]? = some a → a.size = .fixed bytes →
    1 ≤ bytes ∧ bytes ≤ 127
  /-- An argument refers back, and to one that defines a size class. -/
  sameAs : ∀ {i : Nat} {a : Argument} {j : Nat}, args[i]? = some a → a.size = .sameAs j →
    j < i ∧ ∃ b name, args[j]? = some b ∧ b.size = .sizeClass name

theorem wellSized_resolvedArguments {decls : List ArgDecl}
    (h : ∀ d ∈ decls, ¬ OutOfRange d.size) :
    WellSized (resolvedArguments (decls.map ArgDecl.size) decls) where
  fixed ha hsize := by
    obtain ⟨d, hd, rfl⟩ := getElem?_resolvedArguments_eq_some_iff.mp ha
    exact (resolvedSize_eq_fixed_iff.mp hsize).le_of_not_outOfRange (h d (List.mem_of_getElem? hd))
  sameAs ha hsize := by
    obtain ⟨d, hd, rfl⟩ := getElem?_resolvedArguments_eq_some_iff.mp ha
    obtain ⟨hclass, rfl, hne⟩ := resolvedSize_eq_sameAs_iff.mp hsize
    obtain ⟨hle, ⟨d', hd', hsize'⟩, -⟩ := exists_first hd
    refine ⟨Nat.lt_of_le_of_ne hle hne, _, d.size,
      getElem?_resolvedArguments_eq_some_iff.mpr ⟨d', hd', rfl⟩, ?_⟩
    rw [hsize']
    exact resolvedSize_eq_sizeClass_iff.mpr ⟨hclass, rfl, rfl⟩

/-- **Checked arguments are well sized**, and there is one for each declared argument. -/
theorem resolveSizes_ok {decls : List ArgDecl} (h : resolveSizes insn decls = .ok args) :
    WellSized args ∧ args.length = decls.length := by
  obtain ⟨hfit, hok⟩ | ⟨_, _, _, _, _, _, herror⟩ := resolveSizes_cases insn decls
  · obtain rfl := Except.ok.inj (hok.symm.trans h)
    exact ⟨wellSized_resolvedArguments hfit, length_resolvedArguments⟩
  · cases herror.symm.trans h

/-! ## Values -/

/-- The literals among the arguments are at most 127. -/
def LiteralsFit (args : List EncodingArg) : Prop := ∀ a ∈ args, ∀ v, a.value = .literal v → v ≤ 127

theorem le_of_resolveValue {decl : Option ArgValueDecl} {v : Nat}
    (h : resolveValue decl = .ok (.literal v)) : v ≤ 127 := by
  rw [resolveValue.eq_def] at h
  split at h
  · cases h
  · split at h
    · next hv => cases h; exact hv
    · cases h
  · split at h
    · cases h
    · split at h <;> cases h

/-- A value is refused only for a literal that does not fit. -/
theorem exists_literal_of_resolveValue {decl : Option ArgValueDecl} {fault : ArgumentFault}
    (h : resolveValue decl = .error fault) : ∃ v, fault = .literal v := by
  rw [resolveValue.eq_def] at h
  split at h
  · cases h
  · split at h <;> cases h
    exact ⟨_, rfl⟩
  · split at h
    · cases h
    · split at h <;> cases h

theorem resolveValuesFrom_ok {index : Nat} {decls : List EncodingArgDecl} {args : List EncodingArg}
    (h : resolveValuesFrom insn index decls = .ok args) :
    LiteralsFit args ∧ args.length = decls.length := by
  induction decls generalizing index args with
  | nil =>
    cases h
    exact ⟨nofun, rfl⟩
  | cons d ds ih =>
    rw [resolveValuesFrom] at h
    split at h
    · cases h
    · next value hvalue =>
      split at h
      · next rest hrest =>
        cases h
        obtain ⟨hfit, hlen⟩ := ih hrest
        refine ⟨fun a ha v hv ↦ ?_, congrArg Nat.succ hlen⟩
        obtain rfl | ha := List.mem_cons.mp ha
        · cases hv
          exact le_of_resolveValue hvalue
        · exact hfit a ha v hv
      · cases h

/-- The arguments of an encoding that pass their check. -/
theorem resolveValues_ok {decls : List EncodingArgDecl} {args : List EncodingArg}
    (h : resolveValues insn decls = .ok args) : LiteralsFit args ∧ args.length = decls.length :=
  resolveValuesFrom_ok h

end DecodeTrie
