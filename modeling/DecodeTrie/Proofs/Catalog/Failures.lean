import DecodeTrie.Proofs.Catalog.Steps

/-!
# What a failing addition leaves behind

An instruction is checked and its tags are registered by turns, but nothing is appended before the
last check. So wherever adding it fails, the catalog has only gained tags of its declaration
(`Catalog.GainsTags`): instruction tags of the instruction and encoding tags of its encodings, behind
the names that were there.

The first checks come before any tag is registered. Their errors (`CompileError.OfHeader`) are not
those of the later checks, so an error of this sort says that nothing at all has changed
(`Catalog.eq_of_ofHeader`).
-/

namespace DecodeTrie

/-! ## Errors of composed steps -/

section Raises

variable {ε σ τ α β : Type}

/-- The errors of a step, in whichever state it is taken, are as in `E`. -/
def Raises (step : EStateM ε σ α) (E : ε → Prop) : Prop :=
  ∀ s e s', step s = .error e s' → E e

/-- A composed step fails in its first part, or in its second part behind the first. -/
theorem bind_eq_error_iff {step : EStateM ε σ α} {next : α → EStateM ε σ β} {s s' : σ} {e : ε} :
    (step >>= next) s = .error e s' ↔
      step s = .error e s' ∨ ∃ a s₁, step s = .ok a s₁ ∧ next a s₁ = .error e s' := by
  simp only [Bind.bind, EStateM.bind]
  rcases step s with ⟨a, s₁⟩ | ⟨e₁, s₁⟩
  · simp [and_assoc]
  · simp

/-- A step on a part of the state fails as it fails on the part. -/
theorem onPart_eq_error_iff {get : σ → τ} {set : σ → τ → σ} {step : EStateM ε τ α} {s s' : σ}
    {e : ε} :
    onPart get set step s = .error e s' ↔ ∃ t, step (get s) = .error e t ∧ set s t = s' := by
  rw [onPart]
  rcases step (get s) with ⟨a, t⟩ | ⟨e', t⟩
  · simp
  · simp [and_assoc]

namespace Raises

variable {step : EStateM ε σ α} {next : α → EStateM ε σ β} {E : ε → Prop}

theorem pure (a : α) : Raises (pure a : EStateM ε σ α) E := by
  intro s e s' h
  cases h

theorem bind (h : Raises step E) (hnext : ∀ a, Raises (next a) E) : Raises (step >>= next) E := by
  intro s e s' he
  obtain he | ⟨a, s₁, -, he⟩ := bind_eq_error_iff.mp he
  · exact h s e s' he
  · exact hnext a s₁ e s' he

theorem onPart {get : σ → τ} {set : σ → τ → σ} {step : EStateM ε τ α} (h : Raises step E) :
    Raises (onPart get set step) E := by
  intro s e s' he
  obtain ⟨t, ht, -⟩ := onPart_eq_error_iff.mp he
  exact h _ e t ht

end Raises

end Raises

/-! ## Registering tags -/

namespace TagRegistry

variable {r r' r'' : TagRegistry} {tags names : List String} {name : String}

/-- The second registry is the first one with some of the tags appended. -/
structure AppendsTo (r : TagRegistry) (tags : List String) (r' : TagRegistry) : Prop where
  /-- The new names are tags, and there are only as many as there are bits for. -/
  exists_new : ∃ new, new ⊆ tags ∧ r' = r.pushAll new ∧ (new ≠ [] → r'.size ≤ TagClass.limit)
  /-- The stores stay inverse to each other. -/
  inverse : r.Inverse → r'.Inverse

theorem AppendsTo.refl (r : TagRegistry) (tags : List String) : r.AppendsTo tags r :=
  ⟨⟨[], List.nil_subset _, rfl, fun h ↦ absurd rfl h⟩, id⟩

theorem AppendsTo.trans (h : r.AppendsTo tags r') (h' : r'.AppendsTo tags r'') :
    r.AppendsTo tags r'' := by
  refine ⟨?_, fun hi ↦ h'.inverse (h.inverse hi)⟩
  obtain ⟨new, hnew, rfl, hsize⟩ := h.exists_new
  obtain ⟨new', hnew', rfl, hsize'⟩ := h'.exists_new
  refine ⟨new ++ new', List.append_subset.mpr ⟨hnew, hnew'⟩, (pushAll_append r new new').symm,
    fun h ↦ ?_⟩
  by_cases hne : new' = []
  · subst hne
    rw [List.append_nil] at h
    exact hsize h
  · exact hsize' hne

/-- Registering gives the registry as it was, or appends the name to it. -/
theorem register_appends (r : TagRegistry) (h : name ∈ tags) :
    Ends (register name) r (fun _ r' ↦ r.AppendsTo tags r') (r.AppendsTo tags) := by
  cases hget : r.get? name with
  | some bit =>
    rw [Ends, register_of_get? hget]
    exact .refl r tags
  | none =>
    obtain hsize | hsize := Nat.lt_or_ge r.size TagClass.limit
    · rw [Ends, register_of_lt hget hsize]
      refine ⟨⟨[name], by simpa using h, rfl, fun _ ↦ ?_⟩, fun hi ↦ hi.push hget⟩
      exact size_push r name ▸ hsize
    · rw [Ends, register_of_le hget hsize]
      exact .refl r tags

/-- Registering fails only when the registry is full, and then changes nothing. -/
theorem register_eq_error {e : CompileError} (h : register name r = .error e r') :
    e = .tagOverflow r.cls name ∧ r = r' := by
  rw [register] at h
  split at h
  · cases h
  · split at h
    · cases h
    · cases h
      exact ⟨rfl, rfl⟩

theorem registerInto_appends (set : TagSet) (r : TagRegistry) (h : names ⊆ tags) :
    Ends (registerInto set names) r (fun _ r' ↦ r.AppendsTo tags r') (r.AppendsTo tags) := by
  induction names generalizing set r with
  | nil => exact .pure (.refl r tags)
  | cons name names ih =>
    obtain ⟨hname, hnames⟩ := List.cons_subset.mp h
    refine (register_appends r hname).bind fun bit r₁ hr₁ ↦ ?_
    exact (ih _ r₁ hnames).mono (fun _ _ ↦ hr₁.trans) fun _ ↦ hr₁.trans

theorem registerInto_raises (set : TagSet) (names : List String) :
    Raises (registerInto set names) fun e ↦ ∃ cls name, e = .tagOverflow cls name := by
  induction names generalizing set with
  | nil => exact Raises.pure set
  | cons name names ih =>
    refine Raises.bind (fun r e r' he ↦ ?_) fun bit ↦ ih _
    exact ⟨r.cls, name, (register_eq_error he).1⟩

end TagRegistry

/-! ## Adding an instruction -/

/-- An error of the checks that come before any tag is registered: of the name, of the number of
arguments or encodings, of a declared size or of a mode. -/
inductive CompileError.OfHeader : CompileError → Prop
  | duplicateInstruction (insn : String) : OfHeader (.duplicateInstruction insn)
  | tooManyArguments (insn : String) (count max : Nat) : OfHeader (.tooManyArguments insn count max)
  | tooManyEncodings (count limit : Nat) : OfHeader (.tooManyEncodings count limit)
  | fixedSize (insn : String) (index : Nat) (size : String) :
      OfHeader (.invalidArgument insn index (.fixedSize size))
  | unknownMode (mode context : String) : OfHeader (.unknownMode mode context)

namespace Catalog

variable {c c' c'' : Catalog} {insnTags encTags : List String} {decl : InstructionDecl}
  {e : CompileError}

/-- The second catalog is the first one, with some of the tags appended to the registries of
instruction tags and of encoding tags. -/
def GainsTags (c : Catalog) (insnTags encTags : List String) (c' : Catalog) : Prop :=
  ∃ r r', c.registries.insnTags.AppendsTo insnTags r ∧ c.registries.encTags.AppendsTo encTags r' ∧
    c' = { c with registries.insnTags := r, registries.encTags := r' }

theorem GainsTags.refl (c : Catalog) (insnTags encTags : List String) :
    c.GainsTags insnTags encTags c :=
  ⟨_, _, .refl _ _, .refl _ _, rfl⟩

theorem GainsTags.trans (h : c.GainsTags insnTags encTags c')
    (h' : c'.GainsTags insnTags encTags c'') : c.GainsTags insnTags encTags c'' := by
  obtain ⟨r, s, hr, hs, rfl⟩ := h
  obtain ⟨r', s', hr', hs', rfl⟩ := h'
  exact ⟨r', s', hr.trans hr', hs.trans hs', rfl⟩

/-! ### Steps that fail -/

section

variable {α : Type}

theorem check_eq_ok_iff {result : Except CompileError α} {a : α} :
    check result c = .ok a c' ↔ result = .ok a ∧ c = c' := by
  rcases result with e | a' <;> simp [check]

theorem check_eq_error_iff {result : Except CompileError α} :
    check result c = .error e c' ↔ result = .error e ∧ c = c' := by
  rcases result with e' | a <;> simp [check]

theorem check_same (result : Except CompileError α) {Q : Catalog → Prop} (hc : Q c) :
    Ends (check result) c (fun _ c' ↦ c = c') Q := by
  rcases result with e | a
  · exact hc
  · exact rfl

end

/-! ### What is left behind -/

theorem onInsnTags_gainsTags {names : List String} (h : names ⊆ insnTags) (c : Catalog) :
    Ends (onInsnTags (TagRegistry.registerAll names)) c
      (fun _ c' ↦ c.GainsTags insnTags encTags c') (c.GainsTags insnTags encTags) := by
  have hgains {r : TagRegistry} (hr : c.registries.insnTags.AppendsTo insnTags r) :
      c.GainsTags insnTags encTags { c with registries.insnTags := r } :=
    ⟨r, _, hr, .refl _ _, rfl⟩
  rw [onInsnTags_eq]
  exact ends_onPart ((TagRegistry.registerInto_appends .empty _ h).mono (fun _ _ ↦ hgains)
    fun _ ↦ hgains)

theorem onEncTags_gainsTags {names : List String} (h : names ⊆ encTags) (c : Catalog) :
    Ends (onEncTags (TagRegistry.registerAll names)) c
      (fun _ c' ↦ c.GainsTags insnTags encTags c') (c.GainsTags insnTags encTags) := by
  have hgains {r : TagRegistry} (hr : c.registries.encTags.AppendsTo encTags r) :
      c.GainsTags insnTags encTags { c with registries.encTags := r } :=
    ⟨_, r, .refl _ _, hr, rfl⟩
  rw [onEncTags_eq]
  exact ends_onPart ((TagRegistry.registerInto_appends .empty _ h).mono (fun _ _ ↦ hgains)
    fun _ ↦ hgains)

theorem buildEncodings_gainsTags (owner : String) (count insn number : Nat)
    {decls : List EncodingDecl} (h : decls.flatMap EncodingDecl.tags ⊆ encTags) (c : Catalog) :
    Ends (buildEncodings owner count insn number decls) c
      (fun _ c' ↦ c.GainsTags insnTags encTags c') (c.GainsTags insnTags encTags) := by
  induction decls generalizing number c with
  | nil => exact .pure (.refl c _ _)
  | cons decl decls ih =>
    rw [List.flatMap_cons, List.append_subset] at h
    refine (check_same (checkEncoding owner count decl) (.refl c _ _)).bind ?_
    rintro args _ rfl
    refine (onEncTags_gainsTags h.1 c).bind fun tags c₁ hc₁ ↦ ?_
    refine Ends.bind ((ih (number + 1) h.2 c₁).mono (fun _ _ ↦ hc₁.trans) fun _ ↦ hc₁.trans) ?_
    exact fun es c₂ hc₂ ↦ .pure hc₂

/-- What follows the first checks of an instruction, which give its arguments and its modes: it is
instruction `insn`, and its encodings are numbered from `first` on. -/
def addChecked (decl : InstructionDecl) (insn first : Nat) (header : List Argument × Nat) :
    CatalogM Nat := do
  let tags ← onInsnTags (TagRegistry.registerAll decl.tags)
  let encodings ← buildEncodings decl.name header.1.length insn first decl.encodings
  modify fun c ↦
    c.append ⟨decl.name, tags, header.2, header.1, first, first + encodings.length⟩ encodings
  pure insn

theorem add_apply (decl : InstructionDecl) (c : Catalog) :
    add decl c = (check (c.checkHeader decl) >>=
      addChecked decl c.instructions.size c.encodings.size) c :=
  rfl

theorem addChecked_gainsTags (decl : InstructionDecl) (insn first : Nat)
    (header : List Argument × Nat) (c : Catalog) :
    Ends (addChecked decl insn first header) c (fun _ _ ↦ True)
      (c.GainsTags decl.tags (decl.encodings.flatMap EncodingDecl.tags)) := by
  refine (onInsnTags_gainsTags (List.Subset.refl _) c).bind fun tags c₁ hc₁ ↦ ?_
  refine Ends.bind ((buildEncodings_gainsTags decl.name header.1.length insn first
    (List.Subset.refl _) c₁).mono (fun _ _ _ ↦ True.intro) fun _ ↦ hc₁.trans) fun es c₂ _ ↦ ?_
  exact True.intro

/-- **A failing addition** leaves some tags of the declaration behind, and nothing else. -/
theorem gainsTags_of_add_error (h : add decl c = .error e c') :
    c.GainsTags decl.tags (decl.encodings.flatMap EncodingDecl.tags) c' := by
  rw [add_apply] at h
  obtain hcheck | ⟨header, c₁, hcheck, hlate⟩ := bind_eq_error_iff.mp h
  · obtain ⟨-, rfl⟩ := check_eq_error_iff.mp hcheck
    exact .refl c _ _
  · obtain ⟨-, rfl⟩ := check_eq_ok_iff.mp hcheck
    have hends := addChecked_gainsTags decl c.instructions.size c.encodings.size header c
    rw [Ends, hlate] at hends
    exact hends

/-! ### The errors of the later checks -/

/-- Registering tags raises none of the first errors. -/
theorem registerAll_not_ofHeader (names : List String) :
    Raises (TagRegistry.registerAll names) fun e ↦ ¬ e.OfHeader := by
  intro r e r' h hfirst
  obtain ⟨cls, name, rfl⟩ := TagRegistry.registerInto_raises .empty names r e r' h
  cases hfirst

theorem resolveValuesFrom_not_ofHeader {insn : String} {index : Nat} {decls : List EncodingArgDecl}
    (h : resolveValuesFrom insn index decls = .error e) : ¬ e.OfHeader := by
  induction decls generalizing index with
  | nil => cases h
  | cons d ds ih =>
    rw [resolveValuesFrom] at h
    split at h
    · next fault hfault =>
      obtain ⟨v, rfl⟩ := exists_literal_of_resolveValue hfault
      obtain rfl := Except.error.inj h
      intro hfirst
      cases hfirst
    · split at h
      · cases h
      · next hrest =>
        cases h
        exact ih hrest

theorem checkEncoding_not_ofHeader {owner : String} {count : Nat} {decl : EncodingDecl}
    (h : checkEncoding owner count decl = .error e) : ¬ e.OfHeader := by
  rw [checkEncoding] at h
  split at h
  · exact resolveValuesFrom_not_ofHeader h
  · obtain rfl := Except.error.inj h
    intro hfirst
    cases hfirst

theorem buildEncodings_raises (owner : String) (count insn number : Nat)
    (decls : List EncodingDecl) :
    Raises (buildEncodings owner count insn number decls) fun e ↦ ¬ e.OfHeader := by
  induction decls generalizing number with
  | nil => exact Raises.pure []
  | cons decl decls ih =>
    refine Raises.bind ?_ fun args ↦ Raises.bind ?_ fun tags ↦ (ih (number + 1)).bind fun es ↦ ?_
    · intro c e c' he
      exact checkEncoding_not_ofHeader (check_eq_error_iff.mp he).1
    · rw [onEncTags_eq]
      exact (registerAll_not_ofHeader decl.tags).onPart
    · exact Raises.pure _

theorem addChecked_raises (decl : InstructionDecl) (insn first : Nat)
    (header : List Argument × Nat) :
    Raises (addChecked decl insn first header) fun e ↦ ¬ e.OfHeader := by
  rw [addChecked, onInsnTags_eq]
  refine (registerAll_not_ofHeader decl.tags).onPart.bind fun tags ↦
    (buildEncodings_raises _ _ _ _ _).bind fun es ↦ Raises.bind ?_ fun _ ↦ Raises.pure insn
  intro c e c' he
  cases he

/-- **An error of the first checks** says that nothing has changed. -/
theorem eq_of_ofHeader (h : add decl c = .error e c') (he : e.OfHeader) : c' = c := by
  rw [add_apply] at h
  obtain hcheck | ⟨header, c₁, -, hlate⟩ := bind_eq_error_iff.mp h
  · exact (check_eq_error_iff.mp hcheck).2.symm
  · exact absurd he (addChecked_raises decl _ _ header _ _ _ hlate)

end Catalog

end DecodeTrie
