import DecodeTrie.Catalog.Step
import DecodeTrie.Proofs.Catalog.Arguments
import DecodeTrie.Proofs.Tag.Registries

/-!
# What a step does to a catalog

A step either only lets the registries grow (`Catalog.GrowsTo`), or it adds an instruction: then it
appends one instruction and its encodings to a catalog that has grown in this way
(`Catalog.Adds`). Every failing step is of the first sort, wherever it fails
(`CatalogStep.outcome_cases`). An invariant of catalogs is thus kept by all steps when it is kept by
growing and by appending.
-/

namespace DecodeTrie

/-- An encoding as it comes out of the checks: the number `number` of the instruction `insn`, which
has `count` arguments. -/
structure Encoding.Passes (r : Registries) (count insn number : Nat) (e : Encoding) : Prop where
  /-- It belongs to the instruction. -/
  insn_eq : e.insn = insn
  /-- It has its number. -/
  number_eq : e.number = number
  /-- It has as many arguments as the instruction. -/
  length_args : e.args.length = count
  /-- Its literals fit. -/
  literalsFit : LiteralsFit e.args
  /-- Its tags are registered. -/
  tags : r.encTags.Covers e.tags.bits

namespace Catalog

variable {c c' c'' : Catalog}

/-! ## Steps on the registries -/

/-- The second catalog is the first one with larger registries. -/
def GrowsTo (c c' : Catalog) : Prop :=
  ∃ r, c.registries.GrowsTo r ∧ c' = { c with registries := r }

theorem GrowsTo.refl (c : Catalog) : c.GrowsTo c := ⟨c.registries, .refl _, rfl⟩

theorem GrowsTo.trans (h : c.GrowsTo c') (h' : c'.GrowsTo c'') : c.GrowsTo c'' := by
  obtain ⟨r, hr, rfl⟩ := h
  obtain ⟨r', hr', rfl⟩ := h'
  exact ⟨r', hr.trans hr', rfl⟩

theorem GrowsTo.registries (h : c.GrowsTo c') : c.registries.GrowsTo c'.registries := by
  obtain ⟨r, hr, rfl⟩ := h
  exact hr

section

variable {α : Type}

theorem onInsnTags_eq (step : EStateM CompileError TagRegistry α) :
    onInsnTags step = onPart (fun c : Catalog ↦ c.registries.insnTags)
      (fun c r ↦ { c with registries.insnTags := r }) step := by
  funext c
  rw [onInsnTags, onPart]
  rcases step c.registries.insnTags with ⟨a, r⟩ | ⟨e, r⟩ <;> rfl

theorem onEncTags_eq (step : EStateM CompileError TagRegistry α) :
    onEncTags step = onPart (fun c : Catalog ↦ c.registries.encTags)
      (fun c r ↦ { c with registries.encTags := r }) step := by
  funext c
  rw [onEncTags, onPart]
  rcases step c.registries.encTags with ⟨a, r⟩ | ⟨e, r⟩ <;> rfl

theorem onModes_eq (step : EStateM CompileError ModeRegistry α) :
    onModes step = onPart (fun c : Catalog ↦ c.registries.modes)
      (fun c r ↦ { c with registries.modes := r }) step := by
  funext c
  rw [onModes, onPart]
  rcases step c.registries.modes with ⟨a, r⟩ | ⟨e, r⟩ <;> rfl

theorem onInsnTags_ends {step : EStateM CompileError TagRegistry α} {P : α → TagRegistry → Prop}
    (h : Ends step c.registries.insnTags
      (fun a r ↦ c.registries.insnTags.GrowsTo r ∧ P a r) c.registries.insnTags.GrowsTo) :
    Ends (onInsnTags step) c (fun a c' ↦ c.GrowsTo c' ∧ P a c'.registries.insnTags) c.GrowsTo := by
  have hgrow {r : TagRegistry} (hr : c.registries.insnTags.GrowsTo r) :
      c.GrowsTo { c with registries.insnTags := r } :=
    ⟨{ c.registries with insnTags := r }, ⟨hr, .refl _, .refl _⟩, rfl⟩
  rw [onInsnTags_eq]
  exact ends_onPart (h.mono (fun _ _ hr ↦ ⟨hgrow hr.1, hr.2⟩) fun _ ↦ hgrow)

theorem onEncTags_ends {step : EStateM CompileError TagRegistry α} {P : α → TagRegistry → Prop}
    (h : Ends step c.registries.encTags
      (fun a r ↦ c.registries.encTags.GrowsTo r ∧ P a r) c.registries.encTags.GrowsTo) :
    Ends (onEncTags step) c (fun a c' ↦ c.GrowsTo c' ∧ P a c'.registries.encTags) c.GrowsTo := by
  have hgrow {r : TagRegistry} (hr : c.registries.encTags.GrowsTo r) :
      c.GrowsTo { c with registries.encTags := r } :=
    ⟨{ c.registries with encTags := r }, ⟨.refl _, hr, .refl _⟩, rfl⟩
  rw [onEncTags_eq]
  exact ends_onPart (h.mono (fun _ _ hr ↦ ⟨hgrow hr.1, hr.2⟩) fun _ ↦ hgrow)

theorem onModes_ends {step : EStateM CompileError ModeRegistry α}
    (h : Ends step c.registries.modes (fun _ ↦ c.registries.modes.GrowsTo)
      c.registries.modes.GrowsTo) :
    Ends (onModes step) c (fun _ ↦ c.GrowsTo) c.GrowsTo := by
  have hgrow {r : ModeRegistry} (hr : c.registries.modes.GrowsTo r) :
      c.GrowsTo { c with registries.modes := r } :=
    ⟨{ c.registries with modes := r }, ⟨.refl _, .refl _, hr⟩, rfl⟩
  rw [onModes_eq]
  exact ends_onPart (h.mono (fun _ _ ↦ hgrow) fun _ ↦ hgrow)

end

/-! ## Adding an instruction -/

/-- A check changes nothing. -/
theorem check_ends {α : Type} (result : Except CompileError α) (c : Catalog) :
    Ends (check result) c (fun a c' ↦ result = .ok a ∧ c = c') c.GrowsTo := by
  cases result with
  | ok a => exact ⟨rfl, rfl⟩
  | error e => exact .refl c

/-- The checks that come before any tag is registered, all passed. -/
structure HeaderPasses (c : Catalog) (decl : InstructionDecl) (args : List Argument)
    (modes : Nat) : Prop where
  /-- The name is new. -/
  lookup_eq : c.lookup decl.name = none
  /-- There are not too many arguments. -/
  args_le : decl.args.length ≤ maxArguments
  /-- There is room for the encodings. -/
  size_le : c.encodings.size + decl.encodings.length ≤ encodingLimit
  /-- The sizes of the arguments are fine. -/
  args_eq : resolveSizes decl.name decl.args = .ok args
  /-- The modes are known. -/
  modes_eq : c.registries.modes.union decl.modes = .ok modes

theorem headerPasses_of_checkHeader {decl : InstructionDecl} {args : List Argument} {modes : Nat}
    (h : c.checkHeader decl = .ok (args, modes)) : c.HeaderPasses decl args modes := by
  rw [checkHeader] at h
  split at h
  · cases h
  · next hname =>
    split at h
    · cases h
    · next hargs =>
      split at h
      · cases h
      · next hsize =>
        split at h
        · cases h
        · next hsizes =>
          split at h
          · cases h
          · next hmodes =>
            cases h
            exact ⟨Option.not_isSome_iff_eq_none.mp hname, Nat.le_of_not_lt hargs,
              Nat.le_of_not_lt hsize, hsizes, hmodes⟩

theorem checkEncoding_ok {owner : String} {count : Nat} {decl : EncodingDecl}
    {args : List EncodingArg} (h : checkEncoding owner count decl = .ok args) :
    LiteralsFit args ∧ args.length = count := by
  rw [checkEncoding] at h
  split at h
  · next hlen =>
    obtain ⟨hfit, hargs⟩ := resolveValues_ok h
    exact ⟨hfit, hargs.trans hlen⟩
  · cases h

/-- Building encodings gives checked ones, numbered from the given number on. -/
theorem buildEncodings_ends (owner : String) (count insn number : Nat) (decls : List EncodingDecl)
    (c : Catalog) :
    Ends (buildEncodings owner count insn number decls) c
      (fun es c' ↦ c.GrowsTo c' ∧ es.length = decls.length ∧
        ∀ {k : Nat} {e : Encoding}, es[k]? = some e →
          e.Passes c'.registries count insn (number + k)) c.GrowsTo := by
  induction decls generalizing number c with
  | nil => exact .pure ⟨.refl c, rfl, fun he ↦ by simp at he⟩
  | cons decl decls ih =>
    refine (check_ends _ c).bind ?_
    rintro args _ ⟨hargs, rfl⟩
    obtain ⟨hfit, hlength⟩ := checkEncoding_ok hargs
    refine (onEncTags_ends (TagRegistry.registerAll_ends decl.tags _)).bind ?_
    rintro tags c₁ ⟨hc₁, htags⟩
    refine Ends.bind ((ih (number + 1) c₁).mono (fun _ _ ↦ id) fun _ ↦ hc₁.trans) ?_
    rintro es c₂ ⟨hc₂, hlen, hes⟩
    refine .pure ⟨hc₁.trans hc₂, congrArg Nat.succ hlen, fun {k e} he ↦ ?_⟩
    cases k with
    | zero =>
      cases he
      exact ⟨rfl, rfl, hlength, hfit, htags.grow hc₂.registries.encTags⟩
    | succ k =>
      rw [Nat.add_succ, ← Nat.succ_add]
      exact hes he

/-- What adding the declared instruction appends, and the catalog that it is appended to, which has
grown from the catalog `c`. -/
structure Adds (c : Catalog) (decl : InstructionDecl) (c' : Catalog) (insn : Instruction)
    (es : List Encoding) : Prop where
  /-- The first checks have been passed in the catalog before. -/
  header : c.HeaderPasses decl insn.args insn.validModes
  /-- Since then, only tags have been registered. -/
  grows : c.GrowsTo c'
  /-- The instruction has the declared name. -/
  name_eq : insn.name = decl.name
  /-- The tags of the instruction are registered. -/
  tags : c'.registries.insnTags.Covers insn.tags.bits
  /-- The block of the instruction starts behind the encodings that there are. -/
  first_eq : insn.first = c.encodings.size
  /-- The block of the instruction ends with its encodings. -/
  stop_eq : insn.stop = c.encodings.size + es.length
  /-- There is an encoding for each declared one. -/
  length_eq : es.length = decl.encodings.length
  /-- The encodings have passed their checks. -/
  passes : ∀ {k : Nat} {e : Encoding}, es[k]? = some e →
    e.Passes c'.registries insn.args.length c.instructions.size (c.encodings.size + k)

theorem Adds.encodings_eq {decl : InstructionDecl} {insn : Instruction} {es : List Encoding}
    (h : c.Adds decl c' insn es) : c'.encodings = c.encodings := by
  obtain ⟨r, -, rfl⟩ := h.grows
  rfl

/-- Adding an instruction appends it and its encodings, or fails and lets registries grow. -/
theorem add_ends (decl : InstructionDecl) (c : Catalog) :
    Ends (add decl) c
      (fun _ c' ↦ ∃ c₁ insn es, c.Adds decl c₁ insn es ∧ c' = c₁.append insn es) c.GrowsTo := by
  refine (check_ends (c.checkHeader decl) c).bind ?_
  rintro ⟨args, modes⟩ _ ⟨hheader, rfl⟩
  refine (onInsnTags_ends (TagRegistry.registerAll_ends decl.tags _)).bind ?_
  rintro tags c₁ ⟨hc₁, htags⟩
  refine Ends.bind ((buildEncodings_ends decl.name args.length _ _ decl.encodings c₁).mono
    (fun _ _ ↦ id) fun _ ↦ hc₁.trans) ?_
  rintro es c₂ ⟨hc₂, hlen, hes⟩
  exact ⟨c₂, ⟨decl.name, tags, modes, args, _, _⟩, es,
    ⟨headerPasses_of_checkHeader hheader, hc₁.trans hc₂, rfl,
      htags.grow hc₂.registries.insnTags, rfl, rfl, hlen, hes⟩, rfl⟩

end Catalog

/-! ## All steps -/

/-- **What a step does**: it lets registries grow, or it appends an instruction. -/
theorem CatalogStep.outcome_cases (s : CatalogStep) (c : Catalog) :
    c.GrowsTo (s.outcome c).2 ∨
      ∃ decl c' insn es, c.Adds decl c' insn es ∧ (s.outcome c).2 = c'.append insn es := by
  suffices h : Ends s.run c (fun _ c₁ ↦ c.GrowsTo c₁ ∨
      ∃ decl c' insn es, c.Adds decl c' insn es ∧ c₁ = c'.append insn es) c.GrowsTo by
    rw [Ends] at h
    rw [outcome]
    cases hs : s.run c with
    | ok n c₁ => rw [hs] at h; exact h
    | error e c₁ => rw [hs] at h; exact .inl h
  cases s with
  | declareMode name =>
    exact (Catalog.onModes_ends (ModeRegistry.declareMode_ends name _)).mono
      (fun _ _ ↦ .inl) fun _ ↦ id
  | defineModeSet name members =>
    exact (Catalog.onModes_ends (ModeRegistry.defineSet_ends name members _)).mono
      (fun _ _ ↦ .inl) fun _ ↦ id
  | registerInsnTag name =>
    exact (Catalog.onInsnTags_ends (TagRegistry.register_ends name _)).mono
      (fun _ _ h ↦ .inl h.1) fun _ ↦ id
  | registerEncTag name =>
    exact (Catalog.onEncTags_ends (TagRegistry.register_ends name _)).mono
      (fun _ _ h ↦ .inl h.1) fun _ ↦ id
  | add decl =>
    exact (Catalog.add_ends decl c).mono (fun _ _ h ↦ .inr ⟨decl, h⟩) fun _ ↦ id

end DecodeTrie
