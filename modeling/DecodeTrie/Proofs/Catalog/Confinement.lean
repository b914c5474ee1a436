import DecodeTrie.Proofs.Catalog.Failures
import DecodeTrie.Proofs.Catalog.WellFormed
import DecodeTrie.Proofs.Tag.ModeSets
import Mathlib.Data.List.Perm.Subperm

/-!
# Failing additions are confined to tags

A failing addition leaves tags behind, and the question is whether later steps can see them. They
see them in two ways only: a tag may get another bit, and a registry may be full too early. So two
catalogs are compared without their tags, the first one having room for tags wherever the second one
has (`Catalog.Within`), and the same step is taken in both. The outcomes are alike unless the second
catalog has a full registry of tags (`Follows`): then nothing is said about the first, because there
the step may well succeed.

Hence an addition that succeeds somewhere behind a failed one gives the same index, and numbers its
encodings in the same way, as if the failed one had never been tried, if no step in between has
found a registry of tags full (`Catalog.add_confined`). The condition is needed: an addition in
between that is refused only for the tags left behind takes an index and numbers where nothing has
been left behind (`Catalog.numbers_shift`).
-/

namespace DecodeTrie

/-! ## Runs beside each other -/

section Follows

variable {σ τ α β : Type}

/-- Two outcomes are alike: related values or the same error, in related states. Where the second
run has met a full registry of tags, the first one need not have. -/
inductive Follows (V : α → α → Prop) (R : σ → σ → Prop) :
    EStateM.Result CompileError σ α → EStateM.Result CompileError σ α → Prop
  | ok {a a' : α} {s s' : σ} (ha : V a a') (hs : R s s') : Follows V R (.ok a s) (.ok a' s')
  | error (e : CompileError) {s s' : σ} (hs : R s s') : Follows V R (.error e s) (.error e s')
  | full (out : EStateM.Result CompileError σ α) {cls : TagClass} (hcls : cls ≠ .mode)
      (name : String) (s' : σ) : Follows V R out (.error (.tagOverflow cls name) s')

theorem Follows.bind {V : α → α → Prop} {W : β → β → Prop} {R : σ → σ → Prop}
    {step step' : EStateM CompileError σ α} {next next' : α → EStateM CompileError σ β} {s s' : σ}
    (h : Follows V R (step s) (step' s'))
    (hnext : ∀ a a', V a a' → ∀ s s', R s s' → Follows W R (next a s) (next' a' s')) :
    Follows W R ((step >>= next) s) ((step' >>= next') s') := by
  simp only [Bind.bind, EStateM.bind]
  generalize step s = out at h
  generalize step' s' = out' at h
  obtain ⟨ha, hs⟩ | ⟨e, hs⟩ | ⟨out, hcls, name, s'⟩ := h
  · exact hnext _ _ ha _ _ hs
  · exact .error e hs
  · exact .full _ hcls name s'

theorem Follows.mono {V W : α → α → Prop} {R : σ → σ → Prop}
    {out out' : EStateM.Result CompileError σ α} (h : Follows V R out out')
    (hV : ∀ a a', V a a' → W a a') : Follows W R out out' := by
  obtain ⟨ha, hs⟩ | ⟨e, hs⟩ | ⟨out, hcls, name, s'⟩ := h
  · exact .ok (hV _ _ ha) hs
  · exact .error e hs
  · exact .full out hcls name s'

theorem Follows.refl {R : σ → σ → Prop} (hR : ∀ s, R s s)
    (out : EStateM.Result CompileError σ α) : Follows Eq R out out := by
  rcases out with ⟨a, s⟩ | ⟨e, s⟩
  · exact .ok rfl (hR s)
  · exact .error e (hR s)

/-- Steps on a part of the state are alike where they are alike on the parts. -/
theorem follows_onPart {V : α → α → Prop} {R : σ → σ → Prop} {R' : τ → τ → Prop} {get : σ → τ}
    {set : σ → τ → σ} {step step' : EStateM CompileError τ α} {s s' : σ}
    (h : Follows V R' (step (get s)) (step' (get s')))
    (hset : ∀ t t', R' t t' → R (set s t) (set s' t')) :
    Follows V R (onPart get set step s) (onPart get set step' s') := by
  rw [onPart, onPart]
  generalize step (get s) = out at h
  generalize step' (get s') = out' at h
  obtain ⟨ha, ht⟩ | ⟨e, ht⟩ | ⟨out, hcls, name, t'⟩ := h
  · exact .ok ha (hset _ _ ht)
  · exact .error e (hset _ _ ht)
  · exact .full _ hcls name _

end Follows

/-! ## Registries -/

namespace TagRegistry

variable {r r' r'' : TagRegistry} {tags : List String} {name : String}

/-- In both registries of tags the stores are inverse to each other, and the registries have the
same names, or the second one has the names of the first one among its own and is not too large. So
the first one has room wherever the second one has. -/
structure Within (r r' : TagRegistry) : Prop where
  /-- It is tags that are registered, not modes. -/
  cls_ne : r'.cls ≠ .mode
  /-- The first registry finds its names where they are listed. -/
  inverse : r.Inverse
  /-- So does the second one. -/
  inverse' : r'.Inverse
  /-- The names of the first registry are names of the second one. -/
  names : r.names = r'.names ∨ r.names.Subperm r'.names ∧ r'.size ≤ TagClass.limit

theorem Within.refl (hcls : r.cls ≠ .mode) (h : r.Inverse) : r.Within r := ⟨hcls, h, h, .inl rfl⟩

theorem Within.subset (h : r.Within r') : r.names ⊆ r'.names := by
  obtain h | ⟨h, -⟩ := h.names
  · rw [h]
    exact List.Subset.refl _
  · exact h.subset

theorem Within.appends (h : r.Within r') (h' : r'.AppendsTo tags r'') : r.Within r'' := by
  have hinverse' := h'.inverse h.inverse'
  obtain ⟨new, -, rfl, hsize⟩ := h'.exists_new
  refine ⟨(cls_pushAll r' new).trans_ne h.cls_ne, h.inverse, hinverse', ?_⟩
  by_cases hne : new = []
  · subst hne
    exact h.names
  · refine .inr ⟨?_, hsize hne⟩
    rw [names_pushAll]
    have hold : r'.names.Subperm (r'.names ++ new) := (List.sublist_append_left _ _).subperm
    obtain h | ⟨h, -⟩ := h.names
    · exact h ▸ hold
    · exact h.trans hold

theorem register_of_mem (hi : r.Inverse) (h : name ∈ r.names) :
    ∃ bit, register name r = .ok bit r := by
  obtain ⟨bit, hbit⟩ := Option.isSome_iff_exists.mp (hi.isSome_get?.mpr h)
  exact ⟨bit, register_of_get? hbit⟩

/-- A name that only the second registry has finds room in the first one. -/
theorem Within.push_left (h : r.Within r') (hget : r.get? name = none) (hname' : name ∈ r'.names) :
    r.size < TagClass.limit ∧ (r.push name).Within r' := by
  have hname : name ∉ r.names := h.inverse.get?_eq_none_iff.mp hget
  obtain heq | ⟨hsub, hsize⟩ := h.names
  · exact absurd (heq ▸ hname') hname
  · have hcons : (name :: r.names).Subperm r'.names :=
      List.cons_subperm_of_not_mem_of_mem hname hname' hsub
    have hpush : (r.names ++ [name]).Subperm r'.names :=
      (List.perm_append_singleton _ _).subperm.trans hcons
    exact ⟨Nat.lt_of_lt_of_le hcons.length_le hsize, h.cls_ne, h.inverse.push hget, h.inverse',
      .inr ⟨hpush, hsize⟩⟩

/-- A name that is new to both registries finds room in the first one if it does in the second. -/
theorem Within.push (h : r.Within r') (hget : r.get? name = none) (hget' : r'.get? name = none)
    (hsize' : r'.size < TagClass.limit) :
    r.size < TagClass.limit ∧ (r.push name).Within (r'.push name) := by
  have hinverse := h.inverse.push hget
  have hinverse' := h.inverse'.push hget'
  obtain heq | ⟨hsub, -⟩ := h.names
  · have hsize : r.size = r'.size := congrArg List.length heq
    exact ⟨hsize ▸ hsize', h.cls_ne, hinverse, hinverse', .inl (congrArg (· ++ [name]) heq)⟩
  · refine ⟨Nat.lt_of_le_of_lt hsub.length_le hsize', h.cls_ne, hinverse, hinverse',
      .inr ⟨?_, ?_⟩⟩
    · exact (List.subperm_append_right [name]).mpr hsub
    · exact size_push r' name ▸ hsize'

/-- Where a name can be registered beside more names, it can be registered beside less. -/
theorem Within.register (h : r.Within r') (name : String) :
    Follows (fun _ _ ↦ True) Within (register name r) (register name r') := by
  by_cases hname' : name ∈ r'.names
  · obtain ⟨bit', hreg'⟩ := register_of_mem h.inverse' hname'
    rw [hreg']
    by_cases hname : name ∈ r.names
    · obtain ⟨bit, hreg⟩ := register_of_mem h.inverse hname
      rw [hreg]
      exact .ok True.intro h
    · have hget : r.get? name = none := h.inverse.get?_eq_none_iff.mpr hname
      obtain ⟨hsize, hpush⟩ := h.push_left hget hname'
      rw [register_of_lt hget hsize]
      exact .ok True.intro hpush
  · have hget' : r'.get? name = none := h.inverse'.get?_eq_none_iff.mpr hname'
    have hget : r.get? name = none :=
      h.inverse.get?_eq_none_iff.mpr fun hmem ↦ hname' (h.subset hmem)
    obtain hsize' | hsize' := Nat.lt_or_ge r'.size TagClass.limit
    · obtain ⟨hsize, hpush⟩ := h.push hget hget' hsize'
      rw [register_of_lt hget' hsize', register_of_lt hget hsize]
      exact .ok True.intro hpush
    · rw [register_of_le hget' hsize']
      exact .full _ h.cls_ne name r'

theorem Within.registerInto (h : r.Within r') (set set' : TagSet) (names : List String) :
    Follows (fun _ _ ↦ True) Within (registerInto set names r) (registerInto set' names r') := by
  induction names generalizing set set' r r' with
  | nil => exact .ok True.intro h
  | cons name names ih =>
    exact (h.register name).bind fun bit bit' _ s s' hs ↦ ih hs _ _

end TagRegistry

/-! ## Catalogs -/

/-- The instruction without its tags. -/
def Instruction.untagged (i : Instruction) : Instruction := { i with tags := .empty }

/-- The encoding without its tags. -/
def Encoding.untagged (e : Encoding) : Encoding := { e with tags := .empty }

namespace Catalog

variable {c c' c'' : Catalog} {insnTags encTags : List String} {decl : InstructionDecl}
  {e : CompileError} {insn insn' : Instruction} {es es' : List Encoding}

/-- The catalog without instruction tags and encoding tags: they are in no registry, and nothing has
them. -/
def untagged (c : Catalog) : Catalog where
  registries := { modes := c.registries.modes }
  instructions := c.instructions.map Instruction.untagged
  encodings := c.encodings.map Encoding.untagged
  index := c.index
  argSymbols := c.argSymbols

/-- The catalogs are the same but for tags, and the first one has room for tags wherever the second
one has. -/
structure Within (c c' : Catalog) : Prop where
  /-- Without tags, the catalogs are the same. -/
  untagged_eq : c.untagged = c'.untagged
  /-- There is room for the instruction tags of the second catalog. -/
  insnTags : c.registries.insnTags.Within c'.registries.insnTags
  /-- There is room for the encoding tags of the second catalog. -/
  encTags : c.registries.encTags.Within c'.registries.encTags

theorem Within.refl (h : c.WellFormed) : c.Within c where
  untagged_eq := rfl
  insnTags := .refl (by simp [h.registries.insnTags_cls]) h.registries.insnTags_inverse
  encTags := .refl (by simp [h.registries.encTags_cls]) h.registries.encTags_inverse

theorem Within.gainsTags (h : c.Within c') (h' : c'.GainsTags insnTags encTags c'') :
    c.Within c'' := by
  obtain ⟨r, s, hr, hs, rfl⟩ := h'
  exact ⟨h.untagged_eq, h.insnTags.appends hr, h.encTags.appends hs⟩

theorem Within.modes_eq (h : c.Within c') : c.registries.modes = c'.registries.modes := by
  simpa only [untagged] using congrArg (fun c : Catalog ↦ c.registries.modes) h.untagged_eq

theorem Within.size_instructions (h : c.Within c') : c.instructions.size = c'.instructions.size := by
  simpa [untagged] using congrArg (fun c : Catalog ↦ c.instructions.size) h.untagged_eq

theorem Within.size_encodings (h : c.Within c') : c.encodings.size = c'.encodings.size := by
  simpa [untagged] using congrArg (fun c : Catalog ↦ c.encodings.size) h.untagged_eq

theorem Within.checkHeader_eq (h : c.Within c') (decl : InstructionDecl) :
    c.checkHeader decl = c'.checkHeader decl := by
  have hindex : c.index = c'.index := by
    simpa only [untagged] using congrArg Catalog.index h.untagged_eq
  rw [checkHeader, checkHeader, lookup, lookup, hindex, h.size_encodings, h.modes_eq]

/-! ### Steps -/

theorem Within.onInsnTags {α : Type} {V : α → α → Prop}
    {step step' : EStateM CompileError TagRegistry α} (h : c.Within c')
    (hstep : Follows V TagRegistry.Within (step c.registries.insnTags)
      (step' c'.registries.insnTags)) :
    Follows V Within (onInsnTags step c) (onInsnTags step' c') := by
  rw [onInsnTags_eq, onInsnTags_eq]
  exact follows_onPart hstep fun _ _ hr ↦ ⟨h.untagged_eq, hr, h.encTags⟩

theorem Within.onEncTags {α : Type} {V : α → α → Prop}
    {step step' : EStateM CompileError TagRegistry α} (h : c.Within c')
    (hstep : Follows V TagRegistry.Within (step c.registries.encTags)
      (step' c'.registries.encTags)) :
    Follows V Within (onEncTags step c) (onEncTags step' c') := by
  rw [onEncTags_eq, onEncTags_eq]
  exact follows_onPart hstep fun _ _ hr ↦ ⟨h.untagged_eq, h.insnTags, hr⟩

theorem Within.onModes {α : Type} (h : c.Within c') (step : EStateM CompileError ModeRegistry α) :
    Follows Eq Within (onModes step c) (onModes step c') := by
  have hmodes (modes : ModeRegistry) : Within { c with registries.modes := modes }
      { c' with registries.modes := modes } :=
    ⟨congrArg (fun c : Catalog ↦ { c with registries.modes := modes }) h.untagged_eq,
      h.insnTags, h.encTags⟩
  have hstep : Follows Eq Eq (step c.registries.modes) (step c'.registries.modes) := by
    rw [h.modes_eq]
    exact .refl (fun _ ↦ rfl) _
  rw [onModes_eq]
  exact follows_onPart hstep fun modes _ heq ↦ heq ▸ hmodes modes

theorem Within.check {α : Type} (h : c.Within c') (result : Except CompileError α) :
    Follows Eq Within (check result c) (check result c') := by
  rcases result with e | a
  · exact .error e h
  · exact .ok rfl h

theorem Within.buildEncodings (h : c.Within c') (owner : String) (count insn number : Nat)
    (decls : List EncodingDecl) :
    Follows (fun es es' ↦ es.map Encoding.untagged = es'.map Encoding.untagged) Within
      (buildEncodings owner count insn number decls c)
      (buildEncodings owner count insn number decls c') := by
  induction decls generalizing number c c' with
  | nil => exact .ok rfl h
  | cons decl decls ih =>
    refine (h.check (checkEncoding owner count decl)).bind ?_
    rintro args _ rfl c₁ c₁' h₁
    refine (h₁.onEncTags (h₁.encTags.registerInto .empty .empty decl.tags)).bind ?_
    intro tags tags' _ c₂ c₂' h₂
    refine (ih h₂ (number + 1)).bind fun es es' hes c₃ c₃' h₃ ↦ .ok ?_ h₃
    rw [List.map_cons, List.map_cons, hes]
    rfl

/-- Noting names asks an encoding for nothing but its arguments. -/
theorem noteEncodings_untagged (s : ArgSymbols) (es : List Encoding) :
    s.noteEncodings (es.map Encoding.untagged) = s.noteEncodings es := by
  rw [ArgSymbols.noteEncodings, List.foldl_map]
  rfl

theorem untagged_append (c : Catalog) (insn : Instruction) (es : List Encoding) :
    (c.append insn es).untagged = c.untagged.append insn.untagged (es.map Encoding.untagged) := by
  have happend (a : Array Encoding) (es : List Encoding) : a ++ es = a ++ es.toArray :=
    Array.ext' (by simp)
  simp [untagged, append, Instruction.untagged, noteEncodings_untagged, happend]

theorem Within.append (h : c.Within c') (hinsn : insn.untagged = insn'.untagged)
    (hes : es.map Encoding.untagged = es'.map Encoding.untagged) :
    (c.append insn es).Within (c'.append insn' es') := by
  refine ⟨?_, h.insnTags, h.encTags⟩
  rw [untagged_append, untagged_append, h.untagged_eq, hinsn, hes]

theorem Within.add (h : c.Within c') (decl : InstructionDecl) :
    Follows Eq Within (add decl c) (add decl c') := by
  rw [add_apply, add_apply, h.checkHeader_eq, h.size_instructions, h.size_encodings]
  refine (h.check (c'.checkHeader decl)).bind ?_
  rintro header _ rfl c₁ c₁' h₁
  refine (h₁.onInsnTags (h₁.insnTags.registerInto .empty .empty decl.tags)).bind ?_
  intro tags tags' _ c₂ c₂' h₂
  refine (h₂.buildEncodings decl.name _ _ _ decl.encodings).bind fun es es' hes c₃ c₃' h₃ ↦ ?_
  have hlength : es.length = es'.length := by simpa using congrArg List.length hes
  refine .ok rfl (h₃.append ?_ hes)
  rw [hlength]
  rfl

theorem Within.run (h : c.Within c') (s : CatalogStep) :
    Follows (fun _ _ ↦ True) Within (s.run c) (s.run c') := by
  rcases s with name | ⟨name, members⟩ | name | name | decl
  · exact (h.onModes _).mono fun _ _ _ ↦ True.intro
  · exact (h.onModes _).mono fun _ _ _ ↦ True.intro
  · exact h.onInsnTags (h.insnTags.register name)
  · exact h.onEncTags (h.encTags.register name)
  · exact (h.add decl).mono fun _ _ _ ↦ True.intro

end Catalog

/-! ## Histories -/

namespace CatalogStep

variable {c c' : Catalog} {e : CompileError}

/-- Whether the step finds a registry of tags full. -/
def meetsFull (s : CatalogStep) (c : Catalog) : Bool :=
  match (s.outcome c).1 with
  | .error (.tagOverflow cls _) => cls != .mode
  | _ => false

theorem meetsFull_iff {s : CatalogStep} :
    s.meetsFull c = true ↔
      ∃ cls name, cls ≠ .mode ∧ (s.outcome c).1 = .error (.tagOverflow cls name) := by
  rw [meetsFull]
  split
  · next cls name hout => simp [hout]
  · next hout =>
    refine iff_of_false nofun ?_
    rintro ⟨cls, name, -, hfull⟩
    exact hout cls name hfull

/-- Only an addition that fails leaves something behind, and that are tags. -/
theorem gainsTags_of_error {s : CatalogStep} (h : s.run c = .error e c') :
    ∃ insnTags encTags, c.GainsTags insnTags encTags c' := by
  have hmodes (s' : ModeStep) (h : Catalog.onModes s'.run c = .error e c') : c = c' := by
    rw [Catalog.onModes_eq] at h
    obtain ⟨r, hs, rfl⟩ := onPart_eq_error_iff.mp h
    obtain rfl := ModeStep.eq_of_run_eq_error hs
    rfl
  rcases s with name | ⟨name, members⟩ | name | name | decl
  · obtain rfl := hmodes (.declareMode name) h
    exact ⟨[], [], .refl c _ _⟩
  · obtain rfl := hmodes (.defineSet name members) h
    exact ⟨[], [], .refl c _ _⟩
  · rw [run, Catalog.onInsnTags_eq] at h
    obtain ⟨r, hs, rfl⟩ := onPart_eq_error_iff.mp h
    obtain ⟨-, rfl⟩ := TagRegistry.register_eq_error hs
    exact ⟨[], [], .refl c _ _⟩
  · rw [run, Catalog.onEncTags_eq] at h
    obtain ⟨r, hs, rfl⟩ := onPart_eq_error_iff.mp h
    obtain ⟨-, rfl⟩ := TagRegistry.register_eq_error hs
    exact ⟨[], [], .refl c _ _⟩
  · exact ⟨_, _, Catalog.gainsTags_of_add_error h⟩

end CatalogStep

namespace Catalog

variable {c c' : Catalog} {decl : InstructionDecl} {e : CompileError}

/-- The steps of a history that do not find a registry of tags full when the history is taken from
the catalog `c`. -/
def unrefused (c : Catalog) : List CatalogStep → List CatalogStep
  | [] => []
  | s :: history =>
    if s.meetsFull c then (s.outcome c).2.unrefused history
    else s :: (s.outcome c).2.unrefused history

theorem Within.outcome (h : c.Within c') {s : CatalogStep} (hs : s.meetsFull c' = false) :
    (s.outcome c).2.Within (s.outcome c').2 := by
  have hrun := h.run s
  rw [CatalogStep.meetsFull, CatalogStep.outcome] at hs
  rw [CatalogStep.outcome, CatalogStep.outcome]
  generalize s.run c = out at hrun
  generalize s.run c' = out' at hrun hs
  obtain ⟨-, hc⟩ | ⟨e, hc⟩ | ⟨out, hcls, name, c''⟩ := hrun
  · exact hc
  · exact hc
  · exact absurd (bne_eq_false_iff_eq.mp hs) hcls

theorem Within.outcome_of_meetsFull (h : c.Within c') {s : CatalogStep}
    (hs : s.meetsFull c' = true) : c.Within (s.outcome c').2 := by
  rw [CatalogStep.meetsFull, CatalogStep.outcome] at hs
  rw [CatalogStep.outcome]
  rcases hrun : s.run c' with ⟨n, c''⟩ | ⟨e, c''⟩
  · rw [hrun] at hs
    cases hs
  · obtain ⟨insnTags, encTags, hgains⟩ := CatalogStep.gainsTags_of_error hrun
    exact h.gainsTags hgains

/-- The steps that are not refused for want of room are taken in the same way where there is more
room. -/
theorem Within.afterFrom (h : c.Within c') (history : List CatalogStep) :
    (c.afterFrom (c'.unrefused history)).Within (c'.afterFrom history) := by
  induction history generalizing c c' with
  | nil => exact h
  | cons s history ih =>
    rw [unrefused]
    split
    · next hs => exact ih (h.outcome_of_meetsFull hs)
    · next hs => exact ih (h.outcome (Bool.not_eq_true _ ▸ hs))

/-- If no step of a history finds a registry of tags full, none is left out. -/
theorem unrefused_eq_self {history : List CatalogStep}
    (h : ∀ before s rest, history = before ++ s :: rest → ∀ cls name, cls ≠ .mode →
      (s.outcome (c.afterFrom before)).1 ≠ .error (.tagOverflow cls name)) :
    c.unrefused history = history := by
  induction history generalizing c with
  | nil => rfl
  | cons s history ih =>
    have hs : s.meetsFull c = false := by
      rw [Bool.eq_false_iff, ne_eq, CatalogStep.meetsFull_iff]
      rintro ⟨cls, name, hcls, hfull⟩
      exact h [] s history rfl cls name hcls hfull
    have hrest : (s.outcome c).2.unrefused history = history :=
      ih fun before s' rest hsplit ↦ h (s :: before) s' rest (by rw [hsplit, List.cons_append])
    rw [unrefused, if_neg (Bool.eq_false_iff.mp hs), hrest]

/-- **A failing addition is confined to tags.** Whatever history has made the catalog:
* it only appends tags of its declaration, instruction tags and encoding tags each to their
  registry, and leaves everything else as it was;
* if its error is one of the first checks, it changes nothing at all;
* if no step in between fails because a registry of tags is full, then an addition that succeeds
  later gives the same index without the failed one, and makes the same catalog but for tags, with
  the same numbers for its encodings;
* in general, an addition that succeeds later does so without the failed one and without the steps
  in between that found a registry of tags full, which may have been refused for the tags left
  behind. -/
theorem add_confined (history : List CatalogStep) (h : add decl (after history) = .error e c') :
    (after history).GainsTags decl.tags (decl.encodings.flatMap EncodingDecl.tags) c' ∧
    (e.OfHeader → c' = after history) ∧
    (∀ later : List CatalogStep,
      (∀ before s rest, later = before ++ s :: rest → ∀ cls name, cls ≠ .mode →
        (s.outcome (c'.afterFrom before)).1 ≠ .error (.tagOverflow cls name)) →
      ∀ (decl' : InstructionDecl) (i : Nat) (c₂ : Catalog),
        add decl' (c'.afterFrom later) = .ok i c₂ →
          ∃ c₁, add decl' (after (history ++ later)) = .ok i c₁ ∧ c₁.untagged = c₂.untagged) ∧
    ∀ (later : List CatalogStep) (decl' : InstructionDecl) (i : Nat) (c₂ : Catalog),
      add decl' (c'.afterFrom later) = .ok i c₂ →
        ∃ c₁, add decl' (after (history ++ c'.unrefused later)) = .ok i c₁ ∧
          c₁.untagged = c₂.untagged := by
  have hgains := gainsTags_of_add_error h
  have hwithin : (after history).Within c' :=
    (Within.refl (wellFormed_after history)).gainsTags hgains
  have hlater (later : List CatalogStep) (decl' : InstructionDecl) (i : Nat) (c₂ : Catalog)
      (hok : add decl' (c'.afterFrom later) = .ok i c₂) :
      ∃ c₁, add decl' (after (history ++ c'.unrefused later)) = .ok i c₁ ∧
        c₁.untagged = c₂.untagged := by
    have hfollows := (hwithin.afterFrom later).add decl'
    rw [hok] at hfollows
    rw [after_append]
    generalize add decl' ((after history).afterFrom (c'.unrefused later)) = out at hfollows ⊢
    obtain ⟨rfl, hc⟩ := hfollows
    exact ⟨_, rfl, hc.untagged_eq⟩
  refine ⟨hgains, eq_of_ofHeader h, fun later hroom decl' i c₂ hok ↦ ?_, hlater⟩
  rw [← unrefused_eq_self hroom]
  exact hlater later decl' i c₂ hok

/-- An addition that fails at its second encoding leaves two tags behind, and the same name can be
added later, with the same numbers. -/
theorem add_confined_secondEncoding :
    let failing : InstructionDecl := {
      name := "mov", tags := ["fast"]
      encodings := [{ opcode := "89", tags := ["short"] },
        { opcode := "8b", args := [{ argType := "reg", size := "B4" }] }] }
    let decl : InstructionDecl := { failing with tags := ["slow"], encodings := [{ opcode := "89" }] }
    let later : List CatalogStep := [.add { name := "nop", encodings := [{ opcode := "90" }] }]
    let c : Catalog := { registries := {
      insnTags := ⟨.instruction, ["fast"], [("fast", 0)]⟩
      encTags := ⟨.encoding, ["short"], [("short", 0)]⟩ } }
    add failing (after []) = .error (.argumentCountMismatch "mov" "8b" 0 1) c ∧
      (∀ before s rest, later = before ++ s :: rest → ∀ cls name, cls ≠ .mode →
        (s.outcome (c.afterFrom before)).1 ≠ .error (.tagOverflow cls name)) ∧
      ∃ c₁ c₂, add decl (c.afterFrom later) = .ok 1 c₂ ∧ add decl (after later) = .ok 1 c₁ ∧
        c₁.untagged = c₂.untagged := by
  intro failing decl later c
  have hfail : add failing (after []) = .error (.argumentCountMismatch "mov" "8b" 0 1) c := rfl
  have hroom : ∀ before s rest, later = before ++ s :: rest → ∀ cls name, cls ≠ .mode →
      (s.outcome (c.afterFrom before)).1 ≠ .error (.tagOverflow cls name) := by
    rintro (_ | ⟨s', before⟩) s rest hsplit cls name - hfull
    · obtain ⟨rfl, -⟩ := List.cons.inj hsplit
      cases hfull
    · simp [later] at hsplit
  obtain ⟨c₂, hok⟩ : ∃ c₂, add decl (c.afterFrom later) = .ok 1 c₂ := ⟨_, rfl⟩
  obtain ⟨c₁, hsame, huntagged⟩ := (add_confined [] hfail).2.2.1 later hroom decl 1 c₂ hok
  exact ⟨hfail, hroom, c₁, c₂, hok, hsame, huntagged⟩

/-- **Without room in between, the numbers shift.** An addition fails behind thirty tags; the next
one has a tag more and is refused; so the third one gets index and number `0`, and `1` if the first
one has never been tried. -/
theorem numbers_shift :
    let failing : InstructionDecl := {
      name := "mov", tags := (List.range 30).map toString
      encodings := [{ opcode := "8b", args := [{ argType := "reg", size := "B4" }] }] }
    let between : InstructionDecl :=
      { name := "nop", tags := ["late"], encodings := [{ opcode := "90" }] }
    let last : InstructionDecl := { name := "ret", encodings := [{ opcode := "c3" }] }
    (∃ c', add failing (after []) = .error (.argumentCountMismatch "mov" "8b" 0 1) c' ∧
      ((CatalogStep.add between).outcome c').1 = .error (.tagOverflow .instruction "late") ∧
      ∃ c₂, add last (c'.afterFrom [.add between]) = .ok 0 c₂ ∧
        c₂.encodings.toList.map (fun e ↦ (e.opcode, e.number)) = [("c3", 0)]) ∧
    ∃ c₁, add last (after [.add between]) = .ok 1 c₁ ∧
      c₁.encodings.toList.map (fun e ↦ (e.opcode, e.number)) = [("90", 0), ("c3", 1)] := by
  intro failing between last
  exact ⟨⟨_, rfl, rfl, _, rfl, rfl⟩, _, rfl, rfl⟩

end Catalog

end DecodeTrie
