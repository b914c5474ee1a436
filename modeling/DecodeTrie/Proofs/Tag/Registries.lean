import DecodeTrie.Catalog.Basic
import Mathlib.Data.List.Nodup

/-!
# Masks of registered names

The two stores of a registry are inverse to each other (`TagRegistry.Inverse`): the bit under which
the map has a name is the place of the name in the list. A registry only grows and never renumbers
(`TagRegistry.GrowsTo`), also when a step on it fails, and its stores stay inverse. So a mask whose
bits are bits of registered names (`TagRegistry.Covers`) stays one, and as a registry has no more
names than a mask has bits, it stays below the first number that does not fit.

Tags are registered on the way, and the masks of modes are made from what is declared already. Both
give masks that the registry covers.
-/

namespace DecodeTrie

/-! ## Steps that can fail -/

section Ends

variable {ε σ τ α β : Type}

/-- From the state `s`, the step gives a value and a state as in `P`, or fails in a state as
in `Q`. -/
def Ends (step : EStateM ε σ α) (s : σ) (P : α → σ → Prop) (Q : σ → Prop) : Prop :=
  match step s with
  | .ok a s' => P a s'
  | .error _ s' => Q s'

namespace Ends

variable {step : EStateM ε σ α} {s : σ} {P P' : α → σ → Prop} {Q Q' : σ → Prop}

theorem mono (h : Ends step s P Q) (hP : ∀ a s', P a s' → P' a s') (hQ : ∀ s', Q s' → Q' s') :
    Ends step s P' Q' := by
  rw [Ends] at h ⊢
  cases hs : step s with
  | ok a s' => rw [hs] at h; exact hP a s' h
  | error e s' => rw [hs] at h; exact hQ s' h

theorem pure {a : α} (h : P a s) : Ends (pure a : EStateM ε σ α) s P Q := h

theorem bind {next : α → EStateM ε σ β} {P' : β → σ → Prop} (h : Ends step s P Q)
    (hnext : ∀ a s', P a s' → Ends (next a) s' P' Q) : Ends (step >>= next) s P' Q := by
  rw [Ends] at h
  simp only [Ends, Bind.bind, EStateM.bind]
  cases hs : step s with
  | ok a s' => rw [hs] at h; exact hnext a s' h
  | error e s' => rw [hs] at h; exact h

end Ends

/-- A step on a part of the state, which `get` reads and `set` puts back, whether the step gives a
value or fails. -/
def onPart (get : σ → τ) (set : σ → τ → σ) (step : EStateM ε τ α) : EStateM ε σ α := fun s ↦
  match step (get s) with
  | .ok a t => .ok a (set s t)
  | .error e t => .error e (set s t)

theorem ends_onPart {get : σ → τ} {set : σ → τ → σ} {step : EStateM ε τ α} {s : σ}
    {P : α → σ → Prop} {Q : σ → Prop}
    (h : Ends step (get s) (fun a t ↦ P a (set s t)) fun t ↦ Q (set s t)) :
    Ends (onPart get set step) s P Q := by
  rw [Ends] at h
  rw [Ends, onPart]
  cases hs : step (get s) with
  | ok a t => rw [hs] at h; exact h
  | error e t => rw [hs] at h; exact h

end Ends

/-! ## Tags -/

namespace TagRegistry

variable {r r' r'' : TagRegistry} {mask mask' : Nat} {name : String} {bit : Nat}

/-! ### The two stores -/

/-- The map from names to bits and the list of names are inverse to each other. -/
def Inverse (r : TagRegistry) : Prop :=
  ∀ name bit, r.get? name = some bit ↔ r.names[bit]? = some name

theorem inverse_fresh (cls : TagClass) : ({ cls := cls } : TagRegistry).Inverse := by
  intro name bit
  exact iff_of_false nofun nofun

/-- The map has no name that is not in the list. -/
theorem Inverse.get?_eq_none_iff (h : r.Inverse) : r.get? name = none ↔ name ∉ r.names := by
  rw [Option.eq_none_iff_forall_ne_some, List.mem_iff_getElem?, not_exists]
  exact forall_congr' fun bit ↦ not_congr (h name bit)

theorem Inverse.isSome_get? (h : r.Inverse) : (r.get? name).isSome ↔ name ∈ r.names := by
  rw [← not_iff_not, Option.not_isSome_iff_eq_none, h.get?_eq_none_iff]

theorem Inverse.lt_size (h : r.Inverse) (hbit : r.get? name = some bit) : bit < r.size :=
  (List.getElem?_eq_some_iff.mp ((h name bit).mp hbit)).1

/-- **One more name** goes into both stores. -/
theorem Inverse.push (h : r.Inverse) (hnew : r.get? name = none) : (r.push name).Inverse := by
  intro other bit
  have hnames : (r.names ++ [name])[bit]? = some other ↔
      r.names[bit]? = some other ∨ bit = r.size ∧ name = other := by
    grind [size]
  rw [get?_push, names_push, hnames, ← h other bit]
  by_cases hother : other = name
  · -- The map has no older bit for the name, and so the list has no older place for it.
    subst hother
    simp [hnew, eq_comm]
  · simp [hother, Ne.symm hother]

/-- The registry with names more, each of them new. -/
def pushAll (r : TagRegistry) (names : List String) : TagRegistry := names.foldl push r

theorem pushAll_append (r : TagRegistry) (names names' : List String) :
    r.pushAll (names ++ names') = (r.pushAll names).pushAll names' :=
  List.foldl_append

@[simp] theorem cls_pushAll (r : TagRegistry) (names : List String) :
    (r.pushAll names).cls = r.cls := by
  induction names generalizing r with
  | nil => rfl
  | cons name names ih => exact ih (r.push name)

@[simp] theorem names_pushAll (r : TagRegistry) (names : List String) :
    (r.pushAll names).names = r.names ++ names := by
  induction names generalizing r with
  | nil => exact (List.append_nil _).symm
  | cons name names ih =>
    rw [List.append_cons]
    exact ih (r.push name)

theorem Inverse.pushAll {names : List String} (h : r.Inverse) (hnew : (r.names ++ names).Nodup) :
    (r.pushAll names).Inverse := by
  induction names generalizing r with
  | nil => exact h
  | cons name names ih =>
    rw [List.append_cons] at hnew
    have hold : (r.names ++ [name]).Nodup := List.Nodup.of_append_left hnew
    have hname : name ∉ r.names := fun hmem ↦
      List.disjoint_of_nodup_append hold hmem (List.mem_singleton_self _)
    exact ih (h.push (h.get?_eq_none_iff.mpr hname)) hnew

/-! ### Growing -/

/-- Every bit of the mask is the bit of a registered name. -/
def Covers (r : TagRegistry) (mask : Nat) : Prop :=
  ∀ bit, mask.testBit bit = true → ∃ name, r.get? name = some bit

/-- The second registry has what the first one has, under the same bits, and is not too large. -/
structure GrowsTo (r r' : TagRegistry) : Prop where
  /-- The registry stays one of its class. -/
  cls_eq : r'.cls = r.cls
  /-- Names keep their bits. -/
  get?_eq : ∀ {name : String} {bit : Nat}, r.get? name = some bit → r'.get? name = some bit
  /-- Growing stops before there are more names than bits. -/
  size_le : r.size ≤ TagClass.limit → r'.size ≤ TagClass.limit
  /-- The stores stay inverse to each other. -/
  inverse : r.Inverse → r'.Inverse

theorem GrowsTo.refl (r : TagRegistry) : r.GrowsTo r := ⟨rfl, id, id, id⟩

theorem GrowsTo.trans (h : r.GrowsTo r') (h' : r'.GrowsTo r'') : r.GrowsTo r'' where
  cls_eq := h'.cls_eq.trans h.cls_eq
  get?_eq hb := h'.get?_eq (h.get?_eq hb)
  size_le hs := h'.size_le (h.size_le hs)
  inverse hi := h'.inverse (h.inverse hi)

/-- A registry grows by a new name for which there is room. -/
theorem growsTo_push (hnew : r.get? name = none) (hsize : r.size < TagClass.limit) :
    r.GrowsTo (r.push name) where
  cls_eq := rfl
  get?_eq := by
    intro other bit hbit
    rw [get?_push, if_neg, hbit]
    rintro rfl
    rw [hnew] at hbit
    cases hbit
  size_le _ := size_push r name ▸ hsize
  inverse hi := hi.push hnew

theorem covers_zero (r : TagRegistry) : r.Covers 0 := by
  intro bit h
  rw [Nat.zero_testBit] at h
  cases h

theorem covers_bitMask (h : r.get? name = some bit) : r.Covers (bitMask bit) := by
  intro b hb
  rw [testBit_bitMask, decide_eq_true_eq] at hb
  exact ⟨name, hb ▸ h⟩

theorem Covers.or (h : r.Covers mask) (h' : r.Covers mask') : r.Covers (mask ||| mask') := by
  intro bit hb
  rw [Nat.testBit_or, Bool.or_eq_true] at hb
  exact hb.elim (h bit) (h' bit)

theorem Covers.grow (h : r.Covers mask) (hr : r.GrowsTo r') : r'.Covers mask := by
  intro bit hb
  obtain ⟨name, hname⟩ := h bit hb
  exact ⟨name, hr.get?_eq hname⟩

/-- A registry that is not too large covers only masks with that many bits. -/
theorem Covers.lt (h : r.Covers mask) (hi : r.Inverse) (hr : r.size ≤ TagClass.limit) :
    mask < bitMask TagClass.limit := by
  rw [bitMask, Nat.one_shiftLeft]
  refine Nat.lt_pow_two_of_testBit mask fun bit hbit ↦ Bool.eq_false_iff.mpr fun hb ↦ ?_
  obtain ⟨name, hname⟩ := h bit hb
  have hlt := hi.lt_size hname
  omega

/-- Registering gives the bit of the name. -/
theorem register_ends (name : String) (r : TagRegistry) :
    Ends (register name) r (fun bit r' ↦ r.GrowsTo r' ∧ r'.get? name = some bit) r.GrowsTo := by
  cases hget : r.get? name with
  | some bit =>
    rw [Ends, register_of_get? hget]
    exact ⟨.refl r, hget⟩
  | none =>
    obtain hsize | hsize := Nat.lt_or_ge r.size TagClass.limit
    · rw [Ends, register_of_lt hget hsize]
      exact ⟨growsTo_push hget hsize, by rw [get?_push, if_pos rfl]⟩
    · rw [Ends, register_of_le hget hsize]
      exact .refl r

theorem registerInto_ends (set : TagSet) (names : List String) (r : TagRegistry)
    (hset : r.Covers set.bits) :
    Ends (registerInto set names) r (fun set' r' ↦ r.GrowsTo r' ∧ r'.Covers set'.bits)
      r.GrowsTo := by
  induction names generalizing set r with
  | nil => exact .pure ⟨.refl r, hset⟩
  | cons name names ih =>
    refine (register_ends name r).bind fun bit r₁ ⟨hr, hbit⟩ ↦ ?_
    have hset' : r₁.Covers (set.insert bit).bits := (hset.grow hr).or (covers_bitMask hbit)
    exact (ih _ r₁ hset').mono (fun _ _ h ↦ ⟨hr.trans h.1, h.2⟩) fun _ h ↦ hr.trans h

/-- Registering names gives a set of registered names. -/
theorem registerAll_ends (names : List String) (r : TagRegistry) :
    Ends (registerAll names) r (fun set r' ↦ r.GrowsTo r' ∧ r'.Covers set.bits) r.GrowsTo :=
  registerInto_ends _ names r (covers_zero r)

end TagRegistry

/-! ## Modes -/

namespace ModeRegistry

variable {r r' : ModeRegistry} {name : String} {mask mask' : Nat}

/-- The masks of the mode sets are made of declared core modes. -/
def SetsCovered (r : ModeRegistry) : Prop := ∀ s ∈ r.sets, r.core.Covers s.mask

/-- The core modes only grow, and mode sets stay covered. -/
structure GrowsTo (r r' : ModeRegistry) : Prop where
  /-- Core modes keep their bits. -/
  core : r.core.GrowsTo r'.core
  /-- Mode sets are made of declared core modes. -/
  setsCovered : r.SetsCovered → r'.SetsCovered

theorem GrowsTo.refl (r : ModeRegistry) : r.GrowsTo r := ⟨.refl _, id⟩

theorem covers_of_mask? (h : r.SetsCovered) (hm : r.mask? name = some mask) :
    r.core.Covers mask := by
  rw [mask?] at hm
  split at hm
  · next bit hbit =>
    obtain rfl := Option.some.inj hm
    exact TagRegistry.covers_bitMask hbit
  · obtain ⟨s, hs, rfl⟩ := Option.map_eq_some_iff.mp hm
    exact h s (List.mem_of_find?_eq_some hs)

theorem covers_of_unionInto (h : r.SetsCovered) {names : List String} (hmask : r.core.Covers mask)
    (hm : r.unionInto mask names = .ok mask') : r.core.Covers mask' := by
  induction names generalizing mask with
  | nil =>
    obtain rfl := Except.ok.inj hm
    exact hmask
  | cons name names ih =>
    rw [unionInto] at hm
    split at hm
    · next hname => exact ih (hmask.or (covers_of_mask? h hname)) hm
    · cases hm

/-- A union of modes and mode sets is made of declared core modes. -/
theorem covers_of_union (h : r.SetsCovered) {names : List String}
    (hm : r.union names = .ok mask) : r.core.Covers mask :=
  covers_of_unionInto h (TagRegistry.covers_zero _) hm

theorem declareMode_ends (name : String) (r : ModeRegistry) :
    Ends (declareMode name) r (fun _ ↦ r.GrowsTo) r.GrowsTo := by
  rw [Ends, declareMode, ← isSome_mask?]
  by_cases htaken : (r.mask? name).isSome
  · rw [if_pos htaken]
    exact .refl r
  · rw [if_neg htaken]
    have hcore := TagRegistry.register_ends name r.core
    have hgrow {core : TagRegistry} (h : r.core.GrowsTo core) :
        r.GrowsTo { r with core := core } := ⟨h, fun hsets s hs ↦ (hsets s hs).grow h⟩
    rw [Ends] at hcore
    cases hreg : TagRegistry.register name r.core with
    | ok bit core => rw [hreg] at hcore; exact hgrow hcore.1
    | error e core => rw [hreg] at hcore; exact hgrow hcore

theorem defineSet_ends (name : String) (members : List String) (r : ModeRegistry) :
    Ends (defineSet name members) r (fun _ ↦ r.GrowsTo) r.GrowsTo := by
  rw [Ends, defineSet]
  by_cases htaken : (r.mask? name).isSome
  · rw [if_pos htaken]
    exact .refl r
  · rw [if_neg htaken]
    cases hunion : r.union members with
    | error unknown => exact .refl r
    | ok mask =>
      dsimp only
      by_cases hzero : mask = 0
      · rw [if_pos hzero]
        exact .refl r
      · rw [if_neg hzero]
        refine ⟨.refl _, fun hsets s hs ↦ ?_⟩
        have hmask : r.core.Covers mask := covers_of_union hsets hunion
        obtain hs | hs := List.mem_append.mp hs
        · exact hsets s hs
        · obtain rfl := List.mem_singleton.mp hs
          exact hmask

end ModeRegistry

/-! ## All registries of a catalog -/

namespace Registries

variable {r r' r'' : Registries}

/-- Each registry is one of its class, with stores that are inverse to each other; no class has more
names than a mask has bits, and mode sets are made of declared core modes. -/
structure WellFormed (r : Registries) : Prop where
  /-- The instruction tags are tags of instructions. -/
  insnTags_cls : r.insnTags.cls = .instruction
  /-- The encoding tags are tags of encodings. -/
  encTags_cls : r.encTags.cls = .encoding
  /-- The core modes are modes. -/
  core_cls : r.modes.core.cls = .mode
  /-- The instruction tags are found where they are listed. -/
  insnTags_inverse : r.insnTags.Inverse
  /-- The encoding tags are found where they are listed. -/
  encTags_inverse : r.encTags.Inverse
  /-- The core modes are found where they are listed. -/
  core_inverse : r.modes.core.Inverse
  /-- The instruction tags fit into a mask. -/
  insnTags_le : r.insnTags.size ≤ TagClass.limit
  /-- The encoding tags fit into a mask. -/
  encTags_le : r.encTags.size ≤ TagClass.limit
  /-- The core modes fit into a mask. -/
  core_le : r.modes.core.size ≤ TagClass.limit
  /-- Mode sets are made of declared core modes. -/
  setsCovered : r.modes.SetsCovered

/-- Every registry only grows. -/
structure GrowsTo (r r' : Registries) : Prop where
  /-- Instruction tags keep their bits. -/
  insnTags : r.insnTags.GrowsTo r'.insnTags
  /-- Encoding tags keep their bits. -/
  encTags : r.encTags.GrowsTo r'.encTags
  /-- Modes keep their bits. -/
  modes : r.modes.GrowsTo r'.modes

theorem GrowsTo.refl (r : Registries) : r.GrowsTo r := ⟨.refl _, .refl _, .refl _⟩

theorem GrowsTo.trans (h : r.GrowsTo r') (h' : r'.GrowsTo r'') : r.GrowsTo r'' where
  insnTags := h.insnTags.trans h'.insnTags
  encTags := h.encTags.trans h'.encTags
  modes := ⟨h.modes.core.trans h'.modes.core,
    fun hs ↦ h'.modes.setsCovered (h.modes.setsCovered hs)⟩

theorem WellFormed.grow (h : r.WellFormed) (hr : r.GrowsTo r') : r'.WellFormed where
  insnTags_cls := hr.insnTags.cls_eq.trans h.insnTags_cls
  encTags_cls := hr.encTags.cls_eq.trans h.encTags_cls
  core_cls := hr.modes.core.cls_eq.trans h.core_cls
  insnTags_inverse := hr.insnTags.inverse h.insnTags_inverse
  encTags_inverse := hr.encTags.inverse h.encTags_inverse
  core_inverse := hr.modes.core.inverse h.core_inverse
  insnTags_le := hr.insnTags.size_le h.insnTags_le
  encTags_le := hr.encTags.size_le h.encTags_le
  core_le := hr.modes.core.size_le h.core_le
  setsCovered := hr.modes.setsCovered h.setsCovered

theorem wellFormed_empty : ({} : Registries).WellFormed where
  insnTags_cls := rfl
  encTags_cls := rfl
  core_cls := rfl
  insnTags_inverse := TagRegistry.inverse_fresh _
  encTags_inverse := TagRegistry.inverse_fresh _
  core_inverse := TagRegistry.inverse_fresh _
  insnTags_le := Nat.zero_le _
  encTags_le := Nat.zero_le _
  core_le := Nat.zero_le _
  setsCovered := nofun

end Registries

end DecodeTrie
