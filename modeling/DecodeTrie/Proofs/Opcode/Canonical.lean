import DecodeTrie.Opcode.Printer
import DecodeTrie.Proofs.Opcode.Grammar

/-!
# Canonical forms of descriptors

A descriptor that has been read can be written in its canonical form, and what is read then is the
same descriptor (`Descriptor.parse_render`). The canonical tokens denote the descriptor
(`Descriptor.denotes_tokens`), and each is written as one of its words, because no opcode byte that
has been read is an escape or a prefix (`Descriptor.spelled_tokens`).

The packed record tells descriptors apart (`Descriptor.eq_of_packed_eq`): its code for a field that
is not there is out of the range of those for a field that is, and the opcode maps are a byte apart.
-/

namespace DecodeTrie

/-! ## Words that are joined by blanks -/

namespace Text

/-- Characters without a blank among them are one word. -/
theorem words_of_forall_not_isBlank {w : List Char} (hne : w ≠ [])
    (h : ∀ c ∈ w, isBlank c = false) : words w = [w] := by
  rw [words, List.splitOnP_eq_singleton fun c hc ↦ by simp [h c hc]]
  simp [hne]

/-- **Words that are joined by blanks** are the words of the text. -/
theorem words_intercalate {b : Char} (hb : isBlank b = true) {ws : List (List Char)}
    (h : ∀ w ∈ ws, w ≠ [] ∧ ∀ c ∈ w, isBlank c = false) : words ([b].intercalate ws) = ws := by
  induction ws with
  | nil => exact words_nil
  | cons w ws ih =>
    obtain ⟨⟨hne, hw⟩, hws⟩ := List.forall_mem_cons.mp h
    cases ws with
    | nil => rw [List.intercalate_singleton, words_of_forall_not_isBlank hne hw]
    | cons w' ws =>
      rw [List.intercalate_cons_cons, List.append_assoc, List.singleton_append,
        words_append w hb, words_of_forall_not_isBlank hne hw, ih hws, List.singleton_append]

theorem isBlank_digitChar {n : Nat} (h : n < 16) : isBlank (Nat.digitChar n) = false := by
  revert h; revert n; decide

theorem isBlank_of_mem_byteDigits {b : UInt8} {c : Char} (h : c ∈ byteDigits b) :
    isBlank c = false := by
  have hb := b.toNat_lt
  rcases List.mem_pair.mp h with rfl | rfl
  · exact isBlank_digitChar (by omega)
  · exact isBlank_digitChar (by omega)

end Text

/-! ## Canonical words -/

namespace Token

theorem any_isBlank_chars (t : Token) : t.chars.any Text.isBlank = false := by
  have hbyte (b : UInt8) : (Text.byteDigits b).any Text.isBlank = false := by
    rw [List.any_eq_false]
    exact fun c hc ↦ Bool.eq_false_iff.mp (Text.isBlank_of_mem_byteDigits hc)
  cases t with
  | escape => decide
  | opSize present => cases present <;> decide
  | rep state => cases state <;> decide
  | opcode b => exact hbyte b
  | extra b => rw [chars, List.any_cons, hbyte]; decide
  | reg field =>
    cases field with
    | any => decide
    | only r => revert r; decide
  | mode m => revert m; decide
  | memory => decide
  | rm r => revert r; decide

/-- The canonical word of a token is a word. -/
theorem isWord_chars (t : Token) : t.chars ≠ [] ∧ ∀ c ∈ t.chars, Text.isBlank c = false := by
  refine ⟨?_, fun c hc ↦ Bool.eq_false_iff.mpr (List.any_eq_false.mp t.any_isBlank_chars c hc)⟩
  unfold chars
  split <;> exact List.cons_ne_nil _ _

/-- An opcode byte that has a word is neither an escape nor a prefix. -/
theorem not_mem_of_spelled {w : List Char} {b : UInt8} (h : Spelled w (.opcode b)) :
    b ∉ [0x0f, 0x66, 0xf2, 0xf3] := by
  cases h with
  | opcode _ hb => exact hb

/-- **The canonical word of a token** is one of its words, unless the token is an opcode byte that
is an escape or a prefix. -/
theorem spelled_chars {t : Token} (h : ∀ b, t = .opcode b → b ∉ [0x0f, 0x66, 0xf2, 0xf3]) :
    Spelled t.chars t :=
  read_eq_ok_iff.mp (read_chars fun b hb ↦ ofByte_eq_opcode (h b hb))

end Token

/-! ## Canonical tokens -/

/-- **Adding tokens** one after the other, however they were written, to a draft that records others
gives a draft that records all of them. -/
theorem Draft.Records.append {d₀ d : Draft} {ts : List Token} (h : d₀.Records ts)
    (more : List Token) (hrun : more.foldlM (fun b t ↦ b.add [] t) d₀ = .ok d) :
    d.Records (ts ++ more) := by
  induction more generalizing d₀ ts with
  | nil =>
    cases hrun
    rwa [List.append_nil]
  | cons t more ih =>
    rw [List.foldlM_cons] at hrun
    cases hadd : d₀.add [] t with
    | error e => rw [hadd] at hrun; cases hrun
    | ok d₁ =>
      rw [hadd] at hrun
      have hmore := ih ((records_concat_iff []).mpr ⟨d₀, h, hadd⟩) hrun
      rwa [List.append_assoc, List.singleton_append] at hmore

namespace Descriptor

/-- **The canonical tokens denote the descriptor.** -/
theorem denotes_tokens (d : Descriptor) : Denotes d.tokens d := by
  -- The draft that starts empty is filled by one part of the tokens after the other.
  obtain ⟨opSize, rep, form, regForm, rm⟩ := d
  have hnone : Draft.Records {} [] := Draft.records_nil_iff.mpr rfl
  have hopSize : Draft.Records { opSize := opSize.presence? } opSize.tokens :=
    hnone.append opSize.tokens (by cases opSize <;> rfl)
  have hrep : Draft.Records { opSize := opSize.presence?, rep := rep.state? }
      (opSize.tokens ++ rep.tokens) := hopSize.append rep.tokens (by cases rep <;> rfl)
  have hform := hrep.append form.tokens (d := (mk opSize rep form none none).draft)
    (by rcases form with ⟨p, _ | x⟩ | ⟨p, _ | x⟩ | b <;> rfl)
  have hregForm := hform.append ((regForm.map RegForm.tokens).getD [])
    (d := (mk opSize rep form regForm none).draft)
    (by rcases regForm with _ | ⟨r, _ | m | _⟩ <;> rfl)
  exact hregForm.append (rm.map Token.rm).toList (by cases rm <;> rfl)

/-- The opcode bytes of a descriptor that has been read are neither escapes nor prefixes, so that
each of its canonical tokens is written as one of its words. -/
theorem spelled_tokens {ws : List (List Char)} {d : Descriptor} (h : ofWords ws = .ok d) :
    List.Forall₂ Token.Spelled (d.tokens.map Token.chars) d.tokens := by
  obtain ⟨ts, hts, hd⟩ := ofWords_eq_ok_iff.mp h
  rw [List.forall₂_map_left_iff, List.forall₂_same]
  refine fun t ht ↦ Token.spelled_chars fun b hb ↦ ?_
  subst hb
  -- The tokens that were read have the same opcode bytes.
  have hread : .opcode b ∈ ts.filter Token.isOpcodeByte := by
    rw [hd.bytes, ← d.denotes_tokens.bytes]
    exact List.mem_filter.mpr ⟨ht, rfl⟩
  obtain ⟨i, hi, hget⟩ := List.mem_iff_getElem.mp (List.mem_of_mem_filter hread)
  have hspelled := hts.get (hts.length_eq ▸ hi) hi
  rw [List.get_eq_getElem, List.get_eq_getElem, hget] at hspelled
  exact Token.not_mem_of_spelled hspelled

/-- **What is written in canonical form is read as the same descriptor.** -/
theorem parse_render {s : String} {d : Descriptor} (h : parse s = .ok d) :
    parse d.render = .ok d := by
  have hwords : Text.words d.render.toList = d.tokens.map Token.chars := by
    rw [render, String.toList_ofList]
    refine Text.words_intercalate (by decide) fun w hw ↦ ?_
    obtain ⟨t, -, rfl⟩ := List.mem_map.mp hw
    exact t.isWord_chars
  rw [parse, hwords]
  exact ofWords_eq_ok_iff.mpr ⟨d.tokens, spelled_tokens h, d.denotes_tokens⟩

end Descriptor

/-! ## Packed records -/

/-- A code for what is not there that no value has tells all options apart. -/
theorem eq_of_getD_map_eq {α : Type} {code : α → Nat} {absent : Nat}
    (hcode : ∀ a a', code a = code a' → a = a') (habsent : ∀ a, code a ≠ absent) {o o' : Option α}
    (h : (o.map code).getD absent = (o'.map code).getD absent) : o = o' := by
  cases o with
  | none =>
    cases o' with
    | none => rfl
    | some a' => exact absurd h.symm (habsent a')
  | some a =>
    cases o' with
    | none => exact absurd h (habsent a)
    | some a' => rw [hcode a a' h]

theorem OpSize.eq_of_code_eq {o o' : OpSize} (h : o.code = o'.code) : o = o' := by
  cases o <;> cases o' <;> simp_all [code]

theorem Repeat.eq_of_code_eq {r r' : Repeat} (h : r.code = r'.code) : r = r' := by
  cases r <;> cases r' <;> simp_all [code]

theorem ModeField.eq_of_code_eq {m m' : ModeField} (h : m.code = m'.code) : m = m' := by
  cases m <;> cases m' <;> grind [code]

theorem RegField.eq_of_code_eq {r r' : RegField} (h : r.code = r'.code) : r = r' := by
  cases r <;> cases r' <;> grind [code]

theorem RegField.code_lt (r : RegField) : r.code < 15 := by
  cases r with
  | any => decide
  | only r => exact Nat.lt_trans r.isLt (by decide)

/-- The code of the register field says whether there are register and mode fields. -/
theorem RegForm.eq_of_codes_eq {f f' : Option RegForm}
    (hreg : (f.map fun f ↦ f.reg.code).getD 15 = (f'.map fun f ↦ f.reg.code).getD 15)
    (hmode : (f.map fun f ↦ f.mode.code).getD 7 = (f'.map fun f ↦ f.mode.code).getD 7) :
    f = f' := by
  rcases f with _ | ⟨r, m⟩ <;> rcases f' with _ | ⟨r', m'⟩
  · rfl
  · exact absurd hreg.symm (Nat.ne_of_lt r'.code_lt)
  · exact absurd hreg (Nat.ne_of_lt r.code_lt)
  · obtain rfl : r = r' := RegField.eq_of_code_eq hreg
    obtain rfl : m = m' := ModeField.eq_of_code_eq hmode
    rfl

/-- An extra byte is less than the code for none. -/
theorem OpcodeForm.eq_of_extra_eq {x x' : Option UInt8}
    (h : (x.map UInt8.toNat).getD 0x100 = (x'.map UInt8.toNat).getD 0x100) : x = x' :=
  eq_of_getD_map_eq (fun _ _ ↦ UInt8.toNat_inj.mp) (fun b ↦ Nat.ne_of_lt b.toNat_lt) h

/-- The opcode map of a form: its number above the opcode byte in the packed record. -/
def OpcodeForm.map : OpcodeForm → Nat
  | oneByte _ _ => 0
  | twoByte _ _ => 1
  | threeDNow _ => 2

/-- An opcode byte is less than the distance between the opcode maps. -/
theorem OpcodeForm.primaryCode_div (f : OpcodeForm) : f.primaryCode / 0x100 = f.map := by
  cases f with
  | oneByte p x => exact Nat.div_eq_of_lt p.toNat_lt
  | twoByte p x =>
    rw [primaryCode, Nat.add_div_left _ (by decide), Nat.div_eq_of_lt p.toNat_lt]
    rfl
  | threeDNow b => rw [primaryCode, map]

theorem OpcodeForm.eq_of_codes_eq {f f' : OpcodeForm} (hprimary : f.primaryCode = f'.primaryCode)
    (hextra : f.extraCode = f'.extraCode) : f = f' := by
  have hmap : f.map = f'.map := by rw [← primaryCode_div, hprimary, primaryCode_div]
  cases f with
  | oneByte p x =>
    cases f' with
    | oneByte p' x' => rw [UInt8.toNat_inj.mp hprimary, eq_of_extra_eq hextra]
    | twoByte p' x' => cases hmap
    | threeDNow b' => cases hmap
  | twoByte p x =>
    cases f' with
    | oneByte p' x' => cases hmap
    | twoByte p' x' =>
      rw [UInt8.toNat_inj.mp (Nat.add_left_cancel hprimary), eq_of_extra_eq hextra]
    | threeDNow b' => cases hmap
  | threeDNow b =>
    cases f' with
    | oneByte p' x' => cases hmap
    | twoByte p' x' => cases hmap
    | threeDNow b' => rw [UInt8.toNat_inj.mp hextra]

/-- **The packed record tells descriptors apart.** -/
theorem Descriptor.eq_of_packed_eq {d d' : Descriptor} (h : d.packed = d'.packed) : d = d' := by
  obtain ⟨opSize, rep, form, regForm, rm⟩ := d
  obtain ⟨opSize', rep', form', regForm', rm'⟩ := d'
  obtain ⟨hop, hprimary, hextra, hmode, hreg, hrm, hrep⟩ := PackedOpcode.mk.inj h
  rw [mk.injEq]
  exact ⟨OpSize.eq_of_code_eq hop, Repeat.eq_of_code_eq hrep,
    OpcodeForm.eq_of_codes_eq hprimary hextra, RegForm.eq_of_codes_eq hreg hmode,
    eq_of_getD_map_eq (fun _ _ ↦ Fin.ext) (fun r ↦ Nat.ne_of_lt (r.isLt.trans (by decide))) hrm⟩

/-- **Canonical forms lose nothing.** What has been read is written in a form that is read as the
same descriptor. Descriptors that have been read are the same if they are written in the same form,
and also if their packed records are the same. -/
theorem canonical_forms :
    (∀ s d, Descriptor.parse s = .ok d → Descriptor.parse d.render = .ok d) ∧
      ∀ s s' d d', Descriptor.parse s = .ok d → Descriptor.parse s' = .ok d' →
        (d.render = d'.render → d = d') ∧ (d.packed = d'.packed → d = d') := by
  refine ⟨fun s d ↦ Descriptor.parse_render, fun s s' d d' h h' ↦ ⟨fun hrender ↦ ?_, ?_⟩⟩
  · have hd := Descriptor.parse_render h
    rw [hrender, Descriptor.parse_render h', Except.ok.injEq] at hd
    exact hd.symm
  · exact Descriptor.eq_of_packed_eq

theorem canonical_forms_spacious :
    let s := "/r  0f\t10 nofx no66"
    let s' := "F no66 no66 10 nofx /r"
    ∃ d d', Descriptor.parse s = .ok d ∧ Descriptor.parse s' = .ok d' ∧
      d.render = "no66 nofx 0f 10 /r" ∧ Descriptor.parse d.render = .ok d ∧
      d.packed = d'.packed ∧ d = d' := by
  intro s s'
  obtain ⟨d, h, hrender, hpacked⟩ : ∃ d, Descriptor.parse s = .ok d ∧
      d.render = "no66 nofx 0f 10 /r" ∧ d.packed = ⟨1, 0x110, 0x100, 7, 8, 15, 0⟩ :=
    ⟨⟨.forbidden, .forbidden, .twoByte 0x10 none, some ⟨.any, .any⟩, none⟩, by decide +kernel⟩
  obtain ⟨d', h', hpacked'⟩ : ∃ d', Descriptor.parse s' = .ok d' ∧
      d'.packed = ⟨1, 0x110, 0x100, 7, 8, 15, 0⟩ :=
    ⟨⟨.forbidden, .forbidden, .twoByte 0x10 none, some ⟨.any, .any⟩, none⟩, by decide +kernel⟩
  have hsame : d.packed = d'.packed := hpacked.trans hpacked'.symm
  exact ⟨d, d', h, h', hrender, canonical_forms.1 s d h, hsame,
    (canonical_forms.2 s s' d d' h h').2 hsame⟩

end DecodeTrie
