import DecodeTrie.Proofs.Opcode.Drafts

/-!
# The grammar of opcode patterns

A pattern is accepted exactly if every word is a word of a token and the tokens make sense together
(`Grammatical`), which is a condition on the tokens that does not mention how they are read. The
descriptor is then the one that the tokens denote (`Denotes`). Only opcode bytes are denoted by
their order, so that all other tokens may stand anywhere (`Denotes.perm`).

The words are read from left to right and the first one that cannot be added decides, so that
further words do not change the error; only what is missing at the end may still follow.
-/

namespace DecodeTrie

/-! ## What tokens denote -/

/-- The presence of the operand-size prefix that is asked for. -/
def OpSize.presence? : OpSize → Option Bool
  | optional => none
  | forbidden => some false
  | required => some true

/-- The repeat state that is asked for. -/
def Repeat.state? : Repeat → Option RepState
  | optional => none
  | forbidden => some .none
  | f2 => some .f2
  | f3 => some .f3

/-- The plain bytes of an opcode. -/
def OpcodeForm.bytes : OpcodeForm → OpcodeBytes
  | oneByte p _ => .oneByte p
  | twoByte p _ => .twoByte p
  | threeDNow _ => .threeDNow

/-- The extra byte of an opcode. -/
def OpcodeForm.extra? : OpcodeForm → Option UInt8
  | oneByte _ x => x
  | twoByte _ x => x
  | threeDNow b => some b

/-- The mode field, where it does not admit every mode. -/
def RegForm.mode? (f : RegForm) : Option ModeField := if f.mode = .any then none else some f.mode

namespace Descriptor

/-- The draft with what a descriptor asks for. -/
def draft (d : Descriptor) : Draft where
  bytes := d.form.bytes
  extra := d.form.extra?
  opSize := d.opSize.presence?
  rep := d.rep.state?
  reg := d.regForm.map RegForm.reg
  mode := d.regForm.bind RegForm.mode?
  rm := d.rm

end Descriptor

/-- **The tokens denote a descriptor**: together they say what the descriptor asks for. -/
def Denotes (ts : List Token) (d : Descriptor) : Prop := d.draft.Records ts

/-- Tokens other than opcode bytes denote the same in any order. -/
theorem Denotes.perm {ts ts' : List Token} {d : Descriptor} (h : Denotes ts d) (hp : ts.Perm ts')
    (hbytes : ts.filter Token.isOpcodeByte = ts'.filter Token.isOpcodeByte) : Denotes ts' d := by
  have honce {α : Type} {f : Token → Option α} {o : Option α} (ho : ts.filterMap f = o.toList) :
      ts'.filterMap f = o.toList := by
    have hperm := (hp.filterMap f).symm
    rw [ho] at hperm
    cases o with
    | none => exact List.perm_nil.mp hperm
    | some v => exact List.perm_singleton.mp hperm
  exact
    { bytes := hbytes ▸ h.bytes
      extra := honce h.extra
      opSize := fun p ↦ by rw [← (hp.filterMap _).mem_iff, h.opSize]
      rep := fun r ↦ by rw [← (hp.filterMap _).mem_iff, h.rep]
      reg := honce h.reg
      mode := honce h.mode
      rm := honce h.rm }

/-! ## Completing a draft -/

namespace Draft

theorem form_eq_ok_iff {d : Draft} {f : OpcodeForm} :
    d.form = .ok f ↔ d.bytes = f.bytes ∧ d.extra = f.extra? := by
  rw [form]
  cases d.bytes <;> cases d.extra <;> cases f <;> simp [OpcodeForm.bytes, OpcodeForm.extra?]

theorem regForm_eq_ok_iff {d : Draft} (hmode : d.mode ≠ some .any) {f : Option RegForm} :
    d.regForm = .ok f ↔ d.reg = f.map RegForm.reg ∧ d.mode = f.bind RegForm.mode? := by
  rw [regForm]
  cases hm : d.mode with
  | none =>
    cases d.reg with
    | none => cases f <;> simp
    | some r =>
      rcases f with _ | ⟨r', m⟩
      · simp
      · cases m <;> simp [RegForm.mode?]
  | some m' =>
    rw [hm] at hmode
    cases d.reg with
    | none =>
      rcases f with _ | ⟨r', m⟩
      · simp
      · simp
    | some r =>
      rcases f with _ | ⟨r', m⟩
      · simp
      · cases m <;> cases m' <;> simp_all [RegForm.mode?]

theorem opSizeClass_eq_iff {d : Draft} {o : OpSize} :
    d.opSizeClass = o ↔ d.opSize = o.presence? := by
  rw [opSizeClass]
  rcases d.opSize with _ | _ | _ <;> cases o <;> simp [OpSize.presence?]

theorem repeatClass_eq_iff {d : Draft} {r : Repeat} : d.repeatClass = r ↔ d.rep = r.state? := by
  rw [repeatClass]
  rcases d.rep with _ | _ | _ | _ <;> cases r <;> simp [Repeat.state?]

/-- **A draft is completed** to the descriptor whose draft it is. -/
theorem complete_eq_ok_iff {d : Draft} (hmode : d.mode ≠ some .any) {desc : Descriptor} :
    d.complete = .ok desc ↔ d = desc.draft := by
  have hcomplete : d.complete = .ok desc ↔ d.form = .ok desc.form ∧ d.regForm = .ok desc.regForm ∧
      d.opSizeClass = desc.opSize ∧ d.repeatClass = desc.rep ∧ d.rm = desc.rm := by
    obtain ⟨opSize, rep, form, regForm, rm⟩ := desc
    rw [complete]
    cases d.form <;> cases d.regForm <;> simp
    tauto
  rw [hcomplete, form_eq_ok_iff, regForm_eq_ok_iff hmode, opSizeClass_eq_iff, repeatClass_eq_iff]
  obtain ⟨bytes, extra, opSize, rep, reg, mode, rm⟩ := d
  rw [Descriptor.draft, mk.injEq]
  tauto

/-- What can be missing at the end of a pattern. -/
theorem error_of_complete {d : Draft} {e : PatternError} (h : d.complete = .error e) :
    e = .missingOpcode ∨ e = .missingTrailingOpcode ∨ e = .modeWithoutRegister := by
  rw [complete] at h
  split at h
  · next hform =>
    cases h
    rw [form] at hform
    split at hform <;> cases hform
    · exact .inl rfl
    · exact .inl rfl
    · exact .inr (.inl rfl)
  · split at h
    · next hreg =>
      cases h
      rw [regForm] at hreg
      split at hreg <;> cases hreg
      exact .inr (.inr rfl)
    · cases h

end Draft

/-! ## Tokens that make sense together -/

/-- **The tokens make sense together.** -/
structure Grammatical (ts : List Token) : Prop where
  /-- There is a token. -/
  nonempty : ts ≠ []
  /-- The operand-size prefix is not both required and forbidden. -/
  opSize : ¬ (.opSize true ∈ ts ∧ .opSize false ∈ ts)
  /-- What is said of the repeat prefix is the same. -/
  rep : ∀ r r', .rep r ∈ ts → .rep r' ∈ ts → r = r'
  /-- There is an opcode byte, perhaps behind an escape, or there are two escapes. -/
  opcode : (∃ p, ts.filter Token.isOpcodeByte = [.opcode p]) ∨
    (∃ p, ts.filter Token.isOpcodeByte = [.escape, .opcode p]) ∨
    ts.filter Token.isOpcodeByte = [.escape, .escape]
  /-- There is one extra byte at most. -/
  extra : (ts.filterMap Token.extra?).length ≤ 1
  /-- Behind two escapes there is one extra byte. -/
  trailing : ts.filter Token.isOpcodeByte = [.escape, .escape] →
    (ts.filterMap Token.extra?).length = 1
  /-- There is one register token at most. -/
  reg : (ts.filterMap Token.reg?).length ≤ 1
  /-- There is one mode token at most. -/
  mode : (ts.filterMap Token.mode?).length ≤ 1
  /-- There is one r/m token at most. -/
  rm : (ts.filterMap Token.rm?).length ≤ 1
  /-- A mode token is there only with a register token. -/
  modeWithReg : ts.filterMap Token.mode? ≠ [] → ts.filterMap Token.reg? ≠ []

theorem Token.mem_filterMap_opSize?_iff {ts : List Token} {p : Bool} :
    p ∈ ts.filterMap opSize? ↔ .opSize p ∈ ts := by
  rw [List.mem_filterMap]
  constructor
  · rintro ⟨t, ht, hp⟩
    cases t <;> cases hp
    exact ht
  · exact fun h ↦ ⟨_, h, rfl⟩

theorem Token.mem_filterMap_rep?_iff {ts : List Token} {r : RepState} :
    r ∈ ts.filterMap rep? ↔ .rep r ∈ ts := by
  rw [List.mem_filterMap]
  constructor
  · rintro ⟨t, ht, hr⟩
    cases t <;> cases hr
    exact ht
  · exact fun h ↦ ⟨_, h, rfl⟩

/-- A token that constrains the mode does not admit every mode. -/
theorem Token.any_not_mem_filterMap_mode? (ts : List Token) : .any ∉ ts.filterMap mode? := by
  intro h
  obtain ⟨t, -, ht⟩ := List.mem_filterMap.mp h
  cases t <;> cases ht

theorem Draft.Records.mode_ne_any {d : Draft} {ts : List Token} (h : d.Records ts) :
    d.mode ≠ some .any := by
  intro hany
  refine Token.any_not_mem_filterMap_mode? ts ?_
  rw [h.mode, hany]
  exact List.mem_singleton.mpr rfl

/-- Tokens that denote a descriptor make sense together. -/
theorem Denotes.grammatical {ts : List Token} {d : Descriptor} (h : Denotes ts d) :
    Grammatical ts := by
  have hle {α : Type} {f : Token → Option α} {o : Option α} (ho : ts.filterMap f = o.toList) :
      (ts.filterMap f).length ≤ 1 := by
    rw [ho]
    cases o <;> simp
  have hbytes := h.bytes
  obtain ⟨opSize, rep, form, regForm, rm⟩ := d
  exact
    { nonempty := by
        rintro rfl
        cases form <;> cases hbytes
      opSize := fun ⟨hyes, hno⟩ ↦ by
        have hyes := (h.opSize true).mp (Token.mem_filterMap_opSize?_iff.mpr hyes)
        rw [(h.opSize false).mp (Token.mem_filterMap_opSize?_iff.mpr hno)] at hyes
        cases hyes
      rep := fun r r' hr hr' ↦ by
        have hr := (h.rep r).mp (Token.mem_filterMap_rep?_iff.mpr hr)
        rw [(h.rep r').mp (Token.mem_filterMap_rep?_iff.mpr hr')] at hr
        exact (Option.some.inj hr).symm
      opcode := by
        rw [hbytes]
        cases form with
        | oneByte p x => exact .inl ⟨p, rfl⟩
        | twoByte p x => exact .inr (.inl ⟨p, rfl⟩)
        | threeDNow b => exact .inr (.inr rfl)
      extra := hle h.extra
      trailing := fun htwo ↦ by
        rw [h.extra]
        rw [hbytes] at htwo
        cases form with
        | oneByte p x => cases htwo
        | twoByte p x => cases htwo
        | threeDNow b => rfl
      reg := hle h.reg
      mode := hle h.mode
      rm := hle h.rm
      modeWithReg := fun hmode ↦ by
        rw [h.mode] at hmode
        rw [h.reg]
        cases regForm with
        | none => exact absurd rfl hmode
        | some f => exact List.cons_ne_nil _ _ }

/-- A list with one element at most is that of an option. -/
theorem exists_toList_eq {α : Type} {l : List α} (h : l.length ≤ 1) :
    ∃ o : Option α, l = o.toList := by
  match l with
  | [] => exact ⟨none, rfl⟩
  | [a] => exact ⟨some a, rfl⟩
  | a :: b :: l => exact absurd h (by simp)

/-- The elements of a list that are all the same are those of an option. -/
theorem exists_mem_iff_eq_some {α : Type} {l : List α} (h : ∀ a ∈ l, ∀ b ∈ l, a = b) :
    ∃ o : Option α, ∀ a, a ∈ l ↔ o = some a := by
  match l with
  | [] => exact ⟨none, by simp⟩
  | a :: l =>
    refine ⟨some a, fun b ↦ ⟨fun hb ↦ ?_, fun hb ↦ ?_⟩⟩
    · rw [h a List.mem_cons_self b hb]
    · rw [← Option.some.inj hb]
      exact List.mem_cons_self

namespace Grammatical

variable {ts : List Token} (h : Grammatical ts)

include h

theorem exists_opSize :
    ∃ o : OpSize, ∀ p, p ∈ ts.filterMap Token.opSize? ↔ o.presence? = some p := by
  obtain ⟨o, ho⟩ := exists_mem_iff_eq_some (l := ts.filterMap Token.opSize?) fun a ha b hb ↦ by
    rw [Token.mem_filterMap_opSize?_iff] at ha hb
    cases a <;> cases b
    · rfl
    · exact absurd ⟨hb, ha⟩ h.opSize
    · exact absurd ⟨ha, hb⟩ h.opSize
    · rfl
  rcases o with _ | _ | _
  · exact ⟨.optional, ho⟩
  · exact ⟨.forbidden, ho⟩
  · exact ⟨.required, ho⟩

theorem exists_rep : ∃ r : Repeat, ∀ s, s ∈ ts.filterMap Token.rep? ↔ r.state? = some s := by
  obtain ⟨o, ho⟩ := exists_mem_iff_eq_some (l := ts.filterMap Token.rep?) fun a ha b hb ↦
    h.rep a b (Token.mem_filterMap_rep?_iff.mp ha) (Token.mem_filterMap_rep?_iff.mp hb)
  rcases o with _ | _ | _ | _
  · exact ⟨.optional, ho⟩
  · exact ⟨.forbidden, ho⟩
  · exact ⟨.f2, ho⟩
  · exact ⟨.f3, ho⟩

theorem exists_form : ∃ f : OpcodeForm, ts.filter Token.isOpcodeByte = f.bytes.tokens ∧
    ts.filterMap Token.extra? = f.extra?.toList := by
  obtain ⟨x, hx⟩ := exists_toList_eq h.extra
  rcases h.opcode with ⟨p, hp⟩ | ⟨p, hp⟩ | htwo
  · exact ⟨.oneByte p x, hp, hx⟩
  · exact ⟨.twoByte p x, hp, hx⟩
  · obtain ⟨b, hb⟩ := List.length_eq_one_iff.mp (h.trailing htwo)
    exact ⟨.threeDNow b, htwo, hb⟩

theorem exists_regForm : ∃ f : Option RegForm,
    ts.filterMap Token.reg? = (f.map RegForm.reg).toList ∧
      ts.filterMap Token.mode? = (f.bind RegForm.mode?).toList := by
  obtain ⟨reg, hreg⟩ := exists_toList_eq h.reg
  obtain ⟨mode, hmode⟩ := exists_toList_eq h.mode
  cases reg with
  | none =>
    refine ⟨none, hreg, ?_⟩
    by_contra hne
    exact h.modeWithReg hne hreg
  | some r =>
    cases mode with
    | none => exact ⟨some ⟨r, .any⟩, hreg, hmode⟩
    | some m =>
      have hany : m ≠ .any := by
        rintro rfl
        refine Token.any_not_mem_filterMap_mode? ts ?_
        rw [hmode]
        exact List.mem_singleton.mpr rfl
      exact ⟨some ⟨r, m⟩, hreg, by rw [hmode, Option.bind_some, RegForm.mode?, if_neg hany]⟩

/-- Tokens that make sense together denote a descriptor. -/
theorem exists_denotes : ∃ d, Denotes ts d := by
  obtain ⟨opSize, hopSize⟩ := h.exists_opSize
  obtain ⟨rep, hrep⟩ := h.exists_rep
  obtain ⟨form, hbytes, hextra⟩ := h.exists_form
  obtain ⟨regForm, hreg, hmode⟩ := h.exists_regForm
  obtain ⟨rm, hrm⟩ := exists_toList_eq h.rm
  exact ⟨⟨opSize, rep, form, regForm, rm⟩, ⟨hbytes, hextra, hopSize, hrep, hreg, hmode, hrm⟩⟩

end Grammatical

/-! ## Patterns -/

/-- The words of a pattern and of what follows it behind a blank. -/
theorem Text.words_append (a : List Char) {b : Char} (hb : isBlank b = true) (rest : List Char) :
    words (a ++ b :: rest) = words a ++ words rest := by
  rw [words, words, words, List.splitOnP_append_cons a rest hb, List.filter_append]

namespace Descriptor

theorem ofWords_of_ne_nil {ws : List (List Char)} (h : ws ≠ []) :
    ofWords ws =
      match ws.foldlM Draft.addWord {} with
      | .ok d => d.complete
      | .error e => .error e := by
  cases ws with
  | nil => exact absurd rfl h
  | cons w ws => rfl

/-- **Reading words** gives the descriptor that their tokens denote. -/
theorem ofWords_eq_ok_iff {ws : List (List Char)} {d : Descriptor} :
    ofWords ws = .ok d ↔ ∃ ts, List.Forall₂ Token.Spelled ws ts ∧ Denotes ts d := by
  constructor
  · intro h
    have hne : ws ≠ [] := by
      rintro rfl
      cases h
    rw [ofWords_of_ne_nil hne] at h
    split at h
    · next d₀ hrun =>
      obtain ⟨ts, hts, hrec⟩ := Draft.foldlM_eq_ok_iff.mp hrun
      obtain rfl := (Draft.complete_eq_ok_iff hrec.mode_ne_any).mp h
      exact ⟨ts, hts, hrec⟩
    · cases h
  · rintro ⟨ts, hts, hd⟩
    have hne : ws ≠ [] := by
      rintro rfl
      exact hd.grammatical.nonempty (List.forall₂_nil_left_iff.mp hts)
    rw [ofWords_of_ne_nil hne, Draft.foldlM_eq_ok_iff.mpr ⟨ts, hts, hd⟩]
    exact (Draft.complete_eq_ok_iff hd.mode_ne_any).mpr rfl

/-- **Errors stay**: words that follow do not change an error, if nothing was missing at the end. -/
theorem ofWords_append {ws : List (List Char)} {e : PatternError} (h : ofWords ws = .error e)
    (hempty : e ≠ .empty) (hopcode : e ≠ .missingOpcode) (htrailing : e ≠ .missingTrailingOpcode)
    (hmode : e ≠ .modeWithoutRegister) (more : List (List Char)) :
    ofWords (ws ++ more) = .error e := by
  have hne : ws ≠ [] := by
    rintro rfl
    cases h
    exact hempty rfl
  rw [ofWords_of_ne_nil hne] at h
  rw [ofWords_of_ne_nil (List.append_ne_nil_of_left_ne_nil hne more), Draft.foldlM_addWord_append]
  cases hrun : ws.foldlM Draft.addWord {} with
  | ok d =>
    rw [hrun] at h
    rcases Draft.error_of_complete h with rfl | rfl | rfl
    · exact absurd rfl hopcode
    · exact absurd rfl htrailing
    · exact absurd rfl hmode
  | error e' =>
    rw [hrun] at h
    cases h
    rfl

end Descriptor

/-- A word is a word of one token only. -/
theorem Token.rightUnique_spelled : Relator.RightUnique Spelled := fun _ _ _ ht ht' ↦
  Except.ok.inj ((read_eq_ok_iff.mpr ht).symm.trans (read_eq_ok_iff.mpr ht'))

/-- **The grammar of opcode patterns.** A pattern is accepted exactly if its words are words of
tokens that make sense together. The descriptor is the one that they denote, also when tokens other
than opcode bytes stand in another order. A pattern that is refused for something else than what is
missing at its end is refused with the same error whatever words follow. -/
theorem parse_grammar (p : String) :
    ((∃ d, Descriptor.parse p = .ok d) ↔
      ∃ ts, List.Forall₂ Token.Spelled (Text.words p.toList) ts ∧ Grammatical ts) ∧
    (∀ ts d, List.Forall₂ Token.Spelled (Text.words p.toList) ts →
      (Descriptor.parse p = .ok d ↔ Denotes ts d)) ∧
    (∀ ts p' ts', List.Forall₂ Token.Spelled (Text.words p.toList) ts →
      List.Forall₂ Token.Spelled (Text.words p'.toList) ts' → ts.Perm ts' →
      ts.filter Token.isOpcodeByte = ts'.filter Token.isOpcodeByte →
      ∀ d, Descriptor.parse p = .ok d → Descriptor.parse p' = .ok d) ∧
    ∀ e, Descriptor.parse p = .error e → e ≠ .empty → e ≠ .missingOpcode →
      e ≠ .missingTrailingOpcode → e ≠ .modeWithoutRegister →
      ∀ blank more, Text.isBlank blank = true →
        Descriptor.parse (p ++ String.ofList (blank :: more)) = .error e := by
  have hdenotes {p : String} {ts : List Token} {d : Descriptor}
      (hts : List.Forall₂ Token.Spelled (Text.words p.toList) ts) :
      Descriptor.parse p = .ok d ↔ Denotes ts d := by
    rw [Descriptor.parse, Descriptor.ofWords_eq_ok_iff]
    refine ⟨?_, fun hd ↦ ⟨ts, hts, hd⟩⟩
    rintro ⟨ts', hts', hd⟩
    rwa [Token.rightUnique_spelled.forall₂ hts hts']
  refine ⟨⟨?_, ?_⟩, fun ts d ↦ hdenotes, ?_, ?_⟩
  · rintro ⟨d, hd⟩
    obtain ⟨ts, hts, hd⟩ := Descriptor.ofWords_eq_ok_iff.mp hd
    exact ⟨ts, hts, hd.grammatical⟩
  · rintro ⟨ts, hts, hgrammatical⟩
    obtain ⟨d, hd⟩ := hgrammatical.exists_denotes
    exact ⟨d, (hdenotes hts).mpr hd⟩
  · intro ts p' ts' hts hts' hperm hbytes d hd
    exact (hdenotes hts').mpr (((hdenotes hts).mp hd).perm hperm hbytes)
  · intro e he hempty hopcode htrailing hmode blank more hblank
    rw [Descriptor.parse, String.toList_append, String.toList_ofList, Text.words_append _ hblank]
    exact Descriptor.ofWords_append he hempty hopcode htrailing hmode _

/-- The escape may be written with one digit, and prefixes and fields may stand anywhere. -/
example : Descriptor.parse "66 F /mod_3 38 no66" = .error (.conflictingPrefix "no66") ∧
    Descriptor.parse "66 F /mod_3 38 66 /r" =
      .ok ⟨.required, .optional, .twoByte 0x38 none, some ⟨.any, .only 3⟩, none⟩ := by
  decide +kernel

end DecodeTrie
