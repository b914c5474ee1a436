import DecodeTrie.Opcode.Parser
import DecodeTrie.Proofs.Opcode.Words
import Mathlib.Data.List.Forall2
import Mathlib.Data.List.Induction
import Mathlib.Tactic.MkIffOfInductiveProp

/-!
# What a draft records

A draft records tokens when it holds what they say, field by field (`Draft.Records`). Plain bytes
are recorded in their order, the prefixes as the one value that their tokens agree on, and every
other field as the one token that constrains it. That a token can be added to a draft, and what the
draft is then, is decided by this alone (`Draft.records_concat_iff`), so that a run of the parser is
a draft that records the tokens of the words (`Draft.foldlM_eq_ok_iff`).
-/

namespace DecodeTrie

namespace Token

/-- Whether a token is an opcode byte, the escape included. -/
def isOpcodeByte : Token → Bool
  | escape => true
  | opcode _ => true
  | _ => false

/-- The extra byte of a token. -/
def extra? : Token → Option UInt8
  | extra b => some b
  | _ => none

/-- What a token says of the operand-size prefix. -/
def opSize? : Token → Option Bool
  | opSize p => some p
  | _ => none

/-- What a token says of the repeat prefix. -/
def rep? : Token → Option RepState
  | rep r => some r
  | _ => none

/-- What a token says of the register field. -/
def reg? : Token → Option RegField
  | reg r => some r
  | _ => none

/-- What a token says of the mode field. -/
def mode? : Token → Option ModeField
  | mode m => some (.only m)
  | memory => some .memory
  | _ => none

/-- What a token says of the r/m field. -/
def rm? : Token → Option (Fin 8)
  | rm r => some r
  | _ => none

end Token

/-- The tokens of plain bytes. -/
def OpcodeBytes.tokens : OpcodeBytes → List Token
  | start => []
  | escaped => [.escape]
  | oneByte p => [.opcode p]
  | twoByte p => [.escape, .opcode p]
  | threeDNow => [.escape, .escape]

namespace Draft

/-- **The draft records the tokens.** -/
@[mk_iff]
structure Records (d : Draft) (ts : List Token) : Prop where
  /-- The plain bytes are those of the draft, in their order. -/
  bytes : ts.filter Token.isOpcodeByte = d.bytes.tokens
  /-- There is one extra byte at most. -/
  extra : ts.filterMap Token.extra? = d.extra.toList
  /-- All that is said of the operand-size prefix is the same. -/
  opSize : ∀ p, p ∈ ts.filterMap Token.opSize? ↔ d.opSize = some p
  /-- All that is said of the repeat prefix is the same. -/
  rep : ∀ r, r ∈ ts.filterMap Token.rep? ↔ d.rep = some r
  /-- There is one register token at most. -/
  reg : ts.filterMap Token.reg? = d.reg.toList
  /-- There is one mode token at most. -/
  mode : ts.filterMap Token.mode? = d.mode.toList
  /-- There is one r/m token at most. -/
  rm : ts.filterMap Token.rm? = d.rm.toList

theorem records_nil_iff {d : Draft} : d.Records [] ↔ d = {} := by
  have hbytes {b : OpcodeBytes} : [] = b.tokens ↔ b = .start := by
    cases b <;> simp [OpcodeBytes.tokens]
  have honce {α : Type} {o : Option α} : [] = o.toList ↔ o = none := by
    cases o <;> simp
  have hagain {α : Type} {o : Option α} : (∀ v, v ∈ ([] : List α) ↔ o = some v) ↔ o = none := by
    cases o <;> simp
  obtain ⟨bytes, extra, opSize, rep, reg, mode, rm⟩ := d
  simp only [records_iff, List.filter_nil, List.filterMap_nil, hbytes, honce, hagain, mk.injEq]

/-! ## What a token does to a field -/

section fields

variable {α : Type}

/-- What a token says constrains a field that may be constrained once. -/
def Once (said field field' : Option α) : Prop :=
  match said with
  | none => field = field'
  | some v => field = none ∧ some v = field'

/-- What a token says constrains a field that may be constrained in the same way again. -/
def Again (said field field' : Option α) : Prop :=
  match said with
  | none => field = field'
  | some v => (field = none ∨ field = some v) ∧ some v = field'

/-- A token continues plain bytes. -/
def Continues (t : Token) (b b' : OpcodeBytes) : Prop :=
  match t with
  | .escape => b = .start ∧ .escaped = b' ∨ b = .escaped ∧ .threeDNow = b'
  | .opcode p => b = .start ∧ .oneByte p = b' ∨ b = .escaped ∧ .twoByte p = b'
  | _ => b = b'

variable {f : Token → Option α} {ts : List Token} {t : Token} {o' : Option α}

/-- A field with one token at most, when there is a further token. -/
theorem filterMap_concat_eq_iff : (ts ++ [t]).filterMap f = o'.toList ↔
    ∃ o : Option α, ts.filterMap f = o.toList ∧ Once (f t) o o' := by
  rw [List.filterMap_append]
  cases h : f t with
  | none => simp [h, Once]
  | some v =>
    rw [show [t].filterMap f = [v] by simp [h]]
    cases o' with
    | none => simp [Once]
    | some u => simp [Once, List.append_eq_singleton_iff, eq_comm]

/-- A field whose tokens all say the same, when there is a further token. -/
theorem mem_filterMap_concat_iff : (∀ u, u ∈ (ts ++ [t]).filterMap f ↔ o' = some u) ↔
    ∃ o : Option α, (∀ u, u ∈ ts.filterMap f ↔ o = some u) ∧ Again (f t) o o' := by
  cases h : f t with
  | none => simp [h, Again]
  | some v =>
    have hmem (u : α) : u ∈ (ts ++ [t]).filterMap f ↔ u ∈ ts.filterMap f ∨ u = v := by
      rw [List.filterMap_append, List.mem_append, show [t].filterMap f = [v] by simp [h],
        List.mem_singleton]
    simp only [hmem, Again]
    constructor
    · intro hu
      obtain rfl : o' = some v := (hu v).mp (.inr rfl)
      have hsame {u : α} (hu' : u ∈ ts.filterMap f) : u = v :=
        (Option.some.inj ((hu u).mp (.inl hu'))).symm
      by_cases hv : v ∈ ts.filterMap f
      · exact ⟨some v, fun u ↦ ⟨fun hu' ↦ by rw [hsame hu'], fun hu' ↦ Option.some.inj hu' ▸ hv⟩,
          .inr rfl, rfl⟩
      · exact ⟨none, fun u ↦ ⟨fun hu' ↦ absurd (hsame hu' ▸ hu') hv, nofun⟩, .inl rfl, rfl⟩
    · rintro ⟨o, hu, rfl | rfl, rfl⟩ u <;> simp [hu, eq_comm]

/-- The plain bytes, when there is a further token. -/
theorem filter_concat_eq_iff {b' : OpcodeBytes} :
    (ts ++ [t]).filter Token.isOpcodeByte = b'.tokens ↔
      ∃ b : OpcodeBytes, ts.filter Token.isOpcodeByte = b.tokens ∧ Continues t b b' := by
  have hsame (h : t.isOpcodeByte = false) :
      (ts ++ [t]).filter Token.isOpcodeByte = b'.tokens ↔
        ∃ b : OpcodeBytes, ts.filter Token.isOpcodeByte = b.tokens ∧ b = b' := by
    simp [h]
  have hlast (h : t.isOpcodeByte = true) :
      (ts ++ [t]).filter Token.isOpcodeByte = ts.filter Token.isOpcodeByte ++ [t] := by
    simp [h]
  have htwo {l : List Token} {a b : Token} : l ++ [t] = [a, b] ↔ l = [a] ∧ t = b := by
    constructor
    · intro h
      have happend : l ++ [t] = [a] ++ [b] := h
      obtain ⟨hl, ht⟩ := List.append_inj' happend rfl
      exact ⟨hl, List.singleton_inj.mp ht⟩
    · rintro ⟨rfl, rfl⟩
      rfl
  cases t with
  | escape =>
    rw [hlast rfl]
    cases b' <;> simp [Continues, OpcodeBytes.tokens, List.append_eq_singleton_iff, htwo]
  | opcode p =>
    rw [hlast rfl]
    cases b' <;> simp [Continues, OpcodeBytes.tokens, List.append_eq_singleton_iff, htwo]
  | extra b => exact hsame rfl
  | opSize p => exact hsame rfl
  | rep r => exact hsame rfl
  | reg r => exact hsame rfl
  | mode m => exact hsame rfl
  | memory => exact hsame rfl
  | rm r => exact hsame rfl

end fields

theorem map_setField_eq_ok_iff {α : Type} {word : List Char} {field : Option α} {v : α}
    {g : Option α → Draft} {d : Draft} :
    (setField word field v).map g = .ok d ↔ field = none ∧ g (some v) = d := by
  cases field <;> simp [setField, Except.map]

theorem map_setPrefix_eq_ok_iff {α : Type} [DecidableEq α] {word : List Char} {field : Option α}
    {v : α} {g : Option α → Draft} {d : Draft} :
    (setPrefix word field v).map g = .ok d ↔
      (field = none ∨ field = some v) ∧ g (some v) = d := by
  cases field with
  | none => simp [setPrefix, Except.map]
  | some earlier =>
    by_cases h : earlier = v <;> simp [setPrefix, Except.map, h]

/-- A token can be added to a draft, which gives another one: it does to each field what it says of
the field. -/
theorem add_eq_ok_iff {d₀ d : Draft} {word : List Char} {t : Token} :
    d₀.add word t = .ok d ↔ Continues t d₀.bytes d.bytes ∧ Once t.extra? d₀.extra d.extra ∧
      Again t.opSize? d₀.opSize d.opSize ∧ Again t.rep? d₀.rep d.rep ∧ Once t.reg? d₀.reg d.reg ∧
      Once t.mode? d₀.mode d.mode ∧ Once t.rm? d₀.rm d.rm := by
  obtain ⟨bytes, extra, opSize, rep, reg, mode, rm⟩ := d
  cases t <;> simp only [add, Continues, Once, Again, Token.extra?, Token.opSize?, Token.rep?,
    Token.reg?, Token.mode?, Token.rm?, map_setField_eq_ok_iff, map_setPrefix_eq_ok_iff, mk.injEq]
  case escape => cases d₀.bytes <;> simp
  case opcode p => cases d₀.bytes <;> simp
  case extra b => cases d₀.extra <;> simp
  all_goals tauto

/-- **Adding a token** to a draft that records others gives the draft that records all of them. -/
theorem records_concat_iff {d : Draft} {ts : List Token} {t : Token} (word : List Char) :
    d.Records (ts ++ [t]) ↔ ∃ d₀ : Draft, d₀.Records ts ∧ d₀.add word t = .ok d := by
  simp only [records_iff, filter_concat_eq_iff, filterMap_concat_eq_iff, mem_filterMap_concat_iff,
    add_eq_ok_iff]
  constructor
  · rintro ⟨⟨bytes, h1, s1⟩, ⟨extra, h2, s2⟩, ⟨opSize, h3, s3⟩, ⟨rep, h4, s4⟩, ⟨reg, h5, s5⟩,
      ⟨mode, h6, s6⟩, ⟨rm, h7, s7⟩⟩
    exact ⟨⟨bytes, extra, opSize, rep, reg, mode, rm⟩, ⟨h1, h2, h3, h4, h5, h6, h7⟩,
      s1, s2, s3, s4, s5, s6, s7⟩
  · rintro ⟨d₀, ⟨h1, h2, h3, h4, h5, h6, h7⟩, s1, s2, s3, s4, s5, s6, s7⟩
    exact ⟨⟨_, h1, s1⟩, ⟨_, h2, s2⟩, ⟨_, h3, s3⟩, ⟨_, h4, s4⟩, ⟨_, h5, s5⟩, ⟨_, h6, s6⟩,
      ⟨_, h7, s7⟩⟩

/-! ## Runs -/

theorem addWord_eq_ok_iff {d₀ d : Draft} {word : List Char} :
    d₀.addWord word = .ok d ↔ ∃ t, Token.Spelled word t ∧ d₀.add word t = .ok d := by
  rw [addWord]
  constructor
  · intro h
    split at h
    · next t ht => exact ⟨t, Token.read_eq_ok_iff.mp ht, h⟩
    · cases h
  · rintro ⟨t, ht, hadd⟩
    rw [Token.read_eq_ok_iff.mpr ht]
    exact hadd

theorem foldlM_addWord_append (ws more : List (List Char)) (d₀ : Draft) :
    (ws ++ more).foldlM addWord d₀ =
      match ws.foldlM addWord d₀ with
      | .ok d => more.foldlM addWord d
      | .error e => .error e := by
  rw [List.foldlM_append]
  cases ws.foldlM addWord d₀ <;> rfl

theorem exists_of_forall₂_concat {α β : Type} {R : α → β → Prop} {as : List α} {a : α}
    {bs : List β} (h : List.Forall₂ R (as ++ [a]) bs) :
    ∃ bs' b, bs = bs' ++ [b] ∧ List.Forall₂ R as bs' ∧ R a b := by
  induction as generalizing bs with
  | nil =>
    obtain ⟨b, bs', hb, hnil, rfl⟩ := List.forall₂_cons_left_iff.mp h
    exact ⟨[], b, by rw [List.forall₂_nil_left_iff.mp hnil, List.nil_append], .nil, hb⟩
  | cons a' as ih =>
    obtain ⟨b', bs', hb', hrest, rfl⟩ := List.forall₂_cons_left_iff.mp h
    obtain ⟨bs, b, rfl, hbs, hb⟩ := ih hrest
    exact ⟨b' :: bs, b, rfl, .cons hb' hbs, hb⟩

/-- **A run over words** ends with the draft that records their tokens. -/
theorem foldlM_eq_ok_iff {ws : List (List Char)} {d : Draft} :
    ws.foldlM addWord {} = .ok d ↔ ∃ ts, List.Forall₂ Token.Spelled ws ts ∧ d.Records ts := by
  induction ws using List.reverseRecOn generalizing d with
  | nil =>
    simp only [List.forall₂_nil_left_iff, exists_eq_left, records_nil_iff]
    exact ⟨fun h ↦ (Except.ok.inj h).symm, fun h ↦ h ▸ rfl⟩
  | append_singleton ws w ih =>
    have hstep : (ws ++ [w]).foldlM addWord {} = .ok d ↔
        ∃ d₀, ws.foldlM addWord {} = .ok d₀ ∧ d₀.addWord w = .ok d := by
      rw [foldlM_addWord_append]
      cases ws.foldlM addWord {} with
      | ok d₀ => cases h : d₀.addWord w <;> simp [h, bind, Except.bind, pure, Except.pure]
      | error e => simp
    rw [hstep]
    constructor
    · rintro ⟨d₀, hrun, hadd⟩
      obtain ⟨ts, hts, hrec⟩ := ih.mp hrun
      obtain ⟨t, ht, hadd⟩ := addWord_eq_ok_iff.mp hadd
      exact ⟨ts ++ [t], List.rel_append hts (.cons ht .nil),
        (records_concat_iff w).mpr ⟨d₀, hrec, hadd⟩⟩
    · rintro ⟨ts', hts', hrec⟩
      obtain ⟨ts, t, rfl, hts, ht⟩ := exists_of_forall₂_concat hts'
      obtain ⟨d₀, hrec, hadd⟩ := (records_concat_iff w).mp hrec
      exact ⟨d₀, ih.mpr ⟨ts, hts, hrec⟩, addWord_eq_ok_iff.mpr ⟨t, ht, hadd⟩⟩

end Draft

end DecodeTrie
