import DecodeTrie.Proofs.Keys
import DecodeTrie.Proofs.Opcode.Grammar
import Mathlib.Data.Set.Card

/-!
# The listed keys are the admitted ones

An encoding lists the keys that its descriptor and its flags admit, all of them, no others, and each
of them once (`keys_exact`). What is admitted is said part by part, without a word on how the keys
are listed: `AdmitsOpcode`, `AdmitsPrefixes`, `AdmitsModRM` and `AdmitsRexW`. The parts are chosen
independently of each other, so the number of keys is the product of the numbers of choices.
-/

namespace DecodeTrie

/-! ## What is admitted -/

/-- The opcode bytes are those ahead of ModRM, the last one with a register number added to it. The
sum is still a byte. The number is 0, unless the last byte is the base of eight encodings. -/
def OpcodeForm.AdmitsOpcode (f : OpcodeForm) (flags : KeyFlags) (o : List UInt8) : Prop :=
  ∃ ahead base last r, f.dispatch = ahead ++ [base] ∧ o = ahead ++ [last] ∧
    last.toNat = base.toNat + r ∧ r ≤ 7 ∧ (flags.regInOpcode = false → r = 0)

/-- The value of REX.W is the one that the flags ask for, if they ask for one. -/
def KeyFlags.AdmitsRexW (flags : KeyFlags) (w : Bool) : Prop := ∀ v, flags.rexW = some v → w = v

/-- The register field of a ModRM byte is the one that is asked for, and so is the mode field. -/
@[mk_iff]
structure RegForm.AdmitsModRM (f : RegForm) (b : UInt8) : Prop where
  /-- One register. -/
  reg : ∀ r, f.reg = .only r → ModRM.reg b = r
  /-- One mode. -/
  mode : ∀ m, f.mode = .only m → ModRM.mode b = m
  /-- The memory modes. -/
  memory : f.mode = .memory → ModRM.mode b ≠ 3

namespace Descriptor

/-- Both mandatory prefixes are in the state that is asked for. -/
def AdmitsPrefixes (d : Descriptor) (p : PrefixState) : Prop :=
  (∀ present, d.opSize.presence? = some present → p.opSize = present) ∧
    ∀ state, d.rep.state? = some state → p.rep = state

/-- There is no ModRM byte when no field of it is asked for, and otherwise there is one with the
fields that are asked for. -/
def AdmitsModRM (d : Descriptor) : Option UInt8 → Prop
  | none => d.regForm = none ∧ d.rm = none
  | some b => (d.regForm ≠ none ∨ d.rm ≠ none) ∧ (∀ f, d.regForm = some f → f.AdmitsModRM b) ∧
      ∀ r, d.rm = some r → ModRM.rm b = r

/-- **An encoding admits a key**, by its descriptor and its flags. -/
structure Admits (d : Descriptor) (flags : KeyFlags) (k : Key) : Prop where
  /-- The opcode bytes are admitted. -/
  opcode : d.form.AdmitsOpcode flags k.opcode
  /-- The prefixes are admitted. -/
  prefixes : d.AdmitsPrefixes k.prefixes
  /-- The ModRM byte is admitted, or there is none. -/
  modrm : d.AdmitsModRM k.modrm
  /-- The value of REX.W is admitted. -/
  rexW : flags.AdmitsRexW k.rexW
  /-- Only the 3DNow! form has a byte behind ModRM, and that is its own. -/
  suffix : ∀ b, k.suffix = some b ↔ d.form = .threeDNow b

end Descriptor

/-! ## The choices for each part -/

/-- The number of things with a property is the length of a list of them, each listed once. -/
theorem ncard_setOf_of_mem_iff {α : Type} {p : α → Prop} {l : List α} (hl : l.Nodup)
    (h : ∀ a, a ∈ l ↔ p a) : {a | p a}.ncard = l.length := by
  classical
  have hset : {a | p a} = ↑l.toFinset := by
    ext a
    rw [Set.mem_ofPred_eq, ← h, List.coe_toFinset, Set.mem_ofPred_eq]
  rw [hset, Set.ncard_coe_finset, List.toFinset_card_of_nodup hl]

theorem KeyFlags.nodup_rexWs (flags : KeyFlags) : flags.rexWs.Nodup := by
  rw [rexWs]
  split
  · exact List.nodup_singleton _
  · decide

theorem OpcodeForm.mem_opcodes_iff_admitsOpcode {f : OpcodeForm} {flags : KeyFlags}
    {o : List UInt8} : o ∈ f.opcodes flags ↔ f.AdmitsOpcode flags o := by
  have hreplicas (r : Nat) :
      r < flags.replicas ↔ r ≤ 7 ∧ (flags.regInOpcode = false → r = 0) := by
    rw [KeyFlags.replicas]
    cases flags.regInOpcode <;> simp <;> omega
  rw [mem_opcodes_iff]
  constructor
  · rintro ⟨r, hr, hlt, rfl⟩
    exact ⟨f.leading, f.last, _, r, rfl, rfl, UInt8.toNat_ofNat_of_lt' hlt, (hreplicas r).mp hr⟩
  · rintro ⟨ahead, base, last, r, hdispatch, rfl, hlast, hr⟩
    obtain ⟨rfl, hbase⟩ := List.append_inj' hdispatch rfl
    obtain rfl := List.singleton_inj.mp hbase
    refine ⟨r, (hreplicas r).mpr hr, hlast ▸ last.toNat_lt, ?_⟩
    rw [← hlast, UInt8.ofNat_toNat]

theorem RegForm.admitsModRM_iff_admits {f : RegForm} {b : UInt8} :
    f.AdmitsModRM b ↔ f.reg.admits b = true ∧ f.mode.admits b = true := by
  have hmemory : (ModRM.mode b).val ≠ 3 ↔ ModRM.mode b ≠ 3 := (Fin.ext_iff (b := 3)).not.symm
  rw [admitsModRM_iff]
  rcases f with ⟨_ | r, _ | m | _⟩ <;> simp [RegField.admits, ModeField.admits, hmemory]

namespace Descriptor

theorem mem_prefixStates_iff {d : Descriptor} {p : PrefixState} :
    p ∈ d.prefixStates ↔ d.AdmitsPrefixes p := by
  have hstates : p ∈ d.prefixStates ↔ p.opSize ∈ d.opSize.states ∧ p.rep ∈ d.rep.states := by
    simp only [prefixStates, List.mem_flatMap, List.mem_map]
    constructor
    · rintro ⟨o, ho, r, hr, rfl⟩
      exact ⟨ho, hr⟩
    · rintro ⟨ho, hr⟩
      exact ⟨_, ho, _, hr, rfl⟩
  rw [hstates]
  refine and_congr ?_ ?_
  · cases d.opSize <;> cases p.opSize <;> simp [OpSize.states, OpSize.presence?]
  · cases d.rep <;> cases p.rep <;> simp [Repeat.states, Repeat.state?]

theorem mem_modrms_iff {d : Descriptor} {modrm : Option UInt8} :
    modrm ∈ d.modrms ↔ d.AdmitsModRM modrm := by
  cases modrm with
  | none =>
    rw [none_mem_modrms_iff, AdmitsModRM]
    cases d.regForm <;> cases d.rm <;> simp
  | some b =>
    rw [some_mem_modrms_iff, AdmitsModRM, admitsModRM]
    cases d.regForm <;> cases d.rm <;> simp [RegForm.admitsModRM_iff_admits]

theorem nodup_modrms (d : Descriptor) : d.modrms.Nodup := by
  have hbytes : ((List.range 256).map UInt8.ofNat).Nodup := by
    refine List.nodup_range.map_on fun n hn m hm heq ↦ ?_
    rw [← UInt8.toNat_ofNat_of_lt' (List.mem_range.mp hn), heq,
      UInt8.toNat_ofNat_of_lt' (List.mem_range.mp hm)]
  rw [modrms]
  split
  · exact (hbytes.filter _).map (Option.some_injective _)
  · exact List.nodup_singleton none

theorem trailing_eq_some_iff {f : OpcodeForm} {b : UInt8} :
    f.trailing = some b ↔ f = .threeDNow b := by
  cases f <;> simp [OpcodeForm.trailing]

/-! ## The keys -/

theorem mem_keys_iff_admits {d : Descriptor} {flags : KeyFlags} {k : Key} :
    k ∈ d.keys flags ↔ d.Admits flags k := by
  have hsuffix : k.suffix = d.form.trailing ↔ ∀ b, k.suffix = some b ↔ d.form = .threeDNow b := by
    simp only [← trailing_eq_some_iff]
    exact Option.ext_iff
  rw [mem_keys_iff, OpcodeForm.mem_opcodes_iff_admitsOpcode, mem_prefixStates_iff, mem_modrms_iff,
    mem_rexWs_iff, hsuffix]
  exact ⟨fun ⟨ho, hp, hm, hw, hs⟩ ↦ ⟨ho, hp, hm, hw, hs⟩,
    fun ⟨ho, hp, hm, hw, hs⟩ ↦ ⟨ho, hp, hm, hw, hs⟩⟩

theorem nodup_keys (d : Descriptor) (flags : KeyFlags) : (d.keys flags).Nodup := by
  rw [keys_eq_flatMap_prefixStates]
  refine nodup_flatMap_of_part Key.opcode (d.form.nodup_opcodes flags) (fun o _ ↦ ?_) ?_
  · refine nodup_flatMap_of_part Key.prefixes d.nodup_prefixStates (fun p _ ↦ ?_) ?_
    · refine nodup_flatMap_of_part Key.modrm d.nodup_modrms (fun m _ ↦ ?_) ?_
      · exact flags.nodup_rexWs.map fun w w' hw ↦ congrArg Key.rexW hw
      · intro m _ k hk
        obtain ⟨_, -, rfl⟩ := List.mem_map.mp hk
        rfl
    · intro p _ k hk
      obtain ⟨_, -, hk⟩ := List.mem_flatMap.mp hk
      obtain ⟨_, -, rfl⟩ := List.mem_map.mp hk
      rfl
  · intro o _ k hk
    obtain ⟨_, -, hk⟩ := List.mem_flatMap.mp hk
    obtain ⟨_, -, hk⟩ := List.mem_flatMap.mp hk
    obtain ⟨_, -, rfl⟩ := List.mem_map.mp hk
    rfl

theorem length_keys (d : Descriptor) (flags : KeyFlags) :
    (d.keys flags).length = (d.form.opcodes flags).length * d.prefixStates.length *
      d.modrms.length * flags.rexWs.length := by
  simp [keys_eq_flatMap_prefixStates, List.length_flatMap, Nat.mul_assoc]

/-- **The listed keys are the admitted ones**, each listed once. Their number is the product of the
numbers of admitted opcode bytes, prefix states, ModRM bytes and values of REX.W. -/
theorem keys_exact (d : Descriptor) (flags : KeyFlags) :
    (∀ k, k ∈ d.keys flags ↔ d.Admits flags k) ∧ (d.keys flags).Nodup ∧
      (d.keys flags).length = {o | d.form.AdmitsOpcode flags o}.ncard *
        {p | d.AdmitsPrefixes p}.ncard * {m | d.AdmitsModRM m}.ncard *
          {w | flags.AdmitsRexW w}.ncard := by
  refine ⟨fun k ↦ mem_keys_iff_admits, d.nodup_keys flags, ?_⟩
  rw [length_keys, ncard_setOf_of_mem_iff (d.form.nodup_opcodes flags) fun o ↦
      OpcodeForm.mem_opcodes_iff_admitsOpcode,
    ncard_setOf_of_mem_iff d.nodup_prefixStates fun p ↦ mem_prefixStates_iff,
    ncard_setOf_of_mem_iff d.nodup_modrms fun m ↦ mem_modrms_iff,
    ncard_setOf_of_mem_iff (p := flags.AdmitsRexW) flags.nodup_rexWs fun w ↦ mem_rexWs_iff]

/-- Two of the eight registers fit behind `fe`: each has six prefix states and two values of
REX.W. -/
example : (keys ⟨.optional, .optional, .oneByte 0xfe none, none, none⟩
    { regInOpcode := true }).length = 2 * 6 * 1 * 2 := by
  decide

end Descriptor

end DecodeTrie
