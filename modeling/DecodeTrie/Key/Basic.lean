import DecodeTrie.Key.Prefixes
import DecodeTrie.Node.Kind

/-!
# Decode keys

A key is an instruction that has been split already: the state of the prefixes, the opcode bytes,
and the bytes that may follow them. Walking a decoder means asking the key, at each table, for the
slot to take; `Key.choose` answers by the kind of the table, and takes the byte it used off the
opcode. It is the one definition of that choice, for the trie and for the flat table alike.
-/

namespace DecodeTrie

/-! ## The ModRM byte -/

namespace ModRM

/-- The mode field, the upper two bits. -/
def mode (b : UInt8) : Fin 4 := ⟨b.toNat / 64, by have := b.toNat_lt; omega⟩

/-- The register field, the middle three bits. -/
def reg (b : UInt8) : Fin 8 := ⟨b.toNat / 8 % 8, by omega⟩

/-- The r/m field, the lower three bits. -/
def rm (b : UInt8) : Fin 8 := ⟨b.toNat % 8, by omega⟩

/-- The slot of a ModRM table for a register and a mode. -/
def slot (reg mode : Nat) : Nat := reg + 8 * mode

end ModRM

/-! ## Keys -/

/-- An instruction as it is presented for decoding. -/
structure Key where
  /-- The opcode bytes, escapes included. -/
  opcode : List UInt8 := []
  /-- The state of the mandatory prefixes. -/
  prefixes : PrefixState := {}
  /-- The ModRM byte. -/
  modrm : Option UInt8 := none
  /-- Whether REX.W is set. -/
  rexW : Bool := false
  /-- The opcode byte after ModRM. -/
  suffix : Option UInt8 := none
deriving DecidableEq, Repr, Inhabited

namespace Key

/-- The slot that a key takes in a table, and the key that goes on from there. Nothing, if the key
lacks the byte that the table asks for. -/
def choose (k : Key) : NodeKind → Option (Nat × Key)
  | .opcode =>
    match k.opcode with
    | [] => none
    | b :: rest => some (b.toNat, { k with opcode := rest })
  | .prefixes => some (k.prefixes.slot, k)
  | .modrm => k.modrm.map fun b ↦ (ModRM.slot (ModRM.reg b) (ModRM.mode b), k)
  | .regOnly => k.modrm.map fun b ↦ ((ModRM.reg b).val, k)
  | .rm => k.modrm.map fun b ↦ ((ModRM.rm b).val, k)
  | .rexW => some (k.rexW.toNat, k)
  | .suffix => k.suffix.map fun b ↦ (b.toNat, k)

/-- A chosen slot is one of the slots of the table. -/
theorem lt_slotCount_of_choose {k k' : Key} {kind : NodeKind} {i : Nat}
    (h : k.choose kind = some (i, k')) : i < kind.slotCount := by
  cases kind with
  | opcode =>
    simp only [choose] at h
    split at h
    · cases h
    · next b _ _ => cases h; exact b.toNat_lt
  | prefixes =>
    cases h
    exact k.prefixes.slot_lt
  | modrm =>
    obtain ⟨b, _, hb⟩ := Option.map_eq_some_iff.mp h
    cases hb
    have := (ModRM.reg b).isLt
    have := (ModRM.mode b).isLt
    simp only [ModRM.slot, NodeKind.slotCount]
    omega
  | regOnly =>
    obtain ⟨b, _, hb⟩ := Option.map_eq_some_iff.mp h
    cases hb
    exact (ModRM.reg b).isLt
  | rm =>
    obtain ⟨b, _, hb⟩ := Option.map_eq_some_iff.mp h
    cases hb
    exact (ModRM.rm b).isLt
  | rexW =>
    cases h
    cases k.rexW <;> decide
  | suffix =>
    obtain ⟨b, _, hb⟩ := Option.map_eq_some_iff.mp h
    cases hb
    exact b.toNat_lt

/-- Outside opcode tables a choice leaves the key as it is. -/
theorem eq_of_choose {k k' : Key} {kind : NodeKind} {i : Nat} (hkind : kind ≠ .opcode)
    (h : k.choose kind = some (i, k')) : k' = k := by
  cases kind with
  | opcode => exact absurd rfl hkind
  | prefixes => cases h; rfl
  | rexW => cases h; rfl
  | modrm => obtain ⟨_, -, hb⟩ := Option.map_eq_some_iff.mp h; cases hb; rfl
  | regOnly => obtain ⟨_, -, hb⟩ := Option.map_eq_some_iff.mp h; cases hb; rfl
  | rm => obtain ⟨_, -, hb⟩ := Option.map_eq_some_iff.mp h; cases hb; rfl
  | suffix => obtain ⟨_, -, hb⟩ := Option.map_eq_some_iff.mp h; cases hb; rfl

/-- Whether one optional byte is absent or the same as in another key. -/
def Agrees (b b' : Option UInt8) : Prop := b = none ∨ b = b'

instance (b b' : Option UInt8) : Decidable (Agrees b b') := by unfold Agrees; infer_instance

theorem agrees_iff {b b' : Option UInt8} : Agrees b b' ↔ ∀ x, b = some x → b' = some x := by
  rw [Agrees]
  cases b with
  | none => simp
  | some x => simp [eq_comm]

/-- A key covers another one that it extends: the opcode may go on, and bytes may be present that
the other leaves open. -/
structure Covers (k l : Key) : Prop where
  /-- The opcode of `k` starts with that of `l`. -/
  opcode : l.opcode <+: k.opcode
  /-- The prefixes are the same. -/
  prefixes : l.prefixes = k.prefixes
  /-- The ModRM byte is left open by `l`, or the same. -/
  modrm : Agrees l.modrm k.modrm
  /-- REX.W is the same. -/
  rexW : l.rexW = k.rexW
  /-- The opcode byte after ModRM is left open by `l`, or the same. -/
  suffix : Agrees l.suffix k.suffix

theorem Covers.refl (k : Key) : k.Covers k :=
  ⟨List.prefix_rfl, rfl, .inr rfl, rfl, .inr rfl⟩

end Key

end DecodeTrie
