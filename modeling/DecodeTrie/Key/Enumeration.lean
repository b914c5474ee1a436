import DecodeTrie.Key.Basic
import DecodeTrie.Opcode.Descriptor

/-!
# The keys of an encoding

Every concrete key that an encoding answers to. Prefix states, ModRM bytes and REX.W values that
the encoding leaves open are enumerated in full, so that the list of a prefix-agnostic form with an
open ModRM byte has tens of thousands of keys.

Two tags of an encoding steer its place in the decoder beside its descriptor: its last opcode byte
can be the base of eight consecutive register encodings, and it can answer to one value of REX.W
only. `KeyFlags` holds what the tags say.
-/

namespace DecodeTrie

/-- How the tags of an encoding steer its place in the decoder. -/
structure KeyFlags where
  /-- Whether the last opcode byte is the base of eight register encodings. -/
  regInOpcode : Bool := false
  /-- The only value of REX.W that the encoding answers to. -/
  rexW : Option Bool := none
deriving DecidableEq, Repr

namespace KeyFlags

/-- The number of opcode bytes that the last opcode byte stands for. -/
def replicas (f : KeyFlags) : Nat := if f.regInOpcode then 8 else 1

/-- The admitted values of REX.W. -/
def rexWs (f : KeyFlags) : List Bool :=
  match f.rexW with
  | some w => [w]
  | none => [false, true]

end KeyFlags

namespace OpcodeForm

/-- The dispatched opcode bytes with a register number added to the last one, if it fits. -/
def withRegister (f : OpcodeForm) (r : Nat) : Option (List UInt8) :=
  if f.last.toNat + r < 256 then some (f.leading ++ [UInt8.ofNat (f.last.toNat + r)]) else none

/-- The dispatched opcode bytes for each register number that the flags ask for. -/
def opcodes (f : OpcodeForm) (flags : KeyFlags) : List (List UInt8) :=
  (List.range flags.replicas).filterMap f.withRegister

end OpcodeForm

/-- Whether a register field admits a ModRM byte. -/
def RegField.admits (f : RegField) (b : UInt8) : Bool :=
  match f with
  | any => true
  | only r => ModRM.reg b == r

/-- Whether a mode field admits a ModRM byte. -/
def ModeField.admits (f : ModeField) (b : UInt8) : Bool :=
  match f with
  | any => true
  | only m => ModRM.mode b == m
  | memory => (ModRM.mode b).val != 3

namespace Descriptor

/-- Whether a descriptor admits a ModRM byte. -/
def admitsModRM (d : Descriptor) (b : UInt8) : Bool :=
  d.regForm.all (fun f ↦ f.reg.admits b && f.mode.admits b) && d.rm.all (ModRM.rm b == ·)

/-- The ModRM bytes of the keys: the admitted ones, or none at all when no field is asked for. -/
def modrms (d : Descriptor) : List (Option UInt8) :=
  if d.regForm.isSome || d.rm.isSome then
    (((List.range 256).map UInt8.ofNat).filter d.admitsModRM).map some
  else [none]

/-- Every key that an encoding with the given flags answers to. The prefix states of the keys are
unpacked from the slots that the encoding occupies in a prefix table. -/
def keys (d : Descriptor) (flags : KeyFlags) : List Key :=
  (d.form.opcodes flags).flatMap fun opcode ↦
    d.prefixSlots.flatMap fun slot ↦
      d.modrms.flatMap fun modrm ↦
        flags.rexWs.map fun rexW ↦ ⟨opcode, .ofSlot slot, modrm, rexW, d.form.trailing⟩

/-- The keys go through the admitted prefix states. -/
theorem keys_eq_flatMap_prefixStates (d : Descriptor) (flags : KeyFlags) :
    d.keys flags = (d.form.opcodes flags).flatMap fun opcode ↦
      d.prefixStates.flatMap fun prefixes ↦
        d.modrms.flatMap fun modrm ↦
          flags.rexWs.map fun rexW ↦ ⟨opcode, prefixes, modrm, rexW, d.form.trailing⟩ := by
  rw [keys, ← map_ofSlot_prefixSlots]
  simp only [List.flatMap_map]

end Descriptor

end DecodeTrie
