import DecodeTrie.Key.Prefixes

/-!
# Opcode descriptors

What one encoding asks of the bytes it decodes: the state of the mandatory prefixes, the opcode
bytes, and the fields of the ModRM byte. The shapes that make no sense are not representable: only
the 3DNow! form has an opcode byte after ModRM (and always has it), and the mode field is
constrained only together with the register field.
-/

namespace DecodeTrie

/-- What an encoding asks of the operand-size prefix `66`. -/
inductive OpSize
  /-- It may be there or not. -/
  | optional
  /-- It must not be there. -/
  | forbidden
  /-- It must be there. -/
  | required
deriving DecidableEq, Repr

namespace OpSize

/-- The admitted presences of the prefix, absence first. -/
def states : OpSize → List Bool
  | optional => [false, true]
  | forbidden => [false]
  | required => [true]

end OpSize

/-- What an encoding asks of the repeat prefixes `f2` and `f3`. -/
inductive Repeat
  /-- Neither may be in effect. -/
  | forbidden
  /-- Either may be in effect, or none. -/
  | optional
  /-- The prefix `f2` must be in effect. -/
  | f2
  /-- The prefix `f3` must be in effect. -/
  | f3
deriving DecidableEq, Repr

namespace Repeat

/-- The admitted repeat states. -/
def states : Repeat → List RepState
  | forbidden => [.none]
  | optional => [.none, .f2, .f3]
  | f2 => [.f2]
  | f3 => [.f3]

end Repeat

/-- The opcode bytes of an encoding, by opcode map. -/
inductive OpcodeForm
  /-- The one-byte map: the opcode, and perhaps an extra byte right after it. -/
  | oneByte (primary : UInt8) (extra : Option UInt8)
  /-- The `0f` map: the opcode after the escape, and perhaps an extra byte right after it. -/
  | twoByte (primary : UInt8) (extra : Option UInt8)
  /-- The `0f 0f` map: the distinguishing byte follows ModRM. -/
  | threeDNow (trailing : UInt8)
deriving DecidableEq, Repr

namespace OpcodeForm

/-- The opcode bytes before the last one that is dispatched ahead of ModRM. -/
def leading : OpcodeForm → List UInt8
  | oneByte _ none => []
  | oneByte p (some _) => [p]
  | twoByte _ none => [0x0f]
  | twoByte p (some _) => [0x0f, p]
  | threeDNow _ => [0x0f]

/-- The last opcode byte that is dispatched ahead of ModRM. -/
def last : OpcodeForm → UInt8
  | oneByte p x => x.getD p
  | twoByte p x => x.getD p
  | threeDNow _ => 0x0f

/-- The opcode bytes that are dispatched ahead of ModRM. -/
def dispatch (f : OpcodeForm) : List UInt8 := f.leading ++ [f.last]

/-- The opcode byte that follows ModRM. -/
def trailing : OpcodeForm → Option UInt8
  | threeDNow b => some b
  | _ => none

end OpcodeForm

/-- What an encoding asks of ModRM.reg. -/
inductive RegField
  /-- Any register: the field belongs to an operand. -/
  | any
  /-- One value: the field extends the opcode. -/
  | only (reg : Fin 8)
deriving DecidableEq, Repr

namespace RegField

/-- The admitted registers, ascending. -/
def values : RegField → List (Fin 8)
  | any => [0, 1, 2, 3, 4, 5, 6, 7]
  | only r => [r]

end RegField

/-- What an encoding asks of ModRM.mod. -/
inductive ModeField
  /-- Any mode. -/
  | any
  /-- One mode. -/
  | only (mode : Fin 4)
  /-- The memory modes 0, 1 and 2. -/
  | memory
deriving DecidableEq, Repr

namespace ModeField

/-- The admitted modes, ascending, with `none` for all at once. -/
def places : ModeField → List (Option (Fin 4))
  | any => [none]
  | only m => [some m]
  | memory => [some 0, some 1, some 2]

end ModeField

/-- What an encoding asks of the upper five bits of ModRM. -/
structure RegForm where
  /-- The register field. -/
  reg : RegField
  /-- The mode field. -/
  mode : ModeField
deriving DecidableEq, Repr

/-- What an encoding asks of the bytes it decodes. -/
structure Descriptor where
  /-- The operand-size prefix. -/
  opSize : OpSize
  /-- The repeat prefixes. -/
  rep : Repeat
  /-- The opcode bytes. -/
  form : OpcodeForm
  /-- The register and mode fields of ModRM. -/
  regForm : Option RegForm
  /-- The r/m field of ModRM. -/
  rm : Option (Fin 8)
deriving DecidableEq, Repr

namespace Descriptor

/-- Whether some prefix state is excluded, so that a prefix table is needed. -/
def splitsOnPrefix (d : Descriptor) : Bool :=
  d.opSize != .optional || d.rep != .optional

/-- The admitted prefix states: for each presence of `66`, each repeat state. -/
def prefixStates (d : Descriptor) : List PrefixState :=
  d.opSize.states.flatMap fun o ↦ d.rep.states.map fun r ↦ ⟨o, r⟩

/-- The slots of a prefix table that an encoding occupies, in the same order. -/
def prefixSlots (d : Descriptor) : List Nat :=
  d.opSize.states.flatMap fun o ↦ d.rep.states.map fun r ↦ PrefixState.slot ⟨o, r⟩

/-- **The slots stand for the admitted states**: packing the states gives the slots. -/
theorem map_slot_prefixStates (d : Descriptor) :
    d.prefixStates.map PrefixState.slot = d.prefixSlots := by
  simp only [prefixStates, prefixSlots, List.map_flatMap, List.map_map]
  rfl

/-- Unpacking the slots gives the states back. -/
theorem map_ofSlot_prefixSlots (d : Descriptor) :
    d.prefixSlots.map PrefixState.ofSlot = d.prefixStates := by
  rw [← map_slot_prefixStates, List.map_map]
  exact List.map_id'' PrefixState.ofSlot_slot d.prefixStates

/-- Without a prefix split every state is admitted. -/
theorem mem_prefixStates_of_not_splits {d : Descriptor} (h : d.splitsOnPrefix = false)
    (p : PrefixState) : p ∈ d.prefixStates := by
  rcases d with ⟨o, r, _, _, _⟩
  obtain ⟨rfl, rfl⟩ : o = .optional ∧ r = .optional := by simpa [splitsOnPrefix] using h
  rcases p with ⟨_ | _, _ | _ | _⟩ <;> simp [prefixStates, OpSize.states, Repeat.states]

end Descriptor

end DecodeTrie
