/-!
# Prefix states

An instruction is decoded under one of six states of the mandatory prefixes: the operand-size
prefix `66` is there or not, and of the repeat prefixes `f2` and `f3` at most one is in effect. A
state is packed into the slot of a prefix table that it selects, and unpacked from it
(`PrefixState.ofSlot_slot`, `PrefixState.slot_ofSlot`).
-/

namespace DecodeTrie

/-- Which repeat prefix is in effect. -/
inductive RepState
  | none
  | f2
  | f3
deriving DecidableEq, Repr, Inhabited

namespace RepState

/-- The position of a repeat state among the three. -/
def index : RepState → Nat
  | none => 0
  | f2 => 1
  | f3 => 2

/-- The repeat state at a position. -/
def ofIndex : Nat → RepState
  | 0 => none
  | 1 => f2
  | _ => f3

end RepState

/-- The state of both mandatory prefixes. -/
structure PrefixState where
  /-- Whether the operand-size prefix `66` is there. -/
  opSize : Bool := false
  /-- The repeat prefix in effect. -/
  rep : RepState := .none
deriving DecidableEq, Repr, Inhabited

namespace PrefixState

/-- The number of prefix states, and so of slots of a prefix table. -/
def count : Nat := 6

/-- The slot of a prefix table that a state selects. -/
def slot (p : PrefixState) : Nat := p.opSize.toNat + 2 * p.rep.index

theorem slot_lt (p : PrefixState) : p.slot < count := by
  rcases p with ⟨_ | _, _ | _ | _⟩ <;> decide

/-- The state that selects a slot: the low digit of the slot says whether `66` is there, and the
others give the repeat state. -/
def ofSlot (slot : Nat) : PrefixState := ⟨slot &&& 1 == 1, .ofIndex (slot / 2)⟩

@[simp] theorem ofSlot_slot (p : PrefixState) : ofSlot p.slot = p := by
  rcases p with ⟨_ | _, _ | _ | _⟩ <;> rfl

theorem slot_ofSlot : ∀ i < count, (ofSlot i).slot = i := by decide

/-- Different states select different slots. -/
theorem slot_injective {p q : PrefixState} (h : p.slot = q.slot) : p = q := by
  rw [← ofSlot_slot p, h, ofSlot_slot]

end PrefixState

end DecodeTrie
