import DecodeTrie.Error

/-!
# Tag registries

A registry hands out the bits of one class, in the order in which names first appear, and never
renumbers. It has two stores: the list of its names, in which the position of a name is its bit, and
a map from names to bits, by which names are found. Registering a new name writes both. A set of
tags is a number with the bits of its members, so that sets survive later growth of the registry.

Registering is a step that can fail on a full registry and that may have grown the registry before
failing; the names registered before the failure stay.
-/

namespace DecodeTrie

/-! ## Sets -/

/-- The number in which one binary digit is set. -/
def bitMask (bit : Nat) : Nat := 1 <<< bit

@[simp] theorem testBit_bitMask (bit b : Nat) : (bitMask bit).testBit b = decide (bit = b) := by
  rw [bitMask, Nat.one_shiftLeft, Nat.testBit_two_pow]

/-- A set of tags of one class. -/
structure TagSet where
  /-- The number whose binary digits are the members. -/
  bits : Nat
deriving DecidableEq, Repr, Inhabited

namespace TagSet

/-- The set without members. -/
def empty : TagSet := ⟨0⟩

/-- Adds the tag with the given bit. -/
def insert (s : TagSet) (bit : Nat) : TagSet := ⟨s.bits ||| bitMask bit⟩

/-- Whether the tag with the given bit is a member. -/
def contains (s : TagSet) (bit : Nat) : Bool := s.bits.testBit bit

/-- Whether a tag that may be unregistered is a member; an unregistered one never is. -/
def containsOpt (s : TagSet) (bit : Option Nat) : Bool := bit.any s.contains

/-- Whether there are no members. -/
def isEmpty (s : TagSet) : Bool := s.bits == 0

@[simp] theorem contains_empty (bit : Nat) : empty.contains bit = false := by
  simp [contains, empty]

@[simp] theorem contains_insert (s : TagSet) (bit b : Nat) :
    (s.insert bit).contains b = (s.contains b || decide (bit = b)) := by
  simp [contains, insert]

end TagSet

/-! ## Registries -/

/-- Of the entries under one key, the latest one counts. -/
theorem lookup_cons_eq_ite {α β : Type} [DecidableEq α] (entries : List (α × β)) (key other : α)
    (value : β) :
    List.lookup other ((key, value) :: entries) =
      if other = key then some value else entries.lookup other := by
  by_cases h : other = key
  · rw [List.lookup_cons, if_pos h, beq_iff_eq.mpr h]
  · rw [List.lookup_cons, if_neg h, beq_false_of_ne h]

/-- The names of one tag class. -/
structure TagRegistry where
  /-- What the tags are attached to. -/
  cls : TagClass
  /-- The names, each at the position of its bit. -/
  names : List String := []
  /-- The bit of each name, the latest first. -/
  bits : List (String × Nat) := []
deriving DecidableEq, Repr

namespace TagRegistry

/-- The bit of a name. -/
def get? (r : TagRegistry) (name : String) : Option Nat := r.bits.lookup name

/-- The number of names. -/
def size (r : TagRegistry) : Nat := r.names.length

/-- The registry with a name more, which has the next bit. -/
def push (r : TagRegistry) (name : String) : TagRegistry :=
  { r with names := r.names ++ [name], bits := (name, r.size) :: r.bits }

section push

variable (r : TagRegistry) (name other : String)

@[simp] theorem names_push : (r.push name).names = r.names ++ [name] := rfl

@[simp] theorem size_push : (r.push name).size = r.size + 1 := List.length_append

theorem get?_push :
    (r.push name).get? other = if other = name then some r.size else r.get? other :=
  lookup_cons_eq_ite r.bits name other r.size

end push

/-- The bit of a name, which is registered if it is new. -/
def register (name : String) : EStateM CompileError TagRegistry Nat := fun r ↦
  match r.get? name with
  | some bit => .ok bit r
  | none =>
    if r.size < TagClass.limit then .ok r.size (r.push name)
    else .error (.tagOverflow r.cls name) r

section register

variable {r : TagRegistry} {name : String}

theorem register_of_get? {bit : Nat} (h : r.get? name = some bit) :
    register name r = .ok bit r := by
  rw [register, h]

theorem register_of_lt (h : r.get? name = none) (hsize : r.size < TagClass.limit) :
    register name r = .ok r.size (r.push name) := by
  rw [register, h]
  exact if_pos hsize

theorem register_of_le (h : r.get? name = none) (hsize : TagClass.limit ≤ r.size) :
    register name r = .error (.tagOverflow r.cls name) r := by
  rw [register, h]
  exact if_neg (Nat.not_lt.mpr hsize)

end register

/-- Adds the bits of names, which are registered where they are new, to a set. -/
def registerInto (set : TagSet) : List String → EStateM CompileError TagRegistry TagSet
  | [] => pure set
  | name :: names => do
    let bit ← register name
    registerInto (set.insert bit) names

/-- The set of names, which are registered where they are new. -/
def registerAll (names : List String) : EStateM CompileError TagRegistry TagSet :=
  registerInto .empty names

/-- The names with their bits, in order. -/
def entries (r : TagRegistry) : List (String × Nat) := r.names.zipIdx

/-- The names of the members of a set, in the order of their bits. -/
def namesIn (r : TagRegistry) (set : TagSet) : List String :=
  (r.entries.filter fun e ↦ set.contains e.2).map Prod.fst

end TagRegistry

end DecodeTrie
