/-!
# Node kinds

Each table of the decoder dispatches on one part of an instruction: an opcode byte, the prefix
state, fields of ModRM, REX.W, or the opcode byte that follows ModRM. The kind fixes the number of
slots, and its code marks references to such a table among the words of the flat form.

| code | dispatch                            | slots |
|------|-------------------------------------|-------|
| 1    | opcode byte                         | 256   |
| 2    | mandatory prefixes                  | 6     |
| 3    | ModRM.reg + 8 · ModRM.mod           | 32    |
| 4    | ModRM.reg alone                     | 8     |
| 5    | ModRM.rm                            | 8     |
| 6    | REX.W                               | 2     |
| 7    | opcode byte after ModRM             | 256   |
-/

namespace DecodeTrie

/-- What a table dispatches on. -/
inductive NodeKind
  /-- The next opcode byte. -/
  | opcode
  /-- The state of the mandatory prefixes. -/
  | prefixes
  /-- The register and mode fields of ModRM. -/
  | modrm
  /-- The register field of ModRM. -/
  | regOnly
  /-- The r/m field of ModRM. -/
  | rm
  /-- The presence of REX.W. -/
  | rexW
  /-- The opcode byte after ModRM. -/
  | suffix
deriving DecidableEq, Repr, Inhabited

namespace NodeKind

/-- Every kind, by ascending code. -/
def all : List NodeKind := [opcode, prefixes, modrm, regOnly, rm, rexW, suffix]

/-- The number of slots of a table. -/
def slotCount : NodeKind → Nat
  | opcode => 256
  | prefixes => 6
  | modrm => 32
  | regOnly => 8
  | rm => 8
  | rexW => 2
  | suffix => 256

theorem slotCount_pos (k : NodeKind) : 0 < k.slotCount := by cases k <;> decide

/-- The code of a kind in table references. -/
def code : NodeKind → Nat
  | opcode => 1
  | prefixes => 2
  | modrm => 3
  | regOnly => 4
  | rm => 5
  | rexW => 6
  | suffix => 7

/-- The kind with a given code. -/
def ofCode? (c : Nat) : Option NodeKind := all.find? fun k ↦ k.code == c

@[simp] theorem ofCode?_code (k : NodeKind) : ofCode? k.code = some k := by cases k <;> rfl

theorem code_of_ofCode? {c : Nat} {k : NodeKind} (h : ofCode? c = some k) : k.code = c := by
  simpa using List.find?_some h

/-- The codes in use are 1 to 7. -/
theorem one_le_code (k : NodeKind) : 1 ≤ k.code := by cases k <;> decide

theorem code_lt (k : NodeKind) : k.code < 8 := by cases k <;> decide

theorem ofCode?_eq_none_iff {c : Nat} : ofCode? c = none ↔ c = 0 ∨ 8 ≤ c := by
  match c with
  | 0 | 1 | 2 | 3 | 4 | 5 | 6 | 7 => decide
  | c + 8 =>
    refine iff_of_true (Option.eq_none_iff_forall_ne_some.mpr fun k hk ↦ ?_) (.inr (by omega))
    have hlt := k.code_lt
    rw [code_of_ofCode? hk] at hlt
    omega

/-- The name of a kind in messages. -/
def describe : NodeKind → String
  | opcode => "opcode table"
  | prefixes => "prefix table"
  | modrm => "ModRM table"
  | regOnly => "ModRM.reg table"
  | rm => "ModRM.rm table"
  | rexW => "REX.W table"
  | suffix => "trailing opcode table"

end NodeKind

end DecodeTrie
