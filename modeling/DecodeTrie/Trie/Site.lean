import DecodeTrie.Key.Enumeration

/-!
# Sites

The leaves of an encoding stand at its sites. A site is a path of tables from the root, each with
the slot taken in it: the opcode bytes, the prefix state if the encoding excludes some, a register
column of a ModRM table if it asks for the register, and then r/m, REX.W and the opcode byte after
ModRM as far as it asks for them. An encoding that admits several opcode bytes, prefix states,
registers or modes has a site for each combination; one that admits every mode takes all four modes
of a register column at one site.

`Descriptor.sites` lists them in the order in which they are filled.
-/

namespace DecodeTrie

/-- A table on a path, and the slot taken in it. -/
structure Step where
  /-- What the table dispatches on. -/
  kind : NodeKind
  /-- The slot taken. -/
  slot : Nat
deriving DecidableEq, Repr

/-- A register column of a ModRM table. -/
structure Column where
  /-- The register. -/
  reg : Fin 8
  /-- The mode, or all four. -/
  mode : Option (Fin 4)
deriving DecidableEq, Repr

/-- A place for a leaf of an encoding. -/
structure Site where
  /-- The opcode bytes. -/
  opcode : List UInt8
  /-- The prefix state, where prefixes matter. -/
  prefixes : Option PrefixState
  /-- The register column, where ModRM is asked for. -/
  column : Option Column
  /-- The r/m field. -/
  rm : Option (Fin 8)
  /-- The value of REX.W. -/
  rexW : Option Bool
  /-- The opcode byte after ModRM. -/
  suffix : Option UInt8
deriving DecidableEq, Repr

namespace Site

/-- The tables ahead of ModRM. -/
def stem (s : Site) : List Step :=
  s.opcode.map (fun b ↦ ⟨.opcode, b.toNat⟩) ++ (s.prefixes.map fun p ↦ ⟨.prefixes, p.slot⟩).toList

/-- The tables behind ModRM. -/
def tail (s : Site) : List Step :=
  (s.rm.map fun r ↦ ⟨.rm, r.val⟩).toList ++ (s.rexW.map fun w ↦ ⟨.rexW, w.toNat⟩).toList ++
    (s.suffix.map fun b ↦ ⟨.suffix, b.toNat⟩).toList

/-- The kinds of the tables on the whole path. -/
def stages (s : Site) : List NodeKind :=
  s.stem.map Step.kind ++ (s.column.map fun _ ↦ NodeKind.modrm).toList ++ s.tail.map Step.kind

end Site

namespace Descriptor

/-- The prefix states that get a site of their own. -/
def prefixPlaces (d : Descriptor) : List (Option PrefixState) :=
  if d.splitsOnPrefix then d.prefixStates.map some else [none]

/-- The register columns that get a site of their own. -/
def columns (d : Descriptor) : List (Option Column) :=
  match d.regForm with
  | none => [none]
  | some f => f.reg.values.flatMap fun r ↦ f.mode.places.map fun m ↦ some ⟨r, m⟩

/-- The sites of an encoding with the given flags, in the order in which they are filled. -/
def sites (d : Descriptor) (flags : KeyFlags) : List Site :=
  (d.form.opcodes flags).flatMap fun opcode ↦
    d.prefixPlaces.flatMap fun prefixes ↦
      d.columns.map fun column ↦ ⟨opcode, prefixes, column, d.rm, flags.rexW, d.form.trailing⟩

end Descriptor

end DecodeTrie
