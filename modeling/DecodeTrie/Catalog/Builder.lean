import DecodeTrie.Catalog.Basic
import DecodeTrie.Table.Entry

/-!
# Building catalogs

The steps by which a catalog grows. `add` checks a declared instruction and appends it with its
encodings; the order of its checks is part of what it means, because the first failing one is the
error: the name, the number of arguments, the number of encodings, the sizes, the modes, the
instruction tags, and then for each encoding its arguments and its tags.

The instruction and its encodings are appended only when every check has passed. Tags are
registered on the way and stay, whatever comes after.
-/

namespace DecodeTrie

/-- A step that grows a catalog and may fail. -/
abbrev CatalogM := EStateM CompileError Catalog

namespace Catalog

/-! ## Steps on the registries -/

/-- A step on the instruction tags. -/
def onInsnTags {α : Type} (step : EStateM CompileError TagRegistry α) : CatalogM α := fun c ↦
  match step c.registries.insnTags with
  | .ok a r => .ok a { c with registries.insnTags := r }
  | .error e r => .error e { c with registries.insnTags := r }

/-- A step on the encoding tags. -/
def onEncTags {α : Type} (step : EStateM CompileError TagRegistry α) : CatalogM α := fun c ↦
  match step c.registries.encTags with
  | .ok a r => .ok a { c with registries.encTags := r }
  | .error e r => .error e { c with registries.encTags := r }

/-- A step on the modes. -/
def onModes {α : Type} (step : EStateM CompileError ModeRegistry α) : CatalogM α := fun c ↦
  match step c.registries.modes with
  | .ok a r => .ok a { c with registries.modes := r }
  | .error e r => .error e { c with registries.modes := r }

/-- Declares a core mode and gives its bit. -/
def declareMode (name : String) : CatalogM Nat := onModes (ModeRegistry.declareMode name)

/-- Defines a mode set and gives its mask. -/
def defineModeSet (name : String) (members : List String) : CatalogM Nat :=
  onModes (ModeRegistry.defineSet name members)

/-! ## Adding instructions -/

/-- The encodings of a catalog are numbered below the word that stands for no encoding. -/
def encodingLimit : Nat := invalidWord.toNat

/-- The result of a check, as a step that changes nothing. -/
def check {α : Type} (result : Except CompileError α) : CatalogM α := fun c ↦
  match result with
  | .ok a => .ok a c
  | .error e => .error e c

/-- The checks that come before any tag is registered: the arguments and the valid modes. -/
def checkHeader (c : Catalog) (decl : InstructionDecl) :
    Except CompileError (List Argument × Nat) :=
  if (c.lookup decl.name).isSome then .error (.duplicateInstruction decl.name)
  else if maxArguments < decl.args.length then
    .error (.tooManyArguments decl.name decl.args.length maxArguments)
  else if encodingLimit < c.encodings.size + decl.encodings.length then
    .error (.tooManyEncodings (c.encodings.size + decl.encodings.length) encodingLimit)
  else
    match resolveSizes decl.name decl.args with
    | .error e => .error e
    | .ok args =>
      match c.registries.modes.union decl.modes with
      | .error unknown => .error (.unknownMode unknown decl.name)
      | .ok modes => .ok (args, modes)

/-- The arguments of a declared encoding of an instruction with `count` arguments. -/
def checkEncoding (owner : String) (count : Nat) (decl : EncodingDecl) :
    Except CompileError (List EncodingArg) :=
  if decl.args.length = count then resolveValues owner decl.args
  else .error (.argumentCountMismatch owner decl.opcode count decl.args.length)

/-- The encodings of instruction `insn`, numbered from `number` on; registers their tags. -/
def buildEncodings (owner : String) (count insn : Nat) (number : Nat) :
    List EncodingDecl → CatalogM (List Encoding)
  | [] => pure []
  | decl :: decls => do
    let args ← check (checkEncoding owner count decl)
    let tags ← onEncTags (TagRegistry.registerAll decl.tags)
    let rest ← buildEncodings owner count insn (number + 1) decls
    pure (⟨insn, number, decl.opcode, tags, args⟩ :: rest)

/-- Appends a checked instruction and its encodings. -/
def append (c : Catalog) (insn : Instruction) (encodings : List Encoding) : Catalog where
  registries := c.registries
  instructions := c.instructions.push insn
  encodings := c.encodings ++ encodings
  index := (insn.name, c.instructions.size) :: c.index
  argSymbols := c.argSymbols.noteEncodings encodings

/-- Checks and appends an instruction with its encodings, and gives its index. -/
def add (decl : InstructionDecl) : CatalogM Nat := do
  let c ← get
  let (args, modes) ← check (c.checkHeader decl)
  let insn := c.instructions.size
  let first := c.encodings.size
  let tags ← onInsnTags (TagRegistry.registerAll decl.tags)
  let encodings ← buildEncodings decl.name args.length insn first decl.encodings
  modify fun c ↦
    c.append ⟨decl.name, tags, modes, args, first, first + encodings.length⟩ encodings
  pure insn

/-! ## Whole catalogs -/

/-- Adds everything that is declared: the modes, the mode sets, and then the instructions. -/
def addAll (decl : CatalogDecl) : CatalogM Unit := do
  decl.modes.forM fun name ↦ do
    let _ ← declareMode name
  decl.modeSets.forM fun set ↦ do
    let _ ← defineModeSet set.name set.members
  decl.instructions.forM fun insn ↦ do
    let _ ← add insn

/-- The catalog that is declared. -/
def ofDecl (decl : CatalogDecl) : Except CompileError Catalog :=
  match addAll decl {} with
  | .ok _ c => .ok c
  | .error e _ => .error e

end Catalog

end DecodeTrie
