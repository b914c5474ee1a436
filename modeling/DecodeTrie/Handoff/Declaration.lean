import DecodeTrie.Catalog.Declaration
import DecodeTrie.Handoff.Record
import DecodeTrie.Options
import DecodeTrie.Render.Module

/-!
# Declarations and options in hand-off text

The keys and fields of what can be handed in: catalogs, the options of a compilation, and the
options of a generated module.
-/

namespace DecodeTrie.Handoff

/-! ## Catalogs -/

/-- Reads an argument of an instruction. -/
def argDecl : Form ArgDecl :=
  record [
    ⟨"name", true, fun d room ↦ return { d with name := ← text room }⟩,
    ⟨"size", true, fun d room ↦ return { d with size := ← text room }⟩] ⟨"", ""⟩

/-- Reads the value of an argument; `null` stands for none. -/
def argValueDecl : Form (Option ArgValueDecl) := fun room ↦ do
  if (← peek) = 'n' then do
    word ['n', 'u', 'l', 'l']
    pure none
  else
    match ← anyValue room with
    | .natural n => pure (some (.int n))
    | .text s => pure (some (.name s))
    | .other => fail .mismatch

/-- Reads an argument of an encoding. -/
def encodingArgDecl : Form EncodingArgDecl :=
  record [
    ⟨"type", true, fun d room ↦ return { d with argType := ← text room }⟩,
    ⟨"size", true, fun d room ↦ return { d with size := ← text room }⟩,
    ⟨"value", false, fun d room ↦ return { d with value := ← argValueDecl room }⟩] ⟨"", "", none⟩

/-- Reads an encoding. -/
def encodingDecl : Form EncodingDecl :=
  record [
    ⟨"opcode", true, fun d room ↦ return { d with opcode := ← text room }⟩,
    ⟨"tags", false, fun d room ↦ return { d with tags := ← list text room }⟩,
    ⟨"args", false, fun d room ↦ return { d with args := ← list encodingArgDecl room }⟩]
    ⟨"", [], []⟩

/-- Reads an instruction. -/
def instructionDecl : Form InstructionDecl :=
  record [
    ⟨"alias", true, fun d room ↦ return { d with name := ← text room }⟩,
    ⟨"tags", false, fun d room ↦ return { d with tags := ← list text room }⟩,
    ⟨"modes", false, fun d room ↦ return { d with modes := ← list text room }⟩,
    ⟨"args", false, fun d room ↦ return { d with args := ← list argDecl room }⟩,
    ⟨"encodings", false, fun d room ↦ return { d with encodings := ← list encodingDecl room }⟩]
    ⟨"", [], [], [], []⟩

/-- Reads a mode set. -/
def modeSetDecl : Form ModeSetDecl :=
  record [
    ⟨"name", true, fun d room ↦ return { d with name := ← text room }⟩,
    ⟨"members", true, fun d room ↦ return { d with members := ← list text room }⟩] ⟨"", []⟩

/-- Reads a catalog. -/
def catalogDecl : Form CatalogDecl :=
  record [
    ⟨"modes", false, fun d room ↦ return { d with modes := ← list text room }⟩,
    ⟨"mode_sets", false, fun d room ↦ return { d with modeSets := ← list modeSetDecl room }⟩,
    ⟨"instructions", false,
      fun d room ↦ return { d with instructions := ← list instructionDecl room }⟩] {}

/-! ## Options -/

/-- Reads the options of a compilation. -/
def options : Form Options :=
  record [
    ⟨"collapse_modrm", false, fun o room ↦ return { o with collapseModRM := ← bool room }⟩,
    ⟨"reg_in_opcode_tag", false, fun o room ↦ return { o with regInOpcodeTag := ← text room }⟩,
    ⟨"rexw_clear_tag", false, fun o room ↦ return { o with rexWClearTag := ← text room }⟩,
    ⟨"rexw_set_tag", false, fun o room ↦ return { o with rexWSetTag := ← text room }⟩] {}

/-- Reads the options of a generated module. -/
def renderOptions : Form RenderOptions :=
  record [
    ⟨"symbol_prefix", false, fun o room ↦ return { o with symbolPrefix := ← text room }⟩,
    ⟨"words_per_line", false, fun o room ↦ return { o with wordsPerLine := ← natural room }⟩] {}

end DecodeTrie.Handoff
