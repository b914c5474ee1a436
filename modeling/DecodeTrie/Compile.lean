import DecodeTrie.Artifacts
import DecodeTrie.Opcode.Parser

/-!
# Compilation

A catalog is compiled by inserting its encodings into one trie in the order of their numbers and
flattening the trie. The pattern of each encoding is read right before it is inserted, and the
first error of either kind stops the compilation.
-/

namespace DecodeTrie

/-- The descriptor of an encoding of a catalog. -/
def Catalog.descriptor (c : Catalog) (e : Encoding) : Except CompileError Descriptor :=
  match Descriptor.parse e.opcode with
  | .ok d => .ok d
  | .error cause => .error (.malformedOpcode (c.insnName e.insn) e.opcode cause)

namespace Build

/-- Inserts encodings under the descriptors of their own patterns, which are the result. -/
def insertAll (c : Catalog) (steering : Steering) :
    List Encoding → EStateM CompileError Build (List Descriptor)
  | [] => pure []
  | e :: es => fun b ↦
    match c.descriptor e with
    | .error err => .error err b
    | .ok d =>
      match insert c steering e.number d b with
      | .error err b => .error err b
      | .ok _ b =>
        match insertAll c steering es b with
        | .error err b => .error err b
        | .ok ds b => .ok (d :: ds) b

end Build

/-- The steering of a catalog under the given options. -/
def Catalog.steering (c : Catalog) (options : Options) : Steering :=
  Steering.resolve options c.registries.encTags

/-- Compiles a catalog. -/
def compile (c : Catalog) (options : Options) : Except CompileError Artifacts :=
  match Build.insertAll c (c.steering options) c.encodings.toList (Build.empty c) with
  | .error err _ => .error err
  | .ok descriptors b =>
    match b.trie.flatten options.collapseModRM with
    | none => .error (.tableTooLarge b.trie.layout.size)
    | some table => .ok (Artifacts.assemble c table b.ranges.toList descriptors)

end DecodeTrie
