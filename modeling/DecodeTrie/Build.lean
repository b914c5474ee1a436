import DecodeTrie.Catalog.Basic
import DecodeTrie.Options
import DecodeTrie.Trie.Placement

/-!
# Building the trie

A build is a trie together with the range of encoding numbers that each instruction has got into
it. Inserting an encoding fills its sites one after the other. The first site that cannot be filled
is the error, which names the encoding in the way; what was filled before stays.

The owner's range grows with each leaf that is placed, so that a failed insertion which has placed
some leaves counts as well.
-/

namespace DecodeTrie

/-- The first and last of some encoding numbers. -/
structure EncodingRange where
  /-- The least number. -/
  first : Nat
  /-- The greatest number. -/
  last : Nat
deriving DecidableEq, Repr

/-- The least range with a further number in it. -/
def EncodingRange.widen (number : Nat) : Option EncodingRange → EncodingRange
  | none => ⟨number, number⟩
  | some r => ⟨min r.first number, max r.last number⟩

/-- A trie under construction. -/
structure Build where
  /-- The trie so far. -/
  trie : Trie
  /-- For each instruction, the range of its encoding numbers in the trie. -/
  ranges : Array (Option EncodingRange)

/-- Why an encoding clashes, with what its wording needs. -/
def Clash.report (c : Catalog) (e : Encoding) : Clash → CompileError
  | .occupied other =>
    .duplicateOpcode (c.insnName e.insn) e.number e.opcode (c.ownerName other) other
  | .shape wanted found other =>
    .opcodeConflict (c.insnName e.insn) e.number e.opcode wanted found (c.ownerName other) other

namespace Build

/-- The build of a catalog in which nothing is inserted. -/
def empty (c : Catalog) : Build := ⟨Trie.empty, Array.replicate c.instructions.size none⟩

/-! ## Filling sites -/

/-- A step on the trie alone. -/
def onTrie {α : Type} (step : EStateM Clash Trie α) : EStateM Clash Build α := fun ⟨trie, ranges⟩ ↦
  match step trie with
  | .ok a trie => .ok a ⟨trie, ranges⟩
  | .error clash trie => .error clash ⟨trie, ranges⟩

/-- Places a leaf and widens the range of its owner. -/
def place (number owner : Nat) (p : Position) (steps : List Step) : EStateM Clash Build Unit :=
  fun ⟨trie, ranges⟩ ↦
    match Trie.place number p steps trie with
    | .ok _ trie =>
      .ok () ⟨trie, ranges.modify owner fun r ↦ some (EncodingRange.widen number r)⟩
    | .error clash trie => .error clash ⟨trie, ranges⟩

/-- Places a leaf at one mode of a register column. -/
def placeOneMode (number owner : Nat) (table : NodeId) (reg : Fin 8) (mode : Nat)
    (tail : List Step) : EStateM Clash Build Unit := do
  modify fun ⟨trie, ranges⟩ ↦ ⟨trie.detach table reg mode, ranges⟩
  place number owner (Trie.cell table reg mode) tail

/-- Places a leaf at a mode of a register column that held the slots `column`; a mode that held the
same as an earlier one is made to hold the same again. -/
def placeOrShare (number owner : Nat) (table : NodeId) (reg : Fin 8) (tail : List Step)
    (column : List Slot) (mode : Nat) : EStateM Clash Build Unit :=
  match Trie.earlierTwin? column mode with
  | some twin =>
    modify fun ⟨trie, ranges⟩ ↦
      let s := trie.slot (Trie.cell table reg twin)
      ⟨trie.set (Trie.cell table reg mode) s, ranges⟩
  | none => place number owner (Trie.cell table reg mode) tail

/-- Places a leaf at every mode of a register column. -/
def placeEveryMode (number owner : Nat) (table : NodeId) (reg : Fin 8) (tail : List Step) :
    EStateM Clash Build Unit := do
  let column := (← get).trie.columnSlots table reg
  (List.range 4).forM (placeOrShare number owner table reg tail column)

/-- Fills a site. -/
def fill (number owner : Nat) (s : Site) : EStateM Clash Build Unit := do
  let p ← onTrie (Trie.reach number s.stem)
  match s.column with
  | none => place number owner p s.tail
  | some column =>
    let table ← onTrie (Trie.ensureTable number .modrm p)
    match column.mode with
    | some mode => placeOneMode number owner table column.reg mode s.tail
    | none => placeEveryMode number owner table column.reg s.tail

/-! ## Inserting encodings -/

/-- Inserts an encoding of a catalog under a descriptor. -/
def insertEncoding (c : Catalog) (steering : Steering) (e : Encoding) (d : Descriptor) :
    EStateM CompileError Build Unit := fun b ↦
  let flags := steering.flags e.tags
  if 256 < d.form.last.toNat + flags.replicas then
    .error (.registerBaseOverflow (c.insnName e.insn) e.opcode) b
  else
    match (d.sites flags).forM (fill e.number e.insn) b with
    | .ok _ b => .ok () b
    | .error clash b => .error (clash.report c e) b

/-- Inserts the encoding with the given number under a descriptor. -/
def insert (c : Catalog) (steering : Steering) (number : Nat) (d : Descriptor) :
    EStateM CompileError Build Unit := fun b ↦
  match c.encodings[number]? with
  | some e => insertEncoding c steering e d b
  | none => .error (.noSuchEncoding number) b

end Build

end DecodeTrie
