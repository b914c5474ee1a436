import DecodeTrie.Compile
import DecodeTrie.Catalog.Step
import DecodeTrie.Proofs.Render.Names
import DecodeTrie.Render.Module

/-!
# The names of the items of a module

The constants of symbols get their names by claims, so they differ from each other. Five names are
written as they stand, behind the prefix, and nobody claims them. Four of them start unlike every
class of symbols. The fifth is `INSN_COUNT`, which starts with the class of instructions: an
instruction whose name comes to `COUNT` or to `INSN_COUNT` claims it, and then the module declares
two constants of that name (`nodup_itemNames_moduleLines_iff`). All other names are declared once,
whatever the symbols are called.
-/

namespace DecodeTrie

namespace Render

/-! ## Items -/

/-- The name of the item that a line declares, if it declares one. -/
def Line.item? : Line → Option String
  | text _ => none
  | constant name _ => some name
  | static name _ => some name

/-- The names of the items that some lines declare. -/
def itemNames (lines : List Line) : List String := lines.filterMap Line.item?

@[simp] theorem itemNames_nil : itemNames [] = [] := rfl

@[simp] theorem itemNames_text (line : String) (lines : List Line) :
    itemNames (.text line :: lines) = itemNames lines := rfl

@[simp] theorem itemNames_constant (name rest : String) (lines : List Line) :
    itemNames (.constant name rest :: lines) = name :: itemNames lines := rfl

@[simp] theorem itemNames_static (name rest : String) (lines : List Line) :
    itemNames (.static name rest :: lines) = name :: itemNames lines := rfl

@[simp] theorem itemNames_append (lines lines' : List Line) :
    itemNames (lines ++ lines') = itemNames lines ++ itemNames lines' :=
  List.filterMap_append

theorem itemNames_map_of_text {α : Type} (line : α → Line) (h : ∀ x, (line x).item? = none)
    (xs : List α) : itemNames (xs.map line) = [] := by
  rw [itemNames, List.filterMap_map]
  exact List.filterMap_eq_nil_iff.mpr fun x _ ↦ h x

@[simp] theorem itemNames_table (name type : String) (length : Nat) (lines : List Line) :
    itemNames (table name type length lines) = name :: itemNames lines := by
  simp [table]

@[simp] theorem itemNames_rowTypes : itemNames rowTypes = [] := rfl

@[simp] theorem itemNames_block (lines : List Line) :
    itemNames (block lines) = itemNames lines := by
  unfold block
  split
  · next h => rw [List.isEmpty_iff.mp h]
  · simp

/-! ## Declarations of symbols -/

/-- An action writes declarations of the names `before` and of those that the requests get when it
runs, in some order, and claims the latter. -/
structure Declares (symbolPrefix : String) (before : List String) (write : StateM Names (List Line))
    (requests : List Request) : Prop where
  /-- The names of the items. -/
  itemNames_perm : ∀ taken,
    (itemNames (write taken).1).Perm (before ++ claimedNames symbolPrefix requests taken)
  /-- The claimed names, the last one first. -/
  taken_eq : ∀ taken, (write taken).2 = (claimedNames symbolPrefix requests taken).reverse ++ taken

/-- The requests of the names of one class. -/
def requestsOf (cls : String) (names : List String) : List Request := names.map fun n ↦ (cls, n)

section

variable {symbolPrefix : String} {before : List String} {write : StateM Names (List Line)}
  {requests : List Request}

theorem Declares.pure {lines : List Line} (h : (itemNames lines).Perm before) :
    Declares symbolPrefix before (pure lines) [] where
  itemNames_perm _ := h.trans (.of_eq (List.append_nil _).symm)
  taken_eq _ := rfl

/-- Requests that are served one after the other are one row of requests. -/
theorem Declares.bind {next : List Line → StateM Names (List Line)} {requests' : List Request}
    (h : Declares symbolPrefix [] write requests)
    (hnext : ∀ lines, Declares symbolPrefix (before ++ itemNames lines) (next lines) requests') :
    Declares symbolPrefix before (write >>= next) (requests ++ requests') where
  itemNames_perm taken := by
    change (itemNames (next (write taken).1 (write taken).2).1).Perm _
    refine ((hnext _).itemNames_perm _).trans ?_
    rw [h.taken_eq, claimedNames_append, List.append_assoc]
    exact ((h.itemNames_perm taken).append_right _).append_left _
  taken_eq taken := by
    change (next (write taken).1 (write taken).2).2 = _
    rw [(hnext _).taken_eq, h.taken_eq, claimedNames_append]
    simp

theorem Declares.block (h : Declares symbolPrefix before write requests) :
    Declares symbolPrefix before (do let lines ← write; return Render.block lines) requests where
  itemNames_perm taken := (List.Perm.of_eq (itemNames_block _)).trans (h.itemNames_perm taken)
  taken_eq taken := h.taken_eq taken

end

theorem declares_constants (symbolPrefix cls type : String) (symbols : List (String × String)) :
    Declares symbolPrefix [] (constants symbolPrefix cls type symbols)
      (requestsOf cls (symbols.map Prod.fst)) := by
  induction symbols with
  | nil => exact .pure (.refl _)
  | cons symbol symbols ih =>
    constructor
    · intro taken
      exact (ih.itemNames_perm _).cons _
    · intro taken
      refine (ih.taken_eq _).trans ?_
      simp [requestsOf, claimedNames, Request.baseName]

theorem declares_maskBlock (symbolPrefix cls : String) (symbols : List Symbol) :
    Declares symbolPrefix [] (maskBlock symbolPrefix cls symbols)
      (requestsOf cls (symbols.map Symbol.name)) := by
  have h := (declares_constants symbolPrefix cls "u32"
    (symbols.map fun s ↦ (s.name, wordLiteral s.value))).block
  rwa [List.map_map] at h

theorem declares_codeBlock (symbolPrefix cls : String) (base : UInt16) (names : List String) :
    Declares symbolPrefix [] (codeBlock symbolPrefix cls base names) (requestsOf cls names) := by
  have h := (declares_constants symbolPrefix cls "u16"
    (names.zipIdx.map fun n ↦ (n.1, Text.hexLiteral (base + UInt16.ofNat n.2).toNat))).block
  have hnames : (names.zipIdx.map fun n ↦
      (n.1, Text.hexLiteral (base + UInt16.ofNat n.2).toNat)).map Prod.fst = names := by
    rw [List.map_map]
    exact List.zipIdx_map_fst 0 names
  rwa [hnames] at h

end Render

open Render

namespace SymbolTable

/-- The requests for the names of instructions. -/
def insnRequests (s : SymbolTable) : List Request :=
  requestsOf "INSN_" (s.instructions.map Symbol.name)

/-- The names of the other symbols, by class. -/
def otherNames (s : SymbolTable) : List (String × List String) :=
  [("ITAG_", s.insnTags.map Symbol.name), ("ETAG_", s.encTags.map Symbol.name),
    ("MODE_", s.modes.map Symbol.name), ("MODE_", s.modeSets.map Symbol.name),
    ("ARGTYPE_", s.argTypes), ("ARGSIZE_", s.argSizes), ("ARGVALUE_", s.argValues)]

/-- The requests for the names of the other symbols. -/
def otherRequests (s : SymbolTable) : List Request :=
  s.otherNames.flatMap fun c ↦ requestsOf c.1 c.2

end SymbolTable

namespace Render

theorem declares_symbolLines (symbolPrefix : String) (s : SymbolTable) :
    Declares symbolPrefix [symbolPrefix ++ "INSN_COUNT"] (symbolLines symbolPrefix s)
      (s.insnRequests ++ s.otherRequests) := by
  have hinsns : Declares symbolPrefix [] (constants symbolPrefix "INSN_" "u32"
      (s.instructions.map fun i ↦ (i.name, toString i.value))) s.insnRequests := by
    have h := declares_constants symbolPrefix "INSN_" "u32"
      (s.instructions.map fun i ↦ (i.name, toString i.value))
    rwa [List.map_map] at h
  refine hinsns.bind fun insns ↦ (declares_maskBlock _ _ _).bind fun insnTags ↦
    (declares_maskBlock _ _ _).bind fun encTags ↦ (declares_maskBlock _ _ _).bind fun modes ↦
    (declares_maskBlock _ _ _).bind fun modeSets ↦ (declares_codeBlock _ _ _ _).bind fun types ↦
    (declares_codeBlock _ _ _ _).bind fun sizes ↦ (declares_codeBlock _ _ _ _).bind fun values ↦
    .pure ?_
  -- The count stands behind the instructions.
  simp only [itemNames_append, itemNames_constant, itemNames_text, List.append_assoc,
    List.cons_append, List.nil_append]
  exact List.perm_middle

/-! ## The whole module -/

/-- The names that are written behind the prefix as they stand, but for `INSN_COUNT`. -/
def fixedNames : List String := ["INVALID_ENTRY", "DECODER_TABLE", "INSNS", "ENCODINGS"]

/-- The names that symbols get. -/
def symbolNames (symbolPrefix : String) (s : SymbolTable) : List String :=
  claimedNames symbolPrefix (s.insnRequests ++ s.otherRequests) []

theorem itemNames_moduleLines_perm (a : Artifacts) (options : RenderOptions) :
    (itemNames (moduleLines a options)).Perm
      ((options.symbolPrefix ++ "INSN_COUNT") ::
        (symbolNames options.symbolPrefix a.symbols ++
          fixedNames.map (options.symbolPrefix ++ ·))) := by
  have hsymbols := (declares_symbolLines options.symbolPrefix a.symbols).itemNames_perm []
  have hwords := itemNames_map_of_text wordLine (fun _ ↦ rfl)
  have hinsns := itemNames_map_of_text instructionLine (fun _ ↦ rfl)
  have hencs := itemNames_map_of_text (encodingLine a.symbols) (fun _ ↦ rfl)
  simp only [moduleLines, itemNames_append, itemNames_constant, itemNames_text, itemNames_nil,
    itemNames_table, itemNames_rowTypes, hwords, hinsns, hencs, List.append_nil]
  refine ((hsymbols.append_left _).append_right _ |>.append_right _ |>.append_right _).trans ?_
  simp only [symbolNames, fixedNames, List.map_cons, List.map_nil, List.cons_append,
    List.nil_append, List.append_assoc]
  refine (List.Perm.swap _ _ _).trans (List.Perm.cons _ ?_)
  exact List.perm_middle.symm

/-- The classes of all symbols but instructions. -/
def otherClasses : List String := ["ITAG_", "ETAG_", "MODE_", "ARGTYPE_", "ARGSIZE_", "ARGVALUE_"]

theorem cls_mem_of_mem_otherRequests {s : SymbolTable} {r : Request} (h : r ∈ s.otherRequests) :
    r.1 ∈ otherClasses := by
  obtain ⟨c, hc, hr⟩ := List.mem_flatMap.mp h
  obtain ⟨n, -, rfl⟩ := List.mem_map.mp hr
  have hclasses : s.otherNames.map Prod.fst ⊆ otherClasses := by
    simp [SymbolTable.otherNames, otherClasses]
  exact hclasses (List.mem_map_of_mem hc)

theorem mem_insnRequests {s : SymbolTable} {r : Request} :
    r ∈ s.insnRequests ↔ ∃ i ∈ s.instructions, r = ("INSN_", i.name) := by
  simp [SymbolTable.insnRequests, requestsOf, eq_comm]

/-- No symbol gets one of the fixed names, because no class starts like one of them. -/
theorem not_mem_symbolNames_of_mem_fixedNames {symbolPrefix name : String} {s : SymbolTable}
    (h : name ∈ fixedNames) : symbolPrefix ++ name ∉ symbolNames symbolPrefix s := by
  intro hmem
  obtain ⟨r, hr, n, hn⟩ := exists_candidate_of_mem_claimedNames hmem
  obtain ⟨rest, hrest, hcls⟩ := r.exists_candidate_eq symbolPrefix n
  obtain rfl : name = rest := (String.append_right_inj symbolPrefix).mp (hn.trans hrest)
  have hclasses : r.1 ∈ "INSN_" :: otherClasses := by
    rcases List.mem_append.mp hr with hr | hr
    · obtain ⟨i, -, rfl⟩ := mem_insnRequests.mp hr
      exact List.mem_cons_self
    · exact List.mem_cons_of_mem _ (cls_mem_of_mem_otherRequests hr)
  have hno : ∀ name ∈ fixedNames, ∀ cls ∈ "INSN_" :: otherClasses,
      ¬ cls.toList <+: name.toList := by decide
  exact hno name h r.1 hclasses hcls

/-- A symbol gets the name `INSN_COUNT` if and only if an instruction asks for it. -/
theorem insnCount_mem_symbolNames_iff {symbolPrefix : String} {s : SymbolTable} :
    symbolPrefix ++ "INSN_COUNT" ∈ symbolNames symbolPrefix s ↔
      ∃ i ∈ s.instructions, constantName "INSN_" i.name = "INSN_COUNT".toList := by
  constructor
  · intro hmem
    obtain ⟨r, hr, n, hn⟩ := exists_candidate_of_mem_claimedNames hmem
    rcases List.mem_append.mp hr with hr | hr
    · obtain ⟨i, hi, rfl⟩ := mem_insnRequests.mp hr
      refine ⟨i, hi, ?_⟩
      cases n with
      | zero =>
        have hname := (String.append_right_inj symbolPrefix).mp hn
        rw [hname, String.toList_ofList]
      | succ n =>
        -- A numbered candidate ends in a digit.
        have hlast : 'T' ∈ (symbolPrefix ++ "INSN_COUNT").toList.getLast? := by
          simp
        rw [hn] at hlast
        exact absurd (isDigit_of_mem_getLast?_candidate hlast) (by decide)
    · obtain ⟨rest, hrest, hcls⟩ := r.exists_candidate_eq symbolPrefix n
      obtain rfl : "INSN_COUNT" = rest := (String.append_right_inj symbolPrefix).mp (hn.trans hrest)
      have hno : ∀ cls ∈ otherClasses, ¬ cls.toList <+: "INSN_COUNT".toList := by decide
      exact absurd hcls (hno _ (cls_mem_of_mem_otherRequests hr))
  · rintro ⟨i, hi, hname⟩
    have hbase : Request.baseName symbolPrefix ("INSN_", i.name) =
        symbolPrefix ++ "INSN_COUNT" := by
      rw [Request.baseName, baseName, hname, String.ofList_toList]
    have hr : ("INSN_", i.name) ∈ s.insnRequests ++ s.otherRequests :=
      List.mem_append_left _ (mem_insnRequests.mpr ⟨i, hi, rfl⟩)
    rcases baseName_mem_claimedNames symbolPrefix [] hr with h | h
    · cases h
    · rwa [hbase] at h

/-- The names of symbols and the fixed ones differ from each other. -/
theorem nodup_symbolNames_append (symbolPrefix : String) (s : SymbolTable) :
    (symbolNames symbolPrefix s ++ fixedNames.map (symbolPrefix ++ ·)).Nodup := by
  refine List.nodup_append.mpr ⟨nodup_claimedNames, ?_, ?_⟩
  · refine List.Nodup.map (fun _ _ h ↦ (String.append_right_inj symbolPrefix).mp h) ?_
    decide
  · rintro name hname _ hfixed rfl
    obtain ⟨fixed, hmem, rfl⟩ := List.mem_map.mp hfixed
    exact not_mem_symbolNames_of_mem_fixedNames hmem hname

theorem constantName_eq_insnCount_iff {raw : String} :
    constantName "INSN_" raw = "INSN_COUNT".toList ↔
      raw.toList.map nameChar = "COUNT".toList ∨ raw.toList.map nameChar = "INSN_COUNT".toList := by
  simp only [constantName]
  split
  · next h =>
    refine ⟨.inr, fun hor ↦ hor.resolve_left fun hcount ↦ ?_⟩
    rw [hcount] at h
    exact absurd h (by decide)
  · next h =>
    have hsplit : "INSN_COUNT".toList = "INSN_".toList ++ "COUNT".toList := by decide
    rw [hsplit, List.append_cancel_left_eq]
    refine ⟨.inl, fun hor ↦ hor.resolve_right fun hcount ↦ h ?_⟩
    rw [hcount]
    decide

/-- The names of a module differ from each other if and only if no symbol gets the name
`INSN_COUNT`. -/
theorem nodup_itemNames_iff_not_mem {a : Artifacts} {options : RenderOptions} :
    (itemNames (moduleLines a options)).Nodup ↔
      options.symbolPrefix ++ "INSN_COUNT" ∉ symbolNames options.symbolPrefix a.symbols := by
  rw [(itemNames_moduleLines_perm a options).nodup_iff, List.nodup_cons, List.mem_append, not_or]
  have hfixed : options.symbolPrefix ++ "INSN_COUNT" ∉
      fixedNames.map (options.symbolPrefix ++ ·) := by
    intro hmem
    obtain ⟨name, hname, heq⟩ := List.mem_map.mp hmem
    rw [(String.append_right_inj options.symbolPrefix).mp heq] at hname
    exact absurd hname (by decide)
  exact ⟨fun h ↦ h.1.1, fun h ↦ ⟨⟨h, hfixed⟩, nodup_symbolNames_append _ _⟩⟩

end Render

/-- **The names of a module.** Apart from `INSN_COUNT` no name is declared twice. `INSN_COUNT` is
declared twice if and only if an instruction has a name that comes to `COUNT` or `INSN_COUNT`. -/
theorem nodup_itemNames_moduleLines_iff (a : Artifacts) (options : RenderOptions) :
    ((itemNames (moduleLines a options)).erase (options.symbolPrefix ++ "INSN_COUNT")).Nodup ∧
      ((itemNames (moduleLines a options)).Nodup ↔ ∀ i ∈ a.symbols.instructions,
        i.name.toList.map nameChar ≠ "COUNT".toList ∧
          i.name.toList.map nameChar ≠ "INSN_COUNT".toList) := by
  constructor
  · have hperm := (itemNames_moduleLines_perm a options).erase
      (options.symbolPrefix ++ "INSN_COUNT")
    rw [List.erase_cons_head] at hperm
    exact hperm.nodup_iff.mpr (nodup_symbolNames_append _ _)
  · rw [nodup_itemNames_iff_not_mem, insnCount_mem_symbolNames_iff]
    simp only [constantName_eq_insnCount_iff, not_exists, not_and, not_or]

theorem not_nodup_itemNames_count :
    ∃ a, compile (Catalog.after [.add { name := "count" }]) {} = .ok a ∧
      ¬ (itemNames (moduleLines a {})).Nodup := by
  have hnames : (compile (Catalog.after [.add { name := "count" }]) {}).toOption.map
      (fun a ↦ itemNames (moduleLines a {})) =
        some ["INVALID_ENTRY", "INSN_COUNT", "INSN_COUNT", "DECODER_TABLE", "INSNS",
          "ENCODINGS"] := by
    decide +kernel
  cases h : compile (Catalog.after [.add { name := "count" }]) {} with
  | error e =>
    rw [h] at hnames
    cases hnames
  | ok a =>
    rw [h] at hnames
    refine ⟨a, rfl, ?_⟩
    rw [show itemNames (moduleLines a {}) = _ from Option.some.inj hnames]
    decide

end DecodeTrie
