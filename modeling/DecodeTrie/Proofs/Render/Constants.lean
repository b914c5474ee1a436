import DecodeTrie.Proofs.Render.Items

/-!
# The values of the constants of a module

Each symbol is declared as a constant: a request for a name, and what comes after the name. Serving
the requests one after the other gives each declaration a name, and the module has the line that is
made of the two (`constant_mem_moduleLines`). As names are given once, no other line declares a
constant of that name, with the one exception of `INSN_COUNT`. So what the module prints for a
symbol is what has been declared for it (`exists_declaration_of_isConstantOf`).
-/

namespace DecodeTrie

namespace Render

/-! ## Declarations -/

/-- A request for a name, and what comes after the name. -/
abbrev Declaration := Request × String

/-- The declarations of symbols of one class with values of one type. -/
def declarationsOf (cls type : String) (symbols : List (String × String)) : List Declaration :=
  symbols.map fun s ↦ ((cls, s.1), ": " ++ type ++ " = " ++ s.2 ++ ";")

/-- The declarations of masks. -/
def maskDeclarations (cls : String) (symbols : List Symbol) : List Declaration :=
  declarationsOf cls "u32" (symbols.map fun s ↦ (s.name, wordLiteral s.value))

/-- The declarations of names that are numbered from `base` on. -/
def codeDeclarations (cls : String) (base : UInt16) (names : List String) : List Declaration :=
  declarationsOf cls "u16"
    (names.zipIdx.map fun n ↦ (n.1, Text.hexLiteral (base + UInt16.ofNat n.2).toNat))

theorem map_fst_declarationsOf (cls type : String) (symbols : List (String × String)) :
    (declarationsOf cls type symbols).map Prod.fst = requestsOf cls (symbols.map Prod.fst) := by
  rw [declarationsOf, requestsOf, List.map_map, List.map_map]
  rfl

theorem map_fst_maskDeclarations (cls : String) (symbols : List Symbol) :
    (maskDeclarations cls symbols).map Prod.fst = requestsOf cls (symbols.map Symbol.name) := by
  rw [maskDeclarations, map_fst_declarationsOf, List.map_map]
  rfl

theorem map_fst_codeDeclarations (cls : String) (base : UInt16) (names : List String) :
    (codeDeclarations cls base names).map Prod.fst = requestsOf cls names := by
  rw [codeDeclarations, map_fst_declarationsOf, List.map_map]
  exact congrArg (requestsOf cls) (List.zipIdx_map_fst 0 names)

theorem mem_declarationsOf {cls cls' type raw rest : String} {symbols : List (String × String)} :
    ((cls', raw), rest) ∈ declarationsOf cls type symbols ↔
      cls = cls' ∧ ∃ value, (raw, value) ∈ symbols ∧ ": " ++ type ++ " = " ++ value ++ ";" = rest := by
  simp only [declarationsOf, List.mem_map, Prod.mk.injEq, Prod.exists]
  grind

/-- The names that declarations get. -/
def declaredNames (symbolPrefix : String) (ds : List Declaration) (taken : Names) : Names :=
  claimedNames symbolPrefix (ds.map Prod.fst) taken

/-- The lines of declarations. -/
def declaredLines (symbolPrefix : String) (ds : List Declaration) (taken : Names) : List Line :=
  (ds.zip (declaredNames symbolPrefix ds taken)).map fun d ↦ .constant d.2 d.1.2

/-- An action writes the lines `before` and those of the declarations, and claims their names. -/
structure Prints (symbolPrefix : String) (before : List Line) (write : StateM Names (List Line))
    (ds : List Declaration) : Prop where
  /-- The lines are there. -/
  subset : ∀ taken, before ++ declaredLines symbolPrefix ds taken ⊆ (write taken).1
  /-- The claimed names, the last one first. -/
  taken_eq : ∀ taken, (write taken).2 = (declaredNames symbolPrefix ds taken).reverse ++ taken

section

variable {symbolPrefix : String} {before : List Line} {write : StateM Names (List Line)}
  {ds : List Declaration}

theorem declaredNames_append (ds' : List Declaration) (taken : Names) :
    declaredNames symbolPrefix (ds ++ ds') taken = declaredNames symbolPrefix ds taken ++
      declaredNames symbolPrefix ds' ((declaredNames symbolPrefix ds taken).reverse ++ taken) := by
  rw [declaredNames, List.map_append, claimedNames_append]
  rfl

theorem length_claimedNames (requests : List Request) (taken : Names) :
    (claimedNames symbolPrefix requests taken).length = requests.length := by
  induction requests generalizing taken with
  | nil => rfl
  | cons r requests ih => exact congrArg Nat.succ (ih _)

theorem declaredLines_append (ds' : List Declaration) (taken : Names) :
    declaredLines symbolPrefix (ds ++ ds') taken = declaredLines symbolPrefix ds taken ++
      declaredLines symbolPrefix ds' ((declaredNames symbolPrefix ds taken).reverse ++ taken) := by
  rw [declaredLines, declaredNames_append, List.zip_append, List.map_append]
  · rfl
  · rw [declaredNames, length_claimedNames, List.length_map]

theorem Prints.pure {lines : List Line} (h : before ⊆ lines) :
    Prints symbolPrefix before (pure lines) [] where
  subset _ := (List.append_nil before).symm ▸ h
  taken_eq _ := rfl

/-- Declarations that are written one after the other are one row of declarations. -/
theorem Prints.bind {next : List Line → StateM Names (List Line)} {ds' : List Declaration}
    (h : Prints symbolPrefix [] write ds)
    (hnext : ∀ lines, Prints symbolPrefix (before ++ lines) (next lines) ds') :
    Prints symbolPrefix before (write >>= next) (ds ++ ds') where
  subset taken := by
    change _ ⊆ (next (write taken).1 (write taken).2).1
    have hlines := (hnext (write taken).1).subset (write taken).2
    rw [declaredLines_append, ← h.taken_eq]
    have hwritten : declaredLines symbolPrefix ds taken ⊆ (write taken).1 := h.subset taken
    grind
  taken_eq taken := by
    change (next (write taken).1 (write taken).2).2 = _
    rw [(hnext _).taken_eq, h.taken_eq, declaredNames_append]
    simp

theorem Prints.block (h : Prints symbolPrefix before write ds) :
    Prints symbolPrefix before (do let lines ← write; return Render.block lines) ds where
  subset taken := by
    refine List.Subset.trans (h.subset taken) ?_
    change _ ⊆ Render.block (write taken).1
    rw [Render.block]
    split
    · next hempty => rw [List.isEmpty_iff.mp hempty]; exact List.Subset.refl _
    · exact List.subset_append_left _ _
  taken_eq taken := h.taken_eq taken

end

theorem prints_constants (symbolPrefix cls type : String) (symbols : List (String × String)) :
    Prints symbolPrefix [] (constants symbolPrefix cls type symbols)
      (declarationsOf cls type symbols) := by
  induction symbols with
  | nil => exact .pure (List.Subset.refl _)
  | cons symbol symbols ih =>
    constructor
    · intro taken
      exact List.cons_subset_cons _ (ih.subset _)
    · intro taken
      refine (ih.taken_eq _).trans ?_
      simp [declarationsOf, declaredNames, claimedNames, Request.baseName]

theorem prints_maskBlock (symbolPrefix cls : String) (symbols : List Symbol) :
    Prints symbolPrefix [] (maskBlock symbolPrefix cls symbols) (maskDeclarations cls symbols) :=
  (prints_constants symbolPrefix cls "u32" _).block

theorem prints_codeBlock (symbolPrefix cls : String) (base : UInt16) (names : List String) :
    Prints symbolPrefix [] (codeBlock symbolPrefix cls base names)
      (codeDeclarations cls base names) :=
  (prints_constants symbolPrefix cls "u16" _).block

end Render

open Render

namespace SymbolTable

/-- The declarations of all symbols. -/
def declarations (s : SymbolTable) : List Declaration :=
  declarationsOf "INSN_" "u32" (s.instructions.map fun i ↦ (i.name, toString i.value)) ++
    (maskDeclarations "ITAG_" s.insnTags ++ (maskDeclarations "ETAG_" s.encTags ++
      (maskDeclarations "MODE_" s.modes ++ (maskDeclarations "MODE_" s.modeSets ++
        (codeDeclarations "ARGTYPE_" typeCodeBase s.argTypes ++
          (codeDeclarations "ARGSIZE_" symbolicCodeBase s.argSizes ++
            (codeDeclarations "ARGVALUE_" symbolicCodeBase s.argValues ++ [])))))))

/-- The requests for the names of all symbols. -/
def requests (s : SymbolTable) : List Request := s.insnRequests ++ s.otherRequests

theorem map_fst_declarations (s : SymbolTable) : s.declarations.map Prod.fst = s.requests := by
  simp only [declarations, List.map_append, map_fst_declarationsOf, map_fst_maskDeclarations,
    map_fst_codeDeclarations, requests, insnRequests, otherRequests, otherNames, List.flatMap_cons,
    List.flatMap_nil, List.map_nil, List.map_map]
  rfl

end SymbolTable

namespace Render

theorem prints_symbolLines (symbolPrefix : String) (s : SymbolTable) :
    Prints symbolPrefix [] (symbolLines symbolPrefix s) s.declarations := by
  refine (prints_constants _ _ _ _).bind fun insns ↦ (prints_maskBlock _ _ _).bind fun insnTags ↦
    (prints_maskBlock _ _ _).bind fun encTags ↦ (prints_maskBlock _ _ _).bind fun modes ↦
    (prints_maskBlock _ _ _).bind fun modeSets ↦ (prints_codeBlock _ _ _ _).bind fun types ↦
    (prints_codeBlock _ _ _ _).bind fun sizes ↦ (prints_codeBlock _ _ _ _).bind fun values ↦
    .pure ?_
  grind

/-! ## The whole module -/

variable {a : Artifacts} {options : RenderOptions} {name rest rest' : String}

/-- Each declaration is printed with the name that it gets. -/
theorem constant_mem_moduleLines {d : Declaration}
    (h : (d, name) ∈ a.symbols.declarations.zip (symbolNames options.symbolPrefix a.symbols)) :
    .constant name d.2 ∈ moduleLines a options := by
  have hnames : declaredNames options.symbolPrefix a.symbols.declarations [] =
      symbolNames options.symbolPrefix a.symbols := by
    rw [declaredNames, SymbolTable.map_fst_declarations]
    rfl
  have hline : .constant name d.2 ∈ (symbolLines options.symbolPrefix a.symbols []).1 := by
    refine (prints_symbolLines options.symbolPrefix a.symbols).subset [] ?_
    rw [List.nil_append, declaredLines, hnames]
    exact List.mem_map_of_mem h
  simp [moduleLines, hline]

/-- A name that is declared once is declared by one line. -/
theorem eq_of_constant_mem {lines : List Line} (hcount : (itemNames lines).count name ≤ 1)
    (h : .constant name rest ∈ lines) (h' : .constant name rest' ∈ lines) : rest = rest' := by
  have hpos {rest : String} {lines : List Line} (h : .constant name rest ∈ lines) :
      0 < (itemNames lines).count name :=
    List.count_pos_iff.mpr (List.mem_filterMap.mpr ⟨_, h, rfl⟩)
  induction lines with
  | nil => cases h
  | cons line lines ih =>
    have hle : (itemNames lines).count name ≤ (itemNames (line :: lines)).count name :=
      ((List.sublist_cons_self line lines).filterMap Line.item?).count_le name
    obtain rfl | hmem := List.mem_cons.mp h
    · obtain heq | hmem' := List.mem_cons.mp h'
      · exact (Line.constant.inj heq).2.symm
      · rw [itemNames_constant, List.count_cons_self] at hcount
        have := hpos hmem'
        omega
    · obtain rfl | hmem' := List.mem_cons.mp h'
      · rw [itemNames_constant, List.count_cons_self] at hcount
        have := hpos hmem
        omega
      · exact ih (Nat.le_trans hle hcount) hmem hmem'

/-- The candidates for the name that a request gets are those for the name that it asks for. -/
theorem exists_candidate_of_mem_zip {symbolPrefix : String} {requests : List Request}
    {taken : Names} {r : Request}
    (h : (r, name) ∈ requests.zip (claimedNames symbolPrefix requests taken)) :
    ∃ n, name = candidate (r.baseName symbolPrefix) n := by
  induction requests generalizing taken with
  | nil => cases h
  | cons r' requests ih =>
    rw [claimedNames, List.zip_cons_cons, List.mem_cons] at h
    obtain h | h := h
    · obtain ⟨rfl, rfl⟩ := Prod.mk.inj h
      obtain ⟨n, hn, -⟩ := exists_freeName_eq_candidate taken (r.baseName symbolPrefix)
      exact ⟨n, hn⟩
    · exact ih h

/-- The request of a symbol gets the name for its constant. -/
def IsConstantOf (symbolPrefix : String) (s : SymbolTable) (r : Request) (name : String) : Prop :=
  (r, name) ∈ s.requests.zip (symbolNames symbolPrefix s)

/-- The name of a constant is declared once unless it is `INSN_COUNT`, which only an instruction can
get. -/
theorem IsConstantOf.count_le_one {r : Request}
    (h : IsConstantOf options.symbolPrefix a.symbols r name)
    (hr : ¬ r.1.toList <+: "INSN_COUNT".toList) :
    (itemNames (moduleLines a options)).count name ≤ 1 := by
  have hne : options.symbolPrefix ++ "INSN_COUNT" ≠ name := by
    obtain ⟨n, rfl⟩ := exists_candidate_of_mem_zip h
    obtain ⟨rest, hrest, hcls⟩ := r.exists_candidate_eq options.symbolPrefix n
    rw [hrest]
    intro heq
    obtain rfl := (String.append_right_inj options.symbolPrefix).mp heq
    exact hr hcls
  rw [(itemNames_moduleLines_perm a options).count_eq, List.count_cons_of_ne hne]
  exact List.nodup_iff_count_le_one.mp (nodup_symbolNames_append _ _) name

/-- Every request gets a name. -/
theorem exists_isConstantOf (symbolPrefix : String) {s : SymbolTable} {r : Request}
    (h : r ∈ s.requests) : ∃ name, IsConstantOf symbolPrefix s r name := by
  have hlength : s.requests.length ≤ (symbolNames symbolPrefix s).length :=
    Nat.le_of_eq (length_claimedNames s.requests []).symm
  rw [← List.map_fst_zip hlength] at h
  obtain ⟨⟨r, name⟩, hmem, rfl⟩ := List.mem_map.mp h
  exact ⟨name, hmem⟩

/-- **What is printed for a symbol** is what is declared for it, and nothing else is printed for its
constant. -/
theorem exists_declaration_of_isConstantOf {r : Request}
    (h : IsConstantOf options.symbolPrefix a.symbols r name)
    (hr : ¬ r.1.toList <+: "INSN_COUNT".toList) :
    ∃ value, (r, value) ∈ a.symbols.declarations ∧
      ∀ rest, .constant name rest ∈ moduleLines a options ↔ rest = value := by
  have hcount := h.count_le_one hr
  rw [IsConstantOf, ← SymbolTable.map_fst_declarations, List.zip_map_left] at h
  obtain ⟨⟨⟨r, value⟩, name⟩, hmem, heq⟩ := List.mem_map.mp h
  obtain ⟨rfl, rfl⟩ := Prod.mk.inj heq
  have hline : .constant name value ∈ moduleLines a options := constant_mem_moduleLines hmem
  refine ⟨value, (List.of_mem_zip hmem).1, fun rest ↦ ⟨fun hrest ↦ ?_, fun hrest ↦ hrest ▸ hline⟩⟩
  exact eq_of_constant_mem hcount hrest hline

end Render

end DecodeTrie
