import DecodeTrie.Proofs.Render.Names
import DecodeTrie.Proofs.Text.Literals
import DecodeTrie.Render.Module

/-!
# The prefix of all names

A module with a prefix is the module without one, with the prefix put in front of each name that a
line declares. Claiming names commutes with the prefix (`freeName_append`), because all names that
are claimed have it, so that a name is free in the one module if and only if it is in the other: the
same symbols clash, and they get the same numbers. So what is written declaration by declaration is
the same but for the prefix (`Prefixed`), and so are the lines of the module (`moduleLines_eq_map`).

In the text, the prefix stands behind the words with which a declaration begins. These words are at
the beginning of a line only where the line is a declaration (`Line.Plain`): no name and no literal
contains a line break, and the lines with the rows of tables are indented.
Hence the text is found from the text without prefix, line by line (`render_eq_prefixItems`).
-/

namespace DecodeTrie

/-! ## Lines of a text -/

namespace Text

/-- The lines of a text, the parts between its line breaks. -/
def linesOf (text : String) : List String := (text.toList.splitOn '\n').map String.ofList

/-- Lines as a text, with a line break between them. -/
def ofLines (lines : List String) : String := "\n".intercalate lines

theorem linesOf_ofLines {lines : List String} (h : ∀ line ∈ lines, OneLine line)
    (hne : lines ≠ []) : linesOf (ofLines lines) = lines := by
  have hchars : ∀ cs ∈ lines.map String.toList, '\n' ∉ cs := List.forall_mem_map.mpr h
  have hsep : "\n".toList = ['\n'] := by decide
  rw [linesOf, ofLines, String.toList_intercalate, hsep,
    List.splitOn_intercalate '\n' hchars (by simpa using hne), List.map_map]
  simp

/-- Lines that each end with a line break are the lines of a text whose last line is empty. -/
theorem join_eq_ofLines (lines : List String) :
    String.join (lines.map (· ++ "\n")) = ofLines (lines ++ [""]) := by
  induction lines with
  | nil => rfl
  | cons line lines ih =>
    rw [List.map_cons, String.join_cons, ih, ofLines, ofLines, List.cons_append,
      String.intercalate_cons_of_ne_nil (by simp)]

end Text

open Text

namespace Render

/-! ## The prefix in the text -/

/-- What a line with a declaration begins with. -/
def itemStarts : List String := ["pub const ", "pub static "]

/-- A line with a prefix behind the beginning of a declaration, if it begins like one. -/
def prefixLine (p line : String) : String :=
  match itemStarts.find? fun start ↦ start.toList.isPrefixOf line.toList with
  | some start => start ++ p ++ String.ofList (line.toList.drop start.toList.length)
  | none => line

/-- A text with a prefix directly behind each beginning of a declaration that stands at the
beginning of a line. -/
def prefixItems (p text : String) : String := ofLines ((linesOf text).map (prefixLine p))

theorem prefixLine_eq_self (p : String) {line : String}
    (h : ∀ start ∈ itemStarts, ¬ start.toList <+: line.toList) : prefixLine p line = line := by
  have hnone : (itemStarts.find? fun start ↦ start.toList.isPrefixOf line.toList) = none := by
    simpa [List.find?_eq_none] using h
  rw [prefixLine, hnone]

theorem prefixLine_start (p : String) {start : String} (h : start ∈ itemStarts) (rest : String) :
    prefixLine p (start ++ rest) = start ++ p ++ rest := by
  have hsome : (itemStarts.find? fun start' ↦ start'.toList.isPrefixOf (start ++ rest).toList) =
      some start := by
    have hcases : start = "pub const " ∨ start = "pub static " := by simpa [itemStarts] using h
    obtain rfl | rfl := hcases
    · simp [itemStarts]
    · simp [itemStarts]
  rw [prefixLine, hsome]
  simp

example : prefixItems "X86_" "pub const MODE_A: u32 = 1;\n    pub const a" =
    "pub const X86_MODE_A: u32 = 1;\n    pub const a" := by
  decide

/-- A line with the prefix in front of the name that it declares. -/
def Line.withPrefix (p : String) : Line → Line
  | text line => .text line
  | constant name rest => .constant (p ++ name) rest
  | static name rest => .static (p ++ name) rest

/-- The names of the tables of a module. -/
def tableNames : List String := ["DECODER_TABLE", "INSNS", "ENCODINGS"]

/-- A line of a module without prefix is what its text looks like: it has no line break, it begins
like a declaration only if it is one, and it declares a static only for a table. -/
def Line.Plain : Line → Prop
  | text line => OneLine line ∧ ∀ start ∈ itemStarts, ¬ start.toList <+: line.toList
  | constant name rest => OneLine name ∧ OneLine rest
  | static name rest => name ∈ tableNames ∧ OneLine rest

instance : DecidablePred Line.Plain := fun line ↦
  match line with
  | .text _ | .constant _ _ | .static _ _ => inferInstanceAs (Decidable (_ ∧ _))

theorem plain_empty : (Line.text "").Plain := by decide

theorem Line.Plain.oneLine_render {line : Line} (h : line.Plain) : OneLine line.render := by
  cases line with
  | text line => exact h.1
  | constant name rest => simpa +decide [Line.render, Line.Plain] using h
  | static name rest =>
    have hname : ∀ name ∈ tableNames, OneLine name := by decide
    have hstart : OneLine "pub static " := by decide
    exact oneLine_append.mpr ⟨oneLine_append.mpr ⟨hstart, hname name h.1⟩, h.2⟩

theorem Line.Plain.render_withPrefix {line : Line} (h : line.Plain) (p : String) :
    (line.withPrefix p).render = prefixLine p line.render := by
  cases line with
  | text line => exact (prefixLine_eq_self p h.2).symm
  | constant name rest =>
    rw [Line.render, String.append_assoc, prefixLine_start p (by decide)]
    simp [Line.withPrefix, Line.render, String.append_assoc]
  | static name rest =>
    rw [Line.render, String.append_assoc, prefixLine_start p (by decide)]
    simp [Line.withPrefix, Line.render, String.append_assoc]

/-! ## The prefix in names -/

variable {p : String}

theorem candidate_append (p base : String) (n : Nat) :
    candidate (p ++ base) n = p ++ candidate base n := by
  cases n with
  | zero => rfl
  | succ n => simp only [candidate, String.append_assoc]

theorem prefix_mem_map_iff {taken : Names} {name : String} :
    p ++ name ∈ taken.map (p ++ ·) ↔ name ∈ taken := by
  refine ⟨fun h ↦ ?_, List.mem_map_of_mem⟩
  obtain ⟨name', hmem, heq⟩ := List.mem_map.mp h
  exact (String.append_right_inj p).mp heq ▸ hmem

/-- **Choosing a free name commutes with the prefix** if all names that are claimed have it. -/
theorem freeName_append (p : String) (taken : Names) (base : String) :
    freeName (taken.map (p ++ ·)) (p ++ base) = p ++ freeName taken base := by
  have hcandidate (n : Nat) :
      (if (taken.map (p ++ ·)).contains (candidate (p ++ base) n) then none
        else some (candidate (p ++ base) n)) =
      (if taken.contains (candidate base n) then none
        else some (candidate base n)).map (p ++ ·) := by
    simp only [candidate_append, List.contains_iff_mem, prefix_mem_map_iff]
    split
    · rfl
    · rfl
  have hfind := List.map_findSome? (f := fun n ↦
    if taken.contains (candidate base n) then none else some (candidate base n)) (g := (p ++ ·))
    (l := List.range (taken.length + 1))
  rw [freeName, List.length_map, funext hcandidate]
  exact (congrArg (Option.getD · (p ++ base)) hfind.symm).trans (Option.getD_map (p ++ ·) base _)

theorem baseName_eq_append (p cls raw : String) : baseName p cls raw = p ++ baseName "" cls raw := by
  simp [baseName]

/-! ## Names without line breaks -/

theorem nameChar_ne_newline (c : Char) : nameChar c ≠ '\n' := by
  rw [nameChar]
  split
  · next h =>
    intro heq
    by_cases hlower : 'a'.val ≤ c.val ∧ c.val ≤ 'z'.val
    · -- The capital of a small letter is 32 below it.
      have hupper := heq.symm.trans (dif_pos hlower)
      rw [UInt32.eq_sub_iff_add_eq.mpr (congrArg Char.val hupper).symm] at hlower
      exact absurd hlower.1 (by decide)
    · have hsame : c.toUpper = c := dif_neg hlower
      rw [← hsame, heq] at h
      exact absurd h (by decide)
  · decide

theorem newline_not_mem_constantName {cls : String} (h : OneLine cls) (raw : String) :
    '\n' ∉ constantName cls raw := by
  have hident : '\n' ∉ raw.toList.map nameChar := by
    intro hmem
    obtain ⟨c, -, hc⟩ := List.mem_map.mp hmem
    exact nameChar_ne_newline c hc
  simp only [constantName]
  split
  · exact hident
  · rw [List.mem_append, not_or]
    exact ⟨h, hident⟩

theorem oneLine_candidate {base : String} (h : OneLine base) (n : Nat) :
    OneLine (candidate base n) := by
  cases n with
  | zero => exact h
  | succ n => simpa +decide [candidate] using h

theorem oneLine_freeName (taken : Names) {base : String} (h : OneLine base) :
    OneLine (freeName taken base) := by
  obtain ⟨n, hn, -⟩ := exists_freeName_eq_candidate taken base
  exact hn ▸ oneLine_candidate h n

/-! ## The prefix in what is written -/

/-- Two actions write the same lines but for the prefix and claim the same names but for the prefix,
and without the prefix all lines are plain. -/
structure Prefixed (p : String) (write write' : StateM Names (List Line)) : Prop where
  /-- The lines and the claimed names. -/
  run_eq : ∀ taken, write (taken.map (p ++ ·)) =
    ((write' taken).1.map (Line.withPrefix p), (write' taken).2.map (p ++ ·))
  /-- The lines without prefix are plain. -/
  plain : ∀ taken, ∀ line ∈ (write' taken).1, line.Plain

variable {write write' : StateM Names (List Line)}

theorem Prefixed.pure {lines lines' : List Line} (h : lines = lines'.map (Line.withPrefix p))
    (hplain : ∀ line ∈ lines', line.Plain) : Prefixed p (pure lines) (pure lines') where
  run_eq taken := congrArg (·, taken.map (p ++ ·)) h
  plain _ := hplain

theorem Prefixed.bind {next next' : List Line → StateM Names (List Line)}
    (h : Prefixed p write write')
    (hnext : ∀ lines, (∀ line ∈ lines, line.Plain) →
      Prefixed p (next (lines.map (Line.withPrefix p))) (next' lines)) :
    Prefixed p (write >>= next) (write' >>= next') where
  run_eq taken := by
    change next (write _).1 (write _).2 = _
    rw [h.run_eq]
    exact (hnext _ (h.plain taken)).run_eq _
  plain taken := (hnext _ (h.plain taken)).plain _

theorem map_withPrefix_block (lines : List Line) :
    (block lines).map (Line.withPrefix p) = block (lines.map (Line.withPrefix p)) := by
  simp only [block, List.isEmpty_map]
  split
  · rfl
  · simp [Line.withPrefix]

theorem Prefixed.block (h : Prefixed p write write') :
    Prefixed p (do let lines ← write; return Render.block lines)
      (do let lines ← write'; return Render.block lines) := by
  refine h.bind fun lines hlines ↦ .pure (map_withPrefix_block lines).symm ?_
  unfold Render.block
  split
  · exact List.forall_mem_nil _
  · exact List.forall_mem_append.mpr ⟨hlines, List.forall_mem_singleton.mpr plain_empty⟩

theorem prefixed_constants (p : String) {cls type : String} (hcls : OneLine cls)
    (htype : OneLine type) {symbols : List (String × String)}
    (hsymbols : ∀ s ∈ symbols, OneLine s.2) :
    Prefixed p (constants p cls type symbols) (constants "" cls type symbols) := by
  induction symbols with
  | nil => exact .pure rfl (List.forall_mem_nil _)
  | cons symbol symbols ih =>
    obtain ⟨hvalue, hsymbols⟩ := List.forall_mem_cons.mp hsymbols
    have hclaim (taken : Names) : freeName (taken.map (p ++ ·)) (baseName p cls symbol.1) =
        p ++ freeName taken (baseName "" cls symbol.1) := by
      rw [baseName_eq_append, freeName_append]
    have hrest := ih hsymbols
    constructor
    · intro taken
      change (Line.constant _ _ :: (constants p cls type symbols (_ :: _)).1,
        (constants p cls type symbols (_ :: _)).2) = _
      rw [hclaim, ← List.map_cons, hrest.run_eq]
      rfl
    · intro taken
      refine List.forall_mem_cons.mpr ⟨⟨?_, ?_⟩, hrest.plain _⟩
      · refine oneLine_freeName _ ?_
        simp [baseName, newline_not_mem_constantName hcls]
      · simp +decide [htype, hvalue]

theorem prefixed_maskBlock (p : String) {cls : String} (hcls : OneLine cls)
    (symbols : List Symbol) : Prefixed p (maskBlock p cls symbols) (maskBlock "" cls symbols) := by
  refine (prefixed_constants p hcls (by decide) (List.forall_mem_map.mpr fun s _ ↦ ?_)).block
  exact oneLine_paddedHexLiteral _ _

theorem prefixed_codeBlock (p : String) {cls : String} (hcls : OneLine cls) (base : UInt16)
    (names : List String) :
    Prefixed p (codeBlock p cls base names) (codeBlock "" cls base names) := by
  refine (prefixed_constants p hcls (by decide) (List.forall_mem_map.mpr fun n _ ↦ ?_)).block
  exact oneLine_hexLiteral _

theorem prefixed_symbolLines (p : String) (s : SymbolTable) :
    Prefixed p (symbolLines p s) (symbolLines "" s) := by
  have hinstructions : Prefixed p
      (constants p "INSN_" "u32" (s.instructions.map fun i ↦ (i.name, toString i.value)))
      (constants "" "INSN_" "u32" (s.instructions.map fun i ↦ (i.name, toString i.value))) :=
    prefixed_constants p (by decide) (by decide)
      (List.forall_mem_map.mpr fun i _ ↦ oneLine_repr i.value)
  refine hinstructions.bind fun insns hinsns ↦
    (prefixed_maskBlock p (by decide) _).bind fun insnTags hinsnTags ↦
    (prefixed_maskBlock p (by decide) _).bind fun encTags hencTags ↦
    (prefixed_maskBlock p (by decide) _).bind fun modes hmodes ↦
    (prefixed_maskBlock p (by decide) _).bind fun modeSets hmodeSets ↦
    (prefixed_codeBlock p (by decide) _ _).bind fun types htypes ↦
    (prefixed_codeBlock p (by decide) _ _).bind fun sizes hsizes ↦
    (prefixed_codeBlock p (by decide) _ _).bind fun values hvalues ↦ .pure ?_ ?_
  · simp only [List.map_append, List.map_cons, List.map_nil, Line.withPrefix, String.empty_append]
  · have hcount : (Line.constant ("" ++ "INSN_COUNT")
        (": usize = " ++ toString s.instructions.length ++ ";")).Plain := by
      simp +decide [Line.Plain]
    simp only [List.forall_mem_append, List.forall_mem_cons, and_assoc]
    exact ⟨hinsns, hcount, plain_empty, List.forall_mem_nil _, hinsnTags, hencTags, hmodes,
      hmodeSets, htypes, hsizes, hvalues⟩

/-! ## The whole module -/

/-- A line of text that begins unlike any declaration is plain. -/
theorem Line.plain_text {line : String} (h : OneLine line) (hhead : line.toList.head? ≠ some 'p') :
    (Line.text line).Plain := by
  have hstarts : ∀ start ∈ itemStarts, start.toList.head? = some 'p' := by decide
  refine ⟨h, fun start hstart ⟨rest, hrest⟩ ↦ hhead ?_⟩
  rw [← hrest, List.head?_append, hstarts start hstart]
  rfl

theorem plain_wordLine (words : List UInt32) : (wordLine words).Plain := by
  have hwords : OneLine (" ".intercalate (words.map fun w ↦ wordLiteral w.toNat ++ ",")) :=
    oneLine_intercalate (by decide) (List.forall_mem_map.mpr fun w _ ↦
      oneLine_append.mpr ⟨oneLine_paddedHexLiteral _ _, by decide⟩)
  refine Line.plain_text ?_ ?_
  · simpa +decide using hwords
  · simp

theorem oneLine_listLiteral {α : Type} [ToString α] (h : ∀ x : α, OneLine (toString x))
    (xs : List α) : OneLine (listLiteral xs) := by
  have hparts : OneLine (", ".intercalate (xs.map toString)) :=
    oneLine_intercalate (by decide) (List.forall_mem_map.mpr fun x _ ↦ h x)
  simpa +decide [listLiteral] using hparts

theorem oneLine_rangeLiteral (range : Option EncodingRange) : OneLine (rangeLiteral range) := by
  cases range with
  | none => decide
  | some range => simp +decide [rangeLiteral]

theorem plain_instructionLine (row : InstructionRow) : (instructionLine row).Plain := by
  have hsizes := oneLine_listLiteral oneLine_toString_int row.argSizes
  refine Line.plain_text ?_ ?_
  · simp +decide [oneLine_rangeLiteral, hsizes]
  · simp

theorem plain_encodingLine (s : SymbolTable) (row : EncodingRow) : (encodingLine s row).Plain := by
  have hcodes := oneLine_listLiteral oneLine_repr
  refine Line.plain_text ?_ ?_
  · simp +decide [hcodes]
  · simp

theorem Line.plain_ofList {cs : List Char} (h : '\n' ∉ cs) (hhead : cs.head? ≠ some 'p') :
    (Line.text (String.ofList cs)).Plain :=
  Line.plain_text (oneLine_ofList.mpr h) (by rwa [String.toList_ofList])

theorem plain_of_mem_rowTypes : ∀ line ∈ rowTypes, line.Plain := by
  refine List.forall_mem_map.mpr ?_
  repeat' refine List.forall_mem_cons.mpr ⟨?_, ?_⟩
  -- Deciding about the characters is much faster than deciding about the text that they make.
  all_goals first
    | exact Line.plain_ofList (by decide) (by decide)
    | exact List.forall_mem_nil _
    | exact ⟨oneLine_ofList.mpr (by decide), by decide⟩

theorem map_withPrefix_rowTypes : rowTypes.map (Line.withPrefix p) = rowTypes := rfl

/-- Lines of text stay as they are. -/
theorem map_withPrefix_map {α : Type} (line : α → Line) (h : ∀ x, (line x).withPrefix p = line x)
    (xs : List α) : (xs.map line).map (Line.withPrefix p) = xs.map line := by
  rw [List.map_map]
  exact List.map_congr_left fun x _ ↦ h x

theorem map_withPrefix_table (name type : String) (length : Nat) (lines : List Line) :
    (table name type length lines).map (Line.withPrefix p) =
      table (p ++ name) type length (lines.map (Line.withPrefix p)) := by
  simp [table, Line.withPrefix]

theorem plain_table {name type : String} (hname : name ∈ tableNames) (htype : OneLine type)
    (length : Nat) {lines : List Line} (hlines : ∀ line ∈ lines, line.Plain) :
    ∀ line ∈ table name type length lines, line.Plain := by
  have hstart : (Line.static name (": [" ++ type ++ "; " ++ toString length ++ "] = [")).Plain :=
    ⟨hname, by simp +decide [htype]⟩
  have hend : (Line.text "];").Plain := Line.plain_text (by decide) (by decide)
  rw [table, List.forall_mem_append, List.forall_mem_cons, List.forall_mem_singleton]
  exact ⟨⟨hstart, hlines⟩, hend⟩

/-- **The lines of a module with a prefix** are those of the module without one, with the prefix in
front of the names that they declare. -/
theorem moduleLines_eq_map (a : Artifacts) (p : String) (w : Nat) :
    moduleLines a ⟨p, w⟩ = (moduleLines a ⟨"", w⟩).map (Line.withPrefix p) := by
  have hsymbols : (symbolLines p a.symbols []).1 =
      (symbolLines "" a.symbols []).1.map (Line.withPrefix p) :=
    congrArg Prod.fst ((prefixed_symbolLines p a.symbols).run_eq [])
  simp only [moduleLines, List.map_append, map_withPrefix_table, map_withPrefix_rowTypes, hsymbols,
    map_withPrefix_map wordLine fun _ ↦ rfl,
    map_withPrefix_map instructionLine fun _ ↦ rfl,
    map_withPrefix_map (encodingLine a.symbols) fun _ ↦ rfl,
    List.map_cons, List.map_nil, Line.withPrefix, String.empty_append]

theorem plain_of_mem_moduleLines (a : Artifacts) (w : Nat) :
    ∀ line ∈ moduleLines a ⟨"", w⟩, line.Plain := by
  have hempty : ∀ line ∈ [Line.text ""], line.Plain := List.forall_mem_singleton.mpr plain_empty
  simp only [moduleLines, List.forall_mem_append, and_assoc]
  refine ⟨?head, ?symbols, ?words, hempty, plain_of_mem_rowTypes, hempty, ?insns, hempty, ?encs⟩
  case head => decide
  case symbols => exact (prefixed_symbolLines "" a.symbols).plain []
  case words =>
    exact plain_table (by decide) (by decide) _
      (List.forall_mem_map.mpr fun words _ ↦ plain_wordLine words)
  case insns =>
    exact plain_table (by decide) (by decide) _
      (List.forall_mem_map.mpr fun row _ ↦ plain_instructionLine row)
  case encs =>
    exact plain_table (by decide) (by decide) _
      (List.forall_mem_map.mpr fun row _ ↦ plain_encodingLine a.symbols row)

/-! ## The whole text -/

theorem render_eq_ofLines (a : Artifacts) (options : RenderOptions) :
    a.render options = ofLines ((moduleLines a options).map Line.render ++ [""]) := by
  rw [← join_eq_ofLines, List.map_map]
  rfl

/-- The lines of the text of a module without prefix. -/
theorem linesOf_render (a : Artifacts) (w : Nat) :
    linesOf (a.render ⟨"", w⟩) = (moduleLines a ⟨"", w⟩).map Line.render ++ [""] := by
  rw [render_eq_ofLines, linesOf_ofLines _ (by simp)]
  rw [List.forall_mem_append, List.forall_mem_singleton]
  refine ⟨List.forall_mem_map.mpr fun line hline ↦ ?_, by decide⟩
  exact (plain_of_mem_moduleLines a w line hline).oneLine_render

/-- **The text of a module with a prefix** is the text without it, with the prefix behind each
beginning of a declaration. -/
theorem render_eq_prefixItems (a : Artifacts) (p : String) (w : Nat) :
    a.render ⟨p, w⟩ = prefixItems p (a.render ⟨"", w⟩) := by
  rw [prefixItems, linesOf_render, render_eq_ofLines, moduleLines_eq_map, List.map_append,
    List.map_map, List.map_map]
  have hlines : (moduleLines a ⟨"", w⟩).map (Line.render ∘ Line.withPrefix p) =
      (moduleLines a ⟨"", w⟩).map (prefixLine p ∘ Line.render) :=
    List.map_congr_left fun line hline ↦
      (plain_of_mem_moduleLines a w line hline).render_withPrefix p
  rw [hlines]
  rfl

end Render

end DecodeTrie
