import DecodeTrie.Proofs.Appearance
import DecodeTrie.Proofs.Catalog.Numbering

/-!
# The names that encodings use

A catalog keeps three lists of names: the types of arguments, their size classes and their named
values. However the catalog has been built, they are what the arguments of its encodings use, from
the first encoding to the last and each name once, where it comes first
(`Catalog.lists_argSymbols_after`).

Names are noted one argument at a time, and only when an instruction is appended with its encodings.
-/

namespace DecodeTrie

/-! ## Names of one argument -/

/-- The name of a named value. -/
def ArgValue.name? : ArgValue → Option String
  | named name => some name
  | _ => none

/-- The size class of an argument whose size is not fixed. -/
def EncodingArg.sizeClass? (arg : EncodingArg) : Option String :=
  match fixedSize? arg.size with
  | some _ => none
  | none => some arg.size

theorem EncodingArg.sizeClass?_eq_some_iff {arg : EncodingArg} {name : String} :
    arg.sizeClass? = some name ↔ fixedSize? arg.size = none ∧ arg.size = name := by
  rw [sizeClass?]
  split
  · next bytes hbytes => simp [hbytes]
  · next hnone => simp [hnone]

/-! ## Lists of names -/

namespace ArgSymbols

variable {s : ArgSymbols} {args : List EncodingArg} {names : List String}

/-- A further name is appended unless it is there. -/
theorem note_eraseDups (names : List String) (name : String) :
    note names.eraseDups name = (names ++ [name]).eraseDups := by
  simp only [note, eraseDups_concat, List.contains_iff_mem, List.mem_eraseDups]

/-- The lists have the names that the arguments use, each once, in the order in which they come
first. -/
structure Lists (s : ArgSymbols) (args : List EncodingArg) : Prop where
  /-- The types of the arguments. -/
  types_eq : s.types = (args.map EncodingArg.argType).eraseDups
  /-- Those sizes that are not fixed. -/
  sizes_eq : s.sizes = (args.filterMap EncodingArg.sizeClass?).eraseDups
  /-- The names among the values. -/
  values_eq : s.values = (args.filterMap fun arg ↦ arg.value.name?).eraseDups

theorem lists_nil : ({} : ArgSymbols).Lists [] := ⟨rfl, rfl, rfl⟩

theorem Lists.noteArg (h : s.Lists args) (arg : EncodingArg) :
    (s.noteArg arg).Lists (args ++ [arg]) where
  types_eq := by
    rw [List.map_append, ArgSymbols.noteArg, h.types_eq]
    exact note_eraseDups _ _
  sizes_eq := by
    rw [List.filterMap_append, ArgSymbols.noteArg, h.sizes_eq]
    rcases hsize : fixedSize? arg.size with _ | bytes
    · simpa [EncodingArg.sizeClass?, hsize] using note_eraseDups _ arg.size
    · simp [EncodingArg.sizeClass?, hsize]
  values_eq := by
    rw [List.filterMap_append, ArgSymbols.noteArg, h.values_eq]
    rcases hvalue : arg.value with _ | _ | v | name
    · simp [ArgValue.name?, hvalue]
    · simp [ArgValue.name?, hvalue]
    · simp [ArgValue.name?, hvalue]
    · simpa [ArgValue.name?, hvalue] using note_eraseDups _ name

theorem Lists.foldl_noteArg (h : s.Lists args) (args' : List EncodingArg) :
    (args'.foldl ArgSymbols.noteArg s).Lists (args ++ args') := by
  induction args' generalizing s args with
  | nil =>
    rw [List.append_nil]
    exact h
  | cons arg args' ih =>
    rw [List.append_cons]
    exact ih (h.noteArg arg)

theorem Lists.noteEncodings (h : s.Lists args) (es : List Encoding) :
    (s.noteEncodings es).Lists (args ++ es.flatMap Encoding.args) := by
  rw [ArgSymbols.noteEncodings]
  induction es generalizing s args with
  | nil =>
    rw [List.flatMap_nil, List.append_nil]
    exact h
  | cons e es ih =>
    rw [List.flatMap_cons, ← List.append_assoc]
    exact ih (h.foldl_noteArg e.args)

theorem Lists.mem_types (h : s.Lists args) {arg : EncodingArg} (harg : arg ∈ args) :
    arg.argType ∈ s.types := by
  rw [h.types_eq, List.mem_eraseDups]
  exact List.mem_map_of_mem harg

theorem Lists.mem_sizes_iff (h : s.Lists args) {name : String} :
    name ∈ s.sizes ↔ ∃ arg ∈ args, fixedSize? arg.size = none ∧ arg.size = name := by
  rw [h.sizes_eq, List.mem_eraseDups, List.mem_filterMap]
  simp only [EncodingArg.sizeClass?_eq_some_iff]

theorem Lists.mem_values (h : s.Lists args) {arg : EncodingArg} (harg : arg ∈ args) {name : String}
    (hname : arg.value = .named name) : name ∈ s.values := by
  rw [h.values_eq, List.mem_eraseDups, List.mem_filterMap]
  exact ⟨arg, harg, by rw [hname, ArgValue.name?]⟩

theorem Lists.nodup (h : s.Lists args) : s.types.Nodup ∧ s.sizes.Nodup ∧ s.values.Nodup := by
  rw [h.types_eq, h.sizes_eq, h.values_eq]
  exact ⟨nodup_eraseDups _, nodup_eraseDups _, nodup_eraseDups _⟩

end ArgSymbols

/-! ## Catalogs -/

namespace Catalog

variable {c : Catalog}

/-- The arguments of all encodings, in the order of the encodings. -/
def encodingArgs (c : Catalog) : List EncodingArg := c.encodings.toList.flatMap Encoding.args

/-- Every step keeps the lists of names right. -/
theorem lists_argSymbols_outcome (h : c.argSymbols.Lists c.encodingArgs) (s : CatalogStep) :
    (s.outcome c).2.argSymbols.Lists (s.outcome c).2.encodingArgs := by
  obtain ⟨r, -, hc⟩ | ⟨decl, c', insn, es, hadds, hc⟩ := s.outcome_cases c
  · rw [hc]
    exact h
  · obtain ⟨r, -, rfl⟩ := hadds.grows
    have hargs : (append { c with registries := r } insn es).encodingArgs =
        c.encodingArgs ++ es.flatMap Encoding.args := by
      rw [encodingArgs, encodings_append, Array.toList_append, List.flatMap_append, encodingArgs]
    rw [hc, hargs]
    exact h.noteEncodings es

/-- **Symbols are listed once**, in the order in which the arguments of a catalog use them, whatever
history has made the catalog. -/
theorem lists_argSymbols_after (history : List CatalogStep) :
    (after history).argSymbols.Lists (after history).encodingArgs := by
  induction history using List.reverseRecOn with
  | nil => exact ArgSymbols.lists_nil
  | append_singleton history s ih =>
    rw [after_concat]
    exact lists_argSymbols_outcome ih s

end Catalog

end DecodeTrie
