import DecodeTrie.Proofs.Agreement
import DecodeTrie.Proofs.Catalog.Symbols
import DecodeTrie.Proofs.Render.Constants

/-!
# Codes of arguments

The arguments of an encoding are written in its row by codes of 16 bits: one for the type, one for
the size and one for the value. Three computations have a part in them. The catalog collects the
names that arguments use, the symbol table looks up the place of a name, and the module declares a
constant for each name by its place. They agree (`argumentCodes_after`).

Codes do not get in each other's way: a fixed size is at most 127, byte codes of values are at most
`0x81` because literals are at most 127, and names are numbered from `0x100` on. Nothing overflows
as long as there are not more names than codes (`SymbolTable.CodesFit`).
-/

namespace DecodeTrie

open Render

/-! ## Codes of names -/

section

variable {base code : UInt16} {names : List String} {name name' : String}

/-- Names that fit behind the base have different codes, from the base on. -/
theorem nameCode?_eq_some_iff (hfit : base.toNat + names.length ≤ UInt16.size) :
    nameCode? base names name = some code ↔
      ∃ i, names.idxOf? name = some i ∧ code.toNat = base.toNat + i := by
  rw [nameCode?, Option.map_eq_some_iff]
  refine exists_congr fun i ↦ and_congr_right fun hi ↦ ?_
  have hlt : i < names.length := (List.idxOf?_eq_some_iff.mp hi).1
  have hnat : (base + UInt16.ofNat i).toNat = base.toNat + i := by
    rw [UInt16.toNat_add, UInt16.toNat_ofNat']
    rw [UInt16.size] at hfit
    omega
  rw [← UInt16.toNat_inj, hnat, eq_comm]

theorem exists_nameCode? (hfit : base.toNat + names.length ≤ UInt16.size) (h : name ∈ names) :
    ∃ code, nameCode? base names name = some code ∧ base.toNat ≤ code.toNat := by
  obtain ⟨i, hi⟩ := Option.isSome_iff_exists.mp (List.isSome_idxOf?.mpr h)
  have hcode : nameCode? base names name = some (base + UInt16.ofNat i) := by
    rw [nameCode?, hi, Option.map_some]
  obtain ⟨j, -, hj⟩ := (nameCode?_eq_some_iff hfit).mp hcode
  exact ⟨_, hcode, by omega⟩

theorem nameCode?_eq_iff (hfit : base.toNat + names.length ≤ UInt16.size) (h : name ∈ names) :
    nameCode? base names name = nameCode? base names name' ↔ name = name' := by
  refine ⟨fun heq ↦ ?_, fun heq ↦ heq ▸ rfl⟩
  obtain ⟨code, hcode, -⟩ := exists_nameCode? hfit h
  obtain ⟨i, hi, hcode_i⟩ := (nameCode?_eq_some_iff hfit).mp hcode
  obtain ⟨j, hj, hcode_j⟩ := (nameCode?_eq_some_iff hfit).mp (heq ▸ hcode)
  obtain rfl : i = j := by omega
  obtain ⟨hlt, hname, -⟩ := List.idxOf?_eq_some_iff.mp hi
  obtain ⟨_, hname', -⟩ := List.idxOf?_eq_some_iff.mp hj
  exact hname.symm.trans hname'

end

/-- A fixed size is one of 1 to 127 bytes. -/
theorem le_of_fixedSize? {size : String} {bytes : Nat} (h : fixedSize? size = some bytes) :
    bytes ≤ 127 := by
  rw [fixedSize?, Option.filter_eq_some_iff, isFixedSize_iff] at h
  exact h.2.2

namespace ArgValue

variable {v v' : ArgValue} {k : Nat}

/-- A value has a name or a byte code. -/
theorem named_or_code (v : ArgValue) (h : ∀ n, v = .literal n → n ≤ 127) :
    (∃ name, v = .named name) ∨ ∃ k, v.code = some k ∧ k ≤ 129 := by
  rcases v with _ | _ | n | name
  · exact .inr ⟨_, rfl, by decide⟩
  · exact .inr ⟨_, rfl, by decide⟩
  · exact .inr ⟨n, rfl, Nat.le_trans (h n rfl) (by decide)⟩
  · exact .inl ⟨name, rfl⟩

/-- The byte codes tell values apart, as literals are below the codes of the other values. -/
theorem code_inj (h : ∀ n, v = .literal n → n ≤ 127) (h' : ∀ n, v' = .literal n → n ≤ 127)
    (hk : v.code = some k) (hk' : v'.code = some k) : v = v' := by
  rcases v with _ | _ | n | name <;> rcases v' with _ | _ | n' | name' <;> grind [ArgValue.code]

end ArgValue

namespace SymbolTable

variable {s : SymbolTable} {args : List EncodingArg}

/-- There are not more names than codes of 16 bits. -/
structure CodesFit (s : SymbolTable) : Prop where
  /-- Types are numbered from 1. -/
  argTypes_le : s.argTypes.length ≤ 65535
  /-- Size classes are numbered from `0x100`. -/
  argSizes_le : s.argSizes.length ≤ 65280
  /-- Named values are numbered from `0x100`. -/
  argValues_le : s.argValues.length ≤ 65280

/-- Each of the arguments has codes, and the codes tell types, sizes and values apart. -/
structure Codes (s : SymbolTable) (args : List EncodingArg) : Prop where
  /-- An argument has a type code, which is not that of no argument. -/
  exists_typeCode : ∀ x ∈ args, ∃ code, s.argTypeCode? x.argType = some code ∧ 1 ≤ code.toNat
  /-- An argument has a size code. -/
  exists_sizeCode : ∀ x ∈ args, ∃ code, s.argSizeCode? x.size = some code
  /-- An argument has a value code. -/
  exists_valueCode : ∀ x ∈ args, ∃ code, s.argValueCode? x.value = some code
  /-- Type codes are those of the same type. -/
  typeCode_eq_iff : ∀ x ∈ args, ∀ y ∈ args,
    s.argTypeCode? x.argType = s.argTypeCode? y.argType ↔ x.argType = y.argType
  /-- Size codes are those of the same number of bytes or of the same size class. -/
  sizeCode_eq_iff : ∀ x ∈ args, ∀ y ∈ args,
    s.argSizeCode? x.size = s.argSizeCode? y.size ↔
      (∃ bytes, fixedSize? x.size = some bytes ∧ fixedSize? y.size = some bytes) ∨
        fixedSize? x.size = none ∧ x.size = y.size
  /-- Value codes are those of the same value. -/
  valueCode_eq_iff : ∀ x ∈ args, ∀ y ∈ args,
    s.argValueCode? x.value = s.argValueCode? y.value ↔ x.value = y.value

theorem CodesFit.argTypes (h : s.CodesFit) :
    typeCodeBase.toNat + s.argTypes.length ≤ UInt16.size := by
  have := h.argTypes_le
  simp only [typeCodeBase, UInt16.size, UInt16.reduceToNat]
  omega

theorem CodesFit.argSizes (h : s.CodesFit) :
    symbolicCodeBase.toNat + s.argSizes.length ≤ UInt16.size := by
  have := h.argSizes_le
  simp only [symbolicCodeBase, UInt16.size, UInt16.reduceToNat]
  omega

theorem CodesFit.argValues (h : s.CodesFit) :
    symbolicCodeBase.toNat + s.argValues.length ≤ UInt16.size := by
  have := h.argValues_le
  simp only [symbolicCodeBase, UInt16.size, UInt16.reduceToNat]
  omega

/-! ### Sizes -/

section sizes

variable {size size' : String} {bytes : Nat}

/-- The code of a fixed size is its number of bytes. -/
theorem argSizeCode?_of_fixed (h : fixedSize? size = some bytes) :
    ∃ code, s.argSizeCode? size = some code ∧ code.toNat = bytes ∧ bytes ≤ 127 := by
  have hle := le_of_fixedSize? h
  refine ⟨UInt16.ofNat bytes, by rw [argSizeCode?, h], ?_, hle⟩
  rw [UInt16.toNat_ofNat']
  omega

/-- The code of a size class is above those of all fixed sizes. -/
theorem argSizeCode?_of_class (hfit : s.CodesFit) (h : fixedSize? size = none)
    (hmem : size ∈ s.argSizes) :
    ∃ code, s.argSizeCode? size = some code ∧ 256 ≤ code.toNat := by
  rw [argSizeCode?, h]
  exact exists_nameCode? hfit.argSizes hmem

/-- Size codes are equal if and only if the sizes are fixed at the same number of bytes, or are the
same size class. -/
theorem argSizeCode?_eq_iff (hfit : s.CodesFit) (h : fixedSize? size = none → size ∈ s.argSizes)
    (h' : fixedSize? size' = none → size' ∈ s.argSizes) :
    s.argSizeCode? size = s.argSizeCode? size' ↔
      (∃ bytes, fixedSize? size = some bytes ∧ fixedSize? size' = some bytes) ∨
        fixedSize? size = none ∧ size = size' := by
  rcases hs : fixedSize? size with _ | bytes
  · obtain ⟨code, hcode, hge⟩ := argSizeCode?_of_class hfit hs (h hs)
    rcases hs' : fixedSize? size' with _ | bytes'
    · rw [argSizeCode?, argSizeCode?, hs, hs']
      simpa using nameCode?_eq_iff hfit.argSizes (h hs)
    · obtain ⟨code', hcode', rfl, hle⟩ := argSizeCode?_of_fixed (s := s) hs'
      rw [hcode, hcode', Option.some.injEq, ← UInt16.toNat_inj]
      refine iff_of_false (by omega) ?_
      rintro (⟨_, h, -⟩ | ⟨-, rfl⟩)
      · cases h
      · rw [hs] at hs'
        cases hs'
  · obtain ⟨code, hcode, rfl, hle⟩ := argSizeCode?_of_fixed (s := s) hs
    rcases hs' : fixedSize? size' with _ | bytes'
    · obtain ⟨code', hcode', hge⟩ := argSizeCode?_of_class hfit hs' (h' hs')
      rw [hcode, hcode', Option.some.injEq, ← UInt16.toNat_inj]
      exact iff_of_false (by omega) (by simp)
    · obtain ⟨code', hcode', rfl, -⟩ := argSizeCode?_of_fixed (s := s) hs'
      rw [hcode, hcode', Option.some.injEq, ← UInt16.toNat_inj]
      simp [eq_comm]

end sizes

/-! ### Values -/

section values

variable {value value' : ArgValue} {k : Nat}

/-- The code of a value without name is its byte code. -/
theorem argValueCode?_of_byte (h : value.code = some k) (hle : k ≤ 129) :
    ∃ code, s.argValueCode? value = some code ∧ code.toNat = k := by
  refine ⟨UInt16.ofNat k, ?_, ?_⟩
  · rw [argValueCode?.eq_def]
    split
    · cases h
    · rw [h, Option.map_some]
  · rw [UInt16.toNat_ofNat']
    omega

/-- The code of a named value is above all byte codes. -/
theorem argValueCode?_of_named (hfit : s.CodesFit) {name : String} (hmem : name ∈ s.argValues) :
    ∃ code, s.argValueCode? (.named name) = some code ∧ 256 ≤ code.toNat :=
  exists_nameCode? hfit.argValues hmem

/-- Value codes are equal if and only if the values are. -/
theorem argValueCode?_eq_iff (hfit : s.CodesFit) (hname : ∀ n, value = .named n → n ∈ s.argValues)
    (hname' : ∀ n, value' = .named n → n ∈ s.argValues) (h : ∀ n, value = .literal n → n ≤ 127)
    (h' : ∀ n, value' = .literal n → n ≤ 127) :
    s.argValueCode? value = s.argValueCode? value' ↔ value = value' := by
  refine ⟨fun heq ↦ ?_, fun heq ↦ heq ▸ rfl⟩
  obtain ⟨name, rfl⟩ | ⟨k, hk, hle⟩ := value.named_or_code h
  · obtain ⟨name', rfl⟩ | ⟨k', hk', hle'⟩ := value'.named_or_code h'
    · exact congrArg _ ((nameCode?_eq_iff hfit.argValues (hname name rfl)).mp heq)
    · obtain ⟨code, hcode, hge⟩ := argValueCode?_of_named hfit (hname name rfl)
      obtain ⟨code', hcode', rfl⟩ := argValueCode?_of_byte (s := s) hk' hle'
      obtain rfl : code = code' := Option.some.inj (hcode.symm.trans (heq.trans hcode'))
      omega
  · obtain ⟨code, hcode, rfl⟩ := argValueCode?_of_byte (s := s) hk hle
    obtain ⟨name', rfl⟩ | ⟨k', hk', hle'⟩ := value'.named_or_code h'
    · obtain ⟨code', hcode', hge'⟩ := argValueCode?_of_named hfit (hname' name' rfl)
      obtain rfl : code = code' := Option.some.inj (hcode.symm.trans (heq.trans hcode'))
      omega
    · obtain ⟨code', hcode', rfl⟩ := argValueCode?_of_byte (s := s) hk' hle'
      obtain rfl : code = code' := Option.some.inj (hcode.symm.trans (heq.trans hcode'))
      exact ArgValue.code_inj h h' hk hk'

end values

/-- **Codes are complete and faithful** where the symbols are those that the arguments use. -/
theorem codes_of_lists
    (hlists : (ArgSymbols.mk s.argTypes s.argSizes s.argValues).Lists args) (hfit : s.CodesFit)
    (hliterals : LiteralsFit args) : s.Codes args := by
  have htype {x : EncodingArg} (hx : x ∈ args) : x.argType ∈ s.argTypes := hlists.mem_types hx
  have hsize {x : EncodingArg} (hx : x ∈ args) (h : fixedSize? x.size = none) :
      x.size ∈ s.argSizes := hlists.mem_sizes_iff.mpr ⟨x, hx, h, rfl⟩
  have hname {x : EncodingArg} (hx : x ∈ args) (n : String) (h : x.value = .named n) :
      n ∈ s.argValues := hlists.mem_values hx h
  constructor
  · intro x hx
    exact exists_nameCode? hfit.argTypes (htype hx)
  · intro x hx
    rcases h : fixedSize? x.size with _ | bytes
    · obtain ⟨code, hcode, -⟩ := argSizeCode?_of_class hfit h (hsize hx h)
      exact ⟨code, hcode⟩
    · obtain ⟨code, hcode, -⟩ := argSizeCode?_of_fixed (s := s) h
      exact ⟨code, hcode⟩
  · intro x hx
    obtain ⟨name, h⟩ | ⟨k, h, hle⟩ := x.value.named_or_code (hliterals x hx)
    · obtain ⟨code, hcode, -⟩ := argValueCode?_of_named hfit (hname hx name h)
      exact ⟨code, h ▸ hcode⟩
    · obtain ⟨code, hcode, -⟩ := argValueCode?_of_byte (s := s) h hle
      exact ⟨code, hcode⟩
  · intro x hx y hy
    exact nameCode?_eq_iff hfit.argTypes (htype hx)
  · intro x hx y hy
    exact argSizeCode?_eq_iff hfit (hsize hx) (hsize hy)
  · intro x hx y hy
    exact argValueCode?_eq_iff hfit (hname hx) (hname hy) (hliterals x hx) (hliterals y hy)

/-! ## Rows -/

/-- What is printed for the arguments of a row are their codes: none of them is missing, and the row
has a place for each. -/
structure PrintsCodes (s : SymbolTable) (row : EncodingRow) : Prop where
  /-- The arguments fit into a row. -/
  length_le : row.args.length ≤ maxArguments
  /-- Every argument has its codes printed. -/
  exists_codes : ∃ types sizes values : List UInt16,
    row.args.map (fun x ↦ s.argTypeCode? x.argType) = types.map some ∧
      row.args.map (fun x ↦ s.argSizeCode? x.size) = sizes.map some ∧
      row.args.map (fun x ↦ s.argValueCode? x.value) = values.map some ∧
      argCodes s row.args =
        (fillArguments 0 types, fillArguments 0 sizes, fillArguments 0 values)

/-- Where nothing is missing, the value that stands for what is missing does not appear. -/
theorem map_eq_map_some {α β : Type} {f : α → Option β} {xs : List α} (d : β)
    (h : ∀ x ∈ xs, ∃ y, f x = some y) : xs.map f = (xs.map fun x ↦ (f x).getD d).map some := by
  rw [List.map_map]
  refine List.map_congr_left fun x hx ↦ ?_
  obtain ⟨y, hy⟩ := h x hx
  rw [Function.comp_apply, hy, Option.getD_some]

theorem Codes.printsCodes (h : s.Codes args) {row : EncodingRow} (hrow : row.args ⊆ args)
    (hlength : row.args.length ≤ maxArguments) : s.PrintsCodes row where
  length_le := hlength
  exists_codes := by
    refine ⟨_, _, _, map_eq_map_some 0 fun x hx ↦ ?_, map_eq_map_some 0 fun x hx ↦
      h.exists_sizeCode x (hrow hx), map_eq_map_some 0 fun x hx ↦ h.exists_valueCode x (hrow hx),
      rfl⟩
    obtain ⟨code, hcode, -⟩ := h.exists_typeCode x (hrow hx)
    exact ⟨code, hcode⟩

end SymbolTable

namespace Artifacts

variable {c : Catalog} {a : Artifacts}

/-- The rows have the arguments of the encodings of the catalog. -/
theorem Lists.flatMap_args (h : a.Lists c) :
    a.encodings.flatMap EncodingRow.args = c.encodingArgs := by
  have hargs : c.encodings.toList.map Encoding.args = a.encodings.map EncodingRow.args := by
    rw [← List.forall₂_eq_eq_eq, List.forall₂_map_left_iff, List.forall₂_map_right_iff]
    refine h.encodings.imp fun e row hrow ↦ ?_
    obtain ⟨d, -, rfl, -⟩ := hrow
    rfl
  rw [Catalog.encodingArgs, List.flatMap_def, List.flatMap_def, hargs]

/-- An encoding has no more arguments than an instruction can have. -/
theorem Lists.length_args_le (h : a.Lists c) (hc : c.WellFormed) {row : EncodingRow}
    (hrow : row ∈ a.encodings) : row.args.length ≤ maxArguments := by
  obtain ⟨n, hn⟩ := List.mem_iff_getElem?.mp hrow
  obtain ⟨e, d, he, rfl⟩ := h.exists_encoding hn
  obtain ⟨insn, hinsn, -⟩ := (hc.insn_eq_iff he e.insn).mp rfl
  rw [Encoding.row, hc.length_args he hinsn]
  exact (hc.sound_instruction hinsn).args_le

end Artifacts

/-! ## Constants -/

namespace Render

variable {a : Artifacts} {options : RenderOptions} {cls name : String} {base code : UInt16}
  {names : List String}

/-- The symbol gets a constant, and the code is what the module prints for that constant, once and
nowhere else anything different. -/
def PrintsCode (a : Artifacts) (options : RenderOptions) (r : Request) (code : UInt16) : Prop :=
  (∃ name, IsConstantOf options.symbolPrefix a.symbols r name) ∧
    ∀ name, IsConstantOf options.symbolPrefix a.symbols r name → ∀ rest,
      .constant name rest ∈ moduleLines a options ↔
        rest = ": u16 = " ++ Text.hexLiteral code.toNat ++ ";"

/-- What is declared for a name is its code. -/
theorem mem_codeDeclarations_iff (hnodup : names.Nodup)
    (hcode : nameCode? base names name = some code) {rest : String} :
    ((cls, name), rest) ∈ codeDeclarations cls base names ↔
      rest = ": u16 = " ++ Text.hexLiteral code.toNat ++ ";" := by
  obtain ⟨i, hi, rfl⟩ := Option.map_eq_some_iff.mp hcode
  obtain ⟨hlt, hname, -⟩ := List.idxOf?_eq_some_iff.mp hi
  rw [codeDeclarations, mem_declarationsOf]
  constructor
  · rintro ⟨-, value, hvalue, rfl⟩
    obtain ⟨⟨raw, k⟩, hk, heq⟩ := List.mem_map.mp hvalue
    obtain ⟨rfl, rfl⟩ := Prod.mk.inj heq
    obtain ⟨hk, hraw⟩ := List.getElem?_eq_some_iff.mp (List.mem_zipIdx_iff_getElem?.mp hk)
    obtain rfl : k = i := hnodup.getElem_inj_iff.mp (hraw.trans hname.symm)
    rfl
  · rintro rfl
    have hmem : (name, i) ∈ names.zipIdx :=
      List.mem_zipIdx_iff_getElem?.mpr (List.getElem?_eq_some_iff.mpr ⟨hlt, hname⟩)
    exact ⟨rfl, _, List.mem_map.mpr ⟨_, hmem, rfl⟩, rfl⟩

/-- A code that is declared is printed. -/
theorem printsCode_of_mem_declarations (hcls : ¬ cls.toList <+: "INSN_COUNT".toList)
    (hdecls : ∀ rest, ((cls, name), rest) ∈ a.symbols.declarations ↔
      ((cls, name), rest) ∈ codeDeclarations cls base names)
    (hnodup : names.Nodup) (hcode : nameCode? base names name = some code) :
    PrintsCode a options (cls, name) code := by
  have hdeclared (rest : String) : ((cls, name), rest) ∈ a.symbols.declarations ↔
      rest = ": u16 = " ++ Text.hexLiteral code.toNat ++ ";" :=
    (hdecls rest).trans (mem_codeDeclarations_iff hnodup hcode)
  constructor
  · have hrequest : (cls, name) ∈ a.symbols.requests := by
      rw [← SymbolTable.map_fst_declarations]
      exact List.mem_map_of_mem ((hdeclared _).mpr rfl)
    exact exists_isConstantOf options.symbolPrefix hrequest
  · intro constant hconstant
    obtain ⟨rest, hrest, hprinted⟩ := exists_declaration_of_isConstantOf hconstant hcls
    obtain rfl := (hdeclared rest).mp hrest
    exact hprinted

end Render

/-- The module has a constant for each symbol of the arguments, with the code of the symbol. -/
structure Artifacts.PrintsConstants (a : Artifacts) (options : RenderOptions) : Prop where
  /-- The constants of the types. -/
  argTypes : ∀ name ∈ a.symbols.argTypes, ∃ code, a.symbols.argTypeCode? name = some code ∧
    PrintsCode a options ("ARGTYPE_", name) code
  /-- The constants of the size classes. -/
  argSizes : ∀ name ∈ a.symbols.argSizes, ∃ code, a.symbols.argSizeCode? name = some code ∧
    PrintsCode a options ("ARGSIZE_", name) code
  /-- The constants of the named values. -/
  argValues : ∀ name ∈ a.symbols.argValues, ∃ code,
    a.symbols.argValueCode? (.named name) = some code ∧
      PrintsCode a options ("ARGVALUE_", name) code

theorem Artifacts.printsConstants {a : Artifacts} {args : List EncodingArg}
    (hlists : (ArgSymbols.mk a.symbols.argTypes a.symbols.argSizes a.symbols.argValues).Lists args)
    (hfit : a.symbols.CodesFit) (options : RenderOptions) : a.PrintsConstants options where
  argTypes name hname := by
    obtain ⟨code, hcode, -⟩ := exists_nameCode? hfit.argTypes hname
    refine ⟨code, hcode, printsCode_of_mem_declarations (by decide) (fun rest ↦ ?_) ?_ hcode⟩
    · simp [SymbolTable.declarations, maskDeclarations, codeDeclarations, mem_declarationsOf]
    · exact hlists.nodup.1
  argSizes name hname := by
    have hnone : fixedSize? name = none := by
      obtain ⟨arg, -, hnone, rfl⟩ := hlists.mem_sizes_iff.mp hname
      exact hnone
    obtain ⟨code, hcode, -⟩ := exists_nameCode? hfit.argSizes hname
    refine ⟨code, by rw [SymbolTable.argSizeCode?, hnone]; exact hcode,
      printsCode_of_mem_declarations (by decide) (fun rest ↦ ?_) ?_ hcode⟩
    · simp [SymbolTable.declarations, maskDeclarations, codeDeclarations, mem_declarationsOf]
    · exact hlists.nodup.2.1
  argValues name hname := by
    obtain ⟨code, hcode, -⟩ := exists_nameCode? hfit.argValues hname
    refine ⟨code, hcode, printsCode_of_mem_declarations (by decide) (fun rest ↦ ?_) ?_ hcode⟩
    · simp [SymbolTable.declarations, maskDeclarations, codeDeclarations, mem_declarationsOf]
    · exact hlists.nodup.2.2

/-! ## Compiled catalogs -/

/-- **Codes of arguments.** The symbols of a catalog are what the arguments of its encodings use,
each once and in the order of its first use. If the catalog compiles and there are not more symbols
than codes of 16 bits:
* each argument of each row has its codes, and they tell types, sizes and values apart;
* these codes are what is printed in the row, where none is missing;
* the code of each symbol is what is printed for the constant of that symbol. -/
theorem argumentCodes_after (history : List CatalogStep) :
    (Catalog.after history).argSymbols.Lists (Catalog.after history).encodingArgs ∧
    ∀ (options : Options) (a : Artifacts), compile (Catalog.after history) options = .ok a →
      a.symbols.CodesFit →
        a.symbols.Codes (a.encodings.flatMap EncodingRow.args) ∧
        (∀ row ∈ a.encodings, a.symbols.PrintsCodes row) ∧
        ∀ renderOptions : RenderOptions, a.PrintsConstants renderOptions := by
  have hlists := Catalog.lists_argSymbols_after history
  refine ⟨hlists, fun options a hok hfit ↦ ?_⟩
  have hc : (Catalog.after history).WellFormed := Catalog.wellFormed_after history
  have hrows := Artifacts.lists_of_compile hc hok
  have hsymbols : (ArgSymbols.mk a.symbols.argTypes a.symbols.argSizes a.symbols.argValues).Lists
      (Catalog.after history).encodingArgs := by
    rw [hrows.symbols_eq]
    exact hlists
  have hliterals : LiteralsFit (Catalog.after history).encodingArgs := by
    intro x hx
    obtain ⟨e, he, hx⟩ := List.mem_flatMap.mp hx
    exact (hc.sound_encoding (hc.numbered.getElem?_number he)).literalsFit x hx
  have hcodes := SymbolTable.codes_of_lists hsymbols hfit hliterals
  rw [hrows.flatMap_args]
  refine ⟨hcodes, fun row hrow ↦ ?_, Artifacts.printsConstants hsymbols hfit⟩
  refine hcodes.printsCodes (fun x hx ↦ ?_) (hrows.length_args_le hc hrow)
  rw [← hrows.flatMap_args]
  exact List.mem_flatMap.mpr ⟨row, hrow, hx⟩

/-- A catalog with a fixed size, a size class and a named value. -/
def symbolicArguments : List CatalogStep :=
  [.add { name := "move", args := [⟨"to", "B4"⟩, ⟨"from", "word"⟩],
          encodings := [{ opcode := "89 /r", args := [{ argType := "reg", size := "B4" },
            { argType := "mem", size := "word", value := some (.name "eax") }] }] }]

theorem argumentCodes_after_symbolicArguments :
    ∃ a, compile (Catalog.after symbolicArguments) {} = .ok a ∧ a.symbols.CodesFit ∧
      a.symbols.Codes (a.encodings.flatMap EncodingRow.args) ∧ a.PrintsConstants {} ∧
      a.symbols.argTypes = ["reg", "mem"] ∧
      a.encodings.map (fun row ↦ argCodes a.symbols row.args) =
        [([1, 2, 0, 0], [4, 256, 0, 0], [128, 256, 0, 0])] := by
  have hrows : (compile (Catalog.after symbolicArguments) {}).toOption.map
      (fun a ↦ (a.symbols, a.encodings.map fun row ↦ argCodes a.symbols row.args)) =
        some (⟨[⟨"move", 0⟩], [], [], [], [], ["reg", "mem"], ["word"], ["eax"]⟩,
          [([1, 2, 0, 0], [4, 256, 0, 0], [128, 256, 0, 0])]) := by
    decide +kernel
  rcases hok : compile (Catalog.after symbolicArguments) {} with e | a
  · rw [hok] at hrows
    cases hrows
  · rw [hok] at hrows
    obtain ⟨hsymbols, hcodes⟩ := Prod.mk.inj (Option.some.inj hrows)
    have hfit : a.symbols.CodesFit := by
      rw [hsymbols]
      exact ⟨by decide, by decide, by decide⟩
    obtain ⟨hfaithful, -, hconstants⟩ := (argumentCodes_after symbolicArguments).2 {} a hok hfit
    exact ⟨a, rfl, hfit, hfaithful, hconstants {}, congrArg SymbolTable.argTypes hsymbols, hcodes⟩

end DecodeTrie
