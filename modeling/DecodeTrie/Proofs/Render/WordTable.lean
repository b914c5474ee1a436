import DecodeTrie.Proofs.Render.Items
import DecodeTrie.Proofs.Render.Prefixes

/-!
# The table of words

The table of the decoder is written in lines of words. The groups of words that stand on one line
are, in order, all the words: none is lost or repeated, and only the last line can be shorter than
the others (`inGroups_chunks`). Each word is written as its literal of eight digits, which is enough
for 32 bits.

With what is known about prefixes, these are the effects of the options of a module
(`render_options`): the prefix is put in front of the names, and the words of the table are laid out
in lines of the given length.
-/

namespace DecodeTrie

open Text

namespace Render

/-! ## Groups -/

/-- Some groups hold the members of a list in order, `size` in each but the last, which can have
fewer. -/
structure InGroups {α : Type} (size : Nat) (xs : List α) (groups : List (List α)) : Prop where
  /-- The groups are the list. -/
  flatten_eq : groups.flatten = xs
  /-- No group is empty, and none is too long. -/
  length_mem : ∀ group ∈ groups, 0 < group.length ∧ group.length ≤ size
  /-- All groups but the last are full. -/
  full : ∀ group ∈ groups.dropLast, group.length = size

theorem InGroups.nil {α : Type} {size : Nat} : InGroups size ([] : List α) [] :=
  ⟨rfl, List.forall_mem_nil _, List.forall_mem_nil _⟩

/-- A further group before the others has to be full, unless there are no others. -/
theorem InGroups.cons {α : Type} {size : Nat} {group xs : List α} {groups : List (List α)}
    (h : InGroups size xs groups) (hlength : 0 < group.length ∧ group.length ≤ size)
    (hfull : xs ≠ [] → group.length = size) : InGroups size (group ++ xs) (group :: groups) where
  flatten_eq := by rw [List.flatten_cons, h.flatten_eq]
  length_mem := List.forall_mem_cons.mpr ⟨hlength, h.length_mem⟩
  full := by
    cases groups with
    | nil => exact List.forall_mem_nil _
    | cons group' groups =>
      have hne : xs ≠ [] := by
        have hpos := (h.length_mem group' List.mem_cons_self).1
        rw [← h.flatten_eq, List.flatten_cons]
        exact List.append_ne_nil_of_left_ne_nil (List.length_pos_iff.mp hpos) _
      rw [List.dropLast_cons_of_ne_nil (List.cons_ne_nil _ _)]
      exact List.forall_mem_cons.mpr ⟨hfull hne, h.full⟩

theorem inGroups_chunksWithin {α : Type} {size bound : Nat} {xs : List α} (hsize : 0 < size)
    (h : xs.length ≤ bound) : InGroups size xs (chunksWithin size bound xs) := by
  induction bound generalizing xs with
  | zero =>
    obtain rfl := List.length_eq_zero_iff.mp (Nat.le_zero.mp h)
    exact .nil
  | succ bound ih =>
    cases xs with
    | nil => exact .nil
    | cons x xs =>
      have hrest : InGroups size ((x :: xs).drop size)
          (chunksWithin size bound ((x :: xs).drop size)) := by
        refine ih ?_
        rw [List.length_drop]
        omega
      have hgroups : InGroups size ((x :: xs).take size ++ (x :: xs).drop size)
          (chunksWithin size (bound + 1) (x :: xs)) := by
        refine hrest.cons ?_ fun hleft ↦ ?_
        · rw [List.length_take, List.length_cons]
          omega
        · -- Something is left over, so there is enough for a full group.
          rw [List.length_take, Nat.min_eq_left]
          exact Nat.le_of_not_le fun hle ↦ hleft (List.drop_eq_nil_of_le hle)
      rwa [List.take_append_drop] at hgroups

theorem inGroups_chunks {α : Type} (size : Nat) (xs : List α) :
    InGroups (max size 1) xs (chunks size xs) :=
  inGroups_chunksWithin (Nat.le_max_right _ _) (Nat.le_refl _)

example : chunks 2 [1, 2, 3] = [[1, 2], [3]] ∧ chunks 0 [1, 2, 3] = [[1], [2], [3]] := by decide

/-! ## Lines of words -/

/-- A text is the literal of a word: `0x` and eight lower-case digits. -/
def IsWordLiteral (word : UInt32) (s : String) : Prop := IsHexLiteral 8 word.toNat s

/-- A line has the literals of some words in order, with a comma behind each. -/
def IsWordLine (words : List UInt32) (line : String) : Prop :=
  ∃ literals, List.Forall₂ IsWordLiteral words literals ∧
    line = "    " ++ " ".intercalate (literals.map (· ++ ","))

/-- Lines have some words in order, `width` on each but the last, which can have fewer. -/
def HoldWords (width : Nat) (words : List UInt32) (lines : List String) : Prop :=
  ∃ groups, InGroups width words groups ∧ List.Forall₂ IsWordLine groups lines

theorem isWordLiteral_wordLiteral (word : UInt32) :
    IsWordLiteral word (wordLiteral word.toNat) := by
  refine isHexLiteral_paddedHexLiteral ?_
  exact (Nat.length_toDigits_le_iff (by decide) (by decide)).mpr word.toNat_lt

theorem isWordLine_wordLine (words : List UInt32) :
    IsWordLine words (wordLine words).render := by
  refine ⟨words.map fun word ↦ wordLiteral word.toNat, ?_, ?_⟩
  · rw [List.forall₂_map_right_iff, List.forall₂_same]
    exact fun word _ ↦ isWordLiteral_wordLiteral word
  · rw [List.map_map]
    rfl

/-- The lines of some groups of words. -/
def wordTexts (groups : List (List UInt32)) : List String :=
  groups.map fun words ↦ (wordLine words).render

theorem holdWords_chunks (width : Nat) (words : List UInt32) :
    HoldWords (max width 1) words (wordTexts (chunks width words)) := by
  refine ⟨chunks width words, inGroups_chunks width words, ?_⟩
  rw [wordTexts, List.forall₂_map_right_iff, List.forall₂_same]
  exact fun group _ ↦ isWordLine_wordLine group

/-! ## The table in the text -/

/-- The first line of the table of words. -/
def tableStart (p : String) (length : Nat) : String :=
  "pub static " ++ p ++ "DECODER_TABLE: [u32; " ++ toString length ++ "] = ["

theorem prefixLine_tableStart (p : String) (length : Nat) :
    prefixLine p (tableStart "" length) = tableStart p length := by
  have h := prefixLine_start p (by decide : "pub static " ∈ itemStarts)
    ("DECODER_TABLE: [u32; " ++ toString length ++ "] = [")
  simpa only [tableStart, String.append_assoc, String.empty_append] using h

theorem map_prefixLine_wordTexts (p : String) (groups : List (List UInt32)) :
    (wordTexts groups).map (prefixLine p) = wordTexts groups := by
  rw [wordTexts, List.map_map]
  exact List.map_congr_left fun words _ ↦ prefixLine_eq_self p (plain_wordLine words).2

theorem map_render_table (length : Nat) (groups : List (List UInt32)) :
    (table "DECODER_TABLE" "u32" length (groups.map wordLine)).map Line.render =
      tableStart "" length :: (wordTexts groups ++ ["];"]) := by
  have hstart : (Line.static "DECODER_TABLE" (": [" ++ "u32" ++ "; " ++ toString length ++
      "] = [")).render = tableStart "" length := by
    simp [← String.toList_inj, Line.render, tableStart]
  rw [table, List.map_append, List.map_cons, hstart, List.map_map]
  rfl

/-- The table of words is among the lines of a module, and no other line declares an item of its
name. -/
theorem exists_moduleLines_eq (a : Artifacts) (w : Nat) :
    ∃ before after, moduleLines a ⟨"", w⟩ = before ++
      table "DECODER_TABLE" "u32" a.table.canonicalWords.length
        ((chunks w a.table.canonicalWords).map wordLine) ++ after ∧
      "DECODER_TABLE" ∉ itemNames (before ++ after) := by
  have hcount : (itemNames (moduleLines a ⟨"", w⟩)).count "DECODER_TABLE" ≤ 1 := by
    rw [(itemNames_moduleLines_perm a ⟨"", w⟩).count_eq, List.count_cons_of_ne (by simp)]
    exact List.nodup_iff_count_le_one.mp (nodup_symbolNames_append "" a.symbols) _
  have hlines : ∃ before after, moduleLines a ⟨"", w⟩ = before ++
      table "DECODER_TABLE" "u32" a.table.canonicalWords.length
        ((chunks w a.table.canonicalWords).map wordLine) ++ after := by
    simp only [moduleLines, String.empty_append, List.append_assoc]
    rw [← List.append_assoc]
    exact ⟨_, _, rfl⟩
  obtain ⟨before, after, hlines⟩ := hlines
  refine ⟨before, after, hlines, ?_⟩
  rw [hlines, itemNames_append, itemNames_append, itemNames_table, List.count_append,
    List.count_append, List.count_cons_self] at hcount
  rw [itemNames_append, ← List.count_eq_zero, List.count_append]
  omega

/-- A line that begins like the declaration of the table of words declares an item of this name. -/
theorem Line.Plain.item?_of_start {line : Line} (h : line.Plain)
    (hbegins : "pub static DECODER_TABLE".toList <+: line.render.toList) :
    line.item? = some "DECODER_TABLE" := by
  cases line with
  | text line =>
    have hstart : "pub static ".toList <+: "pub static DECODER_TABLE".toList := by decide
    exact absurd (hstart.trans hbegins) (h.2 "pub static " (by decide))
  | constant name rest =>
    simp [Line.render] at hbegins
  | static name rest =>
    have hname : name = "DECODER_TABLE" ∨ name = "INSNS" ∨ name = "ENCODINGS" := by
      simpa [tableNames] using h.1
    obtain rfl | rfl | rfl := hname
    · rfl
    · simp [Line.render] at hbegins
    · simp [Line.render] at hbegins

end Render

open Render

/-- **The options of a module** change names and layout only. The text with a prefix is the text
without it, with the prefix behind each beginning of a declaration. The block of the table of words
declares as many words as there are and has them, in lines of the given length. -/
theorem render_options (a : Artifacts) (p : String) (w : Nat) :
    a.render ⟨p, w⟩ = prefixItems p (a.render ⟨"", w⟩) ∧
      ∃ before lines after : List String,
        linesOf (a.render ⟨"", w⟩) =
          before ++ tableStart "" a.table.canonicalWords.length :: (lines ++ "];" :: after) ∧
        a.render ⟨p, w⟩ = ofLines (before.map (prefixLine p) ++
          tableStart p a.table.canonicalWords.length ::
            (lines ++ "];" :: after.map (prefixLine p))) ∧
        (∀ line ∈ before ++ after, ¬ "pub static DECODER_TABLE".toList <+: line.toList) ∧
        HoldWords (max w 1) a.table.canonicalWords lines := by
  obtain ⟨before, after, hlines, hother⟩ := exists_moduleLines_eq a w
  have htext : linesOf (a.render ⟨"", w⟩) =
      before.map Line.render ++ tableStart "" a.table.canonicalWords.length ::
        (wordTexts (chunks w a.table.canonicalWords) ++ "];" :: (after.map Line.render ++ [""])) := by
    rw [linesOf_render, hlines, List.map_append, List.map_append, map_render_table]
    simp
  refine ⟨render_eq_prefixItems a p w, _, _, _, htext, ?_, ?_, holdWords_chunks w _⟩
  · have hend : prefixLine p "];" = "];" := prefixLine_eq_self p (by decide)
    rw [render_eq_prefixItems, prefixItems, htext, List.map_append, List.map_cons, List.map_append,
      List.map_cons, prefixLine_tableStart, map_prefixLine_wordTexts, hend]
  · intro line hline hbegins
    have hline : line ∈ (before ++ after).map Line.render := by
      have hne : line ≠ "" := by
        rintro rfl
        exact absurd hbegins (by decide)
      simpa [hne] using hline
    obtain ⟨line, hmem, rfl⟩ := List.mem_map.mp hline
    have hplain : line.Plain := by
      refine plain_of_mem_moduleLines a w line ?_
      rw [hlines]
      grind
    exact hother (List.mem_filterMap.mpr ⟨line, hmem, hplain.item?_of_start hbegins⟩)

end DecodeTrie
