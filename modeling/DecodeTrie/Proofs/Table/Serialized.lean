import DecodeTrie.Proofs.Table.Layouts
import DecodeTrie.Proofs.Table.Words
import Mathlib.Data.List.Rotate

/-!
# Serialized tables

The canonical words of a flat table are the root reference and then the body. Reading them back is
exact: a list of words is read as a table if and only if it is the canonical form of that table, and
the root reference fits into a word and stays within the body (`ofCanonical_eq_some_iff`). So a list
that is read at all is written again as it was.

Every table that comes out of flattening can be read back. The root is laid out last, so its run
ends where the body ends, and a body that is within reach of the offsets has its root within reach
as well. Nothing else is asked of the trie than that it has a root (`hasRoot_of_flatten`).
-/

namespace DecodeTrie

/-! ## Reading tables back -/

namespace FlatTable

variable {words : List UInt32} {table : FlatTable}

/-- The root reference fits into a word, and the root table lies within the body. -/
structure HasRoot (table : FlatTable) : Prop where
  /-- The offset of the root fits into a word. -/
  offset_lt : table.root.offset < offsetLimit
  /-- The words of the root are in the body. -/
  end_le : table.root.offset + table.root.kind.slotCount ≤ table.body.size

/-- In the order in which words are produced, the first of the canonical words is the last. -/
theorem emissionWords_eq_rotate (table : FlatTable) :
    table.emissionWords = table.canonicalWords.rotate 1 := by
  rw [emissionWords, canonicalWords, List.rotate_cons_succ, List.rotate_zero]

/-- **Reading is exact**: a list of words is read as the table that it is the canonical form of. -/
theorem ofCanonical_eq_some_iff :
    ofCanonical words = some table ↔ table.HasRoot ∧ table.canonicalWords = words := by
  obtain ⟨body, root⟩ := table
  constructor
  · intro h
    rw [ofCanonical.eq_def] at h
    split at h
    · cases h
    · next w body' =>
      split at h
      · next root' hw =>
        split at h
        · next hle =>
          cases h
          obtain ⟨hfits, hpack⟩ := Entry.pack_of_unpack hw
          exact ⟨⟨hfits, hle⟩, congrArg (· :: body') hpack⟩
        · cases h
      · cases h
  · rintro ⟨⟨hlt, hle⟩, rfl⟩
    have hunpack : Entry.unpack root.pack = some (.table root) :=
      Entry.unpack_pack (e := .table root) hlt
    have hle' : root.offset + root.kind.slotCount ≤ body.toList.length := hle
    rw [canonicalWords, ofCanonical, hunpack]
    dsimp only
    rw [if_pos hle', Array.toArray_toList]

/-- A list of words is read as a table if and only if its first word is a reference to a run within
the others. -/
theorem exists_ofCanonical_iff : (∃ table, ofCanonical words = some table) ↔
    ∃ (w : UInt32) (body : List UInt32) (k : NodeKind), words = w :: body ∧
      w.toNat >>> offsetBits = k.code ∧
      w.toNat % offsetLimit + k.slotCount ≤ body.length := by
  constructor
  · rintro ⟨⟨body, root⟩, h⟩
    obtain ⟨⟨hlt, hle⟩, rfl⟩ := ofCanonical_eq_some_iff.mp h
    have hlt' : root.offset < offsetLimit := hlt
    have hpack : root.pack.toNat = root.kind.code * offsetLimit + root.offset :=
      Entry.toNat_pack_table hlt
    refine ⟨root.pack, body.toList, root.kind, rfl, ?_, ?_⟩
    · have hlimit : 2 ^ offsetBits = offsetLimit := rfl
      rw [Nat.shiftRight_eq_div_pow, hlimit, hpack, Nat.mul_comm,
        Nat.mul_add_div (by decide), Nat.div_eq_of_lt hlt', Nat.add_zero]
    · rw [hpack, Nat.mul_comm, Nat.mul_add_mod, Nat.mod_eq_of_lt hlt']
      exact hle
  · rintro ⟨w, body, k, rfl, hcode, hle⟩
    refine ⟨⟨body.toArray, ⟨k, w.toNat % offsetLimit⟩⟩, ?_⟩
    have hunpack : Entry.unpack w = some (.table ⟨k, w.toNat % offsetLimit⟩) := by
      have hpos := k.one_le_code
      rw [Entry.unpack, hcode, if_neg (by omega), NodeKind.ofCode?_code, Option.map_some]
    rw [ofCanonical, hunpack]
    exact if_pos hle

end FlatTable

/-! ## Flattened tries -/

namespace Trie

variable {t : Trie} {l : Layout}

/-- A layout has a place for the start of every node, and as many words as its runs. -/
structure Sized (t : Trie) (l : Layout) : Prop where
  /-- There is a place for the start of every node. -/
  starts_size : l.starts.size = t.size
  /-- The size is the number of words. -/
  size_eq : l.size = t.words l.order.toList

theorem sized_empty (t : Trie) : t.Sized (Layout.empty t.size) :=
  ⟨Array.size_replicate, rfl⟩

theorem Sized.append (h : t.Sized l) (x : NodeId) :
    t.Sized (l.append x (t.kind x).slotCount) where
  starts_size := by rw [Layout.append, Array.size_setIfInBounds, h.starts_size]
  size_eq := by
    rw [Layout.append, Array.toList_push, words_append, ← h.size_eq]
    rfl

theorem Sized.layoutWithin (h : t.Sized l) (bound : Nat) (x : NodeId) :
    t.Sized (t.layoutWithin bound l x) := by
  induction bound generalizing l x with
  | zero => exact h
  | succ bound ih =>
    rw [Trie.layoutWithin]
    split
    · exact h
    · exact (List.foldlRecOn _ _ h fun _ hl y _ ↦ ih hl y).append x

/-- **The run of the root is the last one**: it ends where the words end. -/
theorem exists_start_root (h : 0 < t.size) :
    ∃ o, t.layout.start? root = some o ∧ o + (t.kind root).slotCount = t.layout.size := by
  obtain ⟨n, hn⟩ := Nat.exists_eq_succ_of_ne_zero (Nat.ne_of_gt h)
  have hnew : ¬ ((Layout.empty t.size).start? root).isSome = true := by
    rw [Layout.start?_empty]
    decide
  have hbelow : t.Sized ((t.node root).children.foldl (t.layoutWithin n) (Layout.empty t.size)) :=
    List.foldlRecOn _ _ t.sized_empty fun _ hl y _ ↦ hl.layoutWithin n y
  have hlayout : t.layout = ((t.node root).children.foldl (t.layoutWithin n)
      (Layout.empty t.size)).append root (t.kind root).slotCount := by
    conv_lhs => rw [layout, hn, Trie.layoutWithin, ← hn, if_neg hnew]
  generalize (t.node root).children.foldl (t.layoutWithin n) (Layout.empty t.size) = below
    at hbelow hlayout
  refine ⟨below.size, ?_, ?_⟩
  · rw [hlayout, Layout.start?_append (by rw [hbelow.starts_size]; exact h), if_pos rfl]
  · rw [hlayout, Layout.append]

theorem hasRoot_of_toFlat (h : 0 < t.size) {table : FlatTable} (hflat : t.toFlat = some table) :
    table.HasRoot := by
  obtain ⟨o, ho, hend⟩ := exists_start_root h
  have hsized : t.Sized t.layout := t.sized_empty.layoutWithin t.size root
  rw [toFlat] at hflat
  split at hflat
  · next hsize =>
    cases hflat
    have hpos := (t.kind root).slotCount_pos
    have hmax : maxWords < offsetLimit := by decide
    have hlt : o < offsetLimit := by omega
    constructor
    · rw [ho, Option.getD_some]
      exact hlt
    · rw [ho, Option.getD_some, List.size_toArray, body, length_flatMap_run, ← hsized.size_eq]
      exact Nat.le_of_eq hend
  · cases hflat

/-- **What is flattened has its root within reach**, collapsed or not. -/
theorem hasRoot_of_flatten (h : 0 < t.size) {collapse : Bool} {table : FlatTable}
    (hflat : t.flatten collapse = some table) : table.HasRoot := by
  cases collapse with
  | false => exact hasRoot_of_toFlat h hflat
  | true =>
    have hsize : t.collapse.size = t.size := by simp [Trie.collapse, size]
    exact hasRoot_of_toFlat (hsize ▸ h) hflat

end Trie

/-- **Serialized tables read back.** Words and entries that fit correspond to one another, and only
words with kind bits from 8 on stand for nothing. A list of words that is read as a table is the
canonical form of that table, and is the order of production with the last word in front. It is read
at all if and only if its first word is a reference to a run within the others. And every table that
comes out of flattening a trie with a root is read back from its canonical form. -/
theorem serialized_readBack :
    (∀ w : UInt32, (Entry.unpack w = none ↔ 8 ≤ w.toNat >>> offsetBits) ∧
      ∀ e, Entry.unpack w = some e ↔ e.Fits ∧ e.pack = w) ∧
    (∀ words table, FlatTable.ofCanonical words = some table →
      table.canonicalWords = words ∧ table.emissionWords = words.rotate 1) ∧
    (∀ words, (∃ table, FlatTable.ofCanonical words = some table) ↔
      ∃ (w : UInt32) (body : List UInt32) (k : NodeKind), words = w :: body ∧
        w.toNat >>> offsetBits = k.code ∧
        w.toNat % offsetLimit + k.slotCount ≤ body.length) ∧
    (∀ (t : Trie) (collapse : Bool) (table : FlatTable), 0 < t.size →
      t.flatten collapse = some table →
        FlatTable.ofCanonical table.canonicalWords = some table) := by
  refine ⟨fun w ↦ ⟨Entry.unpack_eq_none_iff, fun e ↦ Entry.unpack_eq_some_iff⟩, ?_,
    fun words ↦ FlatTable.exists_ofCanonical_iff, ?_⟩
  · intro words table h
    obtain ⟨-, hwords⟩ := FlatTable.ofCanonical_eq_some_iff.mp h
    exact ⟨hwords, hwords ▸ table.emissionWords_eq_rotate⟩
  · intro t collapse table hpos hflat
    exact FlatTable.ofCanonical_eq_some_iff.mpr ⟨Trie.hasRoot_of_flatten hpos hflat, rfl⟩

/-- A list that starts with a reference to a register table in the middle of the other words, and the
empty trie, collapsed. -/
theorem serialized_readBack_registerTable :
    (∃ table, FlatTable.ofCanonical (0x04000001 :: List.replicate 10 invalidWord) = some table ∧
      table.root = ⟨.regOnly, 1⟩ ∧
      table.emissionWords = List.replicate 10 invalidWord ++ [0x04000001]) ∧
    ∃ table, Trie.empty.flatten true = some table ∧
      FlatTable.ofCanonical table.canonicalWords = some table := by
  obtain ⟨-, hwords, -, hflat⟩ := serialized_readBack
  constructor
  · have hread : (FlatTable.ofCanonical (0x04000001 :: List.replicate 10 invalidWord)).map
        FlatTable.root = some ⟨.regOnly, 1⟩ := by
      decide
    obtain ⟨table, htable, hroot⟩ := Option.map_eq_some_iff.mp hread
    refine ⟨table, htable, hroot, ?_⟩
    rw [(hwords _ table htable).2]
    decide
  · have hsome : (Trie.empty.flatten true).isSome := by decide +kernel
    obtain ⟨table, htable⟩ := Option.isSome_iff_exists.mp hsome
    exact ⟨table, htable, hflat Trie.empty true table (by decide) htable⟩

end DecodeTrie
