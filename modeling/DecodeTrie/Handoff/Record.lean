import DecodeTrie.Handoff.Shape

/-!
# Records

A record is written as an object or as the list of its fields in order. Trailing fields that have a
default may be left out of the list; an object may leave out any such field, and may have other
members, which are skipped. No field may be given twice.
-/

namespace DecodeTrie.Handoff

/-- A field of a record. -/
structure Field (σ : Type) where
  /-- The key. -/
  key : String
  /-- Whether the field has no default. -/
  needed : Bool
  /-- Reads the value of the field, and gives the record with that value. -/
  read : σ → Form σ

/-- A record of which some fields are read. -/
structure Partial (σ : Type) where
  /-- The record so far. -/
  record : σ
  /-- The keys of the fields read. -/
  seen : List String

/-- Reads a member of a record behind its key. A key given twice is no shape of a record. -/
def recordMember {σ : Type} (fields : List (Field σ)) (room : Nat) (key : String)
    (p : Partial σ) : Reader (Partial σ) :=
  match fields.find? fun f ↦ f.key == key with
  | some f =>
    if p.seen.contains key then fail .mismatch
    else do
      punctuation ':'
      let record ← f.read p.record room
      pure ⟨record, key :: p.seen⟩
  | none => do
    punctuation ':'
    skipValue
    pure p

/-- Reads a record behind its opening brace. -/
def recordMembers {σ : Type} (fields : List (Field σ)) (blank : σ) : Form σ := fun room ↦ do
  let p ← members (recordMember fields room) ⟨blank, []⟩
  if fields.all fun f ↦ !f.needed || p.seen.contains f.key then do
    advance
    pure p.record
  else fail .mismatch

/-- Reads the fields of a record that is written as a list. -/
def recordElements {σ : Type} (room : Nat) : List (Field σ) → Bool → σ → Reader σ
  | [], _, record => do
    punctuation ']'
    pure record
  | f :: fields, first, record => do
    if ← hasElement first then
      let record ← f.read record room
      recordElements room fields false record
    else if (f :: fields).any Field.needed then fail .mismatch
    else do
      advance
      pure record

/-- Reads a record whose fields have the values of `blank` where they are left out. -/
def record {σ : Type} (fields : List (Field σ)) (blank : σ) : Form σ := fun room ↦ do
  let c ← peek
  if c = '{' then enter room (recordMembers fields blank)
  else if c = '[' then enter room fun inside ↦ recordElements inside fields true blank
  else unwanted

/-! ## Whole texts -/

/-- Reads a whole text, behind which only spaces may come. -/
def readAll {α : Type} (form : Form α) (s : String) : Except Fault α :=
  match form openLimit s.toList with
  | .error f => .error f
  | .ok (a, rest) => if rest.all isSpace then .ok a else .error .malformed

end DecodeTrie.Handoff
