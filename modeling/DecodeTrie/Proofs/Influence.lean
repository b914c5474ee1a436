import DecodeTrie.Proofs.Build.Runs
import DecodeTrie.Proofs.Build.TwoRuns

/-!
# What a decoder depends on

An encoding asks two things of the decoder: its pattern is to be decoded, and its tags steer the
place. Everything else in a catalog is without influence on the decoder: how encodings are grouped
into instructions, the names and arguments of instructions, the modes, the names and bits of tags,
and the tags that do not steer. Catalogs with the same requests are compiled to the same table, or
are rejected for the same reason (`decoder_eq_of_requests`).

Both compilations run in step. What differs between them, beside the owners of the numbers, is the
names of instructions in errors; `CompileError.anonymous` leaves them out.
-/

namespace DecodeTrie

/-! ## Errors without names -/

namespace CompileError

/-- An error without the names of instructions. -/
def anonymous : CompileError → CompileError
  | malformedOpcode _ pattern cause => malformedOpcode "" pattern cause
  | argumentCountMismatch _ pattern expected found => argumentCountMismatch "" pattern expected found
  | invalidArgument _ index cause => invalidArgument "" index cause
  | tooManyArguments _ count max => tooManyArguments "" count max
  | duplicateOpcode _ number pattern _ other => duplicateOpcode "" number pattern "" other
  | opcodeConflict _ number pattern wanted found _ other =>
    opcodeConflict "" number pattern wanted found "" other
  | registerBaseOverflow _ pattern => registerBaseOverflow "" pattern
  | duplicateInstruction _ => duplicateInstruction ""
  | e => e

/-- Two errors differ in the names of instructions only. -/
def SameCause (e e' : CompileError) : Prop := e.anonymous = e'.anonymous

end CompileError

/-! ## Requests -/

/-- What an encoding asks of the decoder: its pattern, and what its tags say about its place. -/
def Encoding.request (steering : Steering) (e : Encoding) : String × KeyFlags :=
  (e.opcode, steering.flags e.tags)

/-- What the encodings of a catalog ask of the decoder, in order. -/
def Catalog.requests (c : Catalog) (options : Options) : List (String × KeyFlags) :=
  c.encodings.toList.map (Encoding.request (c.steering options))

/-- Encodings of two catalogs have the same number and ask the same. -/
structure Counterparts (c c' : Catalog) (steering steering' : Steering) (e e' : Encoding) :
    Prop where
  /-- The first encoding is that of the first catalog. -/
  left : c.encodings[e.number]? = some e
  /-- The second encoding is that of the second catalog. -/
  right : c'.encodings[e'.number]? = some e'
  /-- The numbers are the same. -/
  number_eq : e.number = e'.number
  /-- The patterns are the same. -/
  opcode_eq : e.opcode = e'.opcode
  /-- The tags say the same about the place. -/
  flags_eq : steering.flags e.tags = steering'.flags e'.tags

/-- In catalogs with the same requests each encoding has a counterpart. -/
theorem Catalog.Numbered.counterparts {c c' : Catalog} (hc : c.Numbered) (hc' : c'.Numbered)
    {options options' : Options} (h : c.requests options = c'.requests options') :
    List.Forall₂ (Counterparts c c' (c.steering options) (c'.steering options'))
      c.encodings.toList c'.encodings.toList := by
  have hlen : c.encodings.toList.length = c'.encodings.toList.length := by
    simpa only [requests, List.length_map] using congrArg List.length h
  refine List.forall₂_iff_get.mpr ⟨hlen, fun n hn hn' ↦ ?_⟩
  have hget : c.encodings[n]? = some c.encodings.toList[n] := by
    rw [← Array.getElem?_toList, List.getElem?_eq_getElem hn]
  have hget' : c'.encodings[n]? = some c'.encodings.toList[n] := by
    rw [← Array.getElem?_toList, List.getElem?_eq_getElem hn']
  have hnumber := hc.number_eq hget
  have hnumber' := hc'.number_eq hget'
  have hrequest := congrArg (fun requests ↦ requests[n]?) h
  simp only [requests, List.getElem?_map, Array.getElem?_toList, hget, hget',
    Option.map_some] at hrequest
  obtain ⟨hopcode, hflags⟩ := Prod.mk.inj (Option.some.inj hrequest)
  exact ⟨hnumber.symm ▸ hget, hnumber'.symm ▸ hget', hnumber.trans hnumber'.symm, hopcode, hflags⟩

/-! ## Runs in step -/

namespace Counterparts

open Build (SameTrie)

variable {c c' : Catalog} {steering steering' : Steering} {e e' : Encoding}
  (h : Counterparts c c' steering steering' e e')

include h

/-- Counterparts clash for the same cause. -/
theorem sameCause_report (clash : Clash) : (clash.report c e).SameCause (clash.report c' e') := by
  cases clash <;>
    simp only [CompileError.SameCause, Clash.report, CompileError.anonymous, h.opcode_eq,
      h.number_eq]

/-- The sites of counterparts are filled in step. -/
theorem inStep_sites (d : Descriptor) :
    InStep Eq SameTrie ((d.sites (steering.flags e.tags)).forM (Build.fill e.number e.insn))
      ((d.sites (steering'.flags e'.tags)).forM (Build.fill e'.number e'.insn)) := by
  rw [← h.number_eq, ← h.flags_eq]
  refine InStep.forM (P := Eq) ?_ (List.forall₂_refl _)
  rintro s _ rfl
  exact Build.inStep_fill s

/-- Counterparts are inserted in step. -/
theorem inStep_insert (d : Descriptor) :
    InStep CompileError.SameCause SameTrie (Build.insert c steering e.number d)
      (Build.insert c' steering' e'.number d) := by
  intro b b' hb
  have hout := h.inStep_sites d b b' hb
  simp only [Build.insert, h.left, h.right, Build.insertEncoding]
  rw [← h.flags_eq] at hout ⊢
  split
  · exact .error (congrArg (CompileError.registerBaseOverflow "") h.opcode_eq) hb
  · generalize (d.sites (steering.flags e.tags)).forM (Build.fill e.number e.insn) b = out at hout ⊢
    generalize (d.sites (steering.flags e.tags)).forM (Build.fill e'.number e'.insn) b' = out'
      at hout ⊢
    cases hout with
    | ok _ hs => exact .ok () hs
    | @error clash _ _ _ he hs => exact .error (he ▸ h.sameCause_report clash) hs

/-- Counterparts have the same descriptor, or neither of them has one. -/
theorem descriptor_cases :
    (∃ d, c.descriptor e = .ok d ∧ c'.descriptor e' = .ok d) ∨
      ∃ err err', c.descriptor e = .error err ∧ c'.descriptor e' = .error err' ∧
        err.SameCause err' := by
  simp only [Catalog.descriptor, ← h.opcode_eq]
  cases Descriptor.parse e.opcode with
  | ok d => exact .inl ⟨d, rfl, rfl⟩
  | error cause => exact .inr ⟨_, _, rfl, rfl, rfl⟩

end Counterparts

/-- **Runs over counterparts** are in step. -/
theorem Build.inStep_insertAll {c c' : Catalog} {steering steering' : Steering}
    {es es' : List Encoding} (h : List.Forall₂ (Counterparts c c' steering steering') es es') :
    InStep CompileError.SameCause SameTrie (insertAll c steering es)
      (insertAll c' steering' es') := by
  induction h with
  | nil => exact InStep.pure []
  | @cons e e' es es' he _ ih =>
    intro b b' hb
    rw [insertAll_cons, insertAll_cons]
    rcases he.descriptor_cases with ⟨d, hd, hd'⟩ | ⟨err, err', hd, hd', hcause⟩
    · have hout := he.inStep_insert d b b' hb
      rw [hd, hd']
      dsimp only
      generalize insert c steering e.number d b = out at hout
      generalize insert c' steering' e'.number d b' = out' at hout
      cases hout with
      | error hcause hs => exact .error hcause hs
      | @ok _ b b' hs =>
        have hrest := ih b b' hs
        dsimp only
        generalize insertAll c steering es b = out at hrest
        generalize insertAll c' steering' es' b' = out' at hrest
        cases hrest with
        | error hcause hs => exact .error hcause hs
        | ok ds hs => exact .ok (d :: ds) hs
    · rw [hd, hd']
      exact .error hcause hb

/-! ## Compilation -/

/-- What a compilation says about the decoder: its table, or why there is none, without the names of
instructions. -/
def decoderOf : Except CompileError Artifacts → Except CompileError FlatTable
  | .ok a => .ok a.table
  | .error e => .error e.anonymous

/-- **The decoder depends on the requests alone.** Two catalogs whose encodings, in order, have the
same patterns and the same steering are compiled to the same table, or both are rejected, for the
same reason up to the names of instructions. -/
theorem decoder_eq_of_requests (history history' : List CatalogStep) (options options' : Options)
    (hcollapse : options.collapseModRM = options'.collapseModRM)
    (h : (Catalog.after history).requests options = (Catalog.after history').requests options') :
    decoderOf (compile (Catalog.after history) options) =
      decoderOf (compile (Catalog.after history') options') := by
  have hstart : Build.SameTrie (Build.empty (Catalog.after history))
      (Build.empty (Catalog.after history')) := rfl
  have hrun := Build.inStep_insertAll ((Catalog.numbered_after history).counterparts
    (Catalog.numbered_after history') h) _ _ hstart
  rw [compile, compile]
  generalize Build.insertAll (Catalog.after history) _ _ _ = out at hrun
  generalize Build.insertAll (Catalog.after history') _ _ _ = out' at hrun
  cases hrun with
  | error hcause _ => exact congrArg Except.error hcause
  | @ok ds b b' hs =>
    dsimp only
    rw [show b.trie = b'.trie from hs, hcollapse]
    cases b'.trie.flatten options'.collapseModRM with
    | none => rfl
    | some table => rfl

/-- A catalog with one instruction, whose first encoding is the base of eight registers. -/
def oneOwner : List CatalogStep :=
  [.add { name := "push", encodings :=
    [{ opcode := "50", tags := ["etag_reg_base"] }, { opcode := "ff /6" }, { opcode := "68" }] }]

/-- The encodings of `oneOwner` under several instructions, with another name for the tag that
steers, with a tag in front of it that does not, and with modes. -/
def severalOwners : List CatalogStep :=
  [.declareMode "m64", .registerEncTag "slow",
    .add { name := "store", modes := ["m64"], encodings :=
      [{ opcode := "50", tags := ["slow", "base"] }] },
    .add { name := "spill", tags := ["alias"], encodings :=
      [{ opcode := "ff /6", tags := ["slow"] }, { opcode := "68" }] }]

theorem decoder_eq_of_requests_severalOwners :
    let c := Catalog.after oneOwner
    let c' := Catalog.after severalOwners
    let options' : Options := { regInOpcodeTag := "base" }
    c.requests {} = c'.requests options' ∧ c.encodings ≠ c'.encodings ∧
      ∃ table, decoderOf (compile c {}) = .ok table ∧ decoderOf (compile c' options') = .ok table := by
  intro c c' options'
  have hrequests : c.requests {} = c'.requests options' := by decide +kernel
  have hok : (compile c {}).isOk = true := by decide +kernel
  refine ⟨hrequests, by decide +kernel, ?_⟩
  cases h : compile c {} with
  | error err => rw [h] at hok; cases hok
  | ok a =>
    refine ⟨a.table, rfl, ?_⟩
    rw [← decoder_eq_of_requests oneOwner severalOwners {} options' rfl hrequests]
    exact congrArg decoderOf h

end DecodeTrie
