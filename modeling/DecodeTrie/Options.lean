import DecodeTrie.Key.Enumeration
import DecodeTrie.Tag.Registry

/-!
# Options of a compilation

Some encoding tags steer where an encoding goes. Their names are options; `Steering` holds the bits
that those names have in a catalog, and says what the tags of an encoding mean.
-/

namespace DecodeTrie

/-- The options of a compilation. -/
structure Options where
  /-- Whether ModRM tables that never look at the mode become register tables. -/
  collapseModRM : Bool := true
  /-- The tag of encodings whose last opcode byte is the base of eight register encodings. -/
  regInOpcodeTag : String := "etag_reg_base"
  /-- The tag of encodings for REX.W clear. -/
  rexWClearTag : String := "etag_like_arpl"
  /-- The tag of encodings for REX.W set; it wins over the tag for REX.W clear. -/
  rexWSetTag : String := "etag_like_movsxd"
deriving DecidableEq, Repr

/-- The bits of the tags that steer. -/
structure Steering where
  /-- The bit of the register-in-opcode tag. -/
  regInOpcode : Option Nat := none
  /-- The bit of the tag for REX.W clear. -/
  rexWClear : Option Nat := none
  /-- The bit of the tag for REX.W set. -/
  rexWSet : Option Nat := none
deriving DecidableEq, Repr

namespace Steering

/-- The bits that the names of the options have in a registry. -/
def resolve (options : Options) (encTags : TagRegistry) : Steering where
  regInOpcode := encTags.get? options.regInOpcodeTag
  rexWClear := encTags.get? options.rexWClearTag
  rexWSet := encTags.get? options.rexWSetTag

/-- What the tags of an encoding say about its place. -/
def flags (s : Steering) (tags : TagSet) : KeyFlags where
  regInOpcode := tags.containsOpt s.regInOpcode
  rexW :=
    if tags.containsOpt s.rexWSet then some true
    else if tags.containsOpt s.rexWClear then some false
    else none

end Steering

end DecodeTrie
