import DecodeTrie.Artifacts
import DecodeTrie.Build.History
import DecodeTrie.Catalog.Step
import DecodeTrie.Compile
import DecodeTrie.Handoff.Declaration
import DecodeTrie.Opcode.Parser
import DecodeTrie.Opcode.Printer
import DecodeTrie.Proofs.Agreement
import DecodeTrie.Proofs.Appearance
import DecodeTrie.Proofs.ArgumentCodes
import DecodeTrie.Proofs.Build.Clashes
import DecodeTrie.Proofs.Build.Columns
import DecodeTrie.Proofs.Build.Histories
import DecodeTrie.Proofs.Build.Insertions
import DecodeTrie.Proofs.Build.Loops
import DecodeTrie.Proofs.Build.Modes
import DecodeTrie.Proofs.Build.Records
import DecodeTrie.Proofs.Build.Routes
import DecodeTrie.Proofs.Build.Runs
import DecodeTrie.Proofs.Build.Sites
import DecodeTrie.Proofs.Build.TwoRuns
import DecodeTrie.Proofs.Catalog.Arguments
import DecodeTrie.Proofs.Catalog.Confinement
import DecodeTrie.Proofs.Catalog.Failures
import DecodeTrie.Proofs.Catalog.Numbering
import DecodeTrie.Proofs.Catalog.SizeCodes
import DecodeTrie.Proofs.Catalog.Steps
import DecodeTrie.Proofs.Catalog.Symbols
import DecodeTrie.Proofs.Catalog.WellFormed
import DecodeTrie.Proofs.Collapsing
import DecodeTrie.Proofs.Conflicts
import DecodeTrie.Proofs.Decoding
import DecodeTrie.Proofs.Detachment
import DecodeTrie.Proofs.Emission
import DecodeTrie.Proofs.Enumeration
import DecodeTrie.Proofs.Extensions
import DecodeTrie.Proofs.Flattening
import DecodeTrie.Proofs.Frames
import DecodeTrie.Proofs.Influence
import DecodeTrie.Proofs.Keys
import DecodeTrie.Proofs.Opcode.Canonical
import DecodeTrie.Proofs.Opcode.Drafts
import DecodeTrie.Proofs.Opcode.Grammar
import DecodeTrie.Proofs.Opcode.Words
import DecodeTrie.Proofs.Order
import DecodeTrie.Proofs.Ranges
import DecodeTrie.Proofs.Rejections
import DecodeTrie.Proofs.Render.Constants
import DecodeTrie.Proofs.Render.Items
import DecodeTrie.Proofs.Render.LeastNames
import DecodeTrie.Proofs.Render.Names
import DecodeTrie.Proofs.Render.Prefixes
import DecodeTrie.Proofs.Render.WordTable
import DecodeTrie.Proofs.Shape
import DecodeTrie.Proofs.Table.Layouts
import DecodeTrie.Proofs.Table.Lookups
import DecodeTrie.Proofs.Table.Renamed
import DecodeTrie.Proofs.Table.Runs
import DecodeTrie.Proofs.Table.Serialized
import DecodeTrie.Proofs.Table.Traces
import DecodeTrie.Proofs.Table.Visits
import DecodeTrie.Proofs.Table.Words
import DecodeTrie.Proofs.Tag.Masks
import DecodeTrie.Proofs.Tag.Members
import DecodeTrie.Proofs.Tag.ModeSets
import DecodeTrie.Proofs.Tag.Registries
import DecodeTrie.Proofs.Tag.Requests
import DecodeTrie.Proofs.Termination
import DecodeTrie.Proofs.Text.Literals
import DecodeTrie.Proofs.Trie.Apart
import DecodeTrie.Proofs.Trie.Cells
import DecodeTrie.Proofs.Trie.Claims
import DecodeTrie.Proofs.Trie.Columns
import DecodeTrie.Proofs.Trie.CopyRuns
import DecodeTrie.Proofs.Trie.Copying
import DecodeTrie.Proofs.Trie.Leaves
import DecodeTrie.Proofs.Trie.Links
import DecodeTrie.Proofs.Trie.Path
import DecodeTrie.Proofs.Trie.Placing
import DecodeTrie.Proofs.Trie.Renamings
import DecodeTrie.Proofs.Trie.Sharing
import DecodeTrie.Proofs.Trie.Visits
import DecodeTrie.Proofs.Trie.Walks
import DecodeTrie.Proofs.Trie.Writing
import DecodeTrie.Render.Module
import DecodeTrie.Table.Lookup
import DecodeTrie.Tag.ModeStep
import DecodeTrie.Tag.TagStep
import DecodeTrie.Trie.Walk
