import Stencil.Engine
import Stencil.Render.SettingsJson
import Stencil.Proofs.Document.Numbering
import Stencil.Proofs.Document.Edits
import Stencil.Proofs.Document.Walks
import Stencil.Proofs.Document.Forest
import Stencil.Proofs.Rendering.Siblings
import Stencil.Proofs.Rendering.Chains
import Stencil.Proofs.Rendering.Refinement
import Stencil.Proofs.Markup.Each
import Stencil.Proofs.Rendering.Static
import Stencil.Proofs.Rendering.Usages
import Stencil.Proofs.Rendering.NormalForm
import Stencil.Proofs.Markup.Cuts
import Stencil.Proofs.Markup.Reads
import Stencil.Proofs.Markup.Progress
import Stencil.Proofs.Markup.Legible
import Stencil.Proofs.Text.References
import Stencil.Proofs.Text.Decimals
import Stencil.Proofs.Markup.Attributes
import Stencil.Proofs.Markup.Canonical
import Stencil.Proofs.Markup.Respelling
import Stencil.Proofs.Markup.Stability
import Stencil.Proofs.Markup.Trimming
import Stencil.Proofs.Rendering.SettingsJson
import Stencil.Proofs.Rendering.Depth
import Stencil.Proofs.Markup.Locality
import Stencil.Proofs.Rendering.Locality
import Stencil.Proofs.Component.Filling
import Stencil.Proofs.Component.Escaping
import Stencil.Proofs.Component.Name
import Stencil.Proofs.Component.Entries
import Stencil.Proofs.Component.Registration
import Stencil.Proofs.Component.Wrapper
import Stencil.Proofs.Rendering.DeadBranches
import Stencil.Proofs.Rendering.Dangling
import Stencil.Proofs.Markup.Compaction
import Stencil.Proofs.Component.Relay
import Stencil.Proofs.Document.Splice
import Stencil.Proofs.Document.Appending
import Stencil.Proofs.Rendering.Alternatives
import Stencil.Proofs.Rendering.Termination
import Stencil.Proofs.Component.Ladder
import Stencil.Proofs.Document.Navigation
import Stencil.Proofs.Component.Definitions
import Stencil.Proofs.Document.Whitespace
import Stencil.Proofs.Markup.AttributeMap
import Stencil.Proofs.Markup.Soundness
import Stencil.Proofs.Markup.OpenElements
import Stencil.Proofs.Markup.Places
import Stencil.Proofs.Markup.Faults
import Stencil.Proofs.Markup.Located
import Stencil.Proofs.Markup.RawEnds
import Stencil.Proofs.Condition.Numerals
import Stencil.Proofs.Text.Search
import Stencil.Proofs.Condition.Signs
import Stencil.Proofs.Condition.Comparisons
import Stencil.Proofs.Component.Placeholders
import Stencil.Proofs.Component.Spelling
import Stencil.Proofs.Component.Supply
import Stencil.Proofs.Markup.StartTags
import Stencil.Proofs.Component.Asking
