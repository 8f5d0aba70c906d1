import Scim.Engine
import Scim.Patch.Journal
import Scim.Proofs.Filter.Canonical
import Scim.Proofs.Filter.Legality
import Scim.Proofs.Filter.Precedence
import Scim.Proofs.Patch.Deletion
import Scim.Proofs.Patch.Overlap
import Scim.Proofs.Patch.Selection
import Scim.Proofs.Patch.Frame
import Scim.Proofs.Patch.Merging
import Scim.Proofs.Patch.Assembly
import Scim.Proofs.Query.Rendering
import Scim.Proofs.Filter.Pairing
import Scim.Proofs.Filter.LevelTree
import Scim.Proofs.Filter.Recasing
import Scim.Proofs.Attribute.Walk
import Scim.Proofs.Patch.Filtering
import Scim.Proofs.Patch.Replacement
import Scim.Proofs.Patch.Referents
import Scim.Proofs.Filter.Grouping
import Scim.Proofs.Patch.Repetition
import Scim.Proofs.Patch.Bracketing
import Scim.Proofs.Filter.Conjunction
import Scim.Proofs.Patch.Criteria
import Scim.Proofs.Patch.Addition
import Scim.Proofs.Patch.Effect
import Scim.Proofs.Patch.Exchange
import Scim.Proofs.Patch.Overwriting
import Scim.Proofs.Patch.Indexing
import Scim.Proofs.Filter.Blame
import Scim.Proofs.Filter.Respelling
import Scim.Proofs.Filter.Relevance
import Scim.Proofs.Attribute.Composition
import Scim.Proofs.Query.Agreement
import Scim.Proofs.Query.Lines
import Scim.Proofs.Patch.Transmission
import Scim.Proofs.Patch.Escape
