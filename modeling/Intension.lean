import Intension.Text.Utf8
import Intension.Text.Basic
import Intension.Text.Quoted
import Intension.Number.Shortest
import Intension.Scalar
import Intension.Dimension
import Intension.Context.Order
import Intension.Context.Digest
import Intension.Patch.Compose
import Intension.Patch.Text
import Intension.Limits
import Intension.Grammar.Token
import Intension.Grammar.Lexing
import Intension.Grammar.Reading
import Intension.Json.Reading
import Intension.Json.Printing
import Intension.Context.Navigation
import Intension.Binary.Writer
import Intension.Binary.Reader
import Intension.Domain
import Intension.Json.Forms
import Intension.Main
import Intension.LiveTree.View
import Intension.LiveTree.Changing
import Intension.LiveTree.Observing
import Intension.Proofs.Keyed
import Intension.Proofs.Navigation
import Intension.Proofs.Congruence
import Intension.Proofs.Context.Label
import Intension.Proofs.Text.Offsets
import Intension.Proofs.Grammar.Places
import Intension.Proofs.Context.Shape
import Intension.Proofs.Context.Equality
import Intension.Proofs.Context.Order
import Intension.Proofs.Context.Refinement
import Intension.Proofs.Patch.Shape
import Intension.Proofs.Patch.Effect
import Intension.Proofs.Patch.Composition
import Intension.Proofs.Patch.Editing
import Intension.Proofs.Patch.Pruned
import Intension.Proofs.Patch.Equality
import Intension.Proofs.Patch.Spelling
import Intension.Proofs.Context.Spelling
import Intension.Proofs.Grammar.Shape
import Intension.Proofs.Binary.Shape
import Intension.Proofs.LiveTree.Shape
import Intension.Proofs.LiveTree.Snapshot
import Intension.Proofs.LiveTree.Content
import Intension.Proofs.LiveTree.Changing
import Intension.Proofs.LiveTree.Observing
import Intension.Proofs.Reachable
import Intension.Proofs.Built
import Intension.Proofs.Law
import Intension.Proofs.Orders
import Intension.Proofs.Monoid
import Intension.Proofs.LiveTree.Running
import Intension.Proofs.LiveTree.Telling
import Intension.Proofs.LiveTree.Following
import Intension.Proofs.Mirror
import Intension.Proofs.LiveTree.Scripts
import Intension.Proofs.LiveTree.Isolation
import Intension.Proofs.Nodes
import Intension.Proofs.Context.Counting
import Intension.Proofs.Patch.Counting
import Intension.Proofs.Patch.Tidy
import Intension.Proofs.LiveTree.Checking
import Intension.Proofs.LiveTree.Counting
import Intension.Proofs.Domain.Shape
import Intension.Proofs.Domain.Scan
import Intension.Proofs.Resolution
import Intension.Proofs.Text.Utf8
import Intension.Proofs.Text.Quoted
import Intension.Proofs.Binary.Transfer
import Intension.Proofs.Binary.Parts
import Intension.Proofs.Binary.RoundTrip
import Intension.Proofs.Grammar.Derivation
import Intension.Proofs.Grammar.Acceptance
import Intension.Proofs.Grammar.Agreement
import Intension.Proofs.Number.Rounding
import Intension.Proofs.Number.RoundTrip
import Intension.Proofs.Grammar.Cutting
import Intension.Proofs.Grammar.Spelling
import Intension.Proofs.Grammar.RoundTrip
import Intension.Proofs.LiveTree.Attachments
import Intension.Proofs.LiveTree.Rounds
import Intension.Proofs.Binary.PatchRoundTrip
import Intension.Proofs.Binary.Interoperation
import Intension.Proofs.Grammar.Stability
import Intension.Proofs.Patch.Normalizing
import Intension.Proofs.Patch.Settled
import Intension.Proofs.LiveTree.Conversion
import Intension.Proofs.Binary.Within
import Intension.Proofs.Grammar.Bounds
import Intension.Proofs.Locality
import Intension.Proofs.Idempotence
import Intension.Proofs.Shells
import Intension.Proofs.Binary.Truncation
import Intension.Proofs.Binary.Sequence
import Intension.Proofs.Binary.Places
import Intension.Proofs.Grammar.Slicing
import Intension.Proofs.ErrorPlaces
import Intension.Proofs.Grammar.Quotation
import Intension.Proofs.Grammar.Paths
import Intension.Proofs.Grammar.Extent
import Intension.Proofs.Grammar.Spacing
import Intension.Proofs.LiveTree.Respelling
