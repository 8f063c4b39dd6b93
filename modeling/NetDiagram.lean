import NetDiagram.Snapshot.Reader
import NetDiagram.Snapshot.Writer
import NetDiagram.Document.Export
import NetDiagram.Proofs.Json.Grammar
import NetDiagram.Proofs.Json.Paths
import NetDiagram.Proofs.Numeric.Rounding
import NetDiagram.Proofs.Network.Groups
import NetDiagram.Proofs.Snapshot.Acceptance
import NetDiagram.Proofs.Snapshot.Lookup
import NetDiagram.Proofs.Snapshot.Parts
import NetDiagram.Proofs.Snapshot.Contents
import NetDiagram.Proofs.Snapshot.RoundTrip
import NetDiagram.Proofs.Document.Tokens
import NetDiagram.Proofs.Document.Decoding
import NetDiagram.Proofs.Document.Guards
import NetDiagram.Proofs.Document.Placement
import NetDiagram.Proofs.Document.Calls
import NetDiagram.Proofs.Document.Collisions
import NetDiagram.Proofs.Document.SnapshotExport
import NetDiagram.Proofs.Document.Gaps
import NetDiagram.Proofs.Document.Nodes
import NetDiagram.Proofs.Document.Visible
import NetDiagram.Proofs.Document.Standalone
import NetDiagram.Proofs.Document.Representation
import NetDiagram.Proofs.Document.Endpoints
import NetDiagram.Proofs.Document.Logging
import NetDiagram.Proofs.Document.SharedWarnings
import NetDiagram.Proofs.Document.TemplateFaults
import NetDiagram.Proofs.Document.LinkLines
import NetDiagram.Proofs.Document.HopBlocks
import NetDiagram.Proofs.Document.Sizes
import NetDiagram.Proofs.Document.NameBreaks
import NetDiagram.Proofs.Snapshot.FaultPlaces
import NetDiagram.Proofs.Document.Coordinates
