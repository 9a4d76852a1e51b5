import ResourceOrder.CommandLine.Run
import ResourceOrder.Files.Disk
import ResourceOrder.Main
import ResourceOrder.Proofs.Graph.CycleReport
import ResourceOrder.Proofs.Graph.Placement
import ResourceOrder.Proofs.Graph.Reordering
import ResourceOrder.Proofs.Manifest.Joining
import ResourceOrder.Proofs.Manifest.Writing
import ResourceOrder.Proofs.Graph.InputOrder
import ResourceOrder.Proofs.Resolution.Pipeline
import ResourceOrder.Proofs.Graph.Relaxation
import ResourceOrder.Proofs.Resolution.Inference
import ResourceOrder.Proofs.Resolution.Extraction
import ResourceOrder.Proofs.Manifest.Cutting
import ResourceOrder.Proofs.Manifest.Respacing
import ResourceOrder.Proofs.Graph.Drawing
import ResourceOrder.Proofs.Graph.Legibility
import ResourceOrder.Proofs.Manifest.Places
import ResourceOrder.Proofs.Manifest.Retelling
import ResourceOrder.Proofs.Manifest.Likeness
import ResourceOrder.Proofs.Manifest.LineBreaks
import ResourceOrder.Proofs.Manifest.SideBySide
import ResourceOrder.Proofs.Manifest.LineEndings
import ResourceOrder.Proofs.Graph.FirstFault
import ResourceOrder.Proofs.Graph.Insertion
import ResourceOrder.Proofs.Json.Interchange
import ResourceOrder.Proofs.Files.Following
import ResourceOrder.Proofs.Files.Discovery
import ResourceOrder.Proofs.Files.Manifests
import ResourceOrder.Proofs.Files.PathOrder
import ResourceOrder.Proofs.Files.Listing
import ResourceOrder.Proofs.Resolution.Configured
import ResourceOrder.Proofs.Digits
import ResourceOrder.Proofs.Manifest.Heads
import ResourceOrder.Proofs.Manifest.Covering
import ResourceOrder.Proofs.Manifest.WordArithmetic
import ResourceOrder.Proofs.Manifest.Literals
import ResourceOrder.Proofs.Manifest.Denotation
import ResourceOrder.Proofs.Manifest.Skips
import ResourceOrder.Proofs.Manifest.FaultKinds
import ResourceOrder.Proofs.Manifest.Bytes
import ResourceOrder.Proofs.Manifest.LongBrackets
import ResourceOrder.Proofs.Manifest.Extents
import ResourceOrder.Proofs.Manifest.Edges
import ResourceOrder.Proofs.Manifest.Declaring
import ResourceOrder.Proofs.Manifest.Accounting
import ResourceOrder.Proofs.Manifest.Frames
