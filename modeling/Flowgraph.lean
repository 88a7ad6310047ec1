import Flowgraph.Graph.Build
import Flowgraph.Graph.Merged
import Flowgraph.Mermaid.Picture
import Flowgraph.Proofs.Dispatch
import Flowgraph.Proofs.LiveCode
import Flowgraph.Proofs.Marking
import Flowgraph.Proofs.Merging
import Flowgraph.Proofs.Observing
import Flowgraph.Proofs.Partition
import Flowgraph.Proofs.Path
import Flowgraph.Proofs.Placement
import Flowgraph.Proofs.Reducible
import Flowgraph.Proofs.Rendering
import Flowgraph.Proofs.Replay
import Flowgraph.Proofs.Terminals
import Flowgraph.Proofs.Totality
import Flowgraph.Source.Definition
import Flowgraph.Proofs.Departure
import Flowgraph.Proofs.Irrefutable
import Flowgraph.Proofs.NodeRegions
import Flowgraph.Proofs.Portrait
import Flowgraph.Proofs.Leading
import Flowgraph.Proofs.Laminar
import Flowgraph.Proofs.Flattening
import Flowgraph.Proofs.Connecting
import Flowgraph.Proofs.Reachability
import Flowgraph.Proofs.MarkerGrammar
import Flowgraph.Proofs.Quoting
