import Flowgraph.Session
import Flowgraph.Kind.Probe
import Flowgraph.Main
import Flowgraph.Proofs.Accounting
import Flowgraph.Proofs.AllOrNothing
import Flowgraph.Proofs.Rewiring
import Flowgraph.Proofs.Difference
import Flowgraph.Proofs.Ordering
import Flowgraph.Proofs.Sameness
import Flowgraph.Proofs.Scenes
import Flowgraph.Proofs.Following
import Flowgraph.Proofs.Membership
import Flowgraph.Proofs.Unfolding
import Flowgraph.Proofs.Bookkeeping
import Flowgraph.Proofs.Stopped
import Flowgraph.Proofs.Suiting
import Flowgraph.Proofs.TemplateMarks
import Flowgraph.Proofs.Signals
import Flowgraph.Proofs.Activations
import Flowgraph.Proofs.Outcomes
import Flowgraph.Proofs.Protocol
import Flowgraph.Proofs.FlatGraph
import Flowgraph.Proofs.Loading
import Flowgraph.Proofs.Handing
import Flowgraph.Proofs.Fidelity
import Flowgraph.Proofs.StatusPorts
import Flowgraph.Proofs.Population
import Flowgraph.Proofs.Places
import Flowgraph.Proofs.Searching
import Flowgraph.Proofs.Transparency
import Flowgraph.Proofs.Inlining
import Flowgraph.Proofs.Nesting
import Flowgraph.Proofs.Settlement
import Flowgraph.Proofs.LastResort
import Flowgraph.Proofs.Copies
import Flowgraph.Proofs.Indifference
import Flowgraph.Proofs.Atomicity
import Flowgraph.Proofs.WiringHooks
import Flowgraph.Proofs.Disturbance
import Flowgraph.Proofs.LeastMarks
import Flowgraph.Proofs.Unchanged
import Flowgraph.Proofs.Overriding
import Flowgraph.Proofs.Folding
import Flowgraph.Proofs.Reordering
import Flowgraph.Proofs.Partition
import Flowgraph.Proofs.Failures
import Flowgraph.Proofs.ClosingOrder
import Flowgraph.Proofs.Delays
import Flowgraph.Proofs.ErrorChains
import Flowgraph.Proofs.LoopGuard
import Flowgraph.Proofs.PortNumbers
import Flowgraph.Proofs.Changing
import Flowgraph.Proofs.Tokens
import Flowgraph.Proofs.Rereading
import Flowgraph.Proofs.Shortcuts
import Flowgraph.Proofs.Seniority
import Flowgraph.Proofs.NumericText
