import Flowgraph.Kind.Change
import Flowgraph.Kind.Convert
import Flowgraph.Kind.Debug
import Flowgraph.Kind.Delay
import Flowgraph.Kind.Fail
/-! The kinds of nodes that are always at hand. -/
namespace Flowgraph.Registry

def standard : Registry :=
  Dict.ofList [("debug", Debug.kind), ("delay", Delay.kind), ("json", Convert.kind),
    ("change", Change.kind), ("fail", Fail.kind)]

end Flowgraph.Registry
