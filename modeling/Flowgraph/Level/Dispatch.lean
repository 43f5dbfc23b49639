import Flowgraph.Config.Record
/-! Where the output ports of a node lead. -/
namespace Flowgraph

/-- One end of a wire. Nodes have a single input, which is port zero. -/
structure Target where
  node : NodeId
  port : Nat
  deriving DecidableEq, Repr

/-- For each output port its targets, in the order of the wiring. -/
structure Dispatch where
  ports : List (List Target)
  deriving DecidableEq, Repr, Inhabited

namespace Dispatch

def ofWires (wires : Wires) : Dispatch := ⟨wires.map (·.map fun id => ⟨id, 0⟩)⟩

/-- The targets of a port; a port that is not wired has none. -/
def targets (d : Dispatch) (port : Nat) : List Target := d.ports[port]?.getD []

def portCount (d : Dispatch) : Nat := d.ports.length

def isEmpty (d : Dispatch) : Bool := d.ports.all (·.isEmpty)

def toWires (d : Dispatch) : Wires := d.ports.map (·.map (·.node))

theorem toWires_ofWires (wires : Wires) : (ofWires wires).toWires = wires := by
  simp [ofWires, toWires, Function.comp_def]

end Dispatch
end Flowgraph
