import Flowgraph.Config.Record
/-! Which ids a node names in its properties. -/
namespace Flowgraph

namespace Json

mutual
/-- Every text inside a value, names of fields aside, in the order in which they stand. -/
def texts : Json → List String
  | .str s => [s]
  | .arr xs => textsOfItems xs
  | .obj xs => textsOfFields xs
  | _ => []
termination_by structural v => v

def textsOfItems : List Json → List String
  | [] => []
  | x :: xs => texts x ++ textsOfItems xs
termination_by structural xs => xs

def textsOfFields : List (String × Json) → List String
  | [] => []
  | (_, x) :: xs => texts x ++ textsOfFields xs
termination_by structural xs => xs
end

end Json

/-- Every text in the values of a node's properties. A node that holds another's id refers to it. -/
def Record.references (r : Record) : List String := Json.textsOfFields r.properties

/-- A node refers to another by its id; its own id is no reference. -/
def Record.refersTo (r : Record) (id : NodeId) : Bool := r.id != id && r.references.contains id

end Flowgraph
