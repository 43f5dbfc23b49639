import Flowgraph.Config.Record
import Flowgraph.Message
/-! Errors, statuses and completions: who receives them, and as what message. -/
namespace Flowgraph

/-- The node that raised a signal. -/
structure Origin where
  id : NodeId
  type : String
  name : Option String
  deriving DecidableEq, Repr, Inhabited

namespace Origin

def ofRecord (r : Record) : Origin := ⟨r.id, r.type, r.name?⟩

def fields (o : Origin) : List (String × Json) :=
  [("id", .str o.id), ("type", .str o.type), ("name", .ofOption (o.name.map .str))]

def toJson (o : Origin) : Json := Json.record o.fields

end Origin

/-! ## Receivers -/

def catchType : String := "catch"
def statusType : String := "status"
def completeType : String := "complete"

def isReceiverType (type : String) : Bool :=
  type == catchType || type == statusType || type == completeType

/-- A node that takes signals of its flow, of the nodes in its scope or of all. -/
structure Receiver where
  id : NodeId
  scope : Option (List NodeId)
  uncaught : Bool
  deriving DecidableEq, Repr

namespace Receiver

def ofRecord (r : Record) : Receiver where
  id := r.id
  scope := ((r.property? "scope").bind Json.asArr?).map (·.filterMap Json.asStr?)
  uncaught := ((r.property? "uncaught").bind Json.asBool?).getD false

/-- Whether the receiver listens to what is reported under an id. -/
def hears (r : Receiver) (reporting : NodeId) : Bool :=
  match r.scope with
  | some ids => ids.contains reporting
  | none => true

/-- Listed ids alone; an unscoped receiver lists none. -/
def lists (r : Receiver) (reporting : NodeId) : Bool :=
  match r.scope with
  | some ids => ids.contains reporting
  | none => false

/-- A receiver without scope that waits until no other has taken an error. -/
def isLastResort (r : Receiver) : Bool := r.scope.isNone && r.uncaught

end Receiver

/-- The receivers of one level of a flow. -/
structure Receivers where
  catchers : List Receiver
  statuses : List Receiver
  completes : List Receiver
  deriving DecidableEq, Repr, Inhabited

namespace Receivers

def none : Receivers := ⟨[], [], []⟩

/-- Those with a scope first, then those without, then the last resort; each group in order. -/
def tiers (rs : List Receiver) : List Receiver :=
  rs.filter (·.scope.isSome) ++ rs.filter (fun r => r.scope.isNone && !r.uncaught) ++
    rs.filter Receiver.isLastResort

def ofRecords (records : List Record) : Receivers :=
  let ofType (type : String) := (records.filter (·.type == type)).map Receiver.ofRecord
  ⟨tiers (ofType catchType), ofType statusType, ofType completeType⟩

def isEmpty (rs : Receivers) : Bool :=
  rs.catchers.isEmpty && rs.statuses.isEmpty && rs.completes.isEmpty

/-- One receiver after the other: a last resort is passed over if one before it takes the error, unless
that was itself a last resort. -/
def takeErrors (reporting : NodeId) :
    (taken : List NodeId) → (resorted : Bool) → List Receiver → List NodeId
  | taken, _, [] => taken
  | taken, resorted, r :: rest =>
    if !r.hears reporting then takeErrors reporting taken resorted rest
    else if r.isLastResort && !resorted then
      if taken.isEmpty then takeErrors reporting (taken ++ [r.id]) true rest
      else takeErrors reporting taken resorted rest
    else takeErrors reporting (taken ++ [r.id]) resorted rest

/-- The receivers of an error reported under an id. -/
def catchTargets (rs : Receivers) (reporting : NodeId) : List NodeId :=
  takeErrors reporting [] false rs.catchers

def statusTargets (rs : Receivers) (reporting : NodeId) : List NodeId :=
  (rs.statuses.filter (·.hears reporting)).map (·.id)

/-- Completions only reach receivers that list the node: one without scope would take those of the nodes
behind itself. -/
def completeTargets (rs : Receivers) (reporting : NodeId) : List NodeId :=
  (rs.completes.filter (·.lists reporting)).map (·.id)

end Receivers

/-! ## Signals as messages -/

/-- From this position on an error in a chain of errors of one node is dropped. -/
def errorLimit : UInt64 := 10

/-- The descriptor of the error a message carries. -/
def Message.errorSource? (m : Message) : Option Json :=
  (m.get? "error").bind (·.field? "source")

/-- The position of an error in a chain: one more than that of the error the message carries, if that is
of the same node. Positions are words of 64 bits. -/
def errorCount (origin : Origin) (about : Option Message) : UInt64 :=
  match about.bind Message.errorSource? with
  | some source =>
    if (source.field? "id").bind Json.asStr? == some origin.id then
      (match (source.field? "count").bind Json.asNat? with
        | some n => UInt64.ofNat n
        | none => 1) + 1
    else 1
  | none => 1

/-- The message a catch receiver gets: that which caused the error, with a descriptor of it. An error it
carries already is kept as `_error`. -/
def errorMessage (fresh : String) (origin : Origin) (text : String) (about : Option Message)
    (count : UInt64) : Message :=
  let m := about.getD (.empty fresh)
  let kept := match m.get? "error" with
    | some previous => (m.erase "error").insert "_error" previous
    | none => m
  kept.insert "error" <| Json.record [("message", .str text),
    ("source", Json.record (origin.fields ++ [("count", .nat count.toNat)]))]

/-- The message a status receiver gets. -/
def statusMessage (fresh : String) (origin : Origin) (status : Status) : Message :=
  (Message.empty fresh).insert "status" <|
    Json.record (status.fields ++ [("source", origin.toJson)])

/-- The status a message stands for at the status port of a subflow: its `status` if that has the form of
one, and its payload as text otherwise. -/
def Status.ofMessage (m : Message) : Status :=
  match (m.get? "status").bind Status.ofJson? with
  | some status => status
  | Option.none =>
    match m.payload? with
    | some (.str s) => .ofText s
    | some .null | Option.none => .none
    | some v => .ofText v.text

end Flowgraph
