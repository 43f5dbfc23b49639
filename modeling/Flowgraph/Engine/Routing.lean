import Flowgraph.Engine.Lookup
/-! Where signals go: to the receivers of the nearest level that has any for them. -/
namespace Flowgraph

/-- What a node raises beside the messages it sends. -/
inductive Signal
  | error (text : String) (about : Option Message)
  | status (status : Status)
  | complete (message : Message)

/-- The receivers of a level for a signal reported under an id. -/
def Receivers.targets (rs : Receivers) (reporting : NodeId) : Signal → List NodeId
  | .error .. => rs.catchTargets reporting
  | .status _ => rs.statusTargets reporting
  | .complete _ => rs.completeTargets reporting

/-- Whether a signal ends at a level because the template has a port of its own for it. -/
def LevelKind.intercepts : LevelKind → Signal → Bool
  | .expansion b, .status _ => b.interceptsStatus
  | .expansion b, .complete _ => b.interceptsComplete
  | _, _ => false

/-- The id under which a level reports to the one around it: that of the usage node. -/
def LevelKind.reportsAs (kind : LevelKind) (reporting : NodeId) : NodeId :=
  match kind with
  | .expansion b => b.usage.id
  | _ => reporting

/-- The end of a signal's way. -/
inductive Route
  /-- These receivers of a level take it. -/
  | taken (level : LevelKey) (receivers : List NodeId)
  /-- It ends at a port of an instance, where the template itself decides what goes on. -/
  | intercepted
  /-- No level takes it. -/
  | outside
  /-- A level on the way no longer exists. -/
  | lost
  deriving DecidableEq, Repr

namespace Engine

def routeFrom (e : Engine) (signal : Signal) :
    (fuel : Nat) → LevelKey → (reporting : NodeId) → Route
  | 0, _, _ => .lost
  | fuel + 1, k, reporting =>
    match e.level? k with
    | none => .lost
    | some l =>
      match l.receivers.targets reporting signal with
      | [] =>
        if l.kind.intercepts signal then .intercepted
        else match l.parent with
          | none => .outside
          | some p =>
            if e.hasLevel p then routeFrom e signal fuel p (l.kind.reportsAs reporting) else .lost
      | receivers => .taken k receivers

/-- The way of a signal from a level outward. -/
def route (e : Engine) (k : LevelKey) (origin : Origin) (signal : Signal) : Route :=
  e.routeFrom signal e.levelCount k origin.id

/-- Whether an error is one too many in a chain of errors of one node. -/
def loops (origin : Origin) : Signal → Bool
  | .error _ about => errorLimit ≤ errorCount origin about
  | _ => false

/-- The message a receiver gets. -/
def signalMessage (fresh : String) (origin : Origin) : Signal → Message
  | .error text about => errorMessage fresh origin text about (errorCount origin about)
  | .status status => statusMessage fresh origin status
  | .complete m => m

/-- Each receiver gets a message of its own. -/
def signalMessages (e : Engine) (k : LevelKey) (origin : Origin) (signal : Signal)
    (receivers : List NodeId) : List Action :=
  receivers.zipIdx.map fun (id, i) =>
    .handAt k id (signalMessage (Message.idText (e.nextMessage + i)) origin signal)

/-- What becomes of a signal that no level takes. -/
def leave (e : Engine) (origin : Origin) (signal : Signal) : Engine :=
  match e.outside, signal with
  | .standalone, .error text about => e.note [.errorLeft origin text about]
  | .standalone, .status status => e.note [.statusLeft origin status]
  | .standalone, .complete m => e.note [.completeLeft origin m]
  | .shared, .error text _ => e.publish (.unhandledError origin.id text)
  | .shared, _ => e

/-- Raises a signal at a level, and tells whether a level takes it. -/
def raise (e : Engine) (k : LevelKey) (origin : Origin) (signal : Signal) : Engine × Bool :=
  if loops origin signal then (e, false)
  else match e.route k origin signal with
    | .taken level receivers =>
      (({ e with nextMessage := e.nextMessage + receivers.length } : Engine).push
        (e.signalMessages level origin signal receivers), true)
    | .outside => (e.leave origin signal, false)
    | .intercepted | .lost => (e, false)

end Engine
end Flowgraph
