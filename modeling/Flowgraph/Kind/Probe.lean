import Flowgraph.Kind.Standard
/-! Instrumented nodes. They note each hook that is called, and then do what is needed to bring the engine
into every situation: fail, defer, report, close slowly or not at all. -/
namespace Flowgraph.Probe

/-- A number of milliseconds, or of a port. -/
def amount (r : Record) (key : String) : Nat := ((r.property? key).bind Json.asNat?).getD 0

def textOr (r : Record) (key missing : String) : String :=
  ((r.property? key).bind Json.asStr?).getD missing

def word (r : Record) (key : String) : String := textOr r key ""

/-- A node that notes its hooks. -/
def noting (r : Record) (onInput : Situation → Message → Reaction) : Behaviour where
  type := r.type
  onStart := [.note (.started r.id)]
  onInput now m :=
    let reaction := onInput now m
    { reaction with effects := .note (.received r.id m) :: reaction.effects }
  onRewire wires := [.rewired r.id wires]
  onClose removed := ([.closing r.id removed], .signalled (.ok ()))

def forwarding (r : Record) : Behaviour := noting r fun _ m => .forward 0 m

def made (r : Record) (b : Behaviour) : Creation := .made b [.created r.id]

/-! ## Handling messages -/

/-- Effects that do not keep the message from being passed on. -/
def alongside (effects : Message → List Effect) (_ : Situation) (m : Message) : Reaction :=
  ⟨[], effects m ++ [.send 0 m], .handled⟩

def failing (fault : NodeFault) (_ : Situation) (_ : Message) : Reaction := .fail fault

/-- The fault a record asks for. -/
def faultOf (r : Record) : NodeFault :=
  let text := textOr r "text" "boom"
  match word r "kind" with
  | "unknown" => .unknownType text
  | "construction" => .construction text
  | "configuration" => .configuration text
  | "close" => .close text
  | "timeout" => .closeTimeout (amount r "ms")
  | _ => .executionFailed text

def payloadText (m : Message) : String := (m.payload?.map Json.plainText).getD ""

/-- Adds a property's value and that of a setting to the message. -/
def environment (r : Record) (now : Situation) (m : Message) : Reaction :=
  .forward 0 ((m.insert "value" (.ofOption (r.property? "value"))).insert "setting"
    (.ofOption (now.setting (word r "lookup"))))

/-- Adds what a node knows of itself to the message. A node that handles a message has not been told to
stop, and has not yet deferred it. -/
def information (r : Record) (_ : Situation) (m : Message) : Reaction :=
  .forward (amount r "port") <| m.insert "info" <| Json.record
    [("id", .str r.id), ("type", .str r.type), ("name", .ofOption (r.name?.map .str)),
      ("input", .bool true), ("cancelled", .bool false), ("deferred", .bool false)]

/-- Each element of the payload goes to the port of its place. -/
def spread (_ : Situation) (m : Message) : Reaction :=
  let items := (m.payload?.bind Json.asArr?).getD []
  ⟨[], (items.zipIdx.filter fun (v, _) => v != .null).map fun (v, i) =>
    .send i (m.insert "payload" v), .handled⟩

/-- Finishes with the message later, stopped or not. -/
def postpone (r : Record) (_ : Situation) (m : Message) : Reaction :=
  let ends := match word r "outcome" with
    | "fail" => [Effect.error (textOr r "text" "late") (some m)]
    | "drop" => []
    | _ => [.send 0 m, .complete m]
  ⟨[{ wait := .time (amount r "ms"), abandons := false
      resume := fun cancelled => .note (.resumed r.id cancelled) :: ends }], [], .deferred⟩

/-! ## Starting and closing -/

/-- Signals something as soon as it starts. -/
def announcing (r : Record) : Behaviour :=
  let text := textOr r "text" "hello"
  let m : Message := ⟨[("_msgid", .str "start"), ("payload", .str text)]⟩
  let effect := match word r "action" with
    | "status" => Effect.status (.ofText text)
    | "error" => .error text none
    | "complete" => .complete m
    | _ => .send 0 m
  { forwarding r with onStart := [.note (.started r.id), effect] }

/-- Closes after a while, as its mode says. -/
def closingLate (r : Record) : Behaviour :=
  let result : CloseResult := match word r "mode" with
    | "fail" => .error (.close (textOr r "text" "stuck"))
    | _ => .ok ()
  { forwarding r with
    onClose := fun removed => ([.closing r.id removed], .later
      { wait := .time (amount r "closeDelay"), abandons := false
        resume := fun _ => [.note (.closed r.id), .closed result] }) }

/-- Closes at once, as its mode says. -/
def closingAtOnce (r : Record) : Behaviour :=
  let answer : CloseAnswer := match word r "mode" with
    | "fail" => .signalled (.error (.close (textOr r "text" "stuck")))
    | "execution" => .signalled (.error (.executionFailed (textOr r "text" "stuck")))
    | "panic" => .panicked
    | "hang" => .never
    | _ => .signalled (.ok ())
  { forwarding r with onClose := fun removed => ([.closing r.id removed], answer) }

/-! ## The kinds -/

def kindOf (create : Record → Creation) : Kind := ⟨.unspecified, create⟩

def handling (onInput : Record → Situation → Message → Reaction) : Kind :=
  kindOf fun r => made r (noting r (onInput r))

def kinds : List (String × Kind) :=
  [("test", kindOf fun r => made r (forwarding r)),
   ("testConfig", kindOf fun r => made r (forwarding r)),
   ("testAsync", kindOf fun r => made r (closingLate r)),
   ("testClose", kindOf fun r => made r (closingAtOnce r)),
   ("testStart", kindOf fun r => made r (announcing r)),
   ("testReject", kindOf fun r =>
      if r.flag "reject" then .refused (.configuration "rejected") else made r (forwarding r)),
   ("testError", handling fun r => failing (.executionFailed (textOr r "text" "boom"))),
   ("testKind", handling fun r => failing (faultOf r)),
   ("testPanicInput", handling fun _ => failing inputPanic),
   ("testSoft", handling fun r => alongside fun m => [.error (textOr r "text" "soft") (some m)]),
   ("testStatus", handling fun _ => alongside fun m => [.status (.ofText (payloadText m))]),
   ("testEnv", handling environment),
   ("testInfo", handling information),
   ("testPorts", handling fun _ => spread),
   ("testDefer", handling postpone),
   ("testFail", kindOf fun _ => .refused (.construction "refused")),
   ("testPanic", kindOf fun _ => .panicked (some "factory exploded")),
   ("testPanicString", kindOf fun r => .panicked (some ("factory exploded for " ++ r.id))),
   ("testPanicOther", kindOf fun _ => .panicked none)]

end Flowgraph.Probe

namespace Flowgraph.Registry

/-- The standard kinds and the instrumented ones. -/
def instrumented : Registry := Dict.ofList (standard ++ Probe.kinds)

end Flowgraph.Registry
